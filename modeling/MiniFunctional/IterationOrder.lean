-- Hash maps are iterated in some order, and each time in an order of its own.
-- Nothing depends on it but the order of the last diagnostics.
import MiniFunctional.InterpreterSafety
import MiniFunctional.LlvmIr
import MiniFunctional.TypeReports

open mf.util mf.ast mf.parsing mf.tokenization

namespace mf.semantics

open StateOption ScopeTree TypeAnalyzer

/-! ## The analyzer with other orders -/

/-- An order for the entries of each hash map. -/
structure IterationOrder (β : Type) where
  run : AssocMap SymbolId β → AssocMap SymbolId β
  perm : ∀ m, (run m).entries.Perm m.entries

/-- The orders of the four loops over hash maps. -/
structure HashOrders where
  symbol_types : IterationOrder TypeId
  constructor_signatures : IterationOrder InternalConstructorSignature
  function_signatures : IterationOrder InternalFunctionSignature
  result_signatures : IterationOrder FunctionSignature

namespace HashOrders

/-- The orders that `analyzeTypes` takes. -/
def entries : HashOrders :=
  ⟨⟨id, fun _ => .refl _⟩, ⟨id, fun _ => .refl _⟩, ⟨id, fun _ => .refl _⟩, ⟨id, fun _ => .refl _⟩⟩

/-- Each map from its last entry to its first. -/
def reversed : HashOrders :=
  let reverse {β : Type} : IterationOrder β :=
    ⟨fun m => ⟨m.entries.reverse, by simpa using m.nodup⟩, fun m => m.entries.reverse_perm⟩
  ⟨reverse, reverse, reverse, reverse⟩

def reorder (o : HashOrders) (st : TypeAnalyzer) : TypeAnalyzer := { st with
  symbol_types := o.symbol_types.run st.symbol_types
  constructor_signatures := o.constructor_signatures.run st.constructor_signatures
  function_signatures := o.function_signatures.run st.function_signatures }

def reorderResult (o : HashOrders) (st : TypeAnalyzer) : TypeAnalyzer := { st with
  result.types.function_signatures := o.result_signatures.run st.result.types.function_signatures }

end HashOrders

/-- The passes of the analyzer, with the maps in the given orders when they are
iterated. -/
def analyzeProgramIn (o : HashOrders) (scopes : ScopeTree) (program : Program) :
    Option TypeAnalysisResult :=
  (inferProgram scopes program .initial).bind fun inferred =>
    (finalizeTypes scopes (o.reorder inferred.2.1)).bind fun finalized =>
      (checkFunctionRestrictions scopes (o.reorderResult finalized.2.1)).map (·.2.1.result)

def analyzeTypesIn (o : HashOrders) (parsed : ParsedProgram) (analysis : AnalysisResult) :
    Option TypeAnalysisResult :=
  if analysis.ok then analyzeProgramIn o analysis.scopes parsed.ast
  else some { TypeAnalyzer.initial.result with diagnostics := analysis.diagnostics }

theorem map_bind_run {α β γ : Type} (m : AnalyzerM α) (f : α → AnalyzerM β) (st : TypeAnalyzer)
    (g : TypeAnalyzer → γ) : ((m >>= f) st).map (fun r => g r.2.1) =
      (m st).bind fun r => (f r.1 r.2.1).map fun r' => g r'.2.1 := by
  show (StateOption.bind m f st).map _ = _
  unfold StateOption.bind
  cases m st with
  | none => rfl
  | some r =>
    obtain ⟨a, st', visited⟩ := r
    simp only [Option.bind_some]
    cases f a st' with
    | none => rfl
    | some r' => rfl

theorem analyzeTypesIn_entries (parsed : ParsedProgram) (analysis : AnalysisResult) :
    analyzeTypesIn .entries parsed analysis = analyzeTypes parsed analysis := by
  have hprogram : analyzeProgramIn .entries analysis.scopes parsed.ast =
      (TypeAnalyzer.analyze analysis.scopes parsed.ast .initial).map (·.2.1.result) := by
    rw [TypeAnalyzer.analyze_eq, map_bind_run]
    simp only [map_bind_run]
    rfl
  unfold analyzeTypesIn analyzeTypes
  rw [hprogram]

/-! ## What the order is for a map -/

section

variable {α β : Type} [DecidableEq α] {m m' : AssocMap α β}

theorem find_of_perm (h : m.entries.Perm m'.entries) (key : α) : m.find key = m'.find key := by
  ext value
  rw [AssocMap.find_eq_some_iff, AssocMap.find_eq_some_iff]
  exact h.mem_iff

theorem perm_of_find (h : ∀ key, m.find key = m'.find key) : m.entries.Perm m'.entries := by
  rw [List.perm_ext_iff_of_nodup m.nodup.of_map m'.nodup.of_map]
  rintro ⟨key, value⟩
  rw [← AssocMap.find_eq_some_iff, ← AssocMap.find_eq_some_iff, h key]

end

namespace HashOrders

variable {t : ScopeTree} {st : TypeAnalyzer} (o : HashOrders)

theorem reorder_symbol_types (s : SymbolId) :
    (o.reorder st).symbol_types.find s = st.symbol_types.find s :=
      find_of_perm (o.symbol_types.perm _) s

theorem reorder_constructor_signatures (c : SymbolId) :
    (o.reorder st).constructor_signatures.find c = st.constructor_signatures.find c :=
  find_of_perm (o.constructor_signatures.perm _) c

theorem reorder_function_signatures (f : SymbolId) :
    (o.reorder st).function_signatures.find f = st.function_signatures.find f :=
  find_of_perm (o.function_signatures.perm _) f

theorem reorder_valid (h : st.Valid t) : (o.reorder st).Valid t := by
  refine ⟨h.acyclic, h.named, fun s id hs => ?_, fun c signature hc => ?_, fun f signature hf => ?_⟩
  · rw [reorder_symbol_types] at hs
    exact h.symbols s id hs
  · rw [reorder_constructor_signatures] at hc
    obtain ⟨hfields, hdata, id, hid⟩ := h.constructors c signature hc
    exact ⟨hfields, hdata, id, by rw [reorder_symbol_types, hid]⟩
  · rw [reorder_function_signatures] at hf
    obtain ⟨hparameters, hresult, ⟨id, hid⟩, hglobal⟩ := h.functions f signature hf
    exact ⟨hparameters, hresult, ⟨id, by rw [reorder_symbol_types, hid]⟩, hglobal⟩

end HashOrders

/-! ## Two orders -/

/-- The tables have the same signatures. -/
structure TypeTable.Same (types types' : TypeTable) : Prop where
  constructors : ∀ c, types'.getConstructorSignature c = types.getConstructorSignature c
  functions : ∀ f, types'.getFunctionSignature f = types.getFunctionSignature f

/-- The results of two orders: the same signatures, and the same diagnostics, of
which those after inference may be in another order. -/
structure SameResults (parsed : ParsedProgram) (analysis : AnalysisResult)
    (result result' : TypeAnalysisResult) : Prop where
  types : result.types.Same result'.types
  diagnostics : ∃ inferred late late', inferenceDiagnostics parsed analysis = some inferred ∧
    result.diagnostics = inferred ++ late ∧ result'.diagnostics = inferred ++ late' ∧
    late'.Perm late

/-- Two orders report something or nothing alike. -/
theorem SameResults.ok {parsed : ParsedProgram} {analysis : AnalysisResult}
    {result result' : TypeAnalysisResult} (h : SameResults parsed analysis result result') :
    result'.ok = result.ok := by
  obtain ⟨inferred, late, late', _, hd, hd', hperm⟩ := h.diagnostics
  unfold TypeAnalysisResult.ok
  rw [hd, hd', Bool.eq_iff_iff]
  simp only [List.isEmpty_iff, List.append_eq_nil_iff]
  refine and_congr_right fun _ => ?_
  constructor
  · rintro rfl
    exact hperm.symm.eq_nil
  · rintro rfl
    exact hperm.eq_nil

/-- What an order leaves of the state after inference. -/
structure ResultOf (t : ScopeTree) (st : TypeAnalyzer) (result : TypeAnalysisResult) : Prop where
  constructors : ∀ c signature, result.types.getConstructorSignature c = some signature ↔
    ∃ internal, st.constructor_signatures.find c = some internal ∧
      ConstructorSettled st.types internal signature
  functions : ∀ f signature, result.types.getFunctionSignature f = some signature ↔
    ∃ internal, st.function_signatures.find f = some internal ∧
      FunctionSettled st.types internal signature
  diagnostics : ∃ late, result.diagnostics = st.diagnostics ++ late ∧
    late.Perm (st.symbol_types.entries.flatMap (openReports t st.types) ++
      result.types.function_signatures.entries.flatMap (restrictionsOf t))

theorem ResultOf.same {parsed : ParsedProgram} {analysis : AnalysisResult} {st : TypeAnalyzer}
    {result result' : TypeAnalysisResult}
    (hinferred : inferenceDiagnostics parsed analysis = some st.diagnostics)
    (h : ResultOf analysis.scopes st result) (h' : ResultOf analysis.scopes st result') :
    SameResults parsed analysis result result' := by
  have hconstructors : ∀ c, result'.types.getConstructorSignature c =
      result.types.getConstructorSignature c := by
    intro c
    ext signature
    rw [h.constructors, h'.constructors]
  have hfunctions : ∀ f, result'.types.getFunctionSignature f =
      result.types.getFunctionSignature f := by
    intro f
    ext signature
    rw [h.functions, h'.functions]
  obtain ⟨late, hlate, hperm⟩ := h.diagnostics
  obtain ⟨late', hlate', hperm'⟩ := h'.diagnostics
  refine ⟨⟨hconstructors, hfunctions⟩, st.diagnostics, late, late', hinferred, hlate, hlate', ?_⟩
  have hentries := (perm_of_find hfunctions).flatMap_right (restrictionsOf analysis.scopes)
  exact hperm'.trans ((hentries.append_left _).trans hperm.symm)

section

variable {t : ScopeTree} {program : Program} (hscoped : t.ProgramScoped program)

include hscoped

theorem analyzeProgramIn_spec {st : TypeAnalyzer}
    (hrun : Runs (inferProgram t program) .initial ⟨⟩ st) (o : HashOrders) :
    ∃ result, analyzeProgramIn o t program = some result ∧ ResultOf t st result := by
  have h := (inferProgram_spec hscoped).of_runs hrun
  obtain ⟨visited, hinferred⟩ := hrun
  have hvalid : (o.reorder st).Valid t := o.reorder_valid h.step.valid
  obtain ⟨_, st1, _, hfinalize, _, hfinal⟩ := finalizeTypes_spec hvalid h.step.table
  have hsymbols : ∀ f signature,
      (o.reorderResult st1).result.types.function_signatures.find f = some signature →
      ∃ symbol, t.getSymbol f = some symbol := by
    intro f signature hf
    have hfind := find_of_perm (o.result_signatures.perm st1.result.types.function_signatures) f
    exact hfinal.symbol (o.reorder_valid h.step.valid) (hfind.symm.trans hf)
  obtain ⟨_, st2, _, hcheck, _, hreports, htable⟩ := checkFunctionRestrictions_reports hsymbols
  refine ⟨st2.result, ?_, ?_⟩
  · unfold analyzeProgramIn
    simp only [hinferred, hfinalize, hcheck, Option.bind_some, Option.map_some]
  · constructor
    · intro c signature
      unfold TypeTable.getConstructorSignature
      rw [htable]
      refine (hfinal.constructors c signature).trans ?_
      rw [o.reorder_constructor_signatures]
      rfl
    · intro f signature
      unfold TypeTable.getFunctionSignature
      rw [htable]
      have hfind := find_of_perm (o.result_signatures.perm st1.result.types.function_signatures) f
      refine (Eq.congr_left hfind).trans ((hfinal.functions f signature).trans ?_)
      rw [o.reorder_function_signatures]
      rfl
    · let opened := (o.symbol_types.run st.symbol_types).entries.flatMap (openReports t st.types)
      let restricted := (o.reorderResult st1).result.types.function_signatures.entries
      refine ⟨opened ++ restricted.flatMap (restrictionsOf t), ?_, ?_⟩
      · refine hreports.trans ?_
        have hdiagnostics : (o.reorderResult st1).diagnostics = st.diagnostics ++ opened :=
          hfinal.reports
        rw [hdiagnostics, List.append_assoc]
      · have hopen := (o.symbol_types.perm st.symbol_types).flatMap_right (openReports t st.types)
        rw [htable]
        exact hopen.append_right _

end

variable {tokens : TokenVector} {p : ParsedProgram}

theorem analyzeTypesIn_same (hl : tokens.Lexed) (hp : parse tokens = .ok p) (o : HashOrders) :
    ∃ result result', analyzeTypes p (analyze p) = some result ∧
      analyzeTypesIn o p (analyze p) = some result' ∧
      SameResults p (analyze p) result result' := by
  rw [← analyzeTypesIn_entries]
  unfold analyzeTypesIn
  by_cases hok : (analyze p).ok = true
  · rw [if_pos hok, if_pos hok]
    have hscoped := analyze_scoped hl hp hok
    obtain ⟨_, st, hrun, _⟩ := (inferProgram_spec hscoped).run
    obtain ⟨result, hresult, h⟩ := analyzeProgramIn_spec hscoped hrun .entries
    obtain ⟨result', hresult', h'⟩ := analyzeProgramIn_spec hscoped hrun o
    exact ⟨result, result', hresult, hresult',
      h.same (inferenceDiagnostics_of_runs hok hrun) h'⟩
  · rw [if_neg hok, if_neg hok]
    have hinferred : inferenceDiagnostics p (analyze p) = some (analyze p).diagnostics := if_neg hok
    exact ⟨_, _, rfl, rfl, ⟨fun _ => rfl, fun _ => rfl⟩, _, [], [], hinferred,
      (List.append_nil _).symm, (List.append_nil _).symm, .refl _⟩

end mf.semantics

namespace mf.visitors

open mf.semantics

/-! ## What the back ends look up -/

section

variable {scopes : ScopeTree} {types types' : TypeTable} (h : types.Same types')

include h

theorem constructorArity_sameTypes (symbol : Symbol) :
    constructorArity symbol types' = constructorArity symbol types := by
  unfold constructorArity
  rw [h.constructors]

theorem evaluate_sameTypes (e : Expression) (env : Environment Int32) :
    evaluate scopes types' e env = evaluate scopes types e env := by
  induction e generalizing env with
  | IntLiteral id value => rfl
  | Variable id name =>
    simp only [evaluate]
    unfold evaluateVariable
    simp only [constructorArity_sameTypes h]
  | BinaryOperator kind id l r ihl ihr => simp only [evaluate, ihl, ihr]
  | Application id f a ihf iha => simp only [evaluate, ihf, iha]
  | CaseExpression id s bs ihs ihbs =>
    have hbranches : ∀ value, evaluateBranches scopes types' bs value env =
        evaluateBranches scopes types bs value env := by
      intro value
      clear ihs
      induction bs with
      | nil => rfl
      | cons b bs ih =>
        obtain ⟨bid, pattern, body⟩ := b
        have hbody := ihbs _ List.mem_cons_self
        have hrest := ih fun b hb => ihbs b (List.mem_cons_of_mem _ hb)
        simp only [evaluateBranches, hbody, hrest]
    simp only [evaluate, ihs, hbranches]

theorem evaluateMain_sameTypes (parsed : ParsedProgram) (analysis : AnalysisResult) :
    evaluateMain parsed analysis types' = evaluateMain parsed analysis types := by
  unfold evaluateMain
  simp only [evaluate_sameTypes h]

variable {functions_ : AssocMap SymbolId Nat} {constructors_ : AssocMap SymbolId ConstructorLayout}

theorem emitCall_sameTypes (id : NodeId) (name : String) (arguments : List (Gen TypedValue)) :
    emitCall scopes types' functions_ constructors_ id name arguments =
      emitCall scopes types functions_ constructors_ id name arguments := by
  unfold emitCall emitFunctionCall
  simp only [h.functions]

/-- Emission of an expression, and of an application of it. -/
theorem emitExpression_sameTypes (e : Expression) :
    emitExpression scopes types' functions_ constructors_ e =
        emitExpression scopes types functions_ constructors_ e ∧
      ∀ arguments, emitApplication scopes types' functions_ constructors_ e arguments =
        emitApplication scopes types functions_ constructors_ e arguments := by
  induction e with
  | IntLiteral id value => exact ⟨rfl, fun _ => rfl⟩
  | Variable id name => exact ⟨rfl, fun arguments => emitCall_sameTypes h id name arguments⟩
  | BinaryOperator kind id l r ihl ihr =>
    refine ⟨?_, fun _ => rfl⟩
    simp only [emitExpression, ihl.1, ihr.1]
  | Application id f a ihf iha =>
    constructor
    · simp only [emitExpression, iha.1, ihf.2]
    · intro arguments
      simp only [emitApplication, iha.1, ihf.2]
  | CaseExpression id s bs ihs ihbs =>
    have hswitch : ∀ scrutinee switch_block merge_block incoming,
        emitSwitchBranches scopes types' functions_ constructors_ bs scrutinee switch_block
            merge_block incoming =
          emitSwitchBranches scopes types functions_ constructors_ bs scrutinee switch_block
            merge_block incoming := by
      intro scrutinee switch_block merge_block incoming
      clear ihs
      induction bs generalizing incoming with
      | nil => rfl
      | cons b bs ih =>
        obtain ⟨bid, pattern, body⟩ := b
        have hbody := (ihbs _ List.mem_cons_self).1
        have hrest := ih fun b hb => ihbs b (List.mem_cons_of_mem _ hb)
        cases pattern with
        | VariablePattern id name => rfl
        | ConstructorPattern id name arguments => simp only [emitSwitchBranches, hbody, hrest]
    have hsequential : ∀ scrutinee merge_block incoming,
        emitSequentialBranches scopes types' functions_ constructors_ bs scrutinee merge_block
            incoming =
          emitSequentialBranches scopes types functions_ constructors_ bs scrutinee merge_block
            incoming := by
      intro scrutinee merge_block incoming
      clear ihs hswitch
      induction bs generalizing incoming with
      | nil => rfl
      | cons b bs ih =>
        obtain ⟨bid, pattern, body⟩ := b
        have hbody := (ihbs _ List.mem_cons_self).1
        have hrest := ih fun b hb => ihbs b (List.mem_cons_of_mem _ hb)
        cases pattern with
        | VariablePattern id name => simp only [emitSequentialBranches, hbody]
        | ConstructorPattern id name arguments =>
          simp only [emitSequentialBranches, hbody, hrest]
    refine ⟨?_, fun _ => rfl⟩
    simp only [emitExpression, ihs.1, hswitch, hsequential]

theorem registerConstructors_sameTypes (program : Program) :
    registerConstructors scopes types' program = registerConstructors scopes types program := by
  have hconstructor : ∀ data_symbol, registerConstructor scopes types' data_symbol =
      registerConstructor scopes types data_symbol := by
    intro data_symbol
    funext s constructor
    unfold registerConstructor
    simp only [h.constructors]
  have hdata : registerDataType scopes types' = registerDataType scopes types := by
    funext s d
    cases d with
    | FunctionDefinition fd => rfl
    | DataTypeDefinition dt =>
      unfold registerDataType
      simp only [hconstructor]
  unfold registerConstructors
  rw [hdata]

theorem declareFunctions_sameTypes (program : Program) :
    declareFunctions scopes types' program = declareFunctions scopes types program := by
  have hdeclare : declareFunction scopes types' = declareFunction scopes types := by
    funext s d
    cases d with
    | DataTypeDefinition dt => rfl
    | FunctionDefinition fd =>
      unfold declareFunction
      simp only [h.functions]
  unfold declareFunctions
  rw [hdeclare]

theorem defineFunctions_sameTypes (definitions : List Definition) :
    defineFunctions scopes types' functions_ constructors_ definitions =
      defineFunctions scopes types functions_ constructors_ definitions := by
  have hdefine : ∀ fd, defineFunction scopes types' functions_ constructors_ fd =
      defineFunction scopes types functions_ constructors_ fd := by
    intro fd
    unfold defineFunction emitFunctionBody
    simp only [h.functions, (emitExpression_sameTypes h fd.body).1]
  induction definitions with
  | nil => rfl
  | cons d definitions ih =>
    cases d with
    | DataTypeDefinition dt => exact ih
    | FunctionDefinition fd =>
      unfold defineFunctions
      rw [hdefine, ih]

omit h in
theorem generateModule_sameTypes (h : types.Same types') (program : Program) :
    generateModule program scopes types' = generateModule program scopes types := by
  unfold generateModule defineMain
  simp only [registerConstructors_sameTypes h, declareFunctions_sameTypes h,
    defineFunctions_sameTypes h, h.functions]

end

/-! ## The back ends with other orders -/

/-- `interpret`, with the maps in the given orders when types are analyzed. -/
def interpretIn (o : HashOrders) (parsed : ParsedProgram) :
    Option (Except InterpretError (Value Int32)) :=
  let analysis := analyze parsed
  match analysis.diagnostics with
  | diagnostic :: _ => some (.error (.Diagnostic (formatDiagnostic parsed diagnostic)))
  | [] => (analyzeTypesIn o parsed analysis).map fun type_analysis =>
    match type_analysis.diagnostics with
    | diagnostic :: _ => .error (.Diagnostic (formatDiagnostic parsed diagnostic))
    | [] => evaluateMain parsed analysis type_analysis.types

/-- `generateLlvmIr`, likewise. -/
def generateLlvmIrIn (o : HashOrders) (verifyModule : llvm.Module → Option String)
    (parsed : ParsedProgram) : Option (Except GenerateError llvm.Module) :=
  let analysis := analyze parsed
  match analysis.diagnostics with
  | diagnostic :: _ => some (throw (.Diagnostic (formatDiagnostic parsed diagnostic)))
  | [] => (analyzeTypesIn o parsed analysis).map fun type_analysis =>
    match type_analysis.diagnostics with
    | diagnostic :: _ => throw (.Diagnostic (formatDiagnostic parsed diagnostic))
    | [] => generateCheckedLlvmIr verifyModule parsed analysis type_analysis

theorem interpretIn_entries (parsed : ParsedProgram) :
    interpretIn .entries parsed = interpret parsed := by
  unfold interpretIn interpret interpretWith
  dsimp only
  cases (analyze parsed).diagnostics with
  | nil => exact congrArg (Option.map _) (analyzeTypesIn_entries parsed (analyze parsed))
  | cons diagnostic diagnostics => rfl

theorem generateLlvmIrIn_entries (verifyModule : llvm.Module → Option String)
    (parsed : ParsedProgram) :
    generateLlvmIrIn .entries verifyModule parsed = generateLlvmIr verifyModule parsed := by
  unfold generateLlvmIrIn generateLlvmIr
  dsimp only
  cases (analyze parsed).diagnostics with
  | nil => exact congrArg (Option.map _) (analyzeTypesIn_entries parsed (analyze parsed))
  | cons diagnostic diagnostics => rfl

section

variable {o : HashOrders} {p : ParsedProgram} {result : TypeAnalysisResult}
  (hrun : analyzeTypesIn o p (analyze p) = some result) (hresult : result.ok)

include hrun hresult

theorem scopes_of_typed : (analyze p).diagnostics = [] := by
  unfold analyzeTypesIn at hrun
  by_cases hok : (analyze p).ok = true
  · exact List.isEmpty_iff.mp hok
  · rw [if_neg hok] at hrun
    cases hrun
    exact List.isEmpty_iff.mp hresult

theorem interpretIn_eq :
    interpretIn o p = some (evaluateMain p (analyze p) result.types) := by
  unfold interpretIn
  simp only [scopes_of_typed hrun hresult, hrun, Option.map_some, List.isEmpty_iff.mp hresult]

theorem generateLlvmIrIn_eq (verifyModule : llvm.Module → Option String) :
    generateLlvmIrIn o verifyModule p =
      some (generateCheckedLlvmIr verifyModule p (analyze p) result) := by
  unfold generateLlvmIrIn
  simp only [scopes_of_typed hrun hresult, hrun, Option.map_some, List.isEmpty_iff.mp hresult]

end

/-! ## Any order will do -/

variable {tokens : TokenVector} {p : ParsedProgram}

/-- In whatever order the maps are iterated, the analysis ends, and the order of
the diagnostics after inference is all that changes: the program is accepted or
not, and if it is, both back ends do with it what they do otherwise. The tokens
are the scanner's. -/
theorem iteration_order_irrelevant (hl : tokens.Lexed) (hp : parse tokens = .ok p)
    (o : HashOrders) :
    ∃ result result', analyzeTypes p (analyze p) = some result ∧
      analyzeTypesIn o p (analyze p) = some result' ∧
      SameResults p (analyze p) result result' ∧ result'.ok = result.ok ∧
      (result.ok → interpretIn o p = interpret p ∧
        ∀ verifyModule, generateLlvmIrIn o verifyModule p = generateLlvmIr verifyModule p) := by
  obtain ⟨result, result', hrun, hrun', hsame⟩ := analyzeTypesIn_same hl hp o
  refine ⟨result, result', hrun, hrun', hsame, hsame.ok, fun hresult => ?_⟩
  have hresult' : result'.ok = true := hsame.ok.trans hresult
  rw [← analyzeTypesIn_entries] at hrun
  constructor
  · rw [← interpretIn_entries, interpretIn_eq hrun hresult, interpretIn_eq hrun' hresult',
      evaluateMain_sameTypes hsame.types]
  · intro verifyModule
    rw [← generateLlvmIrIn_entries, generateLlvmIrIn_eq hrun hresult,
      generateLlvmIrIn_eq hrun' hresult']
    unfold generateCheckedLlvmIr
    rw [generateModule_sameTypes hsame.types]

/-- The last diagnostics of `idProgram` in another order; and `boxProgram`, which is
accepted. -/
theorem iteration_order_irrelevant_reversed :
    (∃ result result', analyzeTypes idProgram (analyze idProgram) = some result ∧
      analyzeTypesIn .reversed idProgram (analyze idProgram) = some result' ∧
      SameResults idProgram (analyze idProgram) result result' ∧
      result'.diagnostics ≠ result.diagnostics) ∧
    interpretIn .reversed boxProgram = interpret boxProgram ∧
      ∀ verifyModule, generateLlvmIrIn .reversed verifyModule boxProgram =
        generateLlvmIr verifyModule boxProgram := by
  constructor
  · obtain ⟨result, result', hrun, hrun', hsame, _⟩ := iteration_order_irrelevant
      (show idTokens.Lexed by decide) idProgram_parse .reversed
    have hdiffer : (analyzeTypesIn .reversed idProgram (analyze idProgram)).map (·.diagnostics) ≠
        (analyzeTypes idProgram (analyze idProgram)).map (·.diagnostics) := by decide +kernel
    refine ⟨result, result', hrun, hrun', hsame, fun heq => hdiffer ?_⟩
    rw [hrun, hrun', Option.map_some, Option.map_some, heq]
  · obtain ⟨result, _, hrun, _, _, _, haccepted⟩ := iteration_order_irrelevant
      (show boxTokens.Lexed by decide) boxProgram_parse .reversed
    obtain ⟨result₁, hrun₁, hresult⟩ := boxProgram_accepted
    rw [hrun] at hrun₁
    cases hrun₁
    exact haccepted hresult

end mf.visitors
