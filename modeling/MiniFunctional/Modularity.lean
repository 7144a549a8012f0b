-- More definitions do not change what a program means. An accepted program
-- keeps its signatures, its calls, its interpretation and the behaviour of its
-- module in every accepted program that has its definitions among its own.
import MiniFunctional.ModuleRuns
import MiniFunctional.PartEvaluation
import MiniFunctional.RenamedEvaluation

open mf.util mf.ast mf.parsing mf.tokenization mf.semantics mf.evaluation

namespace mf.visitors

open ScopeTree llvm

/-- Every definition of the program is one of the other program, wherever its
nodes are numbered. -/
def DefinedWithin (program program' : Program) : Prop :=
  program.withoutIds.definitions ⊆ program'.withoutIds.definitions

def HasMain (program : Program) : Prop :=
  ∃ fd, .FunctionDefinition fd ∈ program.definitions ∧ fd.name = "main"

section

variable {tokens tokens' : TokenVector} {p p' : ParsedProgram}
  {result result' : TypeAnalysisResult}

theorem embedded (hl : tokens.Lexed) (hl' : tokens'.Lexed) (hp : parse tokens = .ok p)
    (hp' : parse tokens' = .ok p') (hwithin : DefinedWithin p.ast p'.ast) (hok : (analyze p).ok)
    (hok' : (analyze p').ok) (hrun : analyzeTypes p (analyze p) = some result)
    (hresult : result.ok) (hrun' : analyzeTypes p' (analyze p') = some result')
    (hresult' : result'.ok) : ∃ π τ τ', Embedded (analyze p).scopes (analyze p').scopes π p.ast
      p'.ast result.types result'.types τ τ' := by
  have hclean := analyze_ok_iff hl hp
  have hclean' := analyze_ok_iff hl' hp'
  have hnames := declarations_clean_iff.mp (clean_append.mp (hclean.mp hok)).1
  have hnames' := declarations_clean_iff.mp (clean_append.mp (hclean'.mp hok')).1
  obtain ⟨hids, hvalid⟩ := parse_ids hp
  obtain ⟨hids', hvalid'⟩ := parse_ids hp'
  obtain ⟨π, hpart, hfix⟩ := exists_partOf hwithin (definitions_nodup hnames) hids hids'
  have hbuiltin : π kInvalidNodeId = kInvalidNodeId :=
    hfix _ (fun hin => (hvalid _ hin).2 rfl) fun hin => (hvalid' _ hin).2 rfl
  obtain ⟨τ, hc⟩ := checked hl hp hok hrun hresult
  obtain ⟨τ', hc'⟩ := checked hl' hp' hok' hrun' hresult'
  refine ⟨π, τ, τ', ?_, hpart, hc, hc', analyzeTypes_determines hl hp hok hrun hresult⟩
  exact partPaired (scopes_of_parse hp) (scopes_of_parse hp') (analyze_rooted p)
    (analyze_rooted p') hpart hbuiltin (hclean.mp hok) hnames'

end

section

variable {t t' : ScopeTree} {π : Equiv.Perm NodeId} {program program' : Program}
  {types types' : TypeTable} {τ τ' : Typing}
  (h : Embedded t t' π program program' types types' τ τ')

include h

/-- A function of the part as a symbol of both programs. -/
theorem embedded_function {fd : FunctionDefinition}
    (hfd : .FunctionDefinition fd ∈ program.definitions) :
    ∃ s s', t.getLocalSymbol getRootScopeId fd.name = some s ∧
      t'.getLocalSymbol getRootScopeId fd.name = some s' ∧ Paired t t' π s s' ∧
      s.kind = .Function := by
  obtain ⟨s, s', _, hs, hs', hpaired, _⟩ := h.functionSignature hfd
  obtain ⟨s₁, hs₁, hkind, _⟩ := global_symbol h.checked.scopes
    (mem_globalFrame hfd (b := ⟨fd.name, .Function, fd.id⟩) List.mem_cons_self)
  rw [show t.getLocalSymbol getRootScopeId fd.name = some s₁ from hs₁] at hs
  cases hs
  exact ⟨s, s', hs₁, hs', hpaired, hkind⟩

/-- Paired functions have the same signature, as paired constructors do. -/
theorem embedded_signature {s s' : Symbol} (hpaired : Paired t t' π s s')
    (hkind : s.kind = .Function) : ∃ signature, types.getFunctionSignature s.id = some signature ∧
      types'.getFunctionSignature s'.id = some (signature.mapSymbols (t.renaming t')) := by
  have hsymbol := hpaired.atHome.getSymbol h.paired.wellFormed
  obtain ⟨hlocal, _⟩ := h.paired.rooted.find hsymbol (by rw [hkind]; rfl)
  obtain ⟨fd, hfd, hname, _⟩ := function_declared h.checked.scopes hlocal hkind
  obtain ⟨s₁, s₁', signature, hs₁, _, hpaired₁, hfind, hfind'⟩ := h.functionSignature hfd
  rw [hname, hlocal] at hs₁
  cases hs₁
  obtain rfl := hpaired₁.right_unique hpaired
  exact ⟨signature, hfind, hfind'⟩

theorem embedded_functionOf {fd : FunctionDefinition}
    (hfd : .FunctionDefinition fd ∈ program.definitions) :
    ∃ signature, types.functionOf t fd.name = some signature ∧
      types'.functionOf t' fd.name = some (signature.mapSymbols (t.renaming t')) := by
  obtain ⟨s, s', hs, hs', hpaired, hkind⟩ := embedded_function h hfd
  obtain ⟨signature, hfind, hfind'⟩ := embedded_signature h hpaired hkind
  refine ⟨signature, ?_, ?_⟩
  · unfold TypeTable.functionOf
    rw [getRootSymbol_eq_some_iff.mpr ⟨hs, hkind⟩, Option.bind_some, hfind]
  · unfold TypeTable.functionOf
    rw [getRootSymbol_eq_some_iff.mpr ⟨hs', hpaired.kind.trans hkind⟩, Option.bind_some, hfind']

theorem embedded_constructorOf {dt : DataTypeDefinition}
    (hdt : .DataTypeDefinition dt ∈ program.definitions) {ctor : Constructor}
    (hctor : ctor ∈ dt.constructors) :
    ∃ signature, types.constructorOf t ctor.name = some signature ∧
      types'.constructorOf t' ctor.name = some (signature.mapSymbols (t.renaming t')) := by
  obtain ⟨s, hs, hkind, _⟩ := global_symbol h.checked.scopes
    (mem_globalFrame hdt (b := ⟨ctor.name, .Constructor, ctor.id⟩)
      (List.mem_cons_of_mem _ (List.mem_map.mpr ⟨ctor, hctor, rfl⟩)))
  obtain ⟨s', hs', hpaired⟩ := h.paired.globals ctor.name s hs
  obtain ⟨signature, hfind, hfind'⟩ := h.constructorSignature hpaired hkind
  refine ⟨signature, ?_, ?_⟩
  · unfold TypeTable.constructorOf
    rw [show getRootSymbol t ctor.name .Constructor = some s from
      getRootSymbol_eq_some_iff.mpr ⟨hs, hkind⟩, Option.bind_some, hfind]
  · unfold TypeTable.constructorOf
    rw [getRootSymbol_eq_some_iff.mpr ⟨hs', hpaired.kind.trans hkind⟩, Option.bind_some, hfind']

theorem embedded_mainEnds (hmain : HasMain program) (outcome : Evaluated Datum) :
    MainEnds t program types outcome ↔ MainEnds t' program' types' outcome := by
  obtain ⟨fd, hfd, hname⟩ := hmain
  obtain ⟨s, s', hs, hs', hpaired, hkind⟩ := embedded_function h hfd
  rw [hname] at hs hs'
  have hcalls := calls_paired h hpaired hkind [] outcome
  unfold MainEnds
  constructor
  · rintro ⟨s₁, hs₁, hends⟩
    rw [hs] at hs₁
    cases hs₁
    exact ⟨s', hs', hcalls.mp hends⟩
  · rintro ⟨s₁', hs₁', hends⟩
    rw [hs'] at hs₁'
    cases hs₁'
    exact ⟨s, hs, hcalls.mpr hends⟩

/-! ## What the code generator takes -/

theorem saturates_paired {id : NodeId} (huse : UsePaired t t' π id) (n : Nat) :
    saturates t types id n = saturates t' types' (π id) n := by
  unfold UsePaired at huse
  unfold saturates
  cases hs : t.getResolvedSymbol id with
  | none =>
    rw [hs] at huse
    rw [rel_none huse]
  | some s =>
    rw [hs] at huse
    obtain ⟨s', hs', hpaired⟩ := rel_some huse
    simp only [hs', hpaired.kind]
    cases hkind : s.kind with
    | Function =>
      obtain ⟨signature, hfind, hfind'⟩ := embedded_signature h hpaired hkind
      simp only [hfind, hfind', Option.any_some, FunctionSignature.mapSymbols, List.length_map]
    | Constructor =>
      obtain ⟨signature, hfind, hfind'⟩ := h.constructorSignature hpaired hkind
      simp only [hfind, hfind', Option.any_some, ConstructorSignature.mapSymbols, List.length_map]
    | _ => rfl

theorem namesValue_paired {id : NodeId} (huse : UsePaired t t' π id) :
    namesValue t types id = namesValue t' types' (π id) := by
  have hsaturates := saturates_paired h huse 0
  unfold UsePaired at huse
  unfold namesValue
  cases hs : t.getResolvedSymbol id with
  | none =>
    rw [hs] at huse
    rw [rel_none huse]
  | some s =>
    rw [hs] at huse
    obtain ⟨s', hs', hpaired⟩ := rel_some huse
    simp only [hs', hpaired.kind, hsaturates]

/-- Code has the shape that can be lowered in the whole just when it has it in the part. -/
theorem compilable_paired {e : Expression} (he : ExpressionPaired t t' π e) :
    compilable t types e = compilable t' types' (e.mapIds π) ∧
      ∀ n, compilableCallee t types e n = compilableCallee t' types' (e.mapIds π) n := by
  induction e with
  | IntLiteral id value => exact ⟨rfl, fun n => rfl⟩
  | Variable id name =>
    exact ⟨namesValue_paired h he, fun n => saturates_paired h he n⟩
  | BinaryOperator kind id l r ihl ihr =>
    refine ⟨?_, fun n => rfl⟩
    simp only [compilable, Expression.mapIds, (ihl he.1).1, (ihr he.2).1]
  | Application id f a ihf iha =>
    constructor
    · simp only [compilable, Expression.mapIds, (ihf he.1).2, (iha he.2).1]
    · intro n
      simp only [compilableCallee, Expression.mapIds, (ihf he.1).2, (iha he.2).1]
  | CaseExpression id s bs ihs ihbs =>
    obtain ⟨hes, hebs⟩ := he
    have hbranches : compilableBranches t types bs =
        compilableBranches t' types' (mapIdsBranches π bs) := by
      clear ihs hes
      induction bs with
      | nil => rfl
      | cons b bs ih =>
        obtain ⟨bid, pattern, body⟩ := b
        obtain ⟨_, hbody, hrest⟩ := hebs
        have hhead := (ihbs ⟨bid, pattern, body⟩ List.mem_cons_self hbody).1
        have htail := ih (fun b hb => ihbs b (List.mem_cons_of_mem _ hb)) hrest
        cases pattern with
        | VariablePattern pid name => exact hhead
        | ConstructorPattern pid name arguments =>
          simp only [compilableBranches, mapIdsBranches, Pattern.mapIds]
          rw [show compilable t types body = _ from hhead, htail]
    refine ⟨?_, fun n => rfl⟩
    simp only [compilable, Expression.mapIds, (ihs hes).1, hbranches]

theorem compilableProgram_part (hwhole : compilableProgram t' types' program' = true) :
    compilableProgram t types program = true := by
  unfold compilableProgram at hwhole ⊢
  rw [List.all_eq_true] at hwhole ⊢
  intro d hd
  have hd' := hwhole _ (h.part d hd)
  cases d with
  | DataTypeDefinition dt => rfl
  | FunctionDefinition fd =>
    have hsame := (compilable_paired h (h.paired.functions fd hd).2).1
    exact hsame.trans hd'

end

/-! ## The interpreter -/

theorem evaluateMain_paired {p p' : ParsedProgram} {π : Equiv.Perm NodeId}
    {types types' : TypeTable} {τ τ' : Typing}
    (h : Embedded (analyze p).scopes (analyze p').scopes π p.ast p'.ast types types' τ τ')
    (hmain : HasMain p.ast) :
    evaluateMain p (analyze p) types = evaluateMain p' (analyze p') types' := by
  obtain ⟨main, hin, hname⟩ := hmain
  obtain ⟨s, s', hs, hs', hpaired, hkind⟩ := embedded_function h hin
  rw [hname] at hs hs'
  obtain ⟨fd, hfd, hfind, hfind'⟩ := function_paired h hpaired hkind
  have htypes : ConstructorsPaired (analyze p).scopes (analyze p').scopes π types types' := by
    intro q q' hq hctor
    obtain ⟨signature, hsignature, hsignature'⟩ := h.constructorSignature hq hctor
    rw [hsignature, hsignature']
    simp [ConstructorSignature.mapSymbols]
  have heval := evaluate_paired h.paired.wellFormed h.paired.wellFormed' htypes
    (h.paired.functions fd hfd).2 (environmentPaired_empty _ _ π)
  unfold evaluateMain
  simp only [hs, hs', Option.filter_some, hpaired.kind, hkind, decide_true, if_true, hfind, hfind']
  rw [show (fd.mapIds π).body = fd.body.mapIds π from rfl, ← heval]

/-! ## Modules -/

/-- The run of `main` prints the line and returns 0. -/
def MainPrints (M : Module) (line : String) : Prop :=
  ∃ m, Steps M (startState M) (.finished (.int32 0) m (line ++ "\n"))

/-- Two modules run alike. What is printed of a constructor is a number that
differs between them, so lines are the same where `main` comes to a number. -/
structure SameRuns (t : ScopeTree) (program : Program) (types : TypeTable) (M M' : Module) :
    Prop where
  prints : (∃ line, MainPrints M line) ↔ ∃ line, MainPrints M' line
  numbers : ∀ n : BitVec 64, MainEnds t program types (.ok (.int n)) →
    ∀ line, MainPrints M line ↔ MainPrints M' line
  traps : Steps M (startState M) (.trapped "") ↔ Steps M' (startState M') (.trapped "")
  endless : Endless M (startState M) ↔ Endless M' (startState M')

section

variable {t t' : ScopeTree} {program program' : Program} {types types' : TypeTable}
  {τ τ' : Typing} {functions_ functions_' : AssocMap SymbolId Nat}
  {constructors_ constructors_' : AssocMap SymbolId ConstructorLayout} {M M' : Module}

theorem Compiled.prints_iff (h : Compiled t program types τ functions_ constructors_ M)
    (hdivision : ∀ fault, Fault.OfDivision fault → ¬ MainEnds t program types (.error fault)) :
    (∃ line, MainPrints M line) ↔ ∃ v, MainEnds t program types (.ok v) := by
  constructor
  · rintro ⟨line, hprints⟩
    obtain ⟨v, hends, _⟩ := ((h.behaves hdivision).prints line).mpr hprints
    exact ⟨v, hends⟩
  · rintro ⟨v, hends⟩
    obtain ⟨line, m, _, hrun⟩ := h.main_follows hends
    exact ⟨line, m, hrun⟩

theorem Compiled.prints_number (h : Compiled t program types τ functions_ constructors_ M)
    (hdivision : ∀ fault, Fault.OfDivision fault → ¬ MainEnds t program types (.error fault))
    {n : BitVec 64} (hends : MainEnds t program types (.ok (.int n))) (line : String) :
    MainPrints M line ↔ line = toString n.toInt := by
  constructor
  · intro hprints
    obtain ⟨v, hends', hline⟩ := ((h.behaves hdivision).prints line).mpr hprints
    cases hends.unique hends'
    exact (Option.some.inj hline).symm
  · rintro rfl
    exact ((h.behaves hdivision).prints _).mp ⟨.int n, hends, rfl⟩

theorem Compiled.sameRuns (h : Compiled t program types τ functions_ constructors_ M)
    (h' : Compiled t' program' types' τ' functions_' constructors_' M')
    (hends : ∀ outcome, MainEnds t program types outcome ↔ MainEnds t' program' types' outcome)
    (hdivision : ∀ fault, Fault.OfDivision fault → ¬ MainEnds t program types (.error fault)) :
    SameRuns t program types M M' := by
  have hdivision' : ∀ fault, Fault.OfDivision fault →
      ¬ MainEnds t' program' types' (.error fault) :=
    fun fault hfault hends' => hdivision fault hfault ((hends _).mpr hends')
  have hbehaves := h.behaves hdivision
  have hbehaves' := h'.behaves hdivision'
  constructor
  · rw [h.prints_iff hdivision, h'.prints_iff hdivision']
    simp only [hends]
  · intro n hnumber line
    rw [h.prints_number hdivision hnumber, h'.prints_number hdivision' ((hends _).mp hnumber)]
  · rw [← hbehaves.traps, ← hbehaves'.traps, hends]
  · rw [← hbehaves.endless, ← hbehaves'.endless]
    simp only [hends]

end

/-! ## More definitions -/

/-- The definitions of the first program mean the same among those of the second. -/
structure SameDefinitions (p p' : ParsedProgram) (types types' : TypeTable) : Prop where
  functions : ∀ fd, .FunctionDefinition fd ∈ p.ast.definitions → ∃ signature,
    types.functionOf (analyze p).scopes fd.name = some signature ∧
      types'.functionOf (analyze p').scopes fd.name =
        some (signature.mapSymbols ((analyze p).scopes.renaming (analyze p').scopes))
  constructors : ∀ dt, .DataTypeDefinition dt ∈ p.ast.definitions → ∀ ctor ∈ dt.constructors,
    ∃ signature, types.constructorOf (analyze p).scopes ctor.name = some signature ∧
      types'.constructorOf (analyze p').scopes ctor.name =
        some (signature.mapSymbols ((analyze p).scopes.renaming (analyze p').scopes))
  calls : ∀ fd, .FunctionDefinition fd ∈ p.ast.definitions → ∃ s s',
    (analyze p).scopes.getLocalSymbol getRootScopeId fd.name = some s ∧
      (analyze p').scopes.getLocalSymbol getRootScopeId fd.name = some s' ∧
      ∀ arguments outcome, Calls p.ast (analyze p).scopes types s arguments outcome ↔
        Calls p'.ast (analyze p').scopes types' s' arguments outcome

/-- The programs do the same. -/
structure SameMain (p p' : ParsedProgram) (types types' : TypeTable) : Prop where
  interpretation : interpret p = interpret p'
  lowered : ∀ M', generateModule p'.ast (analyze p').scopes types' = .ok M' →
    ∃ M, generateModule p.ast (analyze p).scopes types = .ok M
  runs : ∀ M M', generateModule p.ast (analyze p).scopes types = .ok M →
    generateModule p'.ast (analyze p').scopes types' = .ok M' →
    (∀ fault, Fault.OfDivision fault →
      ¬ MainEnds (analyze p).scopes p.ast types (.error fault)) →
    SameRuns (analyze p).scopes p.ast types M M'

section

variable {p p' : ParsedProgram} {π : Equiv.Perm NodeId} {types types' : TypeTable}
  {τ τ' : Typing}
  (h : Embedded (analyze p).scopes (analyze p').scopes π p.ast p'.ast types types' τ τ')

include h

theorem sameDefinitions : SameDefinitions p p' types types' := by
  constructor
  · exact fun fd hfd => embedded_functionOf h hfd
  · exact fun dt hdt ctor hctor => embedded_constructorOf h hdt hctor
  · intro fd hfd
    obtain ⟨s, s', hs, hs', hpaired, hkind⟩ := embedded_function h hfd
    exact ⟨s, s', hs, hs', calls_paired h hpaired hkind⟩

theorem lowered_part (hmain : HasMain p.ast) {M' : Module}
    (hgenerate' : generateModule p'.ast (analyze p').scopes types' = .ok M') :
    ∃ M, generateModule p.ast (analyze p).scopes types = .ok M := by
  obtain ⟨fd, hfd, hname⟩ := hmain
  have hshape := (generateModule_spec h.checked' ⟨_, h.part.function hfd, hname⟩).of_ok hgenerate'
  cases hgenerate : generateModule p.ast (analyze p).scopes types with
  | ok M => exact ⟨M, rfl⟩
  | error error =>
    obtain ⟨hpart, _⟩ := (generateModule_spec h.checked ⟨fd, hfd, hname⟩).of_error hgenerate
    rw [compilableProgram_part h hshape] at hpart
    cases hpart

end

section

variable {tokens tokens' : TokenVector} {p p' : ParsedProgram}
  {result result' : TypeAnalysisResult}

/-- Definitions that are added to an accepted program, anywhere, change nothing in
it, if the whole is accepted: signatures and calls of its functions stay as they
are, and so do the interpretation of `main` and the runs of its module. The tokens
are the scanner's. -/
theorem definitions_conserved (hl : tokens.Lexed) (hl' : tokens'.Lexed)
    (hp : parse tokens = .ok p) (hp' : parse tokens' = .ok p')
    (hwithin : DefinedWithin p.ast p'.ast) (hok : (analyze p).ok) (hok' : (analyze p').ok)
    (hrun : analyzeTypes p (analyze p) = some result) (hresult : result.ok)
    (hrun' : analyzeTypes p' (analyze p') = some result') (hresult' : result'.ok) :
    SameDefinitions p p' result.types result'.types ∧
      (HasMain p.ast → SameMain p p' result.types result'.types) := by
  obtain ⟨π, τ, τ', h⟩ := embedded hl hl' hp hp' hwithin hok hok' hrun hresult hrun' hresult'
  refine ⟨sameDefinitions h, fun hmain => ?_⟩
  constructor
  · rw [interpret_eq hok hrun hresult, interpret_eq hok' hrun' hresult',
      evaluateMain_paired h hmain]
  · exact fun M' hgenerate' => lowered_part h hmain hgenerate'
  · intro M M' hgenerate hgenerate' hdivision
    obtain ⟨functions_, hcompiled⟩ := compiled h.checked hgenerate
    obtain ⟨functions_', hcompiled'⟩ := compiled h.checked' hgenerate'
    exact hcompiled.sameRuns hcompiled' (embedded_mainEnds h hmain) hdivision

end

/-- `callProgram` with a data type before and its functions in the other order. -/
def boxCallTokens : TokenVector :=
  ⟨[.Data, .UpperVariable "B", .Equal, .LeftBrace, .UpperVariable "W", .UpperVariable "Int",
    .RightBrace, .Function, .LowerVariable "main", .Equal, .LeftBrace, .LowerVariable "f",
    .IntLiteral 1, .RightBrace, .Function, .LowerVariable "f", .LowerVariable "x", .Equal,
    .LeftBrace, .LowerVariable "x", .RightBrace].map fun load => ⟨load, ⟨1, 1, 1, 1⟩⟩, by decide⟩

def boxCallProgram : ParsedProgram :=
  ⟨⟨[.DataTypeDefinition ⟨1, "B", [⟨0, "W", ["Int"]⟩]⟩,
    .FunctionDefinition ⟨5, "main", [], .Application 4 (.Variable 2 "f") (.IntLiteral 3 1)⟩,
    .FunctionDefinition ⟨7, "f", ["x"], .Variable 6 "x"⟩]⟩, List.replicate 8 ⟨1, 1, 1, 1⟩⟩

theorem boxCallProgram_parse : parse boxCallTokens = .ok boxCallProgram := rfl

theorem boxCallProgram_accepted : ∃ result,
    analyzeTypes boxCallProgram (analyze boxCallProgram) = some result ∧ result.ok :=
  Option.map_eq_some_iff.mp (show (analyzeTypes boxCallProgram (analyze boxCallProgram)).map
    (·.ok) = some true by decide +kernel)

/-- `f` and `main` of `callProgram` are conserved in `boxCallProgram`. -/
theorem definitions_conserved_call : ∃ result result',
    analyzeTypes callProgram (analyze callProgram) = some result ∧
      analyzeTypes boxCallProgram (analyze boxCallProgram) = some result' ∧
      SameDefinitions callProgram boxCallProgram result.types result'.types ∧
      SameMain callProgram boxCallProgram result.types result'.types := by
  obtain ⟨result, _, hrun, hresult, _⟩ := callProgram_generated
  obtain ⟨result', hrun', hresult'⟩ := boxCallProgram_accepted
  have hwithin : DefinedWithin callProgram.ast boxCallProgram.ast := by
    apply List.cons_subset.mpr
    constructor
    · exact List.mem_of_getElem? (i := 2) rfl
    · exact List.cons_subset.mpr ⟨List.mem_of_getElem? (i := 1) rfl, List.nil_subset _⟩
  obtain ⟨hsame, hmain⟩ := definitions_conserved (show callTokens.Lexed by decide)
    (show boxCallTokens.Lexed by decide) callProgram_parse boxCallProgram_parse hwithin rfl rfl
    hrun hresult hrun' hresult'
  exact ⟨result, result', hrun, hrun', hsame,
    hmain ⟨_, List.mem_cons_of_mem _ List.mem_cons_self, rfl⟩⟩

end mf.visitors
