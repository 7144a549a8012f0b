-- The order of the definitions of a program does not matter: not to the
-- parser, not to scope analysis, not to the types, and not to the value.
import MiniFunctional.CheckedProgram
import MiniFunctional.RenamedEvaluation
import MiniFunctional.RenamedTypings

open mf.util mf.ast mf.parsing mf.tokenization mf.grammar

namespace mf.semantics

open ScopeTree TypeAnalyzer

/-! ## What the type analyzer accepts -/

/-- Every field names a type, and there is one typing, a first-order one. -/
structure WellTyped (t : ScopeTree) (program : Program) : Prop where
  fields : FieldsNameTypes t program
  unique : UniquelyTyped t program
  firstOrder : ∀ τ, IsConcreteTyping t program τ → FirstOrderTyping t program τ
  main : MainHasNoParameters program

theorem analyzeTypes_ok_iff {tokens : TokenVector} {p : ParsedProgram} (hl : tokens.Lexed)
    (hp : parse tokens = .ok p) (hok : (analyze p).ok) :
    ∃ result, analyzeTypes p (analyze p) = some result ∧
      (result.ok ↔ WellTyped (analyze p).scopes p.ast) := by
  obtain ⟨_, result, hrun, _⟩ := analyzeTypes_run hl hp hok
  refine ⟨result, hrun, fun hresult => ?_, fun h =>
    accepted_of_unique hl hp hok hrun h.fields h.unique h.firstOrder h.main⟩
  obtain ⟨_, hchecked⟩ := checked hl hp hok hrun hresult
  refine ⟨hchecked.fields, unique_of_ok hl hp hok hrun hresult,
    fun τ hτ fd signature hfd htype => ?_, fun fd hfd hmain => ?_⟩
  · obtain ⟨s, signature', _, hfind, htype'⟩ := principal_of_ok hl hp hok hrun hresult τ hτ fd hfd
    obtain rfl := functionHasType_unique htype htype'
    exact (hchecked.firstOrder s.id signature hfind).2
  · obtain ⟨s, signature, hs, hfind, htype⟩ := hchecked.functions fd hfd
    have hnamed := hchecked.scopes.named _ _ _ hs
    have hnone := (hchecked.firstOrder s.id signature hfind).1 s hnamed.1
      (hnamed.2.trans hmain)
    obtain ⟨_, ⟨_, _, hall⟩, _⟩ := htype
    have hlen := hall.length_eq
    rw [hnone, List.length_nil] at hlen
    exact List.length_eq_zero_iff.mp hlen

/-! ## Two orders of the definitions -/

/-- The scope trees of two programs that differ in their ids and in the order
of their definitions. -/
structure Twins (t t' : ScopeTree) (π : Equiv.Perm NodeId) (program program' : Program) : Prop where
  forward : ProgramPaired t t' π program
  backward : ProgramPaired t' t π.symm program'
  reordered : Reordered π program program'

section

variable {t t' : ScopeTree} {π : Equiv.Perm NodeId} {program program' : Program}

theorem Twins.symm (h : Twins t t' π program program') : Twins t' t π.symm program' program :=
  ⟨h.backward, h.forward, h.reordered.symm⟩

theorem Twins.fieldsNameTypes (h : Twins t t' π program program')
    (hfields : FieldsNameTypes t program) : FieldsNameTypes t' program' := by
  intro dt' hdt' ctor' hctor' field hfield
  obtain ⟨dt, hdt, rfl⟩ := h.reordered.dataType_right hdt'
  obtain ⟨ctor, hctor, rfl⟩ := List.mem_map.mp hctor'
  obtain ⟨T, hT⟩ := hfields dt hdt ctor hctor field hfield
  exact ⟨_, h.forward.namesType hT⟩

/-- A typing of the one program makes a typing of the other. -/
theorem Twins.typing (h : Twins t t' π program program') {τ : Typing}
    (hτ : IsConcreteTyping t program τ) :
    Carries t t' π τ (τ.along t t' π.symm) ∧
      IsConcreteTyping t' program' (τ.along t t' π.symm) := by
  have hcarries := h.forward.carries τ
  exact ⟨hcarries, hcarries.isConcreteTyping h.forward h.reordered hτ⟩

theorem Twins.uniquelyTyped (h : Twins t t' π program program')
    (hunique : UniquelyTyped t program) : UniquelyTyped t' program' := by
  obtain ⟨⟨τ, hτ⟩, hagree⟩ := hunique
  refine ⟨⟨_, (h.typing hτ).2⟩, fun τ₁ τ₂ hτ₁ hτ₂ id' hid' => ?_⟩
  obtain ⟨s, s', hpaired, rfl, hs⟩ := h.forward.typed_right h.reordered hid'
  -- both typings, brought back
  obtain ⟨hback₁, hconcrete₁⟩ := h.symm.typing hτ₁
  obtain ⟨hback₂, hconcrete₂⟩ := h.symm.typing hτ₂
  have hsame := hagree _ _ hconcrete₁ hconcrete₂ s.id hs
  rw [hback₁ s' s hpaired.symm, hback₂ s' s hpaired.symm] at hsame
  have hthere := congrArg (TypeVariant.mapSymbols (t.renaming t')) hsame
  rw [h.backward.mapSymbols_back (hτ₁.concrete s'.id hid'),
    h.backward.mapSymbols_back (hτ₂.concrete s'.id hid')] at hthere
  exact hthere

theorem Twins.firstOrder (h : Twins t t' π program program')
    (hfirst : ∀ τ, IsConcreteTyping t program τ → FirstOrderTyping t program τ) {τ' : Typing}
    (hτ' : IsConcreteTyping t' program' τ') : FirstOrderTyping t' program' τ' := by
  intro fd' signature' hfd' htype'
  obtain ⟨hback, hconcrete⟩ := h.symm.typing hτ'
  have htype := hback.functionHasType h.backward h.symm.reordered hfd' htype'
  obtain ⟨hparams, hresult⟩ := hfirst _ hconcrete _ _ (h.symm.reordered.function hfd') htype
  rw [FunctionSignature.mapSymbols, containsFunctionType_mapSymbols] at hresult
  refine ⟨fun P hP => ?_, hresult⟩
  have hmem : P.mapSymbols (t'.renaming t) ∈
      (signature'.mapSymbols (t'.renaming t)).parameters := List.mem_map.mpr ⟨P, hP, rfl⟩
  rw [← hparams _ hmem, containsFunctionType_mapSymbols]

theorem Twins.wellTyped (h : Twins t t' π program program') (hwell : WellTyped t program) :
    WellTyped t' program' := by
  refine ⟨h.fieldsNameTypes hwell.fields, h.uniquelyTyped hwell.unique,
    fun τ' hτ' => h.firstOrder hwell.firstOrder hτ', fun fd' hfd' hname => ?_⟩
  have hmain := hwell.main _ (h.symm.reordered.function hfd') hname
  exact hmain

end

/-! ## Signatures by name -/

/-- The signature of the function of the name. -/
def TypeTable.functionOf (table : TypeTable) (t : ScopeTree) (name : String) :
    Option FunctionSignature :=
  (getRootSymbol t name .Function).bind fun s => table.getFunctionSignature s.id

/-- The signature of the constructor of the name. -/
def TypeTable.constructorOf (table : TypeTable) (t : ScopeTree) (name : String) :
    Option ConstructorSignature :=
  (getRootSymbol t name .Constructor).bind fun s => table.getConstructorSignature s.id

/-- The functions and the constructors of a program have signatures in both
tables, which are the same when the data types are renamed by their names. -/
structure SameSignatures (program : Program) (t t' : ScopeTree) (table table' : TypeTable) :
    Prop where
  functions : ∀ name, table'.functionOf t' name =
    (table.functionOf t name).map (FunctionSignature.mapSymbols (t.renaming t'))
  constructors : ∀ name, table'.constructorOf t' name =
    (table.constructorOf t name).map (ConstructorSignature.mapSymbols (t.renaming t'))
  everyFunction : ∀ fd, .FunctionDefinition fd ∈ program.definitions →
    (table.functionOf t fd.name).isSome
  everyConstructor : ∀ dt, .DataTypeDefinition dt ∈ program.definitions →
    ∀ ctor ∈ dt.constructors, (table.constructorOf t ctor.name).isSome

section

variable {t t' : ScopeTree} {π : Equiv.Perm NodeId} {program program' : Program}
  {types types' : TypeTable} {τ τ' : Typing}

theorem getRootSymbol_eq_some_iff {name : String} {kind : SymbolKind} {s : Symbol} :
    getRootSymbol t name kind = some s ↔
      t.getLocalSymbol getRootScopeId name = some s ∧ s.kind = kind := by
  unfold getRootSymbol
  rw [Option.filter_eq_some_iff, decide_eq_true_eq]

theorem Twins.rootSymbols (h : Twins t t' π program program') (name : String) (kind : SymbolKind) :
    Option.Rel (Paired t t' π) (getRootSymbol t name kind) (getRootSymbol t' name kind) := by
  unfold getRootSymbol
  refine rel_filter _ (h.forward.globals name) fun s s' hs => ?_
  rw [hs.kind]

/-- The table has the signature of each constructor that is declared. -/
theorem Checked.constructor (hc : Checked t program types τ) {name : String} {s : Symbol}
    (hs : getRootSymbol t name .Constructor = some s) :
    ∃ signature, types.getConstructorSignature s.id = some signature ∧
      Declares t program s.id signature := by
  obtain ⟨hlocal, hkind⟩ := getRootSymbol_eq_some_iff.mp hs
  exact hc.sound.constructors s.id s (hc.scopes.named _ _ _ hlocal).1 hkind

theorem Twins.constructorSignature (h : Twins t t' π program program')
    (hc : Checked t program types τ) (hc' : Checked t' program' types' τ') {s s' : Symbol}
    (hpaired : Paired t t' π s s') (hkind : s.kind = .Constructor) :
    types'.getConstructorSignature s'.id = (types.getConstructorSignature s.id).map
      (ConstructorSignature.mapSymbols (t.renaming t')) := by
  obtain ⟨signature, hfind, hdeclares⟩ := hc.sound.constructors s.id s
    (hpaired.atHome.getSymbol h.forward.wellFormed) hkind
  obtain ⟨signature', hfind', hdeclares'⟩ := hc'.sound.constructors s'.id s'
    (hpaired.atHome'.getSymbol h.forward.wellFormed') (hpaired.kind.trans hkind)
  have hcarried := h.forward.declares h.reordered hpaired hdeclares
  rw [hfind, hfind', Option.map_some,
    visitors.declares_unique hc'.typing.checks hdeclares' hcarried]

theorem Twins.functionSignature (h : Twins t t' π program program')
    (hc : Checked t program types τ) (hprincipal' : types'.Principal t' program') {s s' : Symbol}
    (hpaired : Paired t t' π s s') (hkind : s.kind = .Function) :
    types'.getFunctionSignature s'.id = (types.getFunctionSignature s.id).map
      (FunctionSignature.mapSymbols (t.renaming t')) := by
  have hsymbol := hpaired.atHome.getSymbol h.forward.wellFormed
  obtain ⟨hlocal, _⟩ := h.forward.rooted.find hsymbol (by rw [hkind]; rfl)
  obtain ⟨fd, hfd, hname, _⟩ := function_declared hc.scopes hlocal hkind
  rw [← hname] at hlocal
  obtain ⟨s₁, signature, hs₁, hfind, htype⟩ := hc.functions fd hfd
  rw [hlocal] at hs₁
  cases hs₁
  -- the typing of this program, carried to the other
  obtain ⟨hcarries, hconcrete⟩ := h.typing hc.typing
  have hcarried := hcarries.functionHasType h.forward h.reordered hfd htype
  obtain ⟨s₁', signature', hs₁', hfind', htype'⟩ :=
    hprincipal' _ hconcrete _ (h.reordered.function hfd)
  obtain ⟨s₂', hs₂', hpaired₂⟩ := h.forward.global hlocal
  obtain rfl := hpaired₂.right_unique hpaired
  rw [show t'.getLocalSymbol getRootScopeId fd.name = some s₁' from hs₁'] at hs₂'
  cases hs₂'
  rw [hfind, hfind', Option.map_some, functionHasType_unique htype' hcarried]

theorem Twins.sameSignatures (h : Twins t t' π program program')
    (hc : Checked t program types τ) (hc' : Checked t' program' types' τ')
    (hprincipal' : types'.Principal t' program') : SameSignatures program t t' types types' := by
  refine ⟨fun name => ?_, fun name => ?_, fun fd hfd => ?_, fun dt hdt ctor hctor => ?_⟩
  · have hrel := h.rootSymbols name .Function
    unfold TypeTable.functionOf
    cases hs : getRootSymbol t name .Function with
    | none =>
      rw [hs] at hrel
      rw [rel_none hrel]
      rfl
    | some s =>
      rw [hs] at hrel
      obtain ⟨s', hs', hpaired⟩ := rel_some hrel
      rw [hs']
      exact h.functionSignature hc hprincipal' hpaired (getRootSymbol_eq_some_iff.mp hs).2
  · have hrel := h.rootSymbols name .Constructor
    unfold TypeTable.constructorOf
    cases hs : getRootSymbol t name .Constructor with
    | none =>
      rw [hs] at hrel
      rw [rel_none hrel]
      rfl
    | some s =>
      rw [hs] at hrel
      obtain ⟨s', hs', hpaired⟩ := rel_some hrel
      rw [hs']
      exact h.constructorSignature hc hc' hpaired (getRootSymbol_eq_some_iff.mp hs).2
  · obtain ⟨⟨s, hs, hkind, _⟩, _⟩ := hc.scopes.functions fd hfd
    obtain ⟨s₁, signature, hs₁, hfind, _⟩ := hc.functions fd hfd
    rw [hs] at hs₁
    cases hs₁
    unfold TypeTable.functionOf
    rw [getRootSymbol_eq_some_iff.mpr ⟨hs, hkind⟩, Option.bind_some, hfind]
    rfl
  · obtain ⟨s, hs, hkind, _⟩ := global_symbol hc.scopes
      (mem_globalFrame hdt (b := ⟨ctor.name, .Constructor, ctor.id⟩) (by
        simp only [Definition.binders, List.mem_cons, List.mem_map]
        exact .inr ⟨ctor, hctor, rfl⟩))
    have hroot := getRootSymbol_eq_some_iff.mpr ⟨hs, hkind⟩
    obtain ⟨signature, hfind, _⟩ := hc.constructor hroot
    unfold TypeTable.constructorOf
    rw [show getRootSymbol t ctor.name .Constructor = some s from hroot, Option.bind_some, hfind]
    rfl

end

/-! ## Parsed programs -/

/-- The tokens of the same definitions, in another order. -/
def DefinitionsPermuted (tokens tokens' : TokenVector) : Prop :=
  ∃ ds ds' : List (Tree .Definition), ds.Perm ds' ∧
    loads tokens.tokens = ds.flatMap Tree.yield ∧ loads tokens'.tokens = ds'.flatMap Tree.yield

/-- The derivation of a program from those of its definitions. -/
def programTree (ds : List (Tree .Definition)) : Tree .Program :=
  ds.foldr .nextDefinition .programEnd

theorem programTree_yield (ds : List (Tree .Definition)) :
    (programTree ds).yield = ds.flatMap Tree.yield := by
  induction ds with
  | nil => rfl
  | cons d ds ih =>
    rw [List.flatMap_cons, ← ih]
    rfl

theorem programTree_denote (ds : List (Tree .Definition)) :
    (programTree ds).toProgram.definitions = ds.map fun d => d.denote := by
  induction ds with
  | nil => rfl
  | cons d ds ih =>
    rw [List.map_cons, ← ih]
    rfl

section

variable {tokens tokens' : TokenVector} {p p' : ParsedProgram}

theorem DefinitionsPermuted.lexed (h : DefinitionsPermuted tokens tokens') (hl : tokens.Lexed) :
    tokens'.Lexed := by
  obtain ⟨ds, ds', hperm, hloads, hloads'⟩ := h
  have hall : (loads tokens.tokens).Perm (loads tokens'.tokens) := by
    rw [hloads, hloads']
    exact hperm.flatMap_right _
  intro token htoken
  obtain ⟨token₁, htoken₁, hload⟩ := List.mem_map.mp
    (hall.mem_iff.mpr (List.mem_map.mpr ⟨token, htoken, rfl⟩))
  rw [← hload]
  exact hl token₁ htoken₁

/-- The parser takes the definitions in any order. -/
theorem parse_permuted (h : DefinitionsPermuted tokens tokens') (hp : parse tokens = .ok p) :
    ∃ p', parse tokens' = .ok p' ∧
      p.ast.withoutIds.definitions.Perm p'.ast.withoutIds.definitions := by
  obtain ⟨ds, ds', hperm, hloads, hloads'⟩ := h
  have hd : DerivedBy tokens (programTree ds) := (programTree_yield ds).trans hloads.symm
  have hd' : DerivedBy tokens' (programTree ds') := (programTree_yield ds').trans hloads'.symm
  obtain ⟨p', hp', hast'⟩ := parse_of_derivedBy hd'
  have hast := denotes_of_parse hp hd
  refine ⟨p', hp', ?_⟩
  rw [hast, hast', programTree_denote, programTree_denote]
  exact hperm.map _

/-- The nodes of the two programs are numbered by the same ids. -/
theorem parse_reordered (hp : parse tokens = .ok p) (hp' : parse tokens' = .ok p')
    (hperm : p.ast.withoutIds.definitions.Perm p'.ast.withoutIds.definitions) :
    ∃ π : Equiv.Perm NodeId, Reordered π p.ast p'.ast ∧ π kInvalidNodeId = kInvalidNodeId := by
  obtain ⟨_, _, _, hids, _⟩ := parse_ok hp
  obtain ⟨_, _, _, hids', _⟩ := parse_ok hp'
  have hlen : p.positions.length = p'.positions.length := by
    have hwithout := (hperm.flatMap_right Definition.ids).length_eq
    calc p.positions.length = p.ast.ids.length := by rw [hids.length_eq, List.length_range]
      _ = p.ast.withoutIds.ids.length := (Program.length_ids p.ast).symm
      _ = p'.ast.withoutIds.ids.length := hwithout
      _ = p'.ast.ids.length := Program.length_ids p'.ast
      _ = p'.positions.length := by rw [hids'.length_eq, List.length_range]
  rw [← hlen] at hids'
  obtain ⟨hnodup, hvalid⟩ := parse_ids hp
  obtain ⟨π, hre, hfix⟩ := exists_reordered hperm (hids.trans hids'.symm) hnodup
  exact ⟨π, hre, hfix _ fun hin => (hvalid _ hin).2 rfl⟩

theorem scopes_of_parse (hp : parse tokens = .ok p) : (analyze p).scopes.Scopes p.ast := by
  obtain ⟨hnodup, hvalid⟩ := parse_ids hp
  exact (analyze_spec p hnodup fun id hid => (hvalid id hid).2).2

theorem analyze_ok_of_reordered (hl : tokens.Lexed) (hl' : tokens'.Lexed)
    (hp : parse tokens = .ok p) (hp' : parse tokens' = .ok p') {π : NodeId → NodeId}
    (hre : Reordered π p.ast p'.ast) (hbuiltin : π kInvalidNodeId = kInvalidNodeId)
    (hok : (analyze p).ok) : (analyze p').ok := by
  apply (analyze_ok_iff hl' hp').mpr
  exact programSites_mapIds hre hbuiltin ((analyze_ok_iff hl hp).mp hok)

theorem twins_of_reordered (hl : tokens.Lexed) (hl' : tokens'.Lexed) (hp : parse tokens = .ok p)
    (hp' : parse tokens' = .ok p') {π : Equiv.Perm NodeId} (hre : Reordered π p.ast p'.ast)
    (hbuiltin : π kInvalidNodeId = kInvalidNodeId) (hok : (analyze p).ok)
    (hok' : (analyze p').ok) : Twins (analyze p).scopes (analyze p').scopes π p.ast p'.ast := by
  have hclean := analyze_ok_iff hl hp
  have hclean' := analyze_ok_iff hl' hp'
  have hs := scopes_of_parse hp
  have hs' := scopes_of_parse hp'
  have hr := analyze_rooted p
  have hr' := analyze_rooted p'
  have hback : π.symm kInvalidNodeId = kInvalidNodeId := by
    rw [Equiv.symm_apply_eq, hbuiltin]
  refine ⟨programPaired hs hs' hr hr' hre hbuiltin ?_,
    programPaired hs' hs hr' hr hre.symm hback ?_, hre⟩
  · exact declarations_clean_iff.mp (clean_append.mp (hclean.mp hok)).1
  · exact declarations_clean_iff.mp (clean_append.mp (hclean'.mp hok')).1

end

end mf.semantics

namespace mf.visitors

open mf.semantics ScopeTree

/-- The same value, the same exception of the evaluator, or two programs that
are rejected before they are evaluated. -/
inductive SameInterpretation : Except InterpretError (Value Int32) →
    Except InterpretError (Value Int32) → Prop
  | value (v : Value Int32) : SameInterpretation (.ok v) (.ok v)
  | failure (f : Failure) : SameInterpretation (.error (.Evaluation f)) (.error (.Evaluation f))
  | rejected {error error' : InterpretError} : (∀ f, error ≠ .Evaluation f) →
    (∀ f, error' ≠ .Evaluation f) → SameInterpretation (.error error) (.error error')

section

variable {p p' : ParsedProgram} {π : Equiv.Perm NodeId} {types types' : TypeTable}
  {τ τ' : Typing}

theorem evaluateMain_same
    (h : Twins (analyze p).scopes (analyze p').scopes π p.ast p'.ast)
    (hc : Checked (analyze p).scopes p.ast types τ)
    (hc' : Checked (analyze p').scopes p'.ast types' τ') :
    SameInterpretation (evaluateMain p (analyze p) types)
      (evaluateMain p' (analyze p') types') := by
  have hrel := h.rootSymbols "main" .Function
  unfold getRootSymbol at hrel
  unfold evaluateMain
  cases hs : ((analyze p).scopes.getLocalSymbol getRootScopeId "main").filter
      (·.kind = .Function) with
  | none =>
    rw [hs] at hrel
    rw [rel_none hrel]
    exact .rejected nofun nofun
  | some s =>
    rw [hs] at hrel
    obtain ⟨s', hs', hpaired⟩ := rel_some hrel
    obtain ⟨hlocal, hkind⟩ := Option.filter_eq_some_iff.mp hs
    rw [decide_eq_true_eq] at hkind
    obtain ⟨fd, hfd, _, hdeclaration⟩ := function_declared hc.scopes hlocal hkind
    have hfind := findFunctionById_eq hc.ids hfd
    have hfind' := findFunctionById_eq hc'.ids (h.reordered.function hfd)
    have hdeclaration' : s'.declaration = (fd.mapIds π).id := by
      rw [hpaired.declaration, hdeclaration]
      rfl
    have htypes : ConstructorsPaired (analyze p).scopes (analyze p').scopes π types types' := by
      intro q q' hq hctor
      rw [h.constructorSignature hc hc' hq hctor, Option.map_map]
      congr 1
      funext signature
      simp [ConstructorSignature.mapSymbols]
    have heval := evaluate_paired h.forward.wellFormed h.forward.wellFormed' htypes
      (h.forward.functions fd hfd).2 (environmentPaired_empty _ _ π)
    simp only [hs', hdeclaration, hdeclaration', hfind, hfind']
    rw [show (fd.mapIds π).body = fd.body.mapIds π from rfl, ← heval]
    cases evaluate (analyze p).scopes types fd.body .empty >>= asValue with
    | ok v => exact .value v
    | error f => exact .failure f

end

section

variable {tokens tokens' : TokenVector} {p : ParsedProgram}

/-- A program that scope analysis rejects is rejected by all that follows. -/
theorem rejected_by_scopes (hok : ¬ (analyze p).ok) :
    (∃ result, analyzeTypes p (analyze p) = some result ∧ ¬ result.ok) ∧
      ∃ text, interpret p = some (.error (.Diagnostic text)) := by
  refine
    ⟨⟨{ TypeAnalyzer.initial.result with diagnostics := (analyze p).diagnostics }, ?_, hok⟩, ?_⟩
  · unfold analyzeTypes
    rw [if_neg hok]
  · unfold AnalysisResult.ok at hok
    unfold interpret interpretWith
    cases hd : (analyze p).diagnostics with
    | nil =>
      rw [hd] at hok
      exact absurd rfl hok
    | cons diagnostic diagnostics => exact ⟨_, rfl⟩

theorem rejected_by_types (hok : (analyze p).ok) {result : TypeAnalysisResult}
    (hrun : analyzeTypes p (analyze p) = some result) (hresult : ¬ result.ok) :
    ∃ text, interpret p = some (.error (.Diagnostic text)) := by
  unfold AnalysisResult.ok at hok
  rw [List.isEmpty_iff] at hok
  unfold TypeAnalysisResult.ok at hresult
  unfold interpret interpretWith
  rw [hok, hrun]
  cases hd : result.diagnostics with
  | nil =>
    rw [hd] at hresult
    exact absurd rfl hresult
  | cons diagnostic diagnostics =>
    rw [Option.map_some, hd]
    exact ⟨_, rfl⟩

/-- The definitions of a program may stand in any order: the program still parses,
to the same definitions; scope analysis and type analysis accept it or not,
whatever the order; functions and constructors keep their signatures, up to the
ids of the data types; and interpretation ends in the same way. The tokens are the
scanner's. -/
theorem definitionOrder_irrelevant (hl : tokens.Lexed) (hp : parse tokens = .ok p)
    (hperm : DefinitionsPermuted tokens tokens') : ∃ p', parse tokens' = .ok p' ∧
      p.ast.withoutIds.definitions.Perm p'.ast.withoutIds.definitions ∧
      ((analyze p).ok ↔ (analyze p').ok) ∧
      (∃ result result', analyzeTypes p (analyze p) = some result ∧
        analyzeTypes p' (analyze p') = some result' ∧ (result.ok ↔ result'.ok) ∧
        (result.ok → SameSignatures p.ast (analyze p).scopes (analyze p').scopes result.types
          result'.types)) ∧
      ∃ outcome outcome', interpret p = some outcome ∧ interpret p' = some outcome' ∧
        SameInterpretation outcome outcome' := by
  have hl' := hperm.lexed hl
  obtain ⟨p', hp', hdefinitions⟩ := parse_permuted hperm hp
  obtain ⟨π, hre, hbuiltin⟩ := parse_reordered hp hp' hdefinitions
  have hback : π.symm kInvalidNodeId = kInvalidNodeId := by
    rw [Equiv.symm_apply_eq, hbuiltin]
  have hscopes : (analyze p).ok ↔ (analyze p').ok :=
    ⟨analyze_ok_of_reordered hl hl' hp hp' hre hbuiltin,
      analyze_ok_of_reordered hl' hl hp' hp hre.symm hback⟩
  refine ⟨p', hp', hdefinitions, hscopes, ?_⟩
  by_cases hok : (analyze p).ok
  · have hok' := hscopes.mp hok
    have h := twins_of_reordered hl hl' hp hp' hre hbuiltin hok hok'
    obtain ⟨result, hrun, hiff⟩ := analyzeTypes_ok_iff hl hp hok
    obtain ⟨result', hrun', hiff'⟩ := analyzeTypes_ok_iff hl' hp' hok'
    have htypes : result.ok ↔ result'.ok := by
      rw [hiff, hiff']
      exact ⟨h.wellTyped, h.symm.wellTyped⟩
    by_cases hresult : result.ok
    · have hresult' := htypes.mp hresult
      obtain ⟨τ, hc⟩ := checked hl hp hok hrun hresult
      obtain ⟨τ', hc'⟩ := checked hl' hp' hok' hrun' hresult'
      have hprincipal' := principal_of_ok hl' hp' hok' hrun' hresult'
      exact ⟨⟨result, result', hrun, hrun', htypes, fun _ => h.sameSignatures hc hc' hprincipal'⟩,
        _, _, interpret_eq hok hrun hresult, interpret_eq hok' hrun' hresult',
        evaluateMain_same h hc hc'⟩
    · obtain ⟨text, hinterpret⟩ := rejected_by_types hok hrun hresult
      obtain ⟨text', hinterpret'⟩ := rejected_by_types hok' hrun' fun h => hresult (htypes.mpr h)
      exact ⟨⟨result, result', hrun, hrun', htypes, fun h => absurd h hresult⟩,
        _, _, hinterpret, hinterpret', .rejected nofun nofun⟩
  · obtain ⟨⟨result, hrun, hresult⟩, text, hinterpret⟩ := rejected_by_scopes hok
    obtain ⟨⟨result', hrun', hresult'⟩, text', hinterpret'⟩ :=
      rejected_by_scopes fun h => hok (hscopes.mpr h)
    exact ⟨⟨result, result', hrun, hrun', iff_of_false hresult hresult',
      fun h => absurd h hresult⟩, _, _, hinterpret, hinterpret', .rejected nofun nofun⟩

end

/-- The definitions of `boxTokens`, `main` before the data type that it uses. -/
def mainFirstTokens : TokenVector :=
  ⟨[.Function, .LowerVariable "main", .Equal, .LeftBrace, .UpperVariable "W", .IntLiteral 3,
    .RightBrace, .Data, .UpperVariable "B", .Equal, .LeftBrace, .UpperVariable "W",
    .UpperVariable "Int", .RightBrace].map fun load => ⟨load, ⟨1, 1, 1, 1⟩⟩, by decide⟩

def boxDataTree : Tree .Definition :=
  .dataTypeDefinition "B" (.constructor "W" ["Int"]) .constructorsEnd

def boxMainTree : Tree .Definition :=
  .functionDefinition "main" [] (.expression (.term (.factor (.application (.upperVariable "W")
    (.nextArgument (.num 3) .argumentsEnd))) .productsEnd) .sumsEnd)

theorem definitionOrder_irrelevant_box : ∃ p', parse mainFirstTokens = .ok p' ∧
    boxProgram.ast.withoutIds.definitions.Perm p'.ast.withoutIds.definitions ∧ (analyze p').ok ∧
    (∃ result result', analyzeTypes boxProgram (analyze boxProgram) = some result ∧
      analyzeTypes p' (analyze p') = some result' ∧ result.ok ∧ result'.ok ∧
      SameSignatures boxProgram.ast (analyze boxProgram).scopes (analyze p').scopes
        result.types result'.types) ∧
    ∃ v, interpret boxProgram = some (.ok v) ∧ interpret p' = some (.ok v) := by
  have hperm : DefinitionsPermuted boxTokens mainFirstTokens :=
    ⟨[boxDataTree, boxMainTree], [boxMainTree, boxDataTree], .swap _ _ _, rfl, rfl⟩
  obtain ⟨p', hp', hdefinitions, hscopes, htypes, outcome, outcome', hinterpret, hinterpret',
    hsame⟩ := definitionOrder_irrelevant (show boxTokens.Lexed by decide) boxProgram_parse hperm
  obtain ⟨result, result', hrun, hrun', hiff, hsignatures⟩ := htypes
  obtain ⟨result₁, hrun₁, hresult⟩ := boxProgram_accepted
  rw [hrun] at hrun₁
  cases hrun₁
  obtain ⟨v, hv⟩ := boxProgram_value
  rw [hinterpret] at hv
  cases hv
  cases hsame
  exact ⟨p', hp', hdefinitions, hscopes.mp rfl, ⟨result, result', hrun, hrun', hresult,
    hiff.mp hresult, hsignatures hresult⟩, v, hinterpret, hinterpret'⟩

end mf.visitors
