-- The diagnostics of the type analyzer are exact: those of inference come when
-- there is no typing, then each symbol that typings disagree on is reported,
-- and each function that is not first-order.
import MiniFunctional.TypeSoundness

open mf.util mf.ast mf.parsing mf.tokenization

namespace mf.semantics

open StateOption ScopeTree

/-- The report of a symbol without one concrete type. -/
def couldNotInfer (symbol : Symbol) : Diagnostic :=
  makeDiagnostic symbol.declaration ("Could not infer concrete type of '" ++ symbol.name ++ "'")

/-- The reports of a function that is not first-order, in their order. -/
def restrictionReports (symbol : Symbol) (signature : FunctionSignature) : List Diagnostic :=
  (if symbol.name = "main" ∧ signature.parameters ≠ [] then
    [makeDiagnostic symbol.declaration "Function 'main' must not have parameters"] else []) ++
  ((signature.parameters.filter fun parameter => containsFunctionType parameter).map fun _ =>
    makeDiagnostic symbol.declaration ("Function '" ++ symbol.name ++
      "' has function-typed parameter; higher-order functions are not supported")) ++
  if containsFunctionType signature.result then
    [makeDiagnostic symbol.declaration ("Function '" ++ symbol.name ++
      "' returns a function; partial application is not supported")] else []

def restrictionsOf (t : ScopeTree) (entry : SymbolId × FunctionSignature) : List Diagnostic :=
  (t.getSymbol entry.1).toList.flatMap fun symbol => restrictionReports symbol entry.2

namespace TypeAnalyzer

open TypeStore

variable {t : ScopeTree} {program : Program}

open Classical in
/-- The symbol of an entry whose type the store leaves open. -/
noncomputable def openSymbol (t : ScopeTree) (types : TypeStore) (entry : SymbolId × TypeId) :
    Option Symbol :=
  if ∃ T, Determined types entry.2 T then none else t.getSymbol entry.1

noncomputable def openReports (t : ScopeTree) (types : TypeStore) (entry : SymbolId × TypeId) :
    List Diagnostic := ((openSymbol t types entry).map couldNotInfer).toList

theorem openReports_determined {types : TypeStore} (s : SymbolId) {id : TypeId}
    (h : ∃ T, Determined types id T) : openReports t types (s, id) = [] := by
  unfold openReports openSymbol
  rw [if_pos h]
  rfl

theorem openReports_open {types : TypeStore} {s : SymbolId} {id : TypeId}
    (h : ¬ ∃ T, Determined types id T) {symbol : Symbol} (hsymbol : t.getSymbol s = some symbol) :
    openReports t types (s, id) = [couldNotInfer symbol] := by
  unfold openReports openSymbol
  rw [if_neg h, hsymbol]
  rfl

/-- What two specifications say of one run. -/
theorem returns_and {α : Type} {m : AnalyzerM α} {st : TypeAnalyzer}
    {P Q : α → TypeAnalyzer → Prop} (h : Returns m st P) (h' : Returns m st Q) :
    Returns m st fun a st' => P a st' ∧ Q a st' := by
  obtain ⟨a, st', visited, hrun, hpath, hp⟩ := h
  exact ⟨a, st', visited, hrun, hpath, hp, h'.of_runs ⟨visited, hrun⟩⟩

/-! ## The reports of the last passes -/

theorem addError_reports (st : TypeAnalyzer) (node_id : NodeId) (message : String) :
    Returns (addError node_id message) st fun _ st' =>
      st'.diagnostics = st.diagnostics ++ [makeDiagnostic node_id message] ∧
        st'.result.types = st.result.types :=
  returns_modify .result ⟨rfl, rfl⟩

theorem finalizeSymbolTypes_reports {st : TypeAnalyzer} (hv : st.Valid t) :
    Returns (finalizeSymbolTypes t) st fun _ st' =>
      st'.diagnostics =
        st.diagnostics ++ st.symbol_types.entries.flatMap (openReports t st.types) := by
  refine returns_bind (returns_get ?_)
  have hloop := returns_forM (f := finalizeSymbolType t)
    (I := fun done st' => Settles st st' ∧
      st'.diagnostics = st.diagnostics ++ done.flatMap (openReports t st.types))
    (l := st.symbol_types.entries) (d := []) (s := st) ⟨.refl st, by simp⟩ ?_
  · exact hloop.mono fun _ st' h => by simpa using h.2
  · rintro before ⟨s, id⟩ after st1 hsplit ⟨hsettles, hreports⟩
    have hentry : (s, id) ∈ st.symbol_types.entries := by
      rw [List.nil_append] at hsplit
      rw [hsplit]
      simp
    obtain ⟨hid, symbol, hsymbol⟩ := hv.symbols s id (AssocMap.find_eq_some_iff.mpr hentry)
    refine returns_bind ((materialize_settles hv.acyclic hsettles hid).mono ?_)
    rintro T st2 ⟨hsettles2, hresult, hT⟩
    have hdiag : st2.diagnostics = st1.diagnostics := by rw [diagnostics, hresult]
    cases T with
    | some T =>
      refine returns_pure ⟨hsettles2, ?_⟩
      rw [hdiag, hreports, List.flatMap_append, List.flatMap_singleton,
        openReports_determined s ⟨T, hT⟩, List.append_nil]
    | none =>
      refine returns_bind (returns_readTypes hsymbol ?_)
      have hopen : ¬ ∃ T, Determined st.types id T := by
        rintro ⟨T, hd⟩
        exact not_determined hv.acyclic hT T hd
      refine returns_modify .result ⟨⟨hsettles2.types, hsettles2.symbols, hsettles2.constructors,
        hsettles2.functions, hsettles2.reports.trans (List.prefix_append _ _)⟩, ?_⟩
      rw [List.flatMap_append, List.flatMap_singleton, openReports_open hopen hsymbol,
        ← List.append_assoc, ← hreports, ← hdiag]
      rfl

theorem addErrorIf_reports (st : TypeAnalyzer) {condition : Prop} [Decidable condition]
    (node_id : NodeId) (message : String) :
    Returns (addErrorIf condition node_id message) st fun _ st' =>
      st'.diagnostics = st.diagnostics ++
        (if condition then [makeDiagnostic node_id message] else []) ∧
      st'.result.types = st.result.types := by
  unfold addErrorIf
  by_cases hc : condition
  · rw [if_pos hc, if_pos hc]
    exact addError_reports st node_id message
  · rw [if_neg hc, if_neg hc]
    exact returns_pure ⟨(List.append_nil _).symm, rfl⟩

theorem checkParameters_reports (symbol : Symbol) (st : TypeAnalyzer)
    (parameters : List TypeVariant) :
    Returns (parameters.forM (checkParameter symbol)) st fun _ st' =>
      st'.diagnostics = st.diagnostics ++
        ((parameters.filter fun parameter => containsFunctionType parameter).map fun _ =>
          makeDiagnostic symbol.declaration ("Function '" ++ symbol.name ++
            "' has function-typed parameter; higher-order functions are not supported")) ∧
      st'.result.types = st.result.types := by
  induction parameters generalizing st with
  | nil => exact returns_pure ⟨(List.append_nil _).symm, rfl⟩
  | cons parameter parameters ih =>
    refine returns_bind ((addErrorIf_reports st symbol.declaration _).mono ?_)
    rintro _ st1 ⟨hreports, htable⟩
    refine (ih st1).mono ?_
    rintro _ st2 ⟨hreports', htable'⟩
    refine ⟨?_, htable'.trans htable⟩
    rw [hreports', hreports, List.append_assoc]
    congr 1
    by_cases hc : containsFunctionType parameter = true
    · rw [if_pos hc, List.filter_cons_of_pos hc]
      rfl
    · rw [if_neg hc, List.filter_cons_of_neg hc]
      rfl

theorem checkFunctionRestriction_reports (st : TypeAnalyzer) {f : SymbolId}
    {signature : FunctionSignature} (hf : ∃ symbol, t.getSymbol f = some symbol) :
    Returns (checkFunctionRestriction t (f, signature)) st fun _ st' =>
      st'.diagnostics = st.diagnostics ++ restrictionsOf t (f, signature) ∧
        st'.result.types = st.result.types := by
  obtain ⟨symbol, hsymbol⟩ := hf
  have hreports : restrictionsOf t (f, signature) = restrictionReports symbol signature := by
    unfold restrictionsOf
    simp [hsymbol]
  rw [hreports]
  unfold restrictionReports
  refine returns_bind (returns_readTypes hsymbol ?_)
  refine returns_bind ((addErrorIf_reports st symbol.declaration _).mono ?_)
  rintro _ st1 ⟨h1, htable1⟩
  refine returns_bind ((checkParameters_reports symbol st1 signature.parameters).mono ?_)
  rintro _ st2 ⟨h2, htable2⟩
  refine (addErrorIf_reports st2 symbol.declaration _).mono ?_
  rintro _ st3 ⟨h3, htable3⟩
  refine ⟨?_, htable3.trans (htable2.trans htable1)⟩
  rw [h3, h2, h1]
  simp only [List.append_assoc]

theorem checkFunctionRestrictions_reports {st : TypeAnalyzer}
    (hsymbols : ∀ f signature, st.result.types.function_signatures.find f = some signature →
      ∃ symbol, t.getSymbol f = some symbol) :
    Returns (checkFunctionRestrictions t) st fun _ st' =>
      st'.diagnostics = st.diagnostics ++
        st.result.types.function_signatures.entries.flatMap (restrictionsOf t) ∧
      st'.result.types = st.result.types := by
  refine returns_bind (returns_get ?_)
  have hloop := returns_forM (f := checkFunctionRestriction t)
    (I := fun done st' => st'.diagnostics = st.diagnostics ++ done.flatMap (restrictionsOf t) ∧
      st'.result.types = st.result.types)
    (l := st.result.types.function_signatures.entries) (d := []) (s := st) (by simp) ?_
  · exact hloop.mono fun _ st' h => by simpa using h
  · rintro before ⟨f, signature⟩ after st1 hsplit ⟨hreports, htable⟩
    have hentry : (f, signature) ∈ st.result.types.function_signatures.entries := by
      rw [List.nil_append] at hsplit
      rw [hsplit]
      simp
    have hf := hsymbols f signature (AssocMap.find_eq_some_iff.mpr hentry)
    refine (checkFunctionRestriction_reports st1 hf).mono ?_
    rintro _ st2 ⟨hreports', htable'⟩
    refine ⟨?_, htable'.trans htable⟩
    rw [hreports', hreports, List.flatMap_append, List.flatMap_singleton, List.append_assoc]

/-- What the last passes read off the state after inference. -/
structure Finalized (t : ScopeTree) (st st' : TypeAnalyzer) : Prop where
  reports : st'.diagnostics =
    st.diagnostics ++ st.symbol_types.entries.flatMap (openReports t st.types)
  constructors : ∀ c signature, st'.result.types.getConstructorSignature c = some signature ↔
    ∃ internal, st.constructor_signatures.find c = some internal ∧
      ConstructorSettled st.types internal signature
  functions : ∀ f signature, st'.result.types.getFunctionSignature f = some signature ↔
    ∃ internal, st.function_signatures.find f = some internal ∧
      FunctionSettled st.types internal signature

theorem finalizeTypes_spec {st : TypeAnalyzer} (hv : st.Valid t)
    (htable : st.result.types = initial.result.types) :
    Returns (finalizeTypes t) st fun _ st' => Finalized t st st' := by
  unfold finalizeTypes
  refine returns_bind ((returns_and (finalizeSymbolTypes_spec hv)
    (finalizeSymbolTypes_reports hv)).mono ?_)
  rintro _ st1 ⟨⟨h1, htable1, _⟩, hreports⟩
  refine returns_bind ((finalizeConstructorSignatures_spec hv h1 fun c => by
    rw [htable1, htable]
    rfl).mono ?_)
  rintro _ st2 ⟨h2, hdiag2, hfun2, hctors⟩
  refine (finalizeFunctionSignatures_spec hv h2 fun f => by
    rw [hfun2, htable1, htable]
    rfl).mono ?_
  rintro _ st3 ⟨_, hdiag3, hctor3, hfuns⟩
  refine ⟨by rw [hdiag3, hdiag2, hreports], fun c signature => ?_, hfuns⟩
  unfold TypeTable.getConstructorSignature
  rw [hctor3]
  exact hctors c signature

/-- The functions of the table are symbols. -/
theorem Finalized.symbol {st st' : TypeAnalyzer} (h : Finalized t st st') (hv : st.Valid t)
    {f : SymbolId} {signature : FunctionSignature}
    (hf : st'.result.types.getFunctionSignature f = some signature) :
    ∃ symbol, t.getSymbol f = some symbol := by
  obtain ⟨internal, hinternal, _⟩ := (h.functions f signature).mp hf
  obtain ⟨_, _, ⟨id, hid⟩, _⟩ := hv.functions f internal hinternal
  exact (hv.symbols f id hid).2

/-! ## What the reports are about -/

/-- A symbol that a typing is about is one of some scope. -/
theorem typed_symbol (hscoped : t.ProgramScoped program) {s : SymbolId} (hs : Typed t program s) :
    ∃ symbol, t.getSymbol s = some symbol ∧ symbol.id = s := by
  have hlocal : ∀ {sid : ScopeId} {names : List String}, s ∈ t.symbolsIn sid names →
      ∃ symbol, t.getSymbol s = some symbol ∧ symbol.id = s := by
    intro sid names hin
    obtain ⟨name, _, symbol, hsymbol, rfl⟩ := mem_symbolsIn.mp hin
    exact ⟨symbol, (hscoped.named _ _ _ hsymbol).1, rfl⟩
  have hpattern : ∀ {p : Pattern}, s ∈ t.patternSymbols p →
      ∃ symbol, t.getSymbol s = some symbol ∧ symbol.id = s := by
    intro p hin
    unfold ScopeTree.patternSymbols at hin
    cases hsid : t.getScopeId p.id with
    | none =>
      rw [hsid] at hin
      simp at hin
    | some sid =>
      rw [hsid] at hin
      exact hlocal hin
  have hbound : ∀ e : Expression, s ∈ t.boundIn e →
      ∃ symbol, t.getSymbol s = some symbol ∧ symbol.id = s := by
    intro e hin
    induction e with
    | IntLiteral id value => simp at hin
    | Variable id name => simp at hin
    | BinaryOperator kind id l r ihl ihr => exact (List.mem_append.mp hin).elim ihl ihr
    | Application id f a ihf iha => exact (List.mem_append.mp hin).elim ihf iha
    | CaseExpression id scrutinee branches ihs ihb =>
      rcases List.mem_append.mp hin with hin | hin
      · exact ihs hin
      · obtain ⟨b, hb, hin⟩ := mem_boundInBranches.mp hin
        exact hin.elim hpattern (ihb b hb)
  obtain ⟨fd, _, ⟨symbol, hsymbol, rfl⟩ | hin | hin⟩ := hs
  · exact ⟨symbol, (hscoped.named _ _ _ hsymbol).1, rfl⟩
  · unfold ScopeTree.parameterSymbols at hin
    cases hsid : t.getScopeId fd.id with
    | none =>
      rw [hsid] at hin
      simp at hin
    | some sid =>
      rw [hsid] at hin
      exact hlocal hin
  · exact hbound fd.body hin

/-- The symbols whose types the state leaves open. -/
noncomputable def openSymbols (t : ScopeTree) (st : TypeAnalyzer) : List Symbol :=
  st.symbol_types.entries.filterMap (openSymbol t st.types)

theorem flatMap_openReports (st : TypeAnalyzer) :
    st.symbol_types.entries.flatMap (openReports t st.types) =
      (openSymbols t st).map couldNotInfer := by
  unfold openSymbols
  generalize st.symbol_types.entries = entries
  induction entries with
  | nil => rfl
  | cons entry entries ih =>
    rw [List.flatMap_cons, ih]
    unfold openReports
    cases hsymbol : openSymbol t st.types entry with
    | none =>
      rw [List.filterMap_cons_none hsymbol]
      rfl
    | some symbol =>
      rw [List.filterMap_cons_some hsymbol]
      rfl

theorem keys_sublist {β γ : Type} {entries : List (SymbolId × β)} {f : SymbolId × β → Option γ}
    {key : γ → SymbolId} (hf : ∀ entry ∈ entries, ∀ x, f entry = some x → key x = entry.1) :
    ((entries.filterMap f).map key).Sublist (entries.map Prod.fst) := by
  induction entries with
  | nil => exact List.Sublist.refl _
  | cons entry entries ih =>
    have hrest := ih fun entry hentry => hf entry (List.mem_cons_of_mem _ hentry)
    cases hx : f entry with
    | none =>
      rw [List.filterMap_cons_none hx]
      exact hrest.cons _
    | some x =>
      rw [List.filterMap_cons_some hx, List.map_cons, List.map_cons,
        hf entry List.mem_cons_self x hx]
      exact hrest.cons_cons _

section

variable {st : TypeAnalyzer} (h : Analyzed t program st) (hscoped : t.ProgramScoped program)

include h

/-- Inference is silent just when there is a typing. -/
theorem Analyzed.silent_iff : st.diagnostics = [] ↔
    FieldsNameTypes t program ∧ ∃ τ, IsConcreteTyping t program τ := by
  constructor
  · intro hok
    obtain ⟨ρ, hm⟩ := TypeStore.exists_concreteModel h.step.valid.acyclic t
    exact ⟨h.fields hok, _, h.typing hok hm⟩
  · rintro ⟨hfields, τ, hτ⟩
    obtain ⟨_, _, hok⟩ := h.complete hfields τ hτ.checks
    exact hok

variable (hok : st.diagnostics = [])

include hscoped hok

/-- Two typings differ in what the state leaves open. -/
theorem Analyzed.typings_differ {s : SymbolId} {id : TypeId}
    (hs : st.symbol_types.find s = some id) (hopen : ¬ ∃ T, Determined st.types id T) :
    Typed t program s ∧ ∃ τ τ', IsConcreteTyping t program τ ∧ IsConcreteTyping t program τ' ∧
      τ s ≠ τ' s := by
  have hmodels : ∃ ρ ρ', st.types.ConcreteModel t ρ ∧ st.types.ConcreteModel t ρ' ∧
      ρ id ≠ ρ' id := by
    by_contra hnone
    apply hopen
    apply determined_of_agree h.step.valid.acyclic (h.step.valid.symbols s id hs).1
    intro ρ ρ' hm hm'
    by_contra hne
    exact hnone ⟨ρ, ρ', hm, hm', hne⟩
  obtain ⟨ρ, ρ', hm, hm', hne⟩ := hmodels
  have hτ := h.typing hok hm
  have hτ' := h.typing hok hm'
  rw [← readTyping_find hs ρ, ← readTyping_find hs ρ'] at hne
  refine ⟨?_, _, _, hτ, hτ', hne⟩
  rcases h.declared_or_typed hscoped (h.fields hok) hs with ⟨T, hT⟩ | htyped
  · exact absurd ((hT _ hτ.checks).trans (hT _ hτ'.checks).symm) hne
  · exact htyped

omit hscoped in
theorem Analyzed.typings_agree {s : SymbolId} {id : TypeId}
    (hs : st.symbol_types.find s = some id) {T : TypeVariant} (hT : Determined st.types id T)
    {τ : Typing} (hτ : IsTyping t program τ) : τ s = T := by
  obtain ⟨ρ, hsol, _⟩ := h.complete (h.fields hok) τ hτ
  rw [hsol.2 s id hs]
  exact hT ρ hsol.1

theorem Analyzed.mem_openSymbols {symbol : Symbol} : symbol ∈ openSymbols t st ↔
    t.getSymbol symbol.id = some symbol ∧ Typed t program symbol.id ∧
      ∃ τ τ', IsConcreteTyping t program τ ∧ IsConcreteTyping t program τ' ∧
        τ symbol.id ≠ τ' symbol.id := by
  unfold openSymbols
  rw [List.mem_filterMap]
  constructor
  · rintro ⟨⟨s, id⟩, hentry, hsymbol⟩
    unfold openSymbol at hsymbol
    by_cases hopen : ∃ T, Determined st.types id T
    · rw [if_pos hopen] at hsymbol
      cases hsymbol
    · rw [if_neg hopen] at hsymbol
      have hs := AssocMap.find_eq_some_iff.mpr hentry
      obtain ⟨htyped, hdiffer⟩ := h.typings_differ hscoped hok hs hopen
      obtain ⟨symbol', hsymbol', hid⟩ := typed_symbol hscoped htyped
      rw [hsymbol] at hsymbol'
      cases hsymbol'
      simp only at hsymbol
      rw [hid]
      exact ⟨hsymbol, htyped, hdiffer⟩
  · rintro ⟨hsymbol, htyped, τ, τ', hτ, hτ', hne⟩
    obtain ⟨id, hid⟩ := h.bound hok htyped
    refine ⟨(symbol.id, id), AssocMap.find_eq_some_iff.mp hid, ?_⟩
    unfold openSymbol
    rw [if_neg, hsymbol]
    rintro ⟨T, hT⟩
    apply hne
    rw [h.typings_agree hok hid hT hτ.checks, h.typings_agree hok hid hT hτ'.checks]

theorem Analyzed.openSymbols_nodup : (openSymbols t st).Nodup := by
  apply List.Nodup.of_map (·.id)
  refine (keys_sublist ?_).nodup st.symbol_types.nodup
  rintro ⟨s, id⟩ hentry symbol hsymbol
  unfold openSymbol at hsymbol
  by_cases hopen : ∃ T, Determined st.types id T
  · rw [if_pos hopen] at hsymbol
    cases hsymbol
  · rw [if_neg hopen] at hsymbol
    have hs := AssocMap.find_eq_some_iff.mpr hentry
    obtain ⟨htyped, _⟩ := h.typings_differ hscoped hok hs hopen
    obtain ⟨symbol', hsymbol', hid⟩ := typed_symbol hscoped htyped
    rw [hsymbol] at hsymbol'
    cases hsymbol'
    exact hid

/-- The signatures that the state settles are those on which the typings agree. -/
theorem Analyzed.settled_iff {f : SymbolId} {signature : FunctionSignature} :
    (∃ internal, st.function_signatures.find f = some internal ∧
      FunctionSettled st.types internal signature) ↔
    ∃ fd s, .FunctionDefinition fd ∈ program.definitions ∧
      t.getLocalSymbol getRootScopeId fd.name = some s ∧ s.id = f ∧
      ∀ τ, IsConcreteTyping t program τ → FunctionHasType t program τ fd signature := by
  constructor
  · rintro ⟨internal, hfind, hsettled⟩
    obtain ⟨_, _, _, name, s, hs, hkind, rfl⟩ := h.step.valid.functions f internal hfind
    obtain ⟨fd, hfd, rfl, _⟩ := function_declared hscoped hs hkind
    exact ⟨fd, s, hfd, hs, rfl, fun τ hτ =>
      hsettled.hasType h hok (h.fields hok) hτ.checks hfd hs hfind⟩
  · rintro ⟨fd, s, hfd, hs, rfl, hall⟩
    obtain ⟨s', sid, internal, callable, hs', hsid, hfind, hps, hcallable, hmodel⟩ :=
      h.functions hok _ hfd fd rfl
    rw [hs] at hs'
    cases hs'
    refine ⟨internal, hfind, ?_⟩
    -- the concrete models agree on the function's type, so all models do
    have hconcrete : ∀ ρ, st.types.ConcreteModel t ρ →
        ρ callable = functionTypes signature.parameters signature.result ∧
          internal.parameters.length = signature.parameters.length := by
      intro ρ hm
      obtain ⟨⟨s', hs', htype⟩, ⟨sid', hsid', hparameters⟩, _⟩ := hall _ (h.typing hok hm)
      rw [hs] at hs'
      cases hs'
      rw [hsid] at hsid'
      cases hsid'
      rw [readTyping_find hcallable] at htype
      exact ⟨htype, hps.length_eq.symm.trans hparameters.length_eq⟩
    obtain ⟨ρ0, hm0⟩ := TypeStore.exists_concreteModel h.step.valid.acyclic t
    obtain ⟨T, hT⟩ := determined_of_agree h.step.valid.acyclic
      (h.step.valid.symbols s.id callable hcallable).1
      fun ρ ρ' hm hm' => (hconcrete ρ hm).1.trans (hconcrete ρ' hm').1.symm
    obtain ⟨hfunction, hlen⟩ := hconcrete ρ0 hm0
    intro ρ hm
    apply functionTypes_inj
    · rw [List.length_map, hlen]
    · rw [← hmodel ρ hm, hT ρ hm, ← hT ρ0 hm0.1, hfunction]

end

/-- The functions of a table, with their symbols. -/
def tableFunctions (t : ScopeTree) (types : TypeTable) : List (Symbol × FunctionSignature) :=
  types.function_signatures.entries.filterMap fun entry =>
    (t.getSymbol entry.1).map fun symbol => (symbol, entry.2)

theorem flatMap_restrictionsOf (types : TypeTable) :
    types.function_signatures.entries.flatMap (restrictionsOf t) =
      (tableFunctions t types).flatMap fun x => restrictionReports x.1 x.2 := by
  unfold tableFunctions
  generalize types.function_signatures.entries = entries
  induction entries with
  | nil => rfl
  | cons entry entries ih =>
    rw [List.flatMap_cons, ih]
    unfold restrictionsOf
    cases hsymbol : t.getSymbol entry.1 with
    | none =>
      rw [List.filterMap_cons_none (by rw [hsymbol]; rfl)]
      rfl
    | some symbol =>
      rw [List.filterMap_cons_some (by rw [hsymbol]; rfl), List.flatMap_cons]
      simp

theorem mem_tableFunctions {types : TypeTable} {symbol : Symbol} {signature : FunctionSignature} :
    (symbol, signature) ∈ tableFunctions t types ↔
      ∃ f, types.getFunctionSignature f = some signature ∧ t.getSymbol f = some symbol := by
  unfold tableFunctions TypeTable.getFunctionSignature
  rw [List.mem_filterMap]
  constructor
  · rintro ⟨⟨f, signature'⟩, hentry, heq⟩
    obtain ⟨symbol', hsymbol, heq⟩ := Option.map_eq_some_iff.mp heq
    cases heq
    exact ⟨f, AssocMap.find_eq_some_iff.mpr hentry, hsymbol⟩
  · rintro ⟨f, hf, hsymbol⟩
    exact ⟨(f, signature), AssocMap.find_eq_some_iff.mp hf, by rw [hsymbol]; rfl⟩

end TypeAnalyzer

open TypeAnalyzer

/-! ## Programs -/

/-- What the parts of the diagnostics are about: those of inference, the symbols
without a concrete type, and the functions whose restrictions are checked. -/
structure ReportsExactly (t : ScopeTree) (program : Program) (inferred : List Diagnostic)
    (undetermined : List Symbol) (determined : List (Symbol × FunctionSignature)) : Prop where
  untypable : inferred = [] ↔ FieldsNameTypes t program ∧ ∃ τ, IsConcreteTyping t program τ
  distinct : inferred = [] → undetermined.Nodup ∧ determined.Nodup
  symbols : inferred = [] → ∀ symbol, symbol ∈ undetermined ↔
    t.getSymbol symbol.id = some symbol ∧ Typed t program symbol.id ∧
      ∃ τ τ', IsConcreteTyping t program τ ∧ IsConcreteTyping t program τ' ∧
        τ symbol.id ≠ τ' symbol.id
  functions : inferred = [] → ∀ symbol signature, (symbol, signature) ∈ determined ↔
    ∃ fd, .FunctionDefinition fd ∈ program.definitions ∧
      t.getLocalSymbol getRootScopeId fd.name = some symbol ∧
      ∀ τ, IsConcreteTyping t program τ → FunctionHasType t program τ fd signature

section

variable {t : ScopeTree} {program : Program} {st st' : TypeAnalyzer}

/-- Each function is in the table once. -/
theorem TypeAnalyzer.Finalized.tableFunctions_nodup (hscoped : t.ProgramScoped program)
    (h : Analyzed t program st) (hfinal : Finalized t st st') :
    (tableFunctions t st'.result.types).Nodup := by
  apply List.Nodup.of_map (·.1.id)
  refine (keys_sublist ?_).nodup st'.result.types.function_signatures.nodup
  rintro ⟨f, signature⟩ hentry ⟨symbol, signature'⟩ heq
  obtain ⟨symbol', hsymbol, heq⟩ := Option.map_eq_some_iff.mp heq
  cases heq
  obtain ⟨internal, hfind, _⟩ :=
    (hfinal.functions f signature).mp (AssocMap.find_eq_some_iff.mpr hentry)
  obtain ⟨_, _, _, name, s, hs, _, rfl⟩ := h.step.valid.functions f internal hfind
  rw [(hscoped.named _ _ _ hs).1] at hsymbol
  cases hsymbol
  rfl

theorem TypeAnalyzer.Analyzed.reportsExactly (h : Analyzed t program st)
    (hscoped : t.ProgramScoped program) (hfinal : Finalized t st st') :
    ReportsExactly t program st.diagnostics (openSymbols t st)
      (tableFunctions t st'.result.types) := by
  refine ⟨h.silent_iff, fun hok => ⟨h.openSymbols_nodup hscoped hok,
    hfinal.tableFunctions_nodup hscoped h⟩, fun hok symbol => h.mem_openSymbols hscoped hok,
    fun hok symbol signature => ?_⟩
  rw [mem_tableFunctions]
  constructor
  · rintro ⟨f, hf, hsymbol⟩
    obtain ⟨fd, s, hfd, hs, rfl, hall⟩ :=
      (h.settled_iff hscoped hok).mp ((hfinal.functions f signature).mp hf)
    rw [(hscoped.named _ _ _ hs).1] at hsymbol
    cases hsymbol
    exact ⟨fd, hfd, hs, hall⟩
  · rintro ⟨fd, hfd, hs, hall⟩
    refine ⟨symbol.id, (hfinal.functions _ _).mpr ?_, (hscoped.named _ _ _ hs).1⟩
    exact (h.settled_iff hscoped hok).mpr ⟨fd, symbol, hfd, hs, rfl, hall⟩

theorem reports_run (hscoped : t.ProgramScoped program) :
    Returns (TypeAnalyzer.analyze t program) initial fun _ st' =>
      ∃ st undetermined determined, Runs (inferProgram t program) initial ⟨⟩ st ∧
        st'.diagnostics = st.diagnostics ++ undetermined.map couldNotInfer ++
          determined.flatMap (fun x => restrictionReports x.1 x.2) ∧
        ReportsExactly t program st.diagnostics undetermined determined := by
  rw [TypeAnalyzer.analyze_eq]
  obtain ⟨_, st, visited, hrun, hpath, h⟩ := inferProgram_spec hscoped
  refine returns_bind ⟨_, st, visited, hrun, hpath, ?_⟩
  refine returns_bind ((finalizeTypes_spec h.step.valid h.step.table).mono fun _ st1 hfinal => ?_)
  refine (checkFunctionRestrictions_reports fun f signature hf =>
    hfinal.symbol h.step.valid hf).mono ?_
  rintro _ st2 ⟨hreports, _⟩
  refine ⟨st, _, _, ⟨visited, hrun⟩, ?_, h.reportsExactly hscoped hfinal⟩
  rw [hreports, hfinal.reports, flatMap_openReports, flatMap_restrictionsOf]

end

/-- The diagnostics after inference, before types are final; those of scope
analysis, if it has any. -/
def inferenceDiagnostics (parsed : ParsedProgram) (analysis : AnalysisResult) :
    Option (List Diagnostic) :=
  if analysis.ok then
    (inferProgram analysis.scopes parsed.ast .initial).map (·.2.1.diagnostics)
  else some analysis.diagnostics

theorem inferenceDiagnostics_of_runs {parsed : ParsedProgram} {analysis : AnalysisResult}
    (hok : analysis.ok) {st : TypeAnalyzer}
    (hrun : Runs (inferProgram analysis.scopes parsed.ast) initial ⟨⟩ st) :
    inferenceDiagnostics parsed analysis = some st.diagnostics := by
  obtain ⟨visited, hrun⟩ := hrun
  unfold inferenceDiagnostics
  rw [if_pos hok, hrun]
  rfl

variable {tokens : TokenVector} {p : ParsedProgram}

/-- The diagnostics of the analyzer are exact: after those of inference come those
of the symbols without one type, and those of the functions with one signature.
The tokens are the scanner's. -/
theorem analyzeTypes_reports (hl : tokens.Lexed) (hp : parse tokens = .ok p)
    (hok : (analyze p).ok) :
    ∃ result inferred undetermined determined, analyzeTypes p (analyze p) = some result ∧
      inferenceDiagnostics p (analyze p) = some inferred ∧
      result.diagnostics = inferred ++ undetermined.map couldNotInfer ++
        determined.flatMap (fun x => restrictionReports x.1 x.2) ∧
      ReportsExactly (analyze p).scopes p.ast inferred undetermined determined := by
  have hscoped := analyze_scoped hl hp hok
  have hrun := reports_run hscoped
  obtain ⟨_, st', _, hrun, _, st, undetermined, determined, hinfer, hreports, hexact⟩ := hrun
  refine ⟨st'.result, st.diagnostics, undetermined, determined, ?_,
    inferenceDiagnostics_of_runs hok hinfer, hreports, hexact⟩
  unfold analyzeTypes
  rw [if_pos hok, hrun]
  rfl

/-- `defn id x = { x } defn main y = { y + 1 }`. -/
def idTokens : TokenVector :=
  ⟨[.Function, .LowerVariable "id", .LowerVariable "x", .Equal, .LeftBrace, .LowerVariable "x",
    .RightBrace, .Function, .LowerVariable "main", .LowerVariable "y", .Equal, .LeftBrace,
    .LowerVariable "y", .Plus, .IntLiteral 1, .RightBrace].map fun load => ⟨load, ⟨1, 1, 1, 1⟩⟩,
    by decide⟩

def idProgram : ParsedProgram :=
  ⟨⟨[.FunctionDefinition ⟨1, "id", ["x"], .Variable 0 "x"⟩, .FunctionDefinition ⟨5, "main", ["y"],
    .BinaryOperator .Addition 3 (.Variable 2 "y") (.IntLiteral 4 1)⟩]⟩,
    List.replicate 6 ⟨1, 1, 1, 1⟩⟩

theorem idProgram_parse : parse idTokens = .ok idProgram := by decide +kernel

/-- `idProgram` has two symbols without one type, and a `main` with a parameter. -/
theorem analyzeTypes_reports_id :
    ∃ result undetermined determined, analyzeTypes idProgram (analyze idProgram) = some result ∧
      inferenceDiagnostics idProgram (analyze idProgram) = some [] ∧
      result.diagnostics = [⟨1, "Could not infer concrete type of 'id'"⟩,
        ⟨1, "Could not infer concrete type of 'x'"⟩,
        ⟨5, "Function 'main' must not have parameters"⟩] ∧
      result.diagnostics = undetermined.map couldNotInfer ++
        determined.flatMap (fun x => restrictionReports x.1 x.2) ∧
      ReportsExactly (analyze idProgram).scopes idProgram.ast [] undetermined determined := by
  obtain ⟨result, inferred, undetermined, determined, hrun, hinferred, hreports, hexact⟩ :=
    analyzeTypes_reports (show idTokens.Lexed by decide) idProgram_parse (by decide +kernel)
  have hnone : inferenceDiagnostics idProgram (analyze idProgram) = some [] := by decide +kernel
  have hdiagnostics : (analyzeTypes idProgram (analyze idProgram)).map (·.diagnostics) =
      some [⟨1, "Could not infer concrete type of 'id'"⟩,
        ⟨1, "Could not infer concrete type of 'x'"⟩,
        ⟨5, "Function 'main' must not have parameters"⟩] := by decide +kernel
  rw [hnone] at hinferred
  cases hinferred
  rw [hrun] at hdiagnostics
  exact ⟨result, undetermined, determined, hrun, hnone, Option.some.inj hdiagnostics, hreports,
    hexact⟩

end mf.semantics
