-- The run of the type analyzer, pass by pass: it returns, the solutions of the
-- state that inference leaves are the typings of the program, and the result
-- is what that state determines.
import MiniFunctional.Registration
import MiniFunctional.FinalTypes

open mf.ast mf.parsing mf.tokenization

namespace mf.semantics

open StateOption ScopeTree

namespace TypeAnalyzer

open TypeStore

variable {t : ScopeTree} {program : Program}

/-! ## The symbols of the passes -/

/-- The symbols of the pattern variables of a definition. -/
def bodySymbols (t : ScopeTree) : Definition → List SymbolId
  | .DataTypeDefinition _ => []
  | .FunctionDefinition fd => t.boundIn fd.body

theorem symbolsIn_append (sid : ScopeId) (names names' : List String) :
    t.symbolsIn sid (names ++ names') = t.symbolsIn sid names ++ t.symbolsIn sid names' :=
  List.filterMap_append

theorem symbolsIn_map {α : Type} (sid : ScopeId) (name : α → String) (l : List α) :
    t.symbolsIn sid (l.map name) = l.flatMap fun a => t.symbolsIn sid [name a] := by
  induction l with
  | nil => rfl
  | cons a l ih =>
    rw [List.map_cons, List.flatMap_cons, ← ih, ← symbolsIn_append]
    rfl

theorem definition_symbols (d : Definition) :
    t.symbolsIn getRootScopeId ((Definition.binders d).map (·.name)) ++ t.localSymbols d =
      dataSymbols t d ++ (functionSymbols t d ++ bodySymbols t d) := by
  cases d with
  | FunctionDefinition fd =>
    simp [Definition.binders, localSymbols, dataSymbols, functionSymbols, bodySymbols]
  | DataTypeDefinition dt =>
    have hnames : (Definition.binders (.DataTypeDefinition dt)).map (·.name) =
        [dt.name] ++ dt.constructors.map (·.name) := by
      simp [Definition.binders, Function.comp_def]
    rw [hnames, symbolsIn_append, symbolsIn_map]
    simp [localSymbols, dataSymbols, functionSymbols, bodySymbols]

/-- The passes change the types of different symbols. -/
theorem phases_nodup (hscoped : t.ProgramScoped program) :
    (t.symbolsIn getRootScopeId ["Int"] ++ (program.definitions.flatMap (dataSymbols t) ++
      (program.definitions.flatMap (functionSymbols t) ++
        program.definitions.flatMap (bodySymbols t)))).Nodup := by
  refine (List.Perm.nodup_iff ?_).mp hscoped.apart
  have hglobal : t.globalSymbols program = t.symbolsIn getRootScopeId ["Int"] ++
      program.definitions.flatMap fun d =>
        t.symbolsIn getRootScopeId ((Definition.binders d).map (·.name)) := by
    unfold ScopeTree.globalSymbols globalFrame
    rw [List.map_cons, ← List.singleton_append, symbolsIn_append, List.map_flatMap]
    unfold ScopeTree.symbolsIn
    rw [List.filterMap_flatMap]
  rw [hglobal, List.append_assoc]
  refine List.Perm.append_left _ ?_
  have hsplit : (program.definitions.flatMap fun d =>
      t.symbolsIn getRootScopeId ((Definition.binders d).map (·.name)) ++ t.localSymbols d) =
      program.definitions.flatMap fun d =>
        dataSymbols t d ++ (functionSymbols t d ++ bodySymbols t d) := by
    simp only [definition_symbols]
  refine (List.flatMap_append_perm _ _ _).trans ?_
  rw [hsplit]
  refine (List.flatMap_append_perm _ _ _).symm.trans ?_
  exact List.Perm.append_left _ (List.flatMap_append_perm _ _ _).symm

/-! ## What the declarations give -/

section

variable (hscoped : t.ProgramScoped program)

include hscoped

/-- The definitions' signatures are all that `Registered` asks for. -/
theorem registered {st : TypeAnalyzer} (hv : st.Valid t)
    (hdata : ∀ d ∈ program.definitions, DataTypeEntered t d st)
    (hfun : ∀ d ∈ program.definitions, FunctionEntered t d st) : Registered t program st := by
  refine ⟨?_, fun name s hs hkind => ?_, fun name s hs hkind => ?_⟩
  · rintro c signature ⟨dt, hdt, ctor, hctor, ds, hds, hdatatype, ⟨s, hs, rfl⟩, hfields⟩
    obtain ⟨ds', hds', hctors⟩ := hdata _ hdt dt rfl
    rw [hds] at hds'
    cases hds'
    obtain ⟨s', fields, internal, hs', hfields', hfind, hinternal, hlen, hmap⟩ := hctors ctor hctor
    rw [hs] at hs'
    cases hs'
    cases namesTypes_unique hfields hfields'
    exact ⟨internal, hfind, by rw [hinternal, hdatatype], hlen, hmap⟩
  · obtain ⟨dt, hdt, ctor, hctor, rfl⟩ := constructor_declared hscoped hs hkind
    obtain ⟨ds, hds, hctors⟩ := hdata _ hdt dt rfl
    obtain ⟨s', fields, internal, hs', hfields, _⟩ := hctors ctor hctor
    exact ⟨⟨ds.id, fields⟩, dt, hdt, ctor, hctor, ds, hds, rfl, ⟨s, hs, rfl⟩, hfields⟩
  · rcases hkind with hkind | hkind
    · obtain ⟨dt, hdt, ctor, hctor, rfl⟩ := constructor_declared hscoped hs hkind
      obtain ⟨ds, hds, hctors⟩ := hdata _ hdt dt rfl
      obtain ⟨s', fields, internal, hs', _, hfind, _⟩ := hctors ctor hctor
      rw [hs] at hs'
      cases hs'
      exact (hv.constructors s.id internal hfind).2.2
    · obtain ⟨fd, hfd, rfl, -⟩ := function_declared hscoped hs hkind
      obtain ⟨s', _, _, callable, hs', _, _, _, hcallable, _⟩ := hfun _ hfd fd rfl
      rw [hs] at hs'
      cases hs'
      exact ⟨callable, hcallable⟩

end

/-! ## Function bodies -/

/-- What the bodies are checked against. -/
def Prepared (t : ScopeTree) (program : Program) (st : TypeAnalyzer) : Prop :=
  Registered t program st ∧ ∀ d ∈ program.definitions, FunctionEntered t d st

theorem prepared_persists : Persists t (Prepared t program) := by
  rintro changed st st' hstep hfresh ⟨hr, hf⟩
  exact ⟨hr.step hstep hfresh, fun d hd => functionEntered_persists d hstep hfresh (hf d hd)⟩

def BodyBound (t : ScopeTree) (d : Definition) (st : TypeAnalyzer) : Prop :=
  ∀ s ∈ bodySymbols t d, ∃ id, st.symbol_types.find s = some id

theorem bodyBound_persists (d : Definition) : Persists t (BodyBound t d) := by
  intro changed st st' hstep hfresh h s hs
  obtain ⟨id, hid⟩ := h s hs
  exact ⟨id, hstep.find hfresh hid⟩

def BodyTyped (t : ScopeTree) (program : Program) (d : Definition) (τ : Typing) : Prop :=
  ∀ fd, d = .FunctionDefinition fd → ∃ signature, FunctionHasType t program τ fd signature

/-- The parameters of a prepared function have types. -/
theorem forall₂_bound {st : TypeAnalyzer} {sid : ScopeId} {names : List String}
    {ids : List TypeId}
    (h : List.Forall₂ (fun name id => ∃ p, t.getLocalSymbol sid name = some p ∧
      st.symbol_types.find p.id = some id) names ids) :
    ∀ x ∈ t.symbolsIn sid names, ∃ id, st.symbol_types.find x = some id := by
  intro x hx
  obtain ⟨name, hname, p, hp, rfl⟩ := mem_symbolsIn.mp hx
  induction h with
  | nil => simp at hname
  | cons hhead _ ih =>
    rcases List.mem_cons.mp hname with rfl | hname
    · obtain ⟨p', hp', hid⟩ := hhead
      rw [hp] at hp'
      cases hp'
      exact ⟨_, hid⟩
    · exact ih hname (mem_symbolsIn.mpr ⟨name, hname, p, hp, rfl⟩)

section

variable (hscoped : t.ProgramScoped program)

include hscoped

theorem inferFunctionBody_spec {d : Definition} (hd : d ∈ program.definitions) {st : TypeAnalyzer}
    (hv : st.Valid t) (hnodup : (bodySymbols t d).Nodup) (hfresh : st.Fresh (bodySymbols t d)) :
    Returns (inferFunctionBody t d) st fun _ st' =>
      Outcome t (bodySymbols t d) (Prepared t program st) (BodyBound t d) (BodyTyped t program d)
        st st' := by
  cases d with
  | DataTypeDefinition dt =>
    exact returns_pure (.nothing hv (by simp [BodyBound, bodySymbols]) nofun)
  | FunctionDefinition fd =>
    obtain ⟨⟨s, hs, hkind, -⟩, ⟨sid, hsid, hparams⟩, hscope⟩ := hscoped.functions fd hd
    have hget : getRootSymbol t fd.name .Function = some s := by
      unfold getRootSymbol
      rw [hs]
      simp [Option.filter, hkind]
    have hlocals : t.parameterSymbols fd = t.symbolsIn sid fd.parameters := by
      unfold ScopeTree.parameterSymbols
      rw [hsid]
    rw [hlocals] at hscope
    simp only [inferFunctionBody, hget]
    refine returns_bind (returns_get ?_)
    cases hfind : st.function_signatures.find s.id with
    | none =>
      have hnot : ¬ Prepared t program st := by
        rintro ⟨-, hf⟩
        obtain ⟨s', _, _, _, hs', _, hfind', _⟩ := hf _ hd fd rfl
        rw [hs] at hs'
        cases hs'
        rw [hfind] at hfind'
        cases hfind'
      exact returns_pure ⟨(Step.refl hv).mono (by simp), fun h => absurd h hnot,
        fun h => absurd h hnot, fun h => absurd h hnot⟩
    | some internal =>
      obtain ⟨_, hresult, _⟩ := hv.functions s.id internal hfind
      refine returns_bind ((inferExpression_spec hscoped fd.body hv hscope hnodup hfresh).mono
        fun body st1 h1 => ?_)
      refine returns_bind ((unify_spec h1.step.valid h1.inRange
        (Nat.lt_of_lt_of_le hresult h1.step.length) _ _).mono fun _ st2 h2 => returns_pure ?_)
      have hstep := h1.step.trans h2.step
      -- what was prepared for the function
      have hprep : Prepared t program st → ∃ callable,
          List.Forall₂ (fun name id => ∃ p, t.getLocalSymbol sid name = some p ∧
            st.symbol_types.find p.id = some id) fd.parameters internal.parameters ∧
          st.symbol_types.find s.id = some callable ∧ ∀ ρ, st.types.Models ρ →
            ρ callable = functionTypes (internal.parameters.map ρ) (ρ internal.result) := by
        rintro ⟨-, hf⟩
        obtain ⟨s', sid', internal', callable, hs', hsid', hfind', hps, hcallable, hmodel⟩ :=
          hf _ hd fd rfl
        rw [hs] at hs'
        cases hs'
        rw [hsid] at hsid'
        cases hsid'
        rw [hfind] at hfind'
        cases hfind'
        exact ⟨callable, hps, hcallable, hmodel⟩
      have hready : Prepared t program st →
          Ready t program (t.symbolsIn sid fd.parameters) st := by
        intro hp
        obtain ⟨_, hps, _⟩ := hprep hp
        refine ⟨hp.1, fun x hx => ?_⟩
        exact forall₂_bound hps x hx
      refine ⟨hstep.mono (by simp [bodySymbols]), fun hp heq x hx => ?_,
        fun hp heq ρ τ hsol fd' hfd' => ?_, fun hp ρ τ hsol hc => ?_⟩
      · obtain ⟨heq1, _⟩ := h1.step.silent h2.step heq
        obtain ⟨id, hid⟩ := h1.bound (hready hp) heq1 x hx
        exact ⟨id, h2.step.find (by simp) hid⟩
      · cases hfd'
        obtain ⟨callable, hps, hcallable, hmodel⟩ := hprep hp
        obtain ⟨heq1, heq2⟩ := h1.step.silent h2.step heq
        have hsol1 := h2.step.solves (by simp) hsol
        have hsol0 := h1.step.solves hfresh hsol1
        have htype := h1.sound (hready hp) heq1 ρ τ hsol1
        rw [h2.sound heq2 ρ hsol.1] at htype
        refine ⟨⟨internal.parameters.map ρ, ρ internal.result⟩, ⟨s, hs, ?_⟩, ⟨sid, hsid, ?_⟩, htype⟩
        · rw [hsol0.2 s.id callable hcallable, hmodel ρ hsol0.1]
        · exact forall₂_agrees hsol0.2 hps
      · obtain ⟨callable, hps, hcallable, hmodel⟩ := hprep hp
        obtain ⟨signature, ⟨s', hs', hτ⟩, ⟨sid', hsid', hall⟩, htype⟩ := hc fd rfl
        rw [hs] at hs'
        cases hs'
        rw [hsid] at hsid'
        cases hsid'
        have hcall : functionTypes (internal.parameters.map ρ) (ρ internal.result) =
            functionTypes signature.parameters signature.result := by
          rw [← hτ, hsol.2 s.id callable hcallable, hmodel ρ hsol.1]
        have hlen : (internal.parameters.map ρ).length = signature.parameters.length := by
          rw [List.length_map, ← hps.length_eq, hall.length_eq]
        obtain ⟨_, hR⟩ := functionTypes_inj hlen hcall
        obtain ⟨ρ1, he1, hbody⟩ := h1.complete (hready hp) ρ τ _ hsol htype
        have he2 := h2.complete ρ1 τ he1.solves (by rw [hbody, he1.same _ hresult, hR])
        exact ⟨ρ1, he1.trans he2 h1.step.length⟩

/-! ## The run of the analyzer -/

/-- The state after inference, before the types are read off. -/
structure Analyzed (t : ScopeTree) (program : Program) (st : TypeAnalyzer) : Prop where
  step : Step t (t.symbolsIn getRootScopeId ["Int"] ++
    (program.definitions.flatMap (dataSymbols t) ++
      (program.definitions.flatMap (functionSymbols t) ++
        program.definitions.flatMap (bodySymbols t)))) initial st
  data : st.diagnostics = [] → ∀ d ∈ program.definitions, DataTypeEntered t d st
  functions : st.diagnostics = [] → ∀ d ∈ program.definitions, FunctionEntered t d st
  bodies : st.diagnostics = [] → ∀ d ∈ program.definitions, BodyBound t d st
  sound : st.diagnostics = [] → ∀ ρ τ, st.Solves ρ τ → IsTyping t program τ
  complete : FieldsNameTypes t program → ∀ τ, IsTyping t program τ →
    ∃ ρ, st.Solves ρ τ ∧ st.diagnostics = []

omit hscoped in
theorem initial_valid (t : ScopeTree) : initial.Valid t := by
  refine ⟨⟨fun _ => 0, by simp [initial], by simp [initial]⟩, ?_, ?_, ?_, ?_⟩
  · intro id symbol h
    simp [initial] at h
  · intro s id h
    cases h
  · intro c signature h
    cases h
  · intro f signature h
    cases h

omit hscoped in
theorem initial_solves (ρ : TypeId → TypeVariant) (τ : Typing) : initial.Solves ρ τ := by
  constructor
  · intro id n h
    simp [initial] at h
  · intro s id h
    cases h

theorem registerBuiltins_spec : Returns (registerBuiltins t) initial fun _ st' =>
    Outcome t (t.symbolsIn getRootScopeId ["Int"]) True (fun _ => True)
      (fun τ => ∀ s, t.getLocalSymbol getRootScopeId "Int" = some s → τ s.id = intType)
      initial st' := by
  obtain ⟨s, hs, -, -⟩ := global_symbol hscoped
    (b := ⟨"Int", .BuiltinType, kInvalidNodeId⟩) List.mem_cons_self
  simp only [registerBuiltins, hs]
  have hv := initial_valid t
  refine (setGlobalType_spec hscoped hs (fun _ _ => rfl) (makeInt_spec hv) (T := intType)
    fun ρ S => Iff.rfl).mono fun _ st' h => ?_
  refine ⟨h.step, h.facts, fun hh heq ρ τ hsol s' hs' => ?_, fun hh ρ τ hsol hc => ?_⟩
  · cases hs'
    exact h.sound hh heq ρ τ hsol
  · exact h.complete hh ρ τ hsol (hc s rfl)

/-- The conditions of the passes are those of a typing. -/
theorem isTyping_of_passes {τ : Typing}
    (hint : ∀ s, t.getLocalSymbol getRootScopeId "Int" = some s → τ s.id = intType)
    (hdata : ∀ d ∈ program.definitions, DataTypeTyped t d τ)
    (hbodies : ∀ d ∈ program.definitions, BodyTyped t program d τ) : IsTyping t program τ := by
  refine ⟨fun name s T hs hT => ?_, ?_, fun fd hfd => hbodies _ hfd fd rfl⟩
  · obtain ⟨s', hs', hk⟩ := hT
    rw [hs] at hs'
    cases hs'
    rcases hk with ⟨hk, rfl⟩ | ⟨hk, rfl⟩
    · obtain rfl := builtin_declared hscoped hs hk
      exact hint s hs
    · obtain ⟨dt, hdt, rfl⟩ := dataType_declared hscoped hs hk
      obtain ⟨s', hs', hτ, _⟩ := hdata _ hdt dt rfl
      rw [hs] at hs'
      cases hs'
      exact hτ
  · rintro id signature ⟨dt, hdt, ctor, hctor, ds, hds, hdatatype, ⟨s, hs, rfl⟩, hfields⟩
    obtain ⟨ds', hds', _, hctors⟩ := hdata _ hdt dt rfl
    rw [hds] at hds'
    cases hds'
    obtain ⟨s', fields, hs', hfields', hτ⟩ := hctors ctor hctor
    rw [hs] at hs'
    cases hs'
    rw [namesTypes_unique hfields hfields', hdatatype]
    exact hτ

omit hscoped in
theorem forall₂_of_forall {α β : Type} {R : α → β → Prop} {l : List α}
    (h : ∀ a ∈ l, ∃ b, R a b) : ∃ l', List.Forall₂ R l l' := by
  induction l with
  | nil => exact ⟨[], .nil⟩
  | cons a l ih =>
    obtain ⟨b, hb⟩ := h a List.mem_cons_self
    obtain ⟨l', hl'⟩ := ih fun a ha => h a (List.mem_cons_of_mem _ ha)
    exact ⟨b :: l', .cons hb hl'⟩

theorem passes_of_isTyping (hfields : FieldsNameTypes t program) {τ : Typing}
    (h : IsTyping t program τ) :
    (∀ s, t.getLocalSymbol getRootScopeId "Int" = some s → τ s.id = intType) ∧
      (∀ d ∈ program.definitions, DataTypeTyped t d τ) ∧
      (∀ d ∈ program.definitions, FunctionTyped t d τ) ∧
      ∀ d ∈ program.definitions, BodyTyped t program d τ := by
  refine ⟨fun s hs => ?_, fun d hd dt hdt => ?_, fun d hd fd hfd => ?_, fun d hd fd hfd => ?_⟩
  · obtain ⟨s', hs', hkind, -⟩ := global_symbol hscoped
      (b := ⟨"Int", .BuiltinType, kInvalidNodeId⟩) List.mem_cons_self
    rw [hs] at hs'
    cases hs'
    exact h.types "Int" s intType hs ⟨s, hs, .inl ⟨hkind, rfl⟩⟩
  · subst hdt
    obtain ⟨s, hs, hkind, -⟩ := global_symbol hscoped
      (mem_globalFrame hd (b := ⟨dt.name, .DataType, dt.id⟩) (by simp [Definition.binders]))
    refine ⟨s, hs, h.types dt.name s _ hs ⟨s, hs, .inr ⟨hkind, rfl⟩⟩, fun ctor hctor => ?_⟩
    obtain ⟨cs, hcs, -, -⟩ := global_symbol hscoped
      (mem_globalFrame hd (b := ⟨ctor.name, .Constructor, ctor.id⟩) (by
        simp only [Definition.binders, List.mem_cons, List.mem_map]
        exact .inr ⟨ctor, hctor, rfl⟩))
    obtain ⟨fields, hnames⟩ := forall₂_of_forall (hfields dt hd ctor hctor)
    refine ⟨cs, fields, hcs, hnames, ?_⟩
    exact h.constructors cs.id ⟨s.id, fields⟩ ⟨dt, hd, ctor, hctor, s, hs, rfl,
      ⟨cs, hcs, rfl⟩, hnames⟩
  · subst hfd
    obtain ⟨signature, ⟨s, hs, hτ⟩, ⟨sid, hsid, hall⟩, _⟩ := h.functions fd hd
    exact ⟨s, sid, signature.parameters, signature.result, hs, hsid, hall, hτ⟩
  · subst hfd
    exact h.functions fd hd

/-- The final result in terms of the state after inference. -/
structure Settled (t : ScopeTree) (st : TypeAnalyzer) (result : TypeAnalysisResult) : Prop where
  ok : result.ok ↔ st.diagnostics = [] ∧
    (∀ s id, st.symbol_types.find s = some id → ∃ T, Determined st.types id T) ∧
    ∀ f internal signature, st.function_signatures.find f = some internal →
      FunctionSettled st.types internal signature → FirstOrder t f signature
  constructors : ∀ c signature, result.types.getConstructorSignature c = some signature ↔
    ∃ internal, st.constructor_signatures.find c = some internal ∧
      ConstructorSettled st.types internal signature
  functions : ∀ f signature, result.types.getFunctionSignature f = some signature ↔
    ∃ internal, st.function_signatures.find f = some internal ∧
      FunctionSettled st.types internal signature

omit hscoped in
theorem finish_spec {st : TypeAnalyzer} (hv : st.Valid t)
    (htable : st.result.types = initial.result.types) :
    Returns (do finalizeTypes t; checkFunctionRestrictions t) st fun _ st' =>
      Settled t st st'.result := by
  unfold finalizeTypes
  refine returns_bind (returns_bind ((finalizeSymbolTypes_spec hv).mono ?_))
  rintro _ st1 ⟨h1, htable1, hdiag1⟩
  refine returns_bind ((finalizeConstructorSignatures_spec hv h1 fun c => by
    rw [htable1, htable]
    rfl).mono ?_)
  rintro _ st2 ⟨h2, hdiag2, hfun2, hctors⟩
  refine (finalizeFunctionSignatures_spec hv h2 fun f => by
    rw [hfun2, htable1, htable]
    rfl).mono ?_
  rintro _ st3 ⟨h3, hdiag3, hctor3, hfuns⟩
  refine (checkFunctionRestrictions_spec fun f signature hf => ?_).mono ?_
  · obtain ⟨internal, hinternal, _⟩ := (hfuns f signature).mp hf
    obtain ⟨_, _, ⟨id, hid⟩, _⟩ := hv.functions f internal hinternal
    exact (hv.symbols f id hid).2
  · intro _ st4 h4
    refine ⟨?_, fun c signature => ?_, fun f signature => ?_⟩
    · have hsilent : st4.diagnostics = [] ↔
          st.diagnostics = [] ∧ st1.diagnostics = st.diagnostics ∧
            st4.diagnostics = st3.diagnostics := by
        rw [hdiag3, hdiag2]
        constructor
        · intro h
          have hle1 := h1.reports.length_le
          have hle4 := h4.reports.length_le
          rw [hdiag3, hdiag2] at hle4
          rw [h, List.length_nil, Nat.le_zero, List.length_eq_zero_iff] at hle4
          rw [hle4, List.length_nil, Nat.le_zero, List.length_eq_zero_iff] at hle1
          exact ⟨hle1, hle4.trans hle1.symm, h.trans hle4.symm⟩
        · rintro ⟨ha, hb, hc⟩
          rw [hc, hb, ha]
      have hok : st4.result.ok ↔ st4.diagnostics = [] := by
        unfold TypeAnalysisResult.ok
        rw [List.isEmpty_iff]
      rw [hok, hsilent, hdiag1, h4.silent]
      refine and_congr_right fun _ => and_congr ?_ ?_
      · simp only [Prod.forall, ← AssocMap.find_eq_some_iff]
      · constructor
        · exact fun h f internal signature hf hs =>
            h f signature ((hfuns f signature).mpr ⟨internal, hf, hs⟩)
        · intro h f signature hf
          obtain ⟨internal, hinternal, hs⟩ := (hfuns f signature).mp hf
          exact h f internal signature hinternal hs
    · unfold TypeTable.getConstructorSignature
      rw [h4.table, hctor3]
      exact hctors c signature
    · unfold TypeTable.getFunctionSignature
      rw [h4.table]
      exact hfuns f signature

/-- The passes before the bodies. -/
def prepareProgram (t : ScopeTree) (program : Program) : AnalyzerM PUnit := do
  registerBuiltins t
  registerConstructors t program
  prepareFunctionSignatures t program

/-- The passes up to the last unification. -/
def inferProgram (t : ScopeTree) (program : Program) : AnalyzerM PUnit := do
  prepareProgram t program
  inferFunctionBodies t program

omit hscoped in
theorem analyze_eq (t : ScopeTree) (program : Program) : analyze t program = (do
    inferProgram t program
    finalizeTypes t
    checkFunctionRestrictions t) := by
  simp only [analyze, inferProgram, prepareProgram, bind_assoc]

/-- What the passes before the bodies find. -/
abbrev ProgramPrepared (t : ScopeTree) (program : Program) (st : TypeAnalyzer) : Prop :=
  Outcome t (t.symbolsIn getRootScopeId ["Int"] ++ program.definitions.flatMap (dataSymbols t) ++
      program.definitions.flatMap (functionSymbols t)) True
    (fun st => (True ∧ ∀ d ∈ program.definitions, DataTypeEntered t d st) ∧
      ∀ d ∈ program.definitions, FunctionEntered t d st)
    (fun τ => ((∀ s, t.getLocalSymbol getRootScopeId "Int" = some s → τ s.id = intType) ∧
      ∀ d ∈ program.definitions, DataTypeTyped t d τ) ∧
      ∀ d ∈ program.definitions, FunctionTyped t d τ) initial st ∧
  st.Fresh (program.definitions.flatMap (bodySymbols t))

theorem prepareProgram_spec :
    Returns (prepareProgram t program) initial fun _ st => ProgramPrepared t program st := by
  have hnodup := phases_nodup hscoped
  simp only [List.nodup_append', List.disjoint_append_right] at hnodup
  obtain ⟨_, ⟨hndata, ⟨hnfun, _, hfb⟩, hdf, hdb⟩, hid, hif, hib⟩ := hnodup
  refine returns_bind ((registerBuiltins_spec hscoped).mono fun _ st1 h1 => ?_)
  have hf1 : ∀ symbols, List.Disjoint (t.symbolsIn getRootScopeId ["Int"]) symbols →
      st1.Fresh symbols := fun symbols hdisj => Fresh.step (fun _ _ => rfl) h1.step hdisj
  refine returns_bind ((forM_outcome (H := fun _ => True) (F := DataTypeEntered t)
    (C := DataTypeTyped t) persists_true dataTypeEntered_persists
    (fun d hd st hv hfresh => registerDataType_spec hscoped hd hv
      (List.nodup_flatMap.mp hndata |>.1 d hd) hfresh) h1.step.valid hndata (hf1 _ hid)).mono
    fun _ st2 h2 => ?_)
  have h12 := h1.trans h2 persists_true (fun _ _ => trivial) (hf1 _ hid)
  have hf2 := (hf1 _ hif).step h2.step hdf
  refine (forM_outcome (H := fun _ => True) (F := FunctionEntered t)
    (C := FunctionTyped t) persists_true functionEntered_persists
    (fun d hd st hv hfresh => prepareFunction_spec hscoped hd hv
      (List.nodup_flatMap.mp hnfun |>.1 d hd) hfresh) h2.step.valid hnfun hf2).mono
    fun _ st3 h3 => ?_
  have hpersists12 : Persists t fun st =>
      True ∧ ∀ d ∈ program.definitions, DataTypeEntered t d st :=
    fun hstep hfresh h =>
      ⟨trivial, fun d hd => dataTypeEntered_persists d hstep hfresh (h.2 d hd)⟩
  exact ⟨h12.trans h3 hpersists12 (fun _ _ => trivial) hf2,
    ((hf1 _ hib).step h2.step hdb).step h3.step hfb⟩

theorem inferProgram_spec :
    Returns (inferProgram t program) initial fun _ st => Analyzed t program st := by
  have hnodup := phases_nodup hscoped
  simp only [List.nodup_append'] at hnodup
  obtain ⟨_, ⟨_, ⟨_, hnbody, _⟩, _⟩, _⟩ := hnodup
  refine returns_bind ((prepareProgram_spec hscoped).mono fun _ st3 ⟨h13, hf3⟩ => ?_)
  refine (forM_outcome (H := Prepared t program) (F := BodyBound t)
    (C := BodyTyped t program) prepared_persists bodyBound_persists
    (fun d hd st hv hfresh => inferFunctionBody_spec hscoped hd hv
      (List.nodup_flatMap.mp hnbody |>.1 d hd) hfresh) h13.step.valid hnbody hf3).mono
    fun _ st4 h4 => ?_
  have hpersists13 : Persists t fun st =>
      (True ∧ ∀ d ∈ program.definitions, DataTypeEntered t d st) ∧
        ∀ d ∈ program.definitions, FunctionEntered t d st :=
    fun hstep hfresh h =>
      ⟨⟨trivial, fun d hd => dataTypeEntered_persists d hstep hfresh (h.1.2 d hd)⟩,
        fun d hd => functionEntered_persists d hstep hfresh (h.2 d hd)⟩
  have h14 := h13.trans h4 hpersists13
    (fun _ h => ⟨registered hscoped h13.step.valid h.1.2 h.2, h.2⟩) hf3
  have hinit : initial.diagnostics = [] := rfl
  refine ⟨h14.step.mono (by simp), fun h => ?_, fun h => ?_, fun h => ?_, fun h ρ τ hsol => ?_,
    fun hfields τ hτ => ?_⟩
  · exact (h14.facts trivial (h.trans hinit.symm)).1.1.2
  · exact (h14.facts trivial (h.trans hinit.symm)).1.2
  · exact (h14.facts trivial (h.trans hinit.symm)).2
  · obtain ⟨⟨⟨hint, hdata⟩, _⟩, hbodies⟩ := h14.sound trivial (h.trans hinit.symm) ρ τ hsol
    exact isTyping_of_passes hscoped hint hdata hbodies
  · obtain ⟨hint, hdata, hfuns, hbodies⟩ := passes_of_isTyping hscoped hfields hτ
    obtain ⟨ρ, he⟩ := h14.complete trivial (fun _ => .IntType) τ (initial_solves _ τ)
      ⟨⟨⟨hint, hdata⟩, hfuns⟩, hbodies⟩
    exact ⟨ρ, he.solves, he.silent⟩

theorem analyze_run : Returns (analyze t program) initial fun _ st' =>
    ∃ st, Runs (inferProgram t program) initial ⟨⟩ st ∧ Analyzed t program st ∧
      Settled t st st'.result := by
  rw [analyze_eq]
  obtain ⟨_, st, visited, hrun, hpath, h⟩ := inferProgram_spec hscoped
  refine returns_bind ⟨_, st, visited, hrun, hpath, ?_⟩
  exact (finish_spec h.step.valid h.step.table).mono
    fun _ st' hs => ⟨st, ⟨visited, hrun⟩, h, hs⟩

end

end TypeAnalyzer

end mf.semantics
