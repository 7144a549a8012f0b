-- The last passes of the analyzer: every symbol must have one concrete type,
-- the signatures are written down, and functions must be first-order. The
-- store only gets compressed.
import MiniFunctional.AnalyzerSteps

open mf.ast

namespace mf.semantics

open StateOption ScopeTree

namespace TypeAnalyzer

open TypeStore

variable {t : ScopeTree}

/-- All models give the node this type. -/
def Determined (types : TypeStore) (id : TypeId) (T : TypeVariant) : Prop :=
  ∀ ρ, types.Models ρ → ρ id = T

/-- From `st` to `st'`, paths were compressed, and only the result changed. -/
structure Settles (st st' : TypeAnalyzer) : Prop where
  types : Compressed st.types st'.types
  symbols : st'.symbol_types = st.symbol_types
  constructors : st'.constructor_signatures = st.constructor_signatures
  functions : st'.function_signatures = st.function_signatures
  reports : st.diagnostics <+: st'.diagnostics

section

variable {st st1 st2 : TypeAnalyzer}

theorem Settles.refl (st : TypeAnalyzer) : Settles st st :=
  ⟨.refl _, rfl, rfl, rfl, List.prefix_refl _⟩

theorem Settles.trans (h : Settles st st1) (h' : Settles st1 st2) : Settles st st2 :=
  ⟨h.types.trans h'.types, h'.symbols.trans h.symbols, h'.constructors.trans h.constructors,
    h'.functions.trans h.functions, h.reports.trans h'.reports⟩

theorem Settles.silent (h : Settles st st1) (h' : Settles st1 st2) :
    st2.diagnostics = st.diagnostics ↔
      st1.diagnostics = st.diagnostics ∧ st2.diagnostics = st1.diagnostics := by
  constructor
  · intro heq
    have hle := h.reports.length_le
    have hle' := h'.reports.length_le
    rw [heq] at hle'
    have h1 := (h.reports.eq_of_length (by omega)).symm
    exact ⟨h1, heq.trans h1.symm⟩
  · rintro ⟨h1, h2⟩
    exact h2.trans h1

theorem Settles.report (h : Settles st st1) (node_id : NodeId) (message : String) :
    Returns (addError node_id message) st1 fun _ st2 =>
      Settles st st2 ∧ st2.diagnostics ≠ st.diagnostics ∧ st2.result.types = st1.result.types := by
  refine returns_modify .result ⟨⟨h.types, h.symbols, h.constructors, h.functions,
    h.reports.trans (List.prefix_append _ _)⟩, fun heq => ?_, rfl⟩
  have hle := h.reports.length_le
  have := congrArg List.length heq
  simp [diagnostics] at this hle
  omega

end

/-- What `materialize` gives, in terms of the store before the last passes. -/
theorem materialize_settles {st st1 : TypeAnalyzer} (ha : st.types.Acyclic) (h : Settles st st1)
    {id : Nat} (hid : id < st.types.length) :
    Returns (onTypes (materialize id)) st1 fun T st2 => Settles st st2 ∧
      st2.result = st1.result ∧ Materializes st.types id T := by
  refine returns_onTypes ((materialize_spec (h.types.acyclic ha) (by
    rw [h.types.length]
    exact hid)).mono ?_)
  rintro T types ⟨hT, hc⟩
  exact ⟨⟨h.types.trans hc, h.symbols, h.constructors, h.functions, h.reports⟩, rfl,
    hT.compressed h.types ha⟩

theorem not_determined {types : TypeStore} (ha : types.Acyclic) {id : Nat}
    (h : Materializes types id none) (T : TypeVariant) : ¬ Determined types id T := by
  intro hd
  obtain ⟨ρ, ρ', ⟨hm, _⟩, ⟨hm', _⟩, hne⟩ := h.two_models ha .initial
  exact hne ((hd ρ hm).trans (hd ρ' hm').symm)

/-- A type on which the concrete models agree is the same in all models. -/
theorem determined_of_agree {types : TypeStore} (ha : types.Acyclic) {id : Nat}
    (hid : id < types.length) (h : ∀ ρ ρ', types.ConcreteModel t ρ → types.ConcreteModel t ρ' →
      ρ id = ρ' id) : ∃ T, Determined types id T := by
  obtain ⟨T, _, _, _, _, hT, _⟩ := materialize_spec ha hid
  cases T with
  | some T => exact ⟨T, hT⟩
  | none =>
    obtain ⟨ρ, ρ', hm, hm', hne⟩ := hT.two_models ha t
    exact absurd (h ρ ρ' hm hm') hne

/-! ## Symbols -/

theorem finalizeSymbolTypes_spec {st : TypeAnalyzer} (hv : st.Valid t) :
    Returns (finalizeSymbolTypes t) st fun _ st' => Settles st st' ∧
      st'.result.types = st.result.types ∧ (st'.diagnostics = st.diagnostics ↔
        ∀ entry ∈ st.symbol_types.entries, ∃ T, Determined st.types entry.2 T) := by
  refine returns_bind (returns_get ?_)
  have hloop := returns_forM (f := finalizeSymbolType t)
    (I := fun done st' => Settles st st' ∧ st'.result.types = st.result.types ∧
      (st'.diagnostics = st.diagnostics ↔ ∀ entry ∈ done, ∃ T, Determined st.types entry.2 T))
    (l := st.symbol_types.entries) (d := []) (s := st)
    ⟨.refl st, rfl, by simp⟩ ?_
  · simpa using hloop
  · rintro before ⟨s, id⟩ after st1 hsplit ⟨hsettles, htable, hiff⟩
    have hentry : (s, id) ∈ st.symbol_types.entries := by
      rw [List.nil_append] at hsplit
      rw [hsplit]
      simp
    obtain ⟨hid, symbol, hsymbol⟩ := hv.symbols s id (AssocMap.find_eq_some_iff.mpr hentry)
    refine returns_bind ((materialize_settles hv.acyclic hsettles hid).mono ?_)
    rintro T st2 ⟨hsettles2, hresult, hT⟩
    have hdiag : st2.diagnostics = st1.diagnostics := by rw [diagnostics, hresult]
    cases T with
    | some T =>
      refine returns_pure ⟨hsettles2, by rw [hresult, htable], ?_⟩
      rw [hdiag, hiff]
      simp only [List.mem_append, List.mem_singleton, or_imp, forall_and, forall_eq]
      exact ⟨fun hb => ⟨hb, T, hT⟩, And.left⟩
    | none =>
      refine returns_bind (returns_readTypes hsymbol ?_)
      refine (hsettles2.report symbol.declaration _).mono ?_
      rintro _ st3 ⟨hsettles3, hne, htable3⟩
      refine ⟨hsettles3, by rw [htable3, hresult, htable],
        fun heq => absurd heq hne, fun hall => ?_⟩
      obtain ⟨T, hd⟩ := hall (s, id) (by simp)
      exact absurd hd (not_determined hv.acyclic hT T)

/-! ## Signatures -/

theorem materializeAll_settles {st st1 : TypeAnalyzer} (ha : st.types.Acyclic)
    (h : Settles st st1) {ids : List TypeId}
    (hids : ∀ (id : Nat), id ∈ ids → id < st.types.length) :
    Returns (materializeAll ids) st1 fun res st2 => Settles st st2 ∧ st2.result = st1.result ∧
      ∀ Ts, res = some Ts ↔ ∀ ρ, st.types.Models ρ → ids.map ρ = Ts := by
  -- the store has a model, so the types of the nodes are unique
  obtain ⟨ρ0, hρ0, -⟩ := exists_model ha fun _ => .IntType
  induction ids generalizing st1 with
  | nil =>
    refine returns_pure ⟨h, rfl, fun Ts => ?_⟩
    constructor
    · rintro hTs ρ -
      cases hTs
      rfl
    · intro hall
      rw [← hall ρ0 hρ0]
      rfl
  | cons id ids ih =>
    rw [materializeAll]
    refine returns_bind ((materialize_settles ha h (hids id List.mem_cons_self)).mono ?_)
    rintro T st2 ⟨h2, hresult2, hT⟩
    cases T with
    | none =>
      refine returns_pure ⟨h2, hresult2, fun Ts => ⟨nofun, fun hall => ?_⟩⟩
      obtain ⟨ρ, ρ', ⟨hm, _⟩, ⟨hm', _⟩, hne⟩ := hT.two_models ha .initial
      have heq := (hall ρ hm).trans (hall ρ' hm').symm
      simp only [List.map_cons, List.cons.injEq] at heq
      exact absurd heq.1 hne
    | some T =>
      refine returns_bind ((ih h2 fun x hx => hids x (List.mem_cons_of_mem _ hx)).mono ?_)
      rintro res st3 ⟨h3, hresult3, hres⟩
      have hresult := hresult3.trans hresult2
      cases res with
      | none =>
        refine returns_pure ⟨h3, hresult, fun Ts => ⟨nofun, fun hall => ?_⟩⟩
        have hrest : ∀ ρ, st.types.Models ρ → ids.map ρ = ids.map ρ0 := by
          intro ρ hm
          have heq := (hall ρ hm).trans (hall ρ0 hρ0).symm
          simp only [List.map_cons, List.cons.injEq] at heq
          exact heq.2
        cases (hres _).mpr hrest
      | some Ts =>
        have hmap := (hres Ts).mp rfl
        refine returns_pure ⟨h3, hresult, fun Ts' => ⟨?_, fun hall => ?_⟩⟩
        · rintro hTs ρ hm
          cases hTs
          rw [List.map_cons, hmap ρ hm, hT ρ hm]
        · rw [← hall ρ0 hρ0, List.map_cons, hmap ρ0 hρ0, hT ρ0 hρ0]

/-- The signature that the store determines for a constructor. -/
def ConstructorSettled (types : TypeStore) (internal : InternalConstructorSignature)
    (signature : ConstructorSignature) : Prop :=
  signature.data_type = internal.data_type ∧
    ∀ ρ, types.Models ρ → internal.fields.map ρ = signature.fields

/-- The signature that the store determines for a function. -/
def FunctionSettled (types : TypeStore) (internal : InternalFunctionSignature)
    (signature : FunctionSignature) : Prop :=
  ∀ ρ, types.Models ρ → internal.parameters.map ρ = signature.parameters ∧
    ρ internal.result = signature.result

/-- A new entry of a map whose entries come from those of a list. -/
theorem find_emplace_done {α β γ : Type} [DecidableEq α] {m : AssocMap α γ} {R : β → γ → Prop}
    {before : List (α × β)} {key : α} {b : β}
    (hm : ∀ k v, m.find k = some v ↔ ∃ b, (k, b) ∈ before ∧ R b v)
    (hnew : key ∉ before.map Prod.fst) {value : γ} (hR : ∀ v, R b v ↔ v = value) :
    ∀ k v, (m.emplace key value).find k = some v ↔
      ∃ b', (k, b') ∈ before ++ [(key, b)] ∧ R b' v := by
  have hnone : m.find key = none := by
    rw [Option.eq_none_iff_forall_ne_some]
    intro v hv
    obtain ⟨b', hb', _⟩ := (hm key v).mp hv
    exact hnew (List.mem_map.mpr ⟨_, hb', rfl⟩)
  intro k v
  rw [AssocMap.emplace_of_none hnone, AssocMap.find_insert]
  simp only [List.mem_append, List.mem_singleton, Prod.mk.injEq]
  split
  · rename_i hk
    subst hk
    constructor
    · rintro hv
      cases hv
      exact ⟨b, .inr ⟨rfl, rfl⟩, (hR _).mpr rfl⟩
    · rintro ⟨b', hb' | ⟨_, rfl⟩, hr⟩
      · exact absurd (List.mem_map.mpr ⟨_, hb', rfl⟩) hnew
      · rw [(hR v).mp hr]
  · rename_i hk
    rw [hm k v]
    refine exists_congr fun b' => and_congr_left fun _ => ?_
    simp [hk]

/-- An entry that adds nothing. -/
theorem find_skip_done {α β γ : Type} {find : α → Option γ} {R : β → γ → Prop}
    {before : List (α × β)} {key : α} {b : β}
    (hm : ∀ k v, find k = some v ↔ ∃ b, (k, b) ∈ before ∧ R b v) (hR : ∀ v, ¬ R b v) :
    ∀ k v, find k = some v ↔ ∃ b', (k, b') ∈ before ++ [(key, b)] ∧ R b' v := by
  intro k v
  rw [hm k v]
  simp only [List.mem_append, List.mem_singleton, Prod.mk.injEq]
  constructor
  · rintro ⟨b', hb', hr⟩
    exact ⟨b', .inl hb', hr⟩
  · rintro ⟨b', hb' | ⟨_, rfl⟩, hr⟩
    · exact ⟨b', hb', hr⟩
    · exact absurd hr (hR v)

theorem key_not_mem {α β : Type} {before after : List (α × β)} {entry : α × β}
    (h : ((before ++ entry :: after).map Prod.fst).Nodup) : entry.1 ∉ before.map Prod.fst := by
  rw [List.map_append, List.nodup_append'] at h
  exact fun hin => h.2.2 hin (by simp)

theorem finalizeConstructorSignatures_spec {st st0 : TypeAnalyzer} (hv : st.Valid t)
    (h0 : Settles st st0) (hempty : ∀ c, st0.result.types.constructor_signatures.find c = none) :
    Returns finalizeConstructorSignatures st0 fun _ st' => Settles st st' ∧
      st'.diagnostics = st0.diagnostics ∧
      st'.result.types.function_signatures = st0.result.types.function_signatures ∧
      ∀ c signature, st'.result.types.constructor_signatures.find c = some signature ↔
        ∃ internal, st.constructor_signatures.find c = some internal ∧
          ConstructorSettled st.types internal signature := by
  refine returns_bind (returns_get ?_)
  have hnodup := st0.constructor_signatures.nodup
  have hloop := returns_forM (f := finalizeConstructorSignature)
    (I := fun done st' => Settles st st' ∧ st'.diagnostics = st0.diagnostics ∧
      st'.result.types.function_signatures = st0.result.types.function_signatures ∧
      ∀ c signature, st'.result.types.constructor_signatures.find c = some signature ↔
        ∃ internal, (c, internal) ∈ done ∧ ConstructorSettled st.types internal signature)
    (l := st0.constructor_signatures.entries) (d := []) (s := st0)
    ⟨h0, rfl, rfl, by simp [hempty]⟩ ?_
  · refine hloop.mono ?_
    rintro _ st' ⟨h1, h2, h3, h4⟩
    refine ⟨h1, h2, h3, fun c signature => ?_⟩
    rw [h4]
    simp only [List.nil_append, ← AssocMap.find_eq_some_iff, h0.constructors]
  · rintro before ⟨c, internal⟩ after st1 hsplit ⟨hsettles, hdiag, hfun, hfind⟩
    rw [List.nil_append] at hsplit
    rw [hsplit] at hnodup
    have hentry : (c, internal) ∈ st.constructor_signatures.entries := by
      rw [← h0.constructors, hsplit]
      simp
    obtain ⟨hfields, -⟩ := hv.constructors c internal (AssocMap.find_eq_some_iff.mpr hentry)
    refine returns_bind ((materializeAll_settles hv.acyclic hsettles hfields).mono ?_)
    rintro res st2 ⟨hsettles2, hresult, hres⟩
    have hdiag2 : st2.diagnostics = st0.diagnostics := by rw [diagnostics, hresult, ← hdiag]
    cases res with
    | none =>
      refine returns_pure ⟨hsettles2, hdiag2, by rw [hresult, hfun], ?_⟩
      rw [hresult]
      refine find_skip_done hfind fun signature hs => ?_
      cases (hres signature.fields).mpr hs.2
    | some fields =>
      refine returns_modify .result ⟨⟨hsettles2.types, hsettles2.symbols, hsettles2.constructors,
        hsettles2.functions, hsettles2.reports⟩, hdiag2, by rw [hresult]; exact hfun, ?_⟩
      simp only [hresult]
      refine find_emplace_done hfind (key_not_mem hnodup) fun signature => ?_
      constructor
      · rintro ⟨hdata, hmap⟩
        have heq := (hres _).mpr hmap
        cases heq
        rw [← hdata]
      · rintro rfl
        exact ⟨rfl, (hres fields).mp rfl⟩

theorem finalizeFunctionSignatures_spec {st st0 : TypeAnalyzer} (hv : st.Valid t)
    (h0 : Settles st st0) (hempty : ∀ f, st0.result.types.function_signatures.find f = none) :
    Returns finalizeFunctionSignatures st0 fun _ st' => Settles st st' ∧
      st'.diagnostics = st0.diagnostics ∧
      st'.result.types.constructor_signatures = st0.result.types.constructor_signatures ∧
      ∀ f signature, st'.result.types.function_signatures.find f = some signature ↔
        ∃ internal, st.function_signatures.find f = some internal ∧
          FunctionSettled st.types internal signature := by
  refine returns_bind (returns_get ?_)
  have hnodup := st0.function_signatures.nodup
  have hloop := returns_forM (f := finalizeFunctionSignature)
    (I := fun done st' => Settles st st' ∧ st'.diagnostics = st0.diagnostics ∧
      st'.result.types.constructor_signatures = st0.result.types.constructor_signatures ∧
      ∀ f signature, st'.result.types.function_signatures.find f = some signature ↔
        ∃ internal, (f, internal) ∈ done ∧ FunctionSettled st.types internal signature)
    (l := st0.function_signatures.entries) (d := []) (s := st0)
    ⟨h0, rfl, rfl, by simp [hempty]⟩ ?_
  · refine hloop.mono ?_
    rintro _ st' ⟨h1, h2, h3, h4⟩
    refine ⟨h1, h2, h3, fun f signature => ?_⟩
    rw [h4]
    simp only [List.nil_append, ← AssocMap.find_eq_some_iff, h0.functions]
  · rintro before ⟨f, internal⟩ after st1 hsplit ⟨hsettles, hdiag, hctor, hfind⟩
    rw [List.nil_append] at hsplit
    rw [hsplit] at hnodup
    have hentry : (f, internal) ∈ st.function_signatures.entries := by
      rw [← h0.functions, hsplit]
      simp
    obtain ⟨hparams, hresultlt, -⟩ := hv.functions f internal (AssocMap.find_eq_some_iff.mpr hentry)
    refine returns_bind ((materializeAll_settles hv.acyclic hsettles hparams).mono ?_)
    rintro res st2 ⟨hsettles2, hresult2, hres⟩
    refine returns_bind ((materialize_settles hv.acyclic hsettles2 hresultlt).mono ?_)
    rintro R st3 ⟨hsettles3, hresult3, hR⟩
    have hresult := hresult3.trans hresult2
    have hdiag3 : st3.diagnostics = st0.diagnostics := by rw [diagnostics, hresult, ← hdiag]
    obtain ⟨ρ0, hρ0, -⟩ := exists_model hv.acyclic fun _ => .IntType
    cases res with
    | none =>
      refine returns_pure ⟨hsettles3, hdiag3, by rw [hresult, hctor], ?_⟩
      rw [hresult]
      refine find_skip_done hfind fun signature hs => ?_
      cases (hres signature.parameters).mpr fun ρ hm => (hs ρ hm).1
    | some parameters =>
      cases R with
      | none =>
        refine returns_pure ⟨hsettles3, hdiag3, by rw [hresult, hctor], ?_⟩
        rw [hresult]
        refine find_skip_done hfind fun signature hs => ?_
        exact not_determined hv.acyclic hR signature.result fun ρ hm => (hs ρ hm).2
      | some R =>
        refine returns_modify .result ⟨⟨hsettles3.types, hsettles3.symbols, hsettles3.constructors,
          hsettles3.functions, hsettles3.reports⟩, hdiag3, by rw [hresult]; exact hctor, ?_⟩
        simp only [hresult]
        refine find_emplace_done hfind (key_not_mem hnodup) fun signature => ?_
        constructor
        · intro hs
          have hp := (hres _).mpr fun ρ hm => (hs ρ hm).1
          have hr := (hs ρ0 hρ0).2
          rw [hR ρ0 hρ0] at hr
          cases hp
          rw [hr]
        · rintro rfl ρ hm
          exact ⟨(hres parameters).mp rfl ρ hm, hR ρ hm⟩

/-! ## Restrictions -/

/-- The function is first-order, and `main` has no parameters. -/
def FirstOrder (t : ScopeTree) (f : SymbolId) (signature : FunctionSignature) : Prop :=
  (∀ symbol, t.getSymbol f = some symbol → symbol.name = "main" → signature.parameters = []) ∧
    (∀ parameter ∈ signature.parameters, containsFunctionType parameter = false) ∧
    containsFunctionType signature.result = false

/-- The state differs in its diagnostics only, and they grew unless `P`. -/
structure Checks (st : TypeAnalyzer) (P : Prop) (st' : TypeAnalyzer) : Prop where
  table : st'.result.types = st.result.types
  reports : st.diagnostics <+: st'.diagnostics
  silent : st'.diagnostics = st.diagnostics ↔ P

theorem Checks.refl (st : TypeAnalyzer) {P : Prop} (hP : P) : Checks st P st :=
  ⟨rfl, List.prefix_refl _, by simp [hP]⟩

theorem Checks.trans {st st1 st2 : TypeAnalyzer} {P Q R : Prop} (h : Checks st P st1)
    (h' : Checks st1 Q st2) (hR : R ↔ P ∧ Q) : Checks st R st2 := by
  refine ⟨h'.table.trans h.table, h.reports.trans h'.reports, ?_⟩
  rw [hR, ← h.silent, ← h'.silent]
  constructor
  · intro heq
    have hle := h.reports.length_le
    have hle' := h'.reports.length_le
    rw [heq] at hle'
    have h1 := (h.reports.eq_of_length (by omega)).symm
    exact ⟨h1, heq.trans h1.symm⟩
  · rintro ⟨h1, h2⟩
    exact h2.trans h1

theorem addErrorIf_checks (st : TypeAnalyzer) {condition : Prop} [Decidable condition]
    (node_id : NodeId) (message : String) :
    Returns (addErrorIf condition node_id message) st fun _ st' => Checks st (¬ condition) st' := by
  unfold addErrorIf
  by_cases hc : condition
  · rw [if_pos hc]
    refine returns_modify .result ⟨rfl, List.prefix_append _ _, ?_⟩
    simp [diagnostics, hc]
  · rw [if_neg hc]
    exact returns_pure (.refl st hc)

theorem checkParameters_spec (symbol : Symbol) (st : TypeAnalyzer) (parameters : List TypeVariant) :
    Returns (parameters.forM (checkParameter symbol)) st fun _ st' =>
      Checks st (∀ parameter ∈ parameters, containsFunctionType parameter = false) st' := by
  induction parameters generalizing st with
  | nil => exact returns_pure (.refl st (by simp))
  | cons parameter parameters ih =>
    refine returns_bind ((addErrorIf_checks st symbol.declaration _).mono fun _ st1 h1 => ?_)
    exact (ih st1).mono fun _ st2 h2 => h1.trans h2 (by simp)

theorem checkFunctionRestriction_spec {st : TypeAnalyzer} {f : SymbolId}
    {signature : FunctionSignature} (hf : ∃ symbol, t.getSymbol f = some symbol) :
    Returns (checkFunctionRestriction t (f, signature)) st fun _ st' =>
      Checks st (FirstOrder t f signature) st' := by
  obtain ⟨symbol, hsymbol⟩ := hf
  refine returns_bind (returns_readTypes hsymbol ?_)
  refine returns_bind ((addErrorIf_checks st symbol.declaration _).mono fun _ st1 h1 => ?_)
  refine returns_bind ((checkParameters_spec symbol st1 signature.parameters).mono
    fun _ st2 h2 => ?_)
  have h12 := h1.trans h2 Iff.rfl
  refine (addErrorIf_checks st2 symbol.declaration _).mono fun _ st3 h3 => h12.trans h3 ?_
  unfold FirstOrder
  simp only [hsymbol, Option.some.injEq, forall_eq', ne_eq, not_and, not_not,
    Bool.not_eq_true, and_assoc]

theorem checkFunctionRestrictions_spec {st : TypeAnalyzer}
    (hsymbols : ∀ f signature, st.result.types.function_signatures.find f = some signature →
      ∃ symbol, t.getSymbol f = some symbol) :
    Returns (checkFunctionRestrictions t) st fun _ st' =>
      Checks st (∀ f signature, st.result.types.function_signatures.find f = some signature →
        FirstOrder t f signature) st' := by
  refine returns_bind (returns_get ?_)
  have hloop := returns_forM (f := checkFunctionRestriction t)
    (I := fun done st' => Checks st (∀ entry ∈ done, FirstOrder t entry.1 entry.2) st')
    (l := st.result.types.function_signatures.entries) (d := []) (s := st)
    (.refl st (by simp)) ?_
  · refine hloop.mono fun _ st' h => ⟨h.table, h.reports, ?_⟩
    rw [h.silent]
    simp [AssocMap.find_eq_some_iff]
  · rintro before ⟨f, signature⟩ after st1 hsplit h
    have hentry : (f, signature) ∈ st.result.types.function_signatures.entries := by
      rw [List.nil_append] at hsplit
      rw [hsplit]
      simp
    have hf := hsymbols f signature (AssocMap.find_eq_some_iff.mpr hentry)
    refine (checkFunctionRestriction_spec hf).mono fun _ st2 h2 => h.trans h2 ?_
    simp only [List.mem_append, List.mem_singleton, or_imp, forall_and, forall_eq]

end TypeAnalyzer

end mf.semantics
