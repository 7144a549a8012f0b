-- The analyzer's passes over the declarations: what they enter for the
-- constructors and functions of a program, and what that asks of a typing.
import MiniFunctional.Inference

open mf.ast

namespace mf.semantics

open StateOption ScopeTree

namespace TypeAnalyzer

open TypeStore

variable {t : ScopeTree} {program : Program}

/-! ## Passes -/

/-- A pass from `st` to `st'`. Under the hypothesis `H`: when it is silent it
leaves the facts `F`, and every solution meets the condition `C`; a solution
whose typing meets `C` extends, and the pass is silent. -/
structure Outcome (t : ScopeTree) (changed : List SymbolId) (H : Prop) (F : TypeAnalyzer → Prop)
    (C : Typing → Prop) (st st' : TypeAnalyzer) : Prop where
  step : Step t changed st st'
  facts : H → st'.diagnostics = st.diagnostics → F st'
  sound : H → st'.diagnostics = st.diagnostics → ∀ ρ τ, st'.Solves ρ τ → C τ
  complete : H → ∀ ρ τ, st.Solves ρ τ → C τ → ∃ ρ', Extends st st' τ ρ ρ'

/-- What holds of a state still holds when fresh symbols got types. -/
def Persists (t : ScopeTree) (F : TypeAnalyzer → Prop) : Prop :=
  ∀ {changed : List SymbolId} {st st' : TypeAnalyzer}, Step t changed st st' → st.Fresh changed →
    F st → F st'

theorem Outcome.trans {changed changed' : List SymbolId} {H H' : Prop} {F F' : TypeAnalyzer → Prop}
    {C C' : Typing → Prop} {st st1 st2 : TypeAnalyzer} (h : Outcome t changed H F C st st1)
    (h' : Outcome t changed' H' F' C' st1 st2) (hF : Persists t F) (hH : H → F st1 → H')
    (hfresh : st1.Fresh changed') :
    Outcome t (changed ++ changed') H (fun st => F st ∧ F' st) (fun τ => C τ ∧ C' τ) st st2 := by
  refine ⟨h.step.trans h'.step, fun hh heq => ?_, fun hh heq ρ τ hsol => ?_,
    fun hh ρ τ hsol hc => ?_⟩
  · obtain ⟨heq1, heq2⟩ := h.step.silent h'.step heq
    have hf := h.facts hh heq1
    exact ⟨hF h'.step hfresh hf, h'.facts (hH hh hf) heq2⟩
  · obtain ⟨heq1, heq2⟩ := h.step.silent h'.step heq
    have hf := h.facts hh heq1
    exact ⟨h.sound hh heq1 ρ τ (h'.step.solves hfresh hsol), h'.sound (hH hh hf) heq2 ρ τ hsol⟩
  · obtain ⟨ρ1, he1⟩ := h.complete hh ρ τ hsol hc.1
    obtain ⟨ρ2, he2⟩ := h'.complete (hH hh (h.facts hh he1.silent)) ρ1 τ he1.solves hc.2
    exact ⟨ρ2, he1.trans he2 h.step.length⟩

/-- A loop over a list, each turn of which changes symbols of its own. -/
theorem forM_outcome {α : Type} {f : α → AnalyzerM PUnit} {c : α → List SymbolId}
    {H : TypeAnalyzer → Prop} {F : α → TypeAnalyzer → Prop} {C : α → Typing → Prop} {l : List α}
    (hH : Persists t H) (hF : ∀ a, Persists t (F a))
    (hspec : ∀ a ∈ l, ∀ st, st.Valid t → st.Fresh (c a) →
      Returns (f a) st fun _ st' => Outcome t (c a) (H st) (F a) (C a) st st')
    {st : TypeAnalyzer} (hv : st.Valid t) (hnodup : (l.flatMap c).Nodup)
    (hfresh : st.Fresh (l.flatMap c)) :
    Returns (l.forM f) st fun _ st' => Outcome t (l.flatMap c) (H st)
      (fun st => ∀ a ∈ l, F a st) (fun τ => ∀ a ∈ l, C a τ) st st' := by
  induction l generalizing st with
  | nil =>
    exact returns_pure ⟨.refl hv, by simp, by simp, fun _ ρ τ hsol _ => ⟨ρ, .refl hsol⟩⟩
  | cons a l ih =>
    rw [List.flatMap_cons, List.nodup_append'] at hnodup
    rw [List.flatMap_cons] at hfresh
    have hfa : st.Fresh (c a) := fun s hs => hfresh s (List.mem_append_left _ hs)
    have hfl : st.Fresh (l.flatMap c) := fun s hs => hfresh s (List.mem_append_right _ hs)
    refine returns_bind ((hspec a List.mem_cons_self st hv hfa).mono fun _ st1 h1 => ?_)
    have hf1 := hfl.step h1.step hnodup.2.2
    refine (ih (fun b hb => hspec b (List.mem_cons_of_mem _ hb)) h1.step.valid hnodup.2.1
      hf1).mono fun _ st2 h2 => ?_
    have hpersists : H st → H st1 := hH h1.step hfa
    have h := h1.trans h2 (hF a) (fun hh _ => hpersists hh) hf1
    refine ⟨h.step, fun hh heq => ?_, fun hh heq ρ τ hsol => ?_, fun hh ρ τ hsol hc => ?_⟩
    · obtain ⟨hfst, hrest⟩ := h.facts hh heq
      exact List.forall_mem_cons.mpr ⟨hfst, hrest⟩
    · obtain ⟨hfst, hrest⟩ := h.sound hh heq ρ τ hsol
      exact List.forall_mem_cons.mpr ⟨hfst, hrest⟩
    · exact h.complete hh ρ τ hsol (List.forall_mem_cons.mp hc)

/-- A pass that does nothing. -/
theorem Outcome.nothing {H : Prop} {st : TypeAnalyzer} (hv : st.Valid t) {F : TypeAnalyzer → Prop}
    {C : Typing → Prop} (hF : F st) (hC : ∀ τ, C τ) : Outcome t [] H F C st st :=
  ⟨.refl hv, fun _ _ => hF, fun _ _ _ τ _ => hC τ, fun _ ρ _ hsol _ => ⟨ρ, .refl hsol⟩⟩

/-! ## Constructors -/

theorem namesType_unique {field : String} {T T' : TypeVariant} (h : t.NamesType field T)
    (h' : t.NamesType field T') : T = T' := by
  obtain ⟨s, hs, hk⟩ := h
  obtain ⟨s', hs', hk'⟩ := h'
  rw [hs] at hs'
  cases hs'
  rcases hk with ⟨hk, rfl⟩ | ⟨hk, rfl⟩
  · rcases hk' with ⟨_, rfl⟩ | ⟨hk', _⟩
    · rfl
    · rw [hk] at hk'
      cases hk'
  · rcases hk' with ⟨hk', _⟩ | ⟨_, rfl⟩
    · rw [hk] at hk'
      cases hk'
    · rfl

theorem namesTypes_unique {fields : List String} {Ts Ts' : List TypeVariant}
    (h : List.Forall₂ t.NamesType fields Ts) (h' : List.Forall₂ t.NamesType fields Ts') :
    Ts = Ts' := by
  induction h generalizing Ts' with
  | nil =>
    cases h'
    rfl
  | cons hT _ ih =>
    rcases h' with _ | ⟨hT', hrest⟩
    rw [namesType_unique hT hT', ih hrest]

section

variable (hscoped : t.ProgramScoped program)

include hscoped

theorem typeOfTypeSymbol_spec {st : TypeAnalyzer} (hv : st.Valid t) {field : String} {s : Symbol}
    (hs : t.getLocalSymbol getRootScopeId field = some s) (hkind : isTypeSymbol s.kind) :
    Returns (typeOfTypeSymbol s) st fun id st' => Step t [] st st' ∧ id < st'.types.length ∧
      st'.diagnostics = st.diagnostics ∧ ∃ T, t.NamesType field T ∧
      (∀ ρ, st'.types.Models ρ → ρ id = T) ∧
      ∀ ρ τ, st.Solves ρ τ → ∃ ρ', Extends st st' τ ρ ρ' := by
  unfold typeOfTypeSymbol
  by_cases hk : s.kind = .BuiltinType
  · rw [if_pos hk]
    refine (makeInt_spec hv).mono fun id st1 h1 => ?_
    refine ⟨h1.step, h1.inRange, h1.silent, intType, ⟨s, hs, .inl ⟨hk, rfl⟩⟩, h1.sound,
      fun ρ τ hsol => ?_⟩
    obtain ⟨ρ', he, _⟩ := h1.complete ρ τ _ hsol rfl
    exact ⟨ρ', he⟩
  · rw [if_neg hk]
    have hdata : s.kind = .DataType := by
      unfold isTypeSymbol at hkind
      simpa [hk] using hkind
    refine (makeData_spec hv ⟨s, (hscoped.named _ _ _ hs).1, hdata⟩).mono fun id st1 h1 => ?_
    refine ⟨h1.step, h1.inRange, h1.silent, dataType s.id, ⟨s, hs, .inr ⟨hdata, rfl⟩⟩, h1.sound,
      fun ρ τ hsol => ?_⟩
    obtain ⟨ρ', he, _⟩ := h1.complete ρ τ _ hsol rfl
    exact ⟨ρ', he⟩

/-- The loop over a constructor's fields made nodes for the types that they
name, or reported one that names none. -/
structure FieldTypes (t : ScopeTree) (fields : List String) (st : TypeAnalyzer)
    (res : Option (List TypeId)) (st' : TypeAnalyzer) : Prop where
  step : Step t [] st st'
  failure : res = none →
    st'.diagnostics ≠ st.diagnostics ∧ ¬ ∃ Ts, List.Forall₂ t.NamesType fields Ts
  success : ∀ ids, res = some ids → st'.diagnostics = st.diagnostics ∧
    (∀ (f : Nat), f ∈ ids → f < st'.types.length) ∧
    ∃ Ts, List.Forall₂ t.NamesType fields Ts ∧ ids.length = Ts.length ∧
      (∀ ρ, st'.types.Models ρ → ids.map ρ = Ts) ∧
      ∀ ρ τ, st.Solves ρ τ → ∃ ρ', Extends st st' τ ρ ρ'

theorem fieldTypes_spec {st : TypeAnalyzer} (hv : st.Valid t) (constructor_id : NodeId)
    (fields : List String) :
    Returns (fieldTypes t constructor_id fields) st (FieldTypes t fields st) := by
  induction fields generalizing st with
  | nil =>
    refine returns_pure ⟨.refl hv, by simp, fun ids hids => ?_⟩
    cases hids
    exact ⟨rfl, by simp, [], .nil, rfl, fun _ _ => rfl, fun ρ τ hsol => ⟨ρ, .refl hsol⟩⟩
  | cons field rest ih =>
    rw [fieldTypes]
    cases hs : (t.getLocalSymbol getRootScopeId field).filter (isTypeSymbol ·.kind) with
    | none =>
      refine returns_bind ((addError_spec hv _ _).mono ?_)
      rintro _ st1 ⟨hstep, hne⟩
      refine returns_pure ⟨hstep, fun _ => ⟨hne, ?_⟩, by simp⟩
      rintro ⟨Ts, hTs⟩
      rcases hTs with _ | ⟨⟨s, hsym, hk⟩, _⟩
      have hnone := Option.filter_eq_none_iff.mp hs s hsym
      rcases hk with ⟨hk, _⟩ | ⟨hk, _⟩
      · simp [isTypeSymbol, hk] at hnone
      · simp [isTypeSymbol, hk] at hnone
    | some s =>
      obtain ⟨hsym, hkind⟩ := Option.filter_eq_some_iff.mp hs
      refine returns_bind ((typeOfTypeSymbol_spec hscoped hv hsym hkind).mono ?_)
      rintro id st1 ⟨hstep1, hid, heq1, T, hT, hsound, hcomplete⟩
      refine returns_bind ((ih hstep1.valid).mono fun res st2 h2 => ?_)
      have hstep := hstep1.trans h2.step
      cases res with
      | none =>
        obtain ⟨hne, hnot⟩ := h2.failure rfl
        refine returns_pure ⟨hstep, fun _ => ⟨by rw [← heq1]; exact hne, ?_⟩, by simp⟩
        rintro ⟨Ts, hTs⟩
        rcases hTs with _ | ⟨_, hrest⟩
        exact hnot ⟨_, hrest⟩
      | some ids =>
        obtain ⟨heq2, hids, Ts, hTs, hlen, hmap, hext⟩ := h2.success ids rfl
        refine returns_pure ⟨hstep, by simp, fun ids' hids' => ?_⟩
        cases hids'
        refine ⟨heq2.trans heq1, fun f hf => ?_, T :: Ts, .cons hT hTs, by simp [hlen],
          fun ρ hm => ?_, fun ρ τ hsol => ?_⟩
        · rcases List.mem_cons.mp hf with rfl | hf
          · exact Nat.lt_of_lt_of_le hid h2.step.length
          · exact hids f hf
        · rw [List.map_cons, hmap ρ hm, hsound ρ (h2.step.models ρ hm)]
        · obtain ⟨ρ1, he1⟩ := hcomplete ρ τ hsol
          obtain ⟨ρ2, he2⟩ := hext ρ1 τ he1.solves
          exact ⟨ρ2, he1.trans he2 hstep1.length⟩

/-- The constructor's signature is entered, with the types that its fields name. -/
def ConstructorEntered (t : ScopeTree) (data_type : SymbolId) (ctor : Constructor)
    (st : TypeAnalyzer) : Prop :=
  ∃ s fields internal, t.getLocalSymbol getRootScopeId ctor.name = some s ∧
    List.Forall₂ t.NamesType ctor.fields fields ∧
    st.constructor_signatures.find s.id = some internal ∧ internal.data_type = data_type ∧
    internal.fields.length = fields.length ∧ ∀ ρ, st.types.Models ρ → internal.fields.map ρ = fields

/-- The typing gives the constructor its declared type. -/
def ConstructorTyped (t : ScopeTree) (data_type : SymbolId) (ctor : Constructor) (τ : Typing) :
    Prop :=
  ∃ s fields, t.getLocalSymbol getRootScopeId ctor.name = some s ∧
    List.Forall₂ t.NamesType ctor.fields fields ∧ τ s.id = functionTypes fields (dataType data_type)

omit hscoped in
theorem constructorEntered_persists (data_type : SymbolId) (ctor : Constructor) :
    Persists t (ConstructorEntered t data_type ctor) := by
  rintro changed st st' hstep _ ⟨s, fields, internal, hs, hfields, hfind, hdata, hlen, hmap⟩
  exact ⟨s, fields, internal, hs, hfields, hstep.constructors _ _ hfind, hdata, hlen,
    fun ρ hm => hmap ρ (hstep.models ρ hm)⟩

theorem registerConstructor_spec {data_symbol : Symbol}
    (hdata : t.IsDataType data_symbol.id) {ctor : Constructor} {s : Symbol}
    (hs : t.getLocalSymbol getRootScopeId ctor.name = some s) (hkind : s.kind = .Constructor)
    {st : TypeAnalyzer} (hv : st.Valid t)
    (hfresh : st.Fresh (t.symbolsIn getRootScopeId [ctor.name])) :
    Returns (registerConstructor t data_symbol ctor) st fun _ st' =>
      Outcome t (t.symbolsIn getRootScopeId [ctor.name]) True
        (ConstructorEntered t data_symbol.id ctor) (ConstructorTyped t data_symbol.id ctor)
        st st' := by
  have hsymbols : t.symbolsIn getRootScopeId [ctor.name] = [s.id] := by simp [symbolsIn, hs]
  have hget : getRootSymbol t ctor.name .Constructor = some s := by
    unfold getRootSymbol
    rw [hs]
    simp [Option.filter, hkind]
  rw [hsymbols] at hfresh ⊢
  unfold registerConstructor
  rw [hget]
  refine returns_bind ((fieldTypes_spec hscoped hv ctor.id ctor.fields).mono fun res st1 h1 => ?_)
  cases res with
  | none =>
    obtain ⟨hne, hnot⟩ := h1.failure rfl
    refine returns_pure ⟨h1.step.mono (by simp), fun _ heq => absurd heq hne,
      fun _ heq => absurd heq hne, fun _ ρ τ _ hc => ?_⟩
    obtain ⟨_, fields, _, hfields, _⟩ := hc
    exact absurd ⟨fields, hfields⟩ hnot
  | some ids =>
    obtain ⟨heq1, hids, Ts, hTs, hlen, hmap, hext⟩ := h1.success ids rfl
    refine returns_bind ((makeData_spec h1.step.valid hdata).mono
      fun result st2 h2 => ?_)
    have hids2 : ∀ (f : Nat), f ∈ ids → f < st2.types.length :=
      fun f hf => Nat.lt_of_lt_of_le (hids f hf) h2.step.length
    refine returns_bind ((makeFunctions_spec h2.step.valid hids2 h2.inRange).mono
      fun callable st3 h3 => ?_)
    have hstep3 := (h1.step.trans h2.step).trans h3.step
    have hfresh3 : st3.symbol_types.find s.id = none :=
      hfresh.step hstep3 (by simp) s.id (by simp)
    refine returns_bind ((setSymbolType_spec h3.step.valid hfresh3 h3.inRange
      ⟨s, (hscoped.named _ _ _ hs).1⟩).mono fun _ st4 h4 => ?_)
    have hstep4 := hstep3.trans h4.step
    have hnosig : st4.constructor_signatures.find s.id = none := by
      rw [h4.constructors]
      exact (h3.step.valid.unsigned hfresh3).1
    -- the state with the signature entered
    have hids4 : ∀ (f : Nat), f ∈ ids → f < st4.types.length := fun f hf =>
      Nat.lt_of_lt_of_le (hids2 f hf) (Nat.le_trans h3.step.length h4.step.length)
    refine returns_modify (Update.constructor hids4) ?_
    rw [AssocMap.emplace_of_none hnosig]
    have hold : ∀ c signature, st4.constructor_signatures.find c = some signature →
        (st4.constructor_signatures.insert s.id ⟨data_symbol.id, ids⟩).find c =
          some signature := by
      intro c signature hc
      rw [AssocMap.find_insert, if_neg, hc]
      rintro rfl
      rw [hnosig] at hc
      cases hc
    have hv4 := h4.step.valid
    have hlen4 : st4.types = st3.types := h4.types
    refine ⟨⟨⟨hv4.acyclic, hv4.named, hv4.symbols, fun c signature hc => ?_, hv4.functions⟩,
      hstep4.length, hstep4.models, fun s' hs' => ?_,
      fun c signature hc => hold c signature (hstep4.constructors c signature hc),
      hstep4.functions, hstep4.table, hstep4.reports⟩, fun _ _ => ?_, fun _ _ ρ τ hsol => ?_,
      fun _ ρ τ hsol hc => ?_⟩
    · simp only [AssocMap.find_insert] at hc
      split at hc
      · cases hc
        subst_vars
        exact ⟨hids4, hdata, callable, h4.find⟩
      · exact hv4.constructors c signature hc
    · exact hstep4.symbols s' (by simpa using hs')
    · refine ⟨s, Ts, ⟨data_symbol.id, ids⟩, hs, hTs, AssocMap.find_insert_self _ _ _, rfl, hlen,
        fun ρ hm => ?_⟩
      simp only [hlen4] at hm
      exact hmap ρ (h2.step.models ρ (h3.step.models ρ hm))
    · have hm3 : st3.types.Models ρ := by
        rw [← hlen4]
        exact hsol.1
      have hm2 := h3.step.models ρ hm3
      refine ⟨s, Ts, hs, hTs, ?_⟩
      rw [h4.sound ρ τ hsol.2, h3.sound ρ hm3, hmap ρ (h2.step.models ρ hm2), h2.sound ρ hm2]
      rfl
    · obtain ⟨s', fields, hs', hfields, hτ⟩ := hc
      rw [hs] at hs'
      cases hs'
      obtain rfl := namesTypes_unique hfields hTs
      obtain ⟨ρ1, he1⟩ := hext ρ τ hsol
      obtain ⟨ρ2, he2, hres⟩ := h2.complete ρ1 τ _ he1.solves rfl
      obtain ⟨ρ3, he3⟩ := h3.complete ρ2 τ he2.solves
      have he13 := (he1.trans he2 h1.step.length).trans he3
        (Nat.le_trans h1.step.length h2.step.length)
      have hm3 := he3.solves.1
      have hcallable : τ s.id = ρ3 callable := by
        rw [h3.sound ρ3 hm3, hmap ρ3 (h2.step.models ρ3 (h3.step.models ρ3 hm3)),
          he3.same result h2.inRange, hres, hτ]
        rfl
      have he4 := h4.complete ρ3 τ he3.solves hcallable
      have he := he13.trans he4 hstep3.length
      exact ⟨ρ3, he.same, he.solves, he.silent⟩

/-! ## Data types -/

/-- The symbols that a data type definition declares. -/
def dataSymbols (t : ScopeTree) : Definition → List SymbolId
  | .FunctionDefinition _ => []
  | .DataTypeDefinition dt =>
    t.symbolsIn getRootScopeId [dt.name] ++
      dt.constructors.flatMap fun ctor => t.symbolsIn getRootScopeId [ctor.name]

/-- All constructors of the definition are entered. -/
def DataTypeEntered (t : ScopeTree) (d : Definition) (st : TypeAnalyzer) : Prop :=
  ∀ dt, d = .DataTypeDefinition dt → ∃ s, t.getLocalSymbol getRootScopeId dt.name = some s ∧
    ∀ ctor ∈ dt.constructors, ConstructorEntered t s.id ctor st

def DataTypeTyped (t : ScopeTree) (d : Definition) (τ : Typing) : Prop :=
  ∀ dt, d = .DataTypeDefinition dt → ∃ s, t.getLocalSymbol getRootScopeId dt.name = some s ∧
    τ s.id = dataType s.id ∧ ∀ ctor ∈ dt.constructors, ConstructorTyped t s.id ctor τ

omit hscoped in
theorem dataTypeEntered_persists (d : Definition) : Persists t (DataTypeEntered t d) := by
  intro changed st st' hstep hfresh h dt hdt
  obtain ⟨s, hs, hctors⟩ := h dt hdt
  exact ⟨s, hs, fun ctor hctor =>
    constructorEntered_persists s.id ctor hstep hfresh (hctors ctor hctor)⟩

omit hscoped in
theorem persists_true : Persists t fun _ => True := fun _ _ _ => trivial

/-- A symbol of the global scope gets a type that does not depend on others. -/
theorem setGlobalType_spec {st : TypeAnalyzer} {name : String} {s : Symbol}
    (hs : t.getLocalSymbol getRootScopeId name = some s)
    (hfresh : st.Fresh (t.symbolsIn getRootScopeId [name])) {make : AnalyzerM TypeId}
    {n : InternalType} (hmake : Returns make st (Made t n st)) {T : TypeVariant}
    (hT : ∀ ρ S, n.Denotes ρ S ↔ S = T) :
    Returns (make >>= setSymbolType s.id) st fun _ st' =>
      Outcome t (t.symbolsIn getRootScopeId [name]) True (fun _ => True)
        (fun τ => τ s.id = T) st st' := by
  have hsymbols : t.symbolsIn getRootScopeId [name] = [s.id] := by simp [symbolsIn, hs]
  rw [hsymbols] at hfresh ⊢
  refine returns_bind (hmake.mono fun id st1 h1 => ?_)
  have hfresh1 : st1.symbol_types.find s.id = none :=
    hfresh.step h1.step (by simp) s.id (by simp)
  refine (setSymbolType_spec h1.step.valid hfresh1 h1.inRange
    ⟨s, (hscoped.named _ _ _ hs).1⟩).mono fun _ st2 h2 => ?_
  refine ⟨h1.step.trans h2.step, fun _ _ => trivial, fun _ _ ρ τ hsol => ?_,
    fun _ ρ τ hsol hτ => ?_⟩
  · rw [h2.sound ρ τ hsol.2]
    exact (hT ρ _).mp (h1.sound ρ (h2.step.models ρ hsol.1))
  · obtain ⟨ρ1, he1, hid⟩ := h1.complete ρ τ T hsol ((hT ρ T).mpr rfl)
    have he2 := h2.complete ρ1 τ he1.solves (by rw [hτ, hid])
    exact ⟨ρ1, he1.trans he2 h1.step.length⟩

theorem registerDataType_spec {d : Definition} (hd : d ∈ program.definitions)
    {st : TypeAnalyzer} (hv : st.Valid t) (hnodup : (dataSymbols t d).Nodup)
    (hfresh : st.Fresh (dataSymbols t d)) :
    Returns (registerDataType t d) st fun _ st' =>
      Outcome t (dataSymbols t d) True (DataTypeEntered t d) (DataTypeTyped t d) st st' := by
  cases d with
  | FunctionDefinition fd => exact returns_pure (.nothing hv nofun nofun)
  | DataTypeDefinition dt =>
    obtain ⟨s, hs, hkind, -⟩ := global_symbol hscoped
      (mem_globalFrame hd (b := ⟨dt.name, .DataType, dt.id⟩) (by simp [Definition.binders]))
    have hget : getRootSymbol t dt.name .DataType = some s := by
      unfold getRootSymbol
      rw [hs]
      simp [Option.filter, hkind]
    have hsym : t.IsDataType s.id := ⟨s, (hscoped.named _ _ _ hs).1, hkind⟩
    simp only [dataSymbols, List.nodup_append'] at hnodup
    have hf1 : st.Fresh (t.symbolsIn getRootScopeId [dt.name]) :=
      fun x hx => hfresh x (List.mem_append_left _ hx)
    have hf2 : st.Fresh (dt.constructors.flatMap fun c => t.symbolsIn getRootScopeId [c.name]) :=
      fun x hx => hfresh x (List.mem_append_right _ hx)
    unfold registerDataType
    simp only [hget]
    have h := setGlobalType_spec hscoped hs hf1 (makeData_spec hv hsym)
      (T := dataType s.id) fun ρ S => Iff.rfl
    rw [← bind_assoc]
    refine returns_bind (h.mono fun _ st1 h1 => ?_)
    have hf12 := hf2.step h1.step hnodup.2.2
    refine (forM_outcome (c := fun ctor => t.symbolsIn getRootScopeId [ctor.name])
      (H := fun _ => True) (F := ConstructorEntered t s.id) (C := ConstructorTyped t s.id)
      persists_true (constructorEntered_persists s.id) (fun ctor hctor st hvalid hfresh => ?_)
      h1.step.valid hnodup.2.1 hf12).mono fun _ st2 h2 => ?_
    · obtain ⟨cs, hcs, hckind, -⟩ := global_symbol hscoped
        (mem_globalFrame hd (b := ⟨ctor.name, .Constructor, ctor.id⟩) (by
          simp only [Definition.binders, List.mem_cons, List.mem_map]
          exact .inr ⟨ctor, hctor, rfl⟩))
      exact registerConstructor_spec hscoped hsym hcs hckind hvalid hfresh
    · have h12 := h1.trans h2 persists_true (fun _ _ => trivial) hf12
      refine ⟨h12.step, fun hh heq dt' hdt => ?_, fun hh heq ρ τ hsol dt' hdt => ?_,
        fun hh ρ τ hsol hc => ?_⟩
      · cases hdt
        exact ⟨s, hs, (h12.facts hh heq).2⟩
      · cases hdt
        obtain ⟨hτ, hctors⟩ := h12.sound hh heq ρ τ hsol
        exact ⟨s, hs, hτ, hctors⟩
      · obtain ⟨s', hs', hτ, hctors⟩ := hc dt rfl
        rw [hs] at hs'
        cases hs'
        exact h12.complete hh ρ τ hsol ⟨hτ, hctors⟩

/-! ## Functions -/

/-- The symbols of a function definition and of its parameters. -/
def functionSymbols (t : ScopeTree) : Definition → List SymbolId
  | .DataTypeDefinition _ => []
  | .FunctionDefinition fd => t.symbolsIn getRootScopeId [fd.name] ++ t.parameterSymbols fd

/-- The function's signature is entered, and its parameters have the types
that it names. -/
def FunctionEntered (t : ScopeTree) (d : Definition) (st : TypeAnalyzer) : Prop :=
  ∀ fd, d = .FunctionDefinition fd → ∃ s sid internal callable,
    t.getLocalSymbol getRootScopeId fd.name = some s ∧ t.getScopeId fd.id = some sid ∧
    st.function_signatures.find s.id = some internal ∧
    List.Forall₂ (fun name id => ∃ p, t.getLocalSymbol sid name = some p ∧
      st.symbol_types.find p.id = some id) fd.parameters internal.parameters ∧
    st.symbol_types.find s.id = some callable ∧ ∀ ρ, st.types.Models ρ →
      ρ callable = functionTypes (internal.parameters.map ρ) (ρ internal.result)

/-- The typing gives the function the type of a function of its parameters. -/
def FunctionTyped (t : ScopeTree) (d : Definition) (τ : Typing) : Prop :=
  ∀ fd, d = .FunctionDefinition fd → ∃ s sid parameters R,
    t.getLocalSymbol getRootScopeId fd.name = some s ∧ t.getScopeId fd.id = some sid ∧
    List.Forall₂ (fun name T => ∃ p, t.getLocalSymbol sid name = some p ∧ τ p.id = T)
      fd.parameters parameters ∧ τ s.id = functionTypes parameters R

omit hscoped in
theorem functionEntered_persists (d : Definition) : Persists t (FunctionEntered t d) := by
  intro changed st st' hstep hfresh h fd hfd
  obtain ⟨s, sid, internal, callable, hs, hsid, hfind, hps, hcallable, hmodel⟩ := h fd hfd
  refine ⟨s, sid, internal, callable, hs, hsid, hstep.functions _ _ hfind, hps.imp ?_,
    hstep.find hfresh hcallable, fun ρ hm => hmodel ρ (hstep.models ρ hm)⟩
  rintro name id ⟨p, hp, hid⟩
  exact ⟨p, hp, hstep.find hfresh hid⟩

/-- The parameters got variables for their types. -/
structure ParameterTypes (t : ScopeTree) (sid : ScopeId) (names : List String) (st : TypeAnalyzer)
    (ids : List TypeId) (st' : TypeAnalyzer) : Prop where
  step : Step t (t.symbolsIn sid names) st st'
  inRange : ∀ (id : Nat), id ∈ ids → id < st'.types.length
  silent : st'.diagnostics = st.diagnostics
  entered : List.Forall₂ (fun name id => ∃ p, t.getLocalSymbol sid name = some p ∧
    st'.symbol_types.find p.id = some id) names ids
  complete : ∀ ρ τ, st.Solves ρ τ → ∃ ρ', Extends st st' τ ρ ρ'

theorem parameterTypes_spec {st : TypeAnalyzer} (hv : st.Valid t) {sid : Nat} {names : List String}
    (hsymbols : ∀ name ∈ names, ∃ s, t.getLocalSymbol sid name = some s)
    (hnodup : (t.symbolsIn sid names).Nodup) (hfresh : st.Fresh (t.symbolsIn sid names)) :
    Returns (parameterTypes t sid names) st (ParameterTypes t sid names st) := by
  induction names generalizing st with
  | nil =>
    exact returns_pure ⟨.refl hv, by simp, rfl, .nil, fun ρ τ hsol => ⟨ρ, .refl hsol⟩⟩
  | cons name names ih =>
    obtain ⟨s, hs⟩ := hsymbols name List.mem_cons_self
    have hcons : t.symbolsIn sid (name :: names) = s.id :: t.symbolsIn sid names := by
      simp [symbolsIn, hs]
    rw [hcons] at hnodup hfresh
    rw [List.nodup_cons] at hnodup
    rw [parameterTypes, hs]
    refine returns_bind ((makeVariable_spec hv).mono fun id st1 h1 => ?_)
    have hfresh1 : st1.Fresh (s.id :: t.symbolsIn sid names) := hfresh.step h1.step (by simp)
    refine returns_bind ((setSymbolType_spec h1.step.valid (hfresh1 s.id List.mem_cons_self)
      h1.inRange ⟨s, (hscoped.named _ _ _ hs).1⟩).mono fun _ st2 h2 => ?_)
    have hfresh2 : st2.Fresh (t.symbolsIn sid names) :=
      Fresh.step (fun x hx => hfresh1 x (List.mem_cons_of_mem _ hx)) h2.step
        (by simpa using hnodup.1)
    refine returns_bind ((ih h2.step.valid
      (fun name hname => hsymbols name (List.mem_cons_of_mem _ hname)) hnodup.2 hfresh2).mono
      fun ids st3 h3 => returns_pure ?_)
    have h12 := h1.step.trans h2.step
    refine ⟨?_, fun id' hid' => ?_, h3.silent.trans (h2.silent.trans h1.silent),
      .cons ⟨s, hs, h3.step.find hfresh2 h2.find⟩ h3.entered, fun ρ τ hsol => ?_⟩
    · rw [hcons]
      exact h12.trans h3.step
    · rcases List.mem_cons.mp hid' with rfl | hid'
      · exact Nat.lt_of_lt_of_le h1.inRange (Nat.le_trans h2.step.length h3.step.length)
      · exact h3.inRange id' hid'
    · obtain ⟨ρ1, he1, hid⟩ := h1.complete ρ τ (τ s.id) hsol trivial
      have he2 := h2.complete ρ1 τ he1.solves hid.symm
      have he12 := he1.trans he2 h1.step.length
      obtain ⟨ρ3, he3⟩ := h3.complete ρ1 τ he12.solves
      exact ⟨ρ3, he12.trans he3 h12.length⟩

omit hscoped in
theorem forall₂_agrees {st : TypeAnalyzer} {sid : ScopeId} {names : List String}
    {ids : List TypeId} {ρ : TypeId → TypeVariant} {τ : Typing} (hagree : st.Agrees ρ τ)
    (h : List.Forall₂ (fun name id => ∃ p, t.getLocalSymbol sid name = some p ∧
      st.symbol_types.find p.id = some id) names ids) :
    List.Forall₂ (fun name T => ∃ p, t.getLocalSymbol sid name = some p ∧ τ p.id = T)
      names (ids.map ρ) := by
  induction h with
  | nil => exact .nil
  | cons hp _ ih =>
    obtain ⟨p, hp, hid⟩ := hp
    exact .cons ⟨p, hp, hagree _ _ hid⟩ ih

omit hscoped in
theorem forall₂_types_unique {sid : ScopeId} {names : List String} {Ts Ts' : List TypeVariant}
    {τ : Typing}
    (h : List.Forall₂ (fun name T => ∃ p, t.getLocalSymbol sid name = some p ∧ τ p.id = T) names Ts)
    (h' : List.Forall₂ (fun name T => ∃ p, t.getLocalSymbol sid name = some p ∧ τ p.id = T)
      names Ts') : Ts = Ts' := by
  induction h generalizing Ts' with
  | nil =>
    cases h'
    rfl
  | cons hT _ ih =>
    rcases h' with _ | ⟨hT', hrest⟩
    obtain ⟨p, hp, rfl⟩ := hT
    obtain ⟨p', hp', rfl⟩ := hT'
    rw [hp] at hp'
    cases hp'
    rw [ih hrest]

theorem prepareFunctionSignature_spec {fd : FunctionDefinition} (hfd : t.FunctionScoped fd)
    {st : TypeAnalyzer} (hv : st.Valid t)
    (hnodup : (functionSymbols t (.FunctionDefinition fd)).Nodup)
    (hfresh : st.Fresh (functionSymbols t (.FunctionDefinition fd))) :
    Returns (prepareFunctionSignature t fd) st fun _ st' =>
      Outcome t (functionSymbols t (.FunctionDefinition fd)) True
        (FunctionEntered t (.FunctionDefinition fd)) (FunctionTyped t (.FunctionDefinition fd))
        st st' := by
  obtain ⟨⟨s, hs, hkind, -⟩, ⟨sid, hsid, hparams⟩, -⟩ := hfd
  have hget : getRootSymbol t fd.name .Function = some s := by
    unfold getRootSymbol
    rw [hs]
    simp [Option.filter, hkind]
  have hsymbols : functionSymbols t (.FunctionDefinition fd) =
      s.id :: t.symbolsIn sid fd.parameters := by
    simp [functionSymbols, symbolsIn, hs, ScopeTree.parameterSymbols, hsid]
  rw [hsymbols] at hnodup hfresh ⊢
  rw [List.nodup_cons] at hnodup
  have hfp : st.Fresh (t.symbolsIn sid fd.parameters) :=
    fun x hx => hfresh x (List.mem_cons_of_mem _ hx)
  unfold prepareFunctionSignature
  simp only [hget, hsid]
  refine returns_bind ((parameterTypes_spec hscoped hv (fun name hname => by
    obtain ⟨p, hp, _⟩ := hparams name hname
    exact ⟨p, hp⟩) hnodup.2 hfp).mono fun ids st1 h1 => ?_)
  refine returns_bind ((makeVariable_spec h1.step.valid).mono fun result st2 h2 => ?_)
  have hids2 : ∀ (p : Nat), p ∈ ids → p < st2.types.length :=
    fun p hp => Nat.lt_of_lt_of_le (h1.inRange p hp) h2.step.length
  refine returns_bind ((makeFunctions_spec h2.step.valid hids2 h2.inRange).mono
    fun callable st3 h3 => ?_)
  have hstep3 := (h1.step.trans h2.step).trans h3.step
  have hfresh3 : st3.symbol_types.find s.id = none := by
    rw [hstep3.symbols s.id (by simpa using hnodup.1)]
    exact hfresh s.id List.mem_cons_self
  refine returns_bind ((setSymbolType_spec h3.step.valid hfresh3 h3.inRange
    ⟨s, (hscoped.named _ _ _ hs).1⟩).mono fun _ st4 h4 => ?_)
  have hstep4 := hstep3.trans h4.step
  have hnosig : st4.function_signatures.find s.id = none := by
    rw [h4.functions]
    exact (h3.step.valid.unsigned hfresh3).2
  -- the state with the signature entered
  have hids4 : ∀ (p : Nat), p ∈ ids → p < st4.types.length := fun p hp =>
    Nat.lt_of_lt_of_le (hids2 p hp) (Nat.le_trans h3.step.length h4.step.length)
  have hresult4 : result < st4.types.length :=
    Nat.lt_of_lt_of_le h2.inRange (Nat.le_trans h3.step.length h4.step.length)
  refine returns_modify (Update.function hids4 hresult4) ?_
  rw [AssocMap.emplace_of_none hnosig]
  have hold : ∀ f signature, st4.function_signatures.find f = some signature →
      (st4.function_signatures.insert s.id ⟨ids, result⟩).find f = some signature := by
    intro f signature hf
    rw [AssocMap.find_insert, if_neg, hf]
    rintro rfl
    rw [hnosig] at hf
    cases hf
  have hv4 := h4.step.valid
  have hlen4 : st4.types = st3.types := h4.types
  have hentered : List.Forall₂ (fun name id => ∃ p, t.getLocalSymbol sid name = some p ∧
      st4.symbol_types.find p.id = some id) fd.parameters ids := by
    refine h1.entered.imp ?_
    rintro name id ⟨p, hp, hid⟩
    refine ⟨p, hp, h4.step.find (by simp [hfresh3]) ?_⟩
    exact h3.step.find (by simp) (h2.step.find (by simp) hid)
  refine ⟨⟨⟨hv4.acyclic, hv4.named, hv4.symbols, hv4.constructors, fun f signature hf => ?_⟩,
    hstep4.length, hstep4.models, fun s' hs' => ?_, hstep4.constructors,
    fun f signature hf => hold f signature (hstep4.functions f signature hf), hstep4.table,
    hstep4.reports⟩, fun _ _ fd' hfd' => ?_, fun _ _ ρ τ hsol fd' hfd' => ?_,
    fun _ ρ τ hsol hc => ?_⟩
  · simp only [AssocMap.find_insert] at hf
    split at hf
    · cases hf
      subst_vars
      exact ⟨hids4, hresult4, ⟨callable, h4.find⟩, fd.name, s, hs, hkind, rfl⟩
    · exact hv4.functions f signature hf
  · refine hstep4.symbols s' ?_
    simp only [List.mem_cons, not_or] at hs'
    simp [hs']
  · cases hfd'
    refine ⟨s, sid, ⟨ids, result⟩, callable, hs, hsid, AssocMap.find_insert_self _ _ _, hentered,
      h4.find, fun ρ hm => ?_⟩
    simp only [hlen4] at hm
    exact h3.sound ρ hm
  · cases hfd'
    have hm3 : st3.types.Models ρ := by
      rw [← hlen4]
      exact hsol.1
    have hagrees : st4.Agrees ρ τ := hsol.2
    refine ⟨s, sid, ids.map ρ, ρ result, hs, hsid, forall₂_agrees hagrees hentered, ?_⟩
    rw [h4.sound ρ τ hsol.2, h3.sound ρ hm3]
  · obtain ⟨s', sid', parameters, R, hs', hsid', hall, hτ⟩ := hc fd rfl
    rw [hs] at hs'
    cases hs'
    rw [hsid] at hsid'
    cases hsid'
    obtain ⟨ρ1, he1⟩ := h1.complete ρ τ hsol
    obtain ⟨ρ2, he2, hres⟩ := h2.complete ρ1 τ R he1.solves trivial
    obtain ⟨ρ3, he3⟩ := h3.complete ρ2 τ he2.solves
    have he13 := (he1.trans he2 h1.step.length).trans he3
      (Nat.le_trans h1.step.length h2.step.length)
    have hids : ids.map ρ3 = parameters := by
      refine forall₂_types_unique (forall₂_agrees he3.solves.2 ?_) hall
      refine h1.entered.imp ?_
      rintro name id ⟨p, hp, hid⟩
      exact ⟨p, hp, h3.step.find (by simp) (h2.step.find (by simp) hid)⟩
    have hcallable : τ s.id = ρ3 callable := by
      rw [h3.sound ρ3 he3.solves.1, hids, he3.same result h2.inRange, hres, hτ]
    have he4 := h4.complete ρ3 τ he3.solves hcallable
    have he := he13.trans he4 hstep3.length
    exact ⟨ρ3, he.same, he.solves, he.silent⟩

theorem prepareFunction_spec {d : Definition} (hd : d ∈ program.definitions)
    {st : TypeAnalyzer} (hv : st.Valid t) (hnodup : (functionSymbols t d).Nodup)
    (hfresh : st.Fresh (functionSymbols t d)) :
    Returns (prepareFunction t d) st fun _ st' =>
      Outcome t (functionSymbols t d) True (FunctionEntered t d) (FunctionTyped t d) st st' := by
  cases d with
  | DataTypeDefinition dt => exact returns_pure (.nothing hv nofun nofun)
  | FunctionDefinition fd =>
    exact prepareFunctionSignature_spec hscoped (hscoped.functions fd hd) hv hnodup hfresh

end

end TypeAnalyzer

end mf.semantics
