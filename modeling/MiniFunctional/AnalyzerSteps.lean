-- What the primitives of the type analyzer do to its state. A solution of a
-- state is a model of its store with a typing that agrees with it; each
-- primitive returns, keeps the state valid, and adds one constraint to its
-- solutions or reports that there are none.
import MiniFunctional.Typing
import MiniFunctional.Unification

open mf.ast

namespace mf.semantics

open StateOption ScopeTree

namespace TypeAnalyzer

open TypeStore

variable {t : ScopeTree}

/-! ## Writes -/

/-- What the analyzer writes: the store, or an entry of a table whose type ids
are in the store, or its result. -/
inductive Update (st : TypeAnalyzer) : TypeAnalyzer → Prop
  | types {types : TypeStore} : st.types.Update types → types.Acyclic →
      Update st (st.withTypes types)
  | symbol {s : SymbolId} {id : Nat} : id < st.types.length →
    Update st { st with symbol_types := st.symbol_types.insert s id }
  | constructor {c : SymbolId} {signature : InternalConstructorSignature} :
    (∀ (f : Nat), f ∈ signature.fields → f < st.types.length) →
    Update st { st with
      constructor_signatures := st.constructor_signatures.emplace c signature }
  | function {f : SymbolId} {signature : InternalFunctionSignature} :
    (∀ (p : Nat), p ∈ signature.parameters → p < st.types.length) →
    signature.result < st.types.length →
    Update st { st with function_signatures := st.function_signatures.emplace f signature }
  | result {result : TypeAnalysisResult} : Update st { st with result }

instance : Writes TypeAnalyzer := ⟨Update⟩

/-! ## Valid states -/

/-- Every id in the state exists, the graph of types has no cycle, and
everything that a message may name is a symbol. -/
structure Valid (t : ScopeTree) (st : TypeAnalyzer) : Prop where
  acyclic : st.types.Acyclic
  named : st.types.Named t
  symbols : ∀ (s id : Nat), st.symbol_types.find s = some id → id < st.types.length ∧
    ∃ symbol, t.getSymbol s = some symbol
  constructors : ∀ (c : Nat) signature, st.constructor_signatures.find c = some signature →
    (∀ (f : Nat), f ∈ signature.fields → f < st.types.length) ∧
      t.IsDataType signature.data_type ∧
      ∃ id, st.symbol_types.find c = some id
  functions : ∀ (f : Nat) signature, st.function_signatures.find f = some signature →
    (∀ (p : Nat), p ∈ signature.parameters → p < st.types.length) ∧
      signature.result < st.types.length ∧ (∃ id, st.symbol_types.find f = some id) ∧
      ∃ name s, t.getLocalSymbol getRootScopeId name = some s ∧ s.kind = .Function ∧ s.id = f

abbrev diagnostics (st : TypeAnalyzer) : List Diagnostic := st.result.diagnostics

/-- The typing gives every symbol the type of its node. -/
def Agrees (st : TypeAnalyzer) (ρ : TypeId → TypeVariant) (τ : Typing) : Prop :=
  ∀ s id, st.symbol_types.find s = some id → τ s = ρ id

/-- A solution of the constraints so far. -/
def Solves (st : TypeAnalyzer) (ρ : TypeId → TypeVariant) (τ : Typing) : Prop :=
  st.types.Models ρ ∧ st.Agrees ρ τ

theorem Solves.congr {st : TypeAnalyzer} (hv : st.Valid t) {ρ ρ' : TypeId → TypeVariant}
    {τ : Typing} (h : st.Solves ρ τ) (heq : ∀ id < st.types.length, ρ' id = ρ id) :
    st.Solves ρ' τ := by
  obtain ⟨rank, hr⟩ := hv.acyclic
  refine ⟨h.1.congr hr heq, fun s id hs => ?_⟩
  rw [heq id (hv.symbols s id hs).1]
  exact h.2 s id hs

/-- From `st` to `st'`, the store grew or was refined, and no symbol but those
of `changed` got another type. -/
structure Step (t : ScopeTree) (changed : List SymbolId) (st st' : TypeAnalyzer) : Prop where
  valid : st'.Valid t
  length : st.types.length ≤ st'.types.length
  models : ∀ ρ, st'.types.Models ρ → st.types.Models ρ
  symbols : ∀ s ∉ changed, st'.symbol_types.find s = st.symbol_types.find s
  constructors : ∀ c signature, st.constructor_signatures.find c = some signature →
    st'.constructor_signatures.find c = some signature
  functions : ∀ f signature, st.function_signatures.find f = some signature →
    st'.function_signatures.find f = some signature
  table : st'.result.types = st.result.types
  reports : st.diagnostics <+: st'.diagnostics

section

variable {changed changed' : List SymbolId} {st st1 st2 : TypeAnalyzer}

theorem Step.refl (hv : st.Valid t) : Step t [] st st :=
  ⟨hv, Nat.le_refl _, fun _ h => h, fun _ _ => rfl, fun _ _ h => h, fun _ _ h => h, rfl,
    List.prefix_refl _⟩

theorem Step.trans (h : Step t changed st st1) (h' : Step t changed' st1 st2) :
    Step t (changed ++ changed') st st2 := by
  refine ⟨h'.valid, Nat.le_trans h.length h'.length, fun ρ hm => h.models ρ (h'.models ρ hm),
    fun s hs => ?_, fun c signature hc =>
      h'.constructors c signature (h.constructors c signature hc),
    fun f signature hf => h'.functions f signature (h.functions f signature hf),
    h'.table.trans h.table, h.reports.trans h'.reports⟩
  simp only [List.mem_append, not_or] at hs
  rw [h'.symbols s hs.2, h.symbols s hs.1]

theorem Step.mono (h : Step t changed st st1) (hsub : ∀ s ∈ changed, s ∈ changed') :
    Step t changed' st st1 :=
  { h with symbols := fun s hs => h.symbols s fun hin => hs (hsub s hin) }

/-- Symbols that have a type keep it, when those that change had none. -/
theorem Step.find (h : Step t changed st st1)
    (hfresh : ∀ s ∈ changed, st.symbol_types.find s = none) {s : SymbolId} {id : TypeId}
    (hs : st.symbol_types.find s = some id) : st1.symbol_types.find s = some id := by
  rw [h.symbols s fun hin => ?_, hs]
  rw [hfresh s hin] at hs
  cases hs

theorem Step.solves (h : Step t changed st st1)
    (hfresh : ∀ s ∈ changed, st.symbol_types.find s = none) {ρ : TypeId → TypeVariant} {τ : Typing}
    (hs : st1.Solves ρ τ) : st.Solves ρ τ :=
  ⟨h.models ρ hs.1, fun s id hid => hs.2 s id (h.find hfresh hid)⟩

/-- Nothing was reported on the way when nothing was in the end. -/
theorem Step.silent (h : Step t changed st st1) (h' : Step t changed' st1 st2)
    (heq : st2.diagnostics = st.diagnostics) :
    st1.diagnostics = st.diagnostics ∧ st2.diagnostics = st1.diagnostics := by
  have hle := h.reports.length_le
  have hle' := h'.reports.length_le
  rw [heq] at hle'
  have h1 := (h.reports.eq_of_length (by omega)).symm
  exact ⟨h1, heq.trans h1.symm⟩

end

/-- `ρ'` is the solution `ρ` of `st` taken on to a solution of `st'`. -/
structure Extends (st st' : TypeAnalyzer) (τ : Typing) (ρ ρ' : TypeId → TypeVariant) : Prop where
  same : ∀ id < st.types.length, ρ' id = ρ id
  solves : st'.Solves ρ' τ
  silent : st'.diagnostics = st.diagnostics

theorem Extends.refl {st : TypeAnalyzer} {τ : Typing} {ρ : TypeId → TypeVariant}
    (h : st.Solves ρ τ) : Extends st st τ ρ ρ := ⟨fun _ _ => rfl, h, rfl⟩

theorem Extends.trans {st st1 st2 : TypeAnalyzer} {τ : Typing} {ρ ρ1 ρ2 : TypeId → TypeVariant}
    (h : Extends st st1 τ ρ ρ1) (h' : Extends st1 st2 τ ρ1 ρ2)
    (hle : st.types.length ≤ st1.types.length) : Extends st st2 τ ρ ρ2 :=
  ⟨fun id hid => by rw [h'.same id (by omega), h.same id hid], h'.solves,
    h'.silent.trans h.silent⟩

/-! ## New nodes -/

theorem getElem?_append_old {types : TypeStore} {t : InternalType} {id : Nat} {n : InternalType}
    (h : (types ++ [t])[id]? = some n) :
    (id < types.length ∧ types[id]? = some n) ∨ (id = types.length ∧ n = t) := by
  by_cases hid : id < types.length
  · rw [List.getElem?_append_left hid] at h
    exact .inl ⟨hid, h⟩
  · rw [List.getElem?_append_right (by omega)] at h
    have hlt := TypeStore.lt_length h
    rw [List.length_singleton] at hlt
    have hid' : id = types.length := by omega
    subst hid'
    simp at h
    exact .inr ⟨rfl, h.symm⟩

theorem Acyclic.append {types : TypeStore} (h : types.Acyclic) {t : InternalType}
    (hin : ∀ (x : Nat), x ∈ t.edges → x < types.length) : Acyclic (types ++ [t]) := by
  obtain ⟨rank, hr, hbound⟩ := h.bounded
  refine ⟨fun id => if id < types.length then rank id else types.length, fun id n hn x hx => ?_,
    fun id n hn x hx => ?_⟩
  · rw [List.length_append, List.length_singleton]
    rcases getElem?_append_old hn with ⟨_, hold⟩ | ⟨_, rfl⟩
    · have := hr.inRange id n hold x hx
      omega
    · have := hin x hx
      omega
  · rcases getElem?_append_old hn with ⟨hid, hold⟩ | ⟨rfl, rfl⟩
    · have hx' := hr.inRange id n hold x hx
      simp only [hid, hx', if_true]
      exact hr.descends id n hold x hx
    · have hx' := hin x hx
      simp only [hx', if_true, Nat.lt_irrefl, if_false]
      exact hbound x hx'

theorem Models.append_iff {types : TypeStore} {n : InternalType} {ρ : TypeId → TypeVariant} :
    Models (types ++ [n]) ρ ↔ types.Models ρ ∧ n.Denotes ρ (ρ types.length) := by
  constructor
  · refine fun h => ⟨fun id m hm => h id m ?_, h _ n ?_⟩
    · rw [List.getElem?_append_left (TypeStore.lt_length hm), hm]
    · simp
  · rintro ⟨h, hn⟩ id m hm
    rcases getElem?_append_old hm with ⟨_, hold⟩ | ⟨rfl, rfl⟩
    · exact h id m hold
    · exact hn

/-- The node `n` was made, with the id `id`. -/
structure Made (t : ScopeTree) (n : InternalType) (st : TypeAnalyzer) (id : TypeId)
    (st' : TypeAnalyzer) : Prop where
  step : Step t [] st st'
  inRange : id < st'.types.length
  silent : st'.diagnostics = st.diagnostics
  sound : ∀ ρ, st'.types.Models ρ → n.Denotes ρ (ρ id)
  complete : ∀ ρ τ T, st.Solves ρ τ → n.Denotes ρ T → ∃ ρ', Extends st st' τ ρ ρ' ∧ ρ' id = T

theorem denotes_congr {n : InternalType} {ρ ρ' : TypeId → TypeVariant} {T : TypeVariant}
    (heq : ∀ x ∈ n.edges, ρ' x = ρ x) (h : n.Denotes ρ T) : n.Denotes ρ' T := by
  rcases n with _ | _ | ⟨p, r⟩ | ⟨_ | b⟩
  case InternalFunctionType =>
    simp only [InternalType.Denotes] at h ⊢
    rw [heq p (by simp), heq r (by simp), h]
  case InternalTypeVariable.some =>
    simp only [InternalType.Denotes] at h ⊢
    rw [heq b (by simp), h]
  all_goals exact h

theorem makeType_spec {st : TypeAnalyzer} (hv : st.Valid t) {n : InternalType}
    (hfree : ¬ n.IsBound) (hin : ∀ (x : Nat), x ∈ n.edges → x < st.types.length)
    (hnamed : ∀ symbol, n = .InternalDataType symbol → t.IsDataType symbol) :
    Returns (onTypes (makeType n)) st (Made t n st) := by
  have hlen : (st.types ++ [n]).length = st.types.length + 1 := by simp
  have hacyclic := Acyclic.append hv.acyclic hin
  refine ⟨st.types.length, st.withTypes (st.types ++ [n]), [st.withTypes (st.types ++ [n])], rfl,
    .write (.types (.make hfree) hacyclic) (.refl _), ⟨⟨hacyclic, ?_, ?_, ?_, ?_⟩, ?_,
    ?_, fun _ _ => rfl, fun _ _ h => h, fun _ _ h => h, rfl, List.prefix_refl _⟩, ?_, rfl, ?_, ?_⟩
  · intro id symbol hid
    rcases getElem?_append_old hid with ⟨_, hold⟩ | ⟨_, hnew⟩
    · exact hv.named id symbol hold
    · exact hnamed symbol hnew.symm
  · intro s id hs
    obtain ⟨hid, hsym⟩ := hv.symbols s id hs
    exact ⟨by simp only [withTypes, hlen]; omega, hsym⟩
  · intro c signature hc
    obtain ⟨hfields, hrest⟩ := hv.constructors c signature hc
    exact ⟨fun f hf => by have := hfields f hf; simp only [withTypes, hlen]; omega, hrest⟩
  · intro f signature hf
    obtain ⟨hps, hr, hsym⟩ := hv.functions f signature hf
    exact ⟨fun p hp => by have := hps p hp; simp only [withTypes, hlen]; omega, by
      simp only [withTypes, hlen]
      exact Nat.lt_succ_of_lt hr, hsym⟩
  · simp only [withTypes, hlen]
    omega
  · exact fun ρ hm => (Models.append_iff.mp hm).1
  · simp only [withTypes, hlen]
    exact Nat.lt_succ_self _
  · exact fun ρ hm => (Models.append_iff.mp hm).2
  · intro ρ τ T hs hd
    have hsame : ∀ id < st.types.length, Function.update ρ st.types.length T id = ρ id :=
      fun id hid => Function.update_of_ne (Nat.ne_of_lt hid) _ _
    have hs' := hs.congr hv hsame
    refine ⟨Function.update ρ st.types.length T, ⟨hsame, ⟨Models.append_iff.mpr ⟨hs'.1, ?_⟩,
      hs'.2⟩, rfl⟩, Function.update_self _ _ _⟩
    rw [Function.update_self]
    exact denotes_congr (fun x hx => hsame x (hin x hx)) hd

theorem makeVariable_spec {st : TypeAnalyzer} (hv : st.Valid t) :
    Returns makeVariable st (Made t (.InternalTypeVariable none) st) :=
  makeType_spec hv (by simp) (by simp) (by simp)

theorem makeInt_spec {st : TypeAnalyzer} (hv : st.Valid t) :
    Returns makeInt st (Made t .InternalIntType st) :=
  makeType_spec hv (by simp) (by simp) (by simp)

theorem makeData_spec {st : TypeAnalyzer} (hv : st.Valid t) {symbol : SymbolId}
    (hs : t.IsDataType symbol) :
    Returns (makeData symbol) st (Made t (.InternalDataType symbol) st) :=
  makeType_spec hv (by simp) (by simp) (by simpa using hs)

theorem makeFunction_spec {st : TypeAnalyzer} (hv : st.Valid t) {p r : Nat}
    (hp : p < st.types.length) (hr : r < st.types.length) :
    Returns (makeFunction p r) st (Made t (.InternalFunctionType p r) st) :=
  makeType_spec hv (by simp) (by simp [hp, hr]) (by simp)

/-- The nodes of a function type with several parameters. -/
structure MadeFunctions (t : ScopeTree) (parameters : List TypeId) (result : TypeId)
    (st : TypeAnalyzer) (id : TypeId) (st' : TypeAnalyzer) : Prop where
  step : Step t [] st st'
  inRange : id < st'.types.length
  silent : st'.diagnostics = st.diagnostics
  sound : ∀ ρ, st'.types.Models ρ → ρ id = functionTypes (parameters.map ρ) (ρ result)
  complete : ∀ ρ τ, st.Solves ρ τ → ∃ ρ', Extends st st' τ ρ ρ'

theorem makeFunctions_spec {st : TypeAnalyzer} (hv : st.Valid t) {parameters : List TypeId}
    (hps : ∀ (p : Nat), p ∈ parameters → p < st.types.length) {result : Nat}
    (hr : result < st.types.length) :
    Returns (makeFunctions parameters result) st (MadeFunctions t parameters result st) := by
  induction parameters with
  | nil =>
    exact returns_pure ⟨.refl hv, hr, rfl, fun ρ _ => rfl, fun ρ τ h => ⟨ρ, .refl h⟩⟩
  | cons p ps ih =>
    refine returns_bind ((ih fun q hq => hps q (List.mem_cons_of_mem _ hq)).mono ?_)
    intro id st1 h1
    have hp := hps p List.mem_cons_self
    refine (makeFunction_spec h1.step.valid (Nat.lt_of_lt_of_le hp h1.step.length)
      h1.inRange).mono ?_
    intro id' st2 h2
    refine ⟨h1.step.trans h2.step, h2.inRange, h2.silent.trans h1.silent, fun ρ hm => ?_,
      fun ρ τ hs => ?_⟩
    · have hd := h2.sound ρ hm
      rw [InternalType.Denotes, h1.sound ρ (h2.step.models ρ hm)] at hd
      exact hd
    · obtain ⟨ρ1, he1⟩ := h1.complete ρ τ hs
      obtain ⟨ρ2, he2, _⟩ := h2.complete ρ1 τ _ he1.solves rfl
      exact ⟨ρ2, he1.trans he2 h1.step.length⟩

/-! ## The types of symbols -/

theorem agrees_insert {st : TypeAnalyzer} {s : SymbolId} {id : TypeId}
    (hfresh : st.symbol_types.find s = none) {ρ : TypeId → TypeVariant} {τ : Typing} :
    Agrees { st with symbol_types := st.symbol_types.insert s id } ρ τ ↔
      st.Agrees ρ τ ∧ τ s = ρ id := by
  constructor
  · refine fun h => ⟨fun s' id' hs' => h s' id' ?_, h s id (AssocMap.find_insert_self _ _ _)⟩
    rw [AssocMap.find_insert, if_neg, hs']
    rintro rfl
    rw [hfresh] at hs'
    cases hs'
  · rintro ⟨h, hs⟩ s' id' hs'
    simp only [AssocMap.find_insert] at hs'
    split at hs'
    · cases hs'
      subst_vars
      exact hs
    · exact h s' id' hs'

/-- The symbol `s`, which had no type, has that of the node. -/
structure Assigned (t : ScopeTree) (s : SymbolId) (id : TypeId) (st st' : TypeAnalyzer) :
    Prop where
  step : Step t [s] st st'
  types : st'.types = st.types
  constructors : st'.constructor_signatures = st.constructor_signatures
  functions : st'.function_signatures = st.function_signatures
  silent : st'.diagnostics = st.diagnostics
  find : st'.symbol_types.find s = some id
  sound : ∀ ρ τ, st'.Agrees ρ τ → τ s = ρ id
  complete : ∀ ρ τ, st.Solves ρ τ → τ s = ρ id → Extends st st' τ ρ ρ

theorem setSymbolType_spec {st : TypeAnalyzer} (hv : st.Valid t) {s id : Nat}
    (hfresh : st.symbol_types.find s = none) (hid : id < st.types.length)
    (hsym : ∃ symbol, t.getSymbol s = some symbol) :
    Returns (setSymbolType s id) st fun _ st' => Assigned t s id st st' := by
  have hgrow : ∀ s', (∃ id', st.symbol_types.find s' = some id') →
      ∃ id', (st.symbol_types.insert s id).find s' = some id' := by
    rintro s' ⟨id', hid'⟩
    rw [AssocMap.find_insert]
    split
    · exact ⟨id, rfl⟩
    · exact ⟨id', hid'⟩
  refine returns_modify (.symbol hid)
    ⟨⟨⟨hv.acyclic, hv.named, fun s' id' hs' => ?_, fun c signature hc => ?_,
    fun f signature hf => ?_⟩, Nat.le_refl _, fun _ h => h, fun s' hs' => ?_, fun _ _ h => h,
    fun _ _ h => h, rfl, List.prefix_refl _⟩, rfl, rfl, rfl, rfl, AssocMap.find_insert_self _ _ _,
    fun ρ τ h => ((agrees_insert hfresh).mp h).2, fun ρ τ h hs => ⟨fun _ _ => rfl, ?_, rfl⟩⟩
  · simp only [AssocMap.find_insert] at hs'
    split at hs'
    · cases hs'
      subst_vars
      exact ⟨hid, hsym⟩
    · exact hv.symbols s' id' hs'
  · obtain ⟨hfields, hdata, hkey⟩ := hv.constructors c signature hc
    exact ⟨hfields, hdata, hgrow c hkey⟩
  · obtain ⟨hps, hr, hkey, hname⟩ := hv.functions f signature hf
    exact ⟨hps, hr, hgrow f hkey, hname⟩
  · exact AssocMap.find_insert_of_ne _ _ (by simpa using hs')
  · exact ⟨h.1, (agrees_insert hfresh).mpr ⟨h.2, hs⟩⟩

/-- A symbol that has no type yet has no signature. -/
theorem Valid.unsigned {st : TypeAnalyzer} (hv : st.Valid t) {s : SymbolId}
    (hs : st.symbol_types.find s = none) :
    st.constructor_signatures.find s = none ∧ st.function_signatures.find s = none := by
  constructor
  · by_contra hne
    obtain ⟨signature, hfind⟩ := Option.ne_none_iff_exists'.mp hne
    obtain ⟨_, _, id, hid⟩ := hv.constructors s signature hfind
    rw [hs] at hid
    cases hid
  · by_contra hne
    obtain ⟨signature, hfind⟩ := Option.ne_none_iff_exists'.mp hne
    obtain ⟨_, _, ⟨id, hid⟩, _⟩ := hv.functions s signature hfind
    rw [hs] at hid
    cases hid

/-! ## Reports and unification -/

theorem addError_spec {st : TypeAnalyzer} (hv : st.Valid t) (node_id : NodeId) (message : String) :
    Returns (addError node_id message) st fun _ st' => Step t [] st st' ∧
      st'.diagnostics ≠ st.diagnostics := by
  refine returns_modify .result ⟨⟨⟨hv.acyclic, hv.named, hv.symbols, hv.constructors, hv.functions⟩,
    Nat.le_refl _, fun _ h => h, fun _ _ => rfl, fun _ _ h => h, fun _ _ h => h, rfl,
    List.prefix_append _ _⟩, ?_⟩
  simp [diagnostics]

/-- The two nodes were made equal, or a mismatch was reported. -/
structure Unified (t : ScopeTree) (a e : TypeId) (st st' : TypeAnalyzer) : Prop where
  step : Step t [] st st'
  sound : st'.diagnostics = st.diagnostics → ∀ ρ, st'.types.Models ρ → ρ a = ρ e
  complete : ∀ ρ τ, st.Solves ρ τ → ρ a = ρ e → Extends st st' τ ρ ρ

theorem Valid.refines {st : TypeAnalyzer} (hv : st.Valid t) {types : TypeStore}
    (h : Refines st.types types) : Valid t { st with types } := by
  refine ⟨h.acyclic, fun id symbol hid => ?_, fun s id hs => ?_, fun c signature hc => ?_,
    fun f signature hf => ?_⟩
  · -- the data types are those that were there
    have hlt : id < st.types.length := by
      rw [← h.length]
      exact TypeStore.lt_length hid
    obtain ⟨n, hn⟩ := exists_node hlt
    by_cases hvar : ∃ b, n = .InternalTypeVariable b
    · obtain ⟨b, rfl⟩ := hvar
      obtain ⟨b', hb'⟩ := h.var id b hn
      simp only at hid
      rw [hid] at hb'
      cases hb'
    · have hn' := h.node id n hn fun b hb => hvar ⟨b, hb⟩
      simp only at hid
      rw [hid] at hn'
      cases hn'
      exact hv.named id symbol hn
  · rw [h.length]
    exact hv.symbols s id hs
  · rw [h.length]
    exact hv.constructors c signature hc
  · rw [h.length]
    exact hv.functions f signature hf

theorem Step.refines {st : TypeAnalyzer} (hv : st.Valid t) {types : TypeStore}
    (h : Refines st.types types) : Step t [] st { st with types } :=
  ⟨hv.refines h, Nat.le_of_eq h.length.symm, h.models, fun _ _ => rfl, fun _ _ h => h,
    fun _ _ h => h, rfl, List.prefix_refl _⟩

theorem path_withTypes (st : TypeAnalyzer) {types types' : TypeStore} {visited : List TypeStore}
    (h : Path types visited types') :
    Path (st.withTypes types) (visited.map st.withTypes) (st.withTypes types') := by
  induction h with
  | refl => exact .refl _
  | write hw _ ih => exact .write (.types hw.1 hw.2) ih

theorem returns_onTypes {α : Type} {m : StoreM α} {st : TypeAnalyzer}
    {Q : α → TypeAnalyzer → Prop}
    (h : Returns m st.types fun a types => Q a { st with types }) :
    Returns (onTypes m) st Q := by
  obtain ⟨a, types, visited, hm, hpath, hq⟩ := h
  exact ⟨a, st.withTypes types, visited.map st.withTypes, by simp [onTypes, hm],
    path_withTypes st hpath, hq⟩

theorem returns_readTypes {α : Type} {read : TypeStore → Option α} {st : TypeAnalyzer} {a : α}
    {Q : α → TypeAnalyzer → Prop} (hread : read st.types = some a) (h : Q a st) :
    Returns (readTypes read) st Q := ⟨a, st, [], by simp [readTypes, hread], .refl st, h⟩

theorem unify_spec {st : TypeAnalyzer} (hv : st.Valid t) {a e : Nat} (ha : a < st.types.length)
    (he : e < st.types.length) (node_id : NodeId) (context : String) :
    Returns (unify t a e node_id context) st fun _ st' => Unified t a e st st' := by
  refine returns_bind (returns_onTypes ((tryUnify_spec hv.acyclic ha he).mono ?_))
  intro b types h
  have hstep := Step.refines hv h.refines
  cases b with
  | true =>
    refine returns_pure ⟨hstep, fun _ ρ hm => ((h.success rfl ρ).mp hm).2, fun ρ τ hs heq => ?_⟩
    exact ⟨fun _ _ => rfl, ⟨(h.success rfl ρ).mpr ⟨hs.1, heq⟩, hs.2⟩, rfl⟩
  | false =>
    rw [← h.refines.length] at he ha
    obtain ⟨etext, hetext⟩ := describe_some hstep.valid.acyclic hstep.valid.named he
    obtain ⟨atext, hatext⟩ := describe_some hstep.valid.acyclic hstep.valid.named ha
    refine returns_bind (returns_readTypes hetext (returns_bind (returns_readTypes hatext ?_)))
    refine returns_bind ((addError_spec hstep.valid _ _).mono ?_)
    rintro _ st2 ⟨hstep2, hne⟩
    refine returns_pure ⟨hstep.trans hstep2, fun heq => absurd heq hne, fun ρ τ hs heq => ?_⟩
    exact absurd heq (h.failure rfl ρ hs.1)

end TypeAnalyzer

end mf.semantics
