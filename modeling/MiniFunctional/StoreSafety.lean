-- Safety of the type store. In every state that the type analyzer goes
-- through, all type ids exist and the graph of types has no cycle, and
-- unification on such a store computes most general unifiers.
import MiniFunctional.TypeSoundness
import Mathlib.Logic.Relation
import Mathlib.Tactic.IntervalCases

open mf.ast mf.parsing mf.tokenization

namespace mf.semantics

open StateOption ScopeTree

namespace TypeStore

variable {types types' : TypeStore}

/-! ## The graph of a store -/

/-- The binding of a variable and the parts of a function type. -/
def Edge (types : TypeStore) (id x : Nat) : Prop := ∃ t, types[id]? = some t ∧ x ∈ t.edges

def InRange (types : TypeStore) : Prop := ∀ id x, types.Edge id x → x < types.length

def NoCycle (types : TypeStore) : Prop := ∀ id, ¬ Relation.TransGen types.Edge id id

theorem Ranked.transGen {rank : Nat → Nat} (hr : types.Ranked rank) {id x : Nat}
    (h : Relation.TransGen types.Edge id x) : rank x < rank id := by
  induction h with
  | single hx =>
    obtain ⟨t, ht, hx⟩ := hx
    exact hr.descends _ t ht _ hx
  | tail _ hx ih =>
    obtain ⟨t, ht, hx⟩ := hx
    have := hr.descends _ t ht _ hx
    omega

/-- Without a cycle, a node ranks by the number of nodes below it. -/
theorem acyclic_iff : types.Acyclic ↔ types.InRange ∧ types.NoCycle := by
  classical
  constructor
  · rintro ⟨rank, hr⟩
    constructor
    · rintro id x ⟨t, ht, hx⟩
      exact hr.inRange id t ht x hx
    · intro id h
      have := hr.transGen h
      omega
  · rintro ⟨hin, hno⟩
    let below := fun id => (Finset.range types.length).filter (Relation.TransGen types.Edge id)
    refine ⟨fun id => (below id).card, fun id t ht x hx => hin id x ⟨t, ht, hx⟩,
      fun id t ht x hx => ?_⟩
    have hedge : types.Edge id x := ⟨t, ht, hx⟩
    apply Finset.card_lt_card
    rw [Finset.ssubset_iff_of_subset]
    · refine ⟨x, ?_, ?_⟩
      · simp only [below, Finset.mem_filter, Finset.mem_range]
        exact ⟨hin id x hedge, .single hedge⟩
      · simp only [below, Finset.mem_filter, not_and]
        exact fun _ => hno x
    · intro y hy
      simp only [below, Finset.mem_filter] at hy ⊢
      exact ⟨hy.1, .head hedge hy.2⟩

/-! ## Termination -/

theorem Returns.isSome {α : Type} {m : StoreM α} {Q : α → TypeStore → Prop}
    (h : Returns m types Q) : (m types).isSome := by
  obtain ⟨a, types', visited, hm, _⟩ := h
  rw [hm]
  rfl

/-- The recursive functions on the store return for all ids in it. -/
structure Terminates (types : TypeStore) : Prop where
  resolve : ∀ id < types.length, (resolve id types).isSome
  peek : ∀ id < types.length, (types.peek id).isSome
  occurs : ∀ var, ∀ id < types.length, (occurs var id types).isSome
  tryUnify : ∀ actual < types.length, ∀ expected < types.length,
    (tryUnify actual expected types).isSome
  materialize : ∀ id < types.length, (materialize id types).isSome

theorem Acyclic.terminates (h : types.Acyclic) : types.Terminates := by
  refine ⟨fun id hid => ?_, fun id hid => ?_, fun var id hid => ?_, fun a ha e he => ?_,
    fun id hid => ?_⟩
  · exact Returns.isSome (resolve_spec h hid)
  · obtain ⟨rank, hr⟩ := h
    obtain ⟨r, hroot⟩ := hr.root hid
    rw [peek_eq ⟨rank, hr⟩ hroot hid]
    rfl
  · exact Returns.isSome (occurs_spec h hid)
  · exact Returns.isSome (tryUnify_spec h ha he)
  · exact Returns.isSome (materialize_spec h hid)

/-! ## Unification -/

/-- Unification computes most general unifiers: it succeeds just when an
assignment to the variables makes the two types equal, and then the models of the
store that it leaves are those of the store before in which they are equal. -/
theorem tryUnify_mgu (hin : types.InRange) (hno : types.NoCycle) {actual expected : Nat}
    (ha : actual < types.length) (he : expected < types.length) :
    ∃ b types' visited, tryUnify actual expected types = some (b, types', visited) ∧
      types'.InRange ∧ types'.NoCycle ∧
      (b = true ↔ ∃ σ, types.denoted σ actual = types.denoted σ expected) ∧
      (b = true → (∀ σ, types'.denoted σ actual = types'.denoted σ expected) ∧
        ∀ ρ, types'.Models ρ ↔ types.Models ρ ∧ ρ actual = ρ expected) := by
  have hacyclic := acyclic_iff.mpr ⟨hin, hno⟩
  obtain ⟨b, types', visited, hrun, _, h⟩ := tryUnify_spec hacyclic ha he
  obtain ⟨hin', hno'⟩ := acyclic_iff.mp h.refines.acyclic
  refine ⟨b, types', visited, hrun, hin', hno', ⟨fun hb => ?_, ?_⟩, fun hb => ⟨fun σ => ?_,
    h.success hb⟩⟩
  · -- a model of the new store is one of the old store
    obtain ⟨ρ, hm', _⟩ := exists_model h.refines.acyclic fun _ => .IntType
    obtain ⟨hm, heq⟩ := (h.success hb ρ).mp hm'
    refine ⟨ρ, ?_⟩
    rw [hm.denoted hacyclic (fun _ _ => rfl) ha, hm.denoted hacyclic (fun _ _ => rfl) he, heq]
  · rintro ⟨σ, heq⟩
    cases b with
    | true => rfl
    | false => exact absurd heq (h.failure rfl _ (models_denoted hacyclic σ))
  · exact ((h.success hb _).mp (models_denoted h.refines.acyclic σ)).2

/-- `t0 -> Int` and `Int -> t0`. -/
def arrowStore : TypeStore :=
  [.InternalTypeVariable none, .InternalIntType, .InternalFunctionType 0 1,
    .InternalFunctionType 1 0]

theorem tryUnify_mgu_arrows :
    ∃ b types' visited, tryUnify 2 3 arrowStore = some (b, types', visited) ∧
      types'.InRange ∧ types'.NoCycle ∧
      (b = true ↔ ∃ σ, arrowStore.denoted σ 2 = arrowStore.denoted σ 3) ∧
      (b = true → (∀ σ, types'.denoted σ 2 = types'.denoted σ 3) ∧
        ∀ ρ, types'.Models ρ ↔ arrowStore.Models ρ ∧ ρ 2 = ρ 3) := by
  have hranked : arrowStore.Ranked fun id => id / 2 := by
    constructor
    · intro id t ht
      have hid := lt_length ht
      simp only [arrowStore, List.length_cons, List.length_nil] at hid
      interval_cases id <;> simp [arrowStore] at ht <;> subst ht <;> simp [arrowStore]
    · intro id t ht
      have hid := lt_length ht
      simp only [arrowStore, List.length_cons, List.length_nil] at hid
      interval_cases id <;> simp [arrowStore] at ht <;> subst ht <;> simp
  obtain ⟨hin, hno⟩ := acyclic_iff.mp ⟨_, hranked⟩
  exact tryUnify_mgu hin hno (by decide) (by decide)

theorem Update.length_le (h : types.Update types') : types.length ≤ types'.length := by
  cases h with
  | make =>
    rw [List.length_append]
    omega
  | bind => rw [List.length_set]
  | compress => rw [List.length_set]

end TypeStore

/-! ## The states of the analyzer -/

namespace TypeAnalyzer

variable {st st' : TypeAnalyzer}

/-- Every type id of the state is in the store, whose graph has no cycle. -/
structure WellFormed (st : TypeAnalyzer) : Prop where
  inRange : st.types.InRange
  noCycle : st.types.NoCycle
  symbols : ∀ (s id : Nat), st.symbol_types.find s = some id → id < st.types.length
  constructors : ∀ (c : Nat) signature, st.constructor_signatures.find c = some signature →
    ∀ (f : Nat), f ∈ signature.fields → f < st.types.length
  functions : ∀ (f : Nat) signature, st.function_signatures.find f = some signature →
    (∀ (p : Nat), p ∈ signature.parameters → p < st.types.length) ∧
      signature.result < st.types.length

theorem WellFormed.acyclic (h : st.WellFormed) : st.types.Acyclic :=
  TypeStore.acyclic_iff.mpr ⟨h.inRange, h.noCycle⟩

theorem initial_wellFormed : initial.WellFormed := by
  have hacyclic : TypeStore.Acyclic [] := ⟨fun _ => 0, by simp, by simp⟩
  obtain ⟨hin, hno⟩ := TypeStore.acyclic_iff.mp hacyclic
  exact ⟨hin, hno, by simp [initial], by simp [initial], by simp [initial]⟩

/-- What `emplace` finds is the new entry or an old one. -/
theorem find_emplace {β : Type} {m : AssocMap SymbolId β} {key key' : SymbolId} {value value' : β}
    (h : (m.emplace key value).find key' = some value') :
    value' = value ∨ m.find key' = some value' := by
  unfold AssocMap.emplace at h
  split at h
  · exact .inr h
  · rw [AssocMap.find_insert] at h
    split at h
    · cases h
      exact .inl rfl
    · exact .inr h

/-- Every write keeps the state well formed. -/
theorem Update.wellFormed (h : st.WellFormed) (hu : Update st st') : st'.WellFormed := by
  obtain ⟨hin, hno, hsymbols, hconstructors, hfunctions⟩ := h
  cases hu with
  | types hu hacyclic =>
    obtain ⟨hin', hno'⟩ := TypeStore.acyclic_iff.mp hacyclic
    have hle := hu.length_le
    refine ⟨hin', hno', fun s id hs => ?_, fun c signature hc f hf => ?_, fun f signature hf => ?_⟩
    · exact Nat.lt_of_lt_of_le (hsymbols s id hs) hle
    · exact Nat.lt_of_lt_of_le (hconstructors c signature hc f hf) hle
    · obtain ⟨hps, hr⟩ := hfunctions f signature hf
      exact ⟨fun p hp => Nat.lt_of_lt_of_le (hps p hp) hle, Nat.lt_of_lt_of_le hr hle⟩
  | @symbol s id hid =>
    refine ⟨hin, hno, fun s' id' hs' => ?_, hconstructors, hfunctions⟩
    rw [AssocMap.find_insert] at hs'
    split at hs'
    · cases hs'
      exact hid
    · exact hsymbols s' id' hs'
  | constructor hfields =>
    refine ⟨hin, hno, hsymbols, fun c signature hc => ?_, hfunctions⟩
    rcases find_emplace hc with rfl | hold
    · exact hfields
    · exact hconstructors c signature hold
  | function hps hr =>
    refine ⟨hin, hno, hsymbols, hconstructors, fun f signature hf => ?_⟩
    rcases find_emplace hf with rfl | hold
    · exact ⟨hps, hr⟩
    · exact hfunctions f signature hold
  | result => exact ⟨hin, hno, hsymbols, hconstructors, hfunctions⟩

end TypeAnalyzer

variable {tokens : TokenVector} {p : ParsedProgram}

/-- The type analyzer returns; on its way it writes only new nodes, bindings of
variables that have none, shorter paths to the end of a chain, and table entries;
and every state on the way is well formed, so that its functions terminate on it.
The tokens are the scanner's. -/
theorem analyze_states (hl : tokens.Lexed) (hp : parse tokens = .ok p) (hok : (analyze p).ok) :
    ∃ st visited, TypeAnalyzer.analyze (analyze p).scopes p.ast .initial = some (⟨⟩, st, visited) ∧
      Path .initial visited st ∧
      ∀ x ∈ TypeAnalyzer.initial :: visited, x.WellFormed ∧ x.types.Terminates := by
  obtain ⟨_, st, visited, hrun, hpath, _⟩ := TypeAnalyzer.analyze_run (analyze_scoped hl hp hok)
  refine ⟨st, visited, hrun, hpath, fun x hx => ?_⟩
  have hx : x.WellFormed := by
    rcases List.mem_cons.mp hx with rfl | hx
    · exact TypeAnalyzer.initial_wellFormed
    · exact hpath.invariant (I := TypeAnalyzer.WellFormed)
        (fun s s' h (hu : TypeAnalyzer.Update s s') => hu.wellFormed h)
        TypeAnalyzer.initial_wellFormed x hx
  exact ⟨hx, hx.acyclic.terminates⟩

theorem analyze_states_inc :
    ∃ st visited, TypeAnalyzer.analyze (analyze incProgram).scopes incProgram.ast .initial =
      some (⟨⟩, st, visited) ∧ Path .initial visited st ∧
      ∀ x ∈ TypeAnalyzer.initial :: visited, x.WellFormed ∧ x.types.Terminates :=
  analyze_states (show incTokens.Lexed by decide) rfl rfl

end mf.semantics
