-- The type store as a graph: what a node leads to, the root that a chain of
-- bindings ends in, and that path compression changes neither.
import MiniFunctional.TypeStore
import Mathlib.Data.Finset.Card
import Mathlib.Data.Finset.Range

namespace mf.semantics

open StateOption

/-- The nodes that a node names. -/
@[simp] def InternalType.edges : InternalType → List TypeId
  | .InternalFunctionType parameter result => [parameter, result]
  | .InternalTypeVariable (some binding) => [binding]
  | _ => []

@[simp] def InternalType.IsBound : InternalType → Prop
  | .InternalTypeVariable (some _) => True
  | _ => False

theorem InternalType.isBound_iff {t : InternalType} :
    t.IsBound ↔ ∃ b, t = .InternalTypeVariable (some b) := by
  rcases t with _ | _ | _ | ⟨_ | b⟩ <;> simp

namespace TypeStore

/-- Every node that is named exists and ranks below the one that names it. -/
structure Ranked (types : TypeStore) (rank : Nat → Nat) : Prop where
  inRange : ∀ (id : Nat) t, types[id]? = some t → ∀ (x : Nat), x ∈ t.edges → x < types.length
  descends : ∀ (id : Nat) t, types[id]? = some t → ∀ (x : Nat), x ∈ t.edges → rank x < rank id

/-- The graph of the store has no cycle. -/
def Acyclic (types : TypeStore) : Prop := ∃ rank, types.Ranked rank

theorem lt_length {types : TypeStore} {id : Nat} {t : InternalType} (h : types[id]? = some t) :
    id < types.length := (List.getElem?_eq_some_iff.mp h).1

theorem exists_node {types : TypeStore} {id : Nat} (h : id < types.length) :
    ∃ t, types[id]? = some t := ⟨_, List.getElem?_eq_getElem h⟩

/-- A node's rank can be the number of nodes that rank below it. -/
theorem Acyclic.bounded {types : TypeStore} (h : types.Acyclic) :
    ∃ rank, types.Ranked rank ∧ ∀ (id : Nat), id < types.length → rank id < types.length := by
  obtain ⟨rank, hr⟩ := h
  let below := fun id => (Finset.range types.length).filter fun x => rank x < rank id
  refine ⟨fun id => (below id).card, ⟨hr.inRange, fun id t ht x hx => ?_⟩, fun id hid => ?_⟩
  · have hlt := hr.descends id t ht x hx
    apply Finset.card_lt_card
    rw [Finset.ssubset_iff_of_subset]
    · exact ⟨x, by simp [below, hlt, hr.inRange id t ht x hx], by simp [below]⟩
    · intro y hy
      simp only [below, Finset.mem_filter] at hy ⊢
      exact ⟨hy.1, by omega⟩
  · have hlt : (below id).card < (Finset.range types.length).card := by
      apply Finset.card_lt_card
      rw [Finset.ssubset_iff_of_subset (Finset.filter_subset _ _)]
      exact ⟨id, by simpa using hid, by simp⟩
    simpa using hlt

/-! ## Roots -/

/-- The bindings from `id` end at the node that is not bound. -/
inductive Root (types : TypeStore) : Nat → Nat → Prop
  | here {id : Nat} {t : InternalType} : types[id]? = some t → ¬ t.IsBound → Root types id id
  | step {id b r : Nat} : types[id]? = some (.InternalTypeVariable (some b)) → Root types b r →
    Root types id r

section

variable {types : TypeStore} {id r r' : Nat}

theorem Root.node (h : Root types id r) : ∃ t, types[r]? = some t ∧ ¬ t.IsBound := by
  induction h with
  | here ht hnot => exact ⟨_, ht, hnot⟩
  | step _ _ ih => exact ih

theorem Root.lt_length (h : Root types id r) : r < types.length := by
  obtain ⟨t, ht, _⟩ := h.node
  exact TypeStore.lt_length ht

theorem Root.unique (h : Root types id r) (h' : Root types id r') : r = r' := by
  induction h with
  | here ht hnot =>
    cases h' with
    | here => rfl
    | step hb _ =>
      rw [ht] at hb
      cases hb
      exact absurd trivial hnot
  | step hb _ ih =>
    cases h' with
    | here ht hnot =>
      rw [hb] at ht
      cases ht
      exact absurd trivial hnot
    | step hb' hroot =>
      rw [hb] at hb'
      cases hb'
      exact ih hroot

theorem Root.self (h : Root types id r) : Root types r r := by
  obtain ⟨t, ht, hnot⟩ := h.node
  exact .here ht hnot

variable {rank : Nat → Nat}

theorem Ranked.root (hr : types.Ranked rank) (hid : id < types.length) :
    ∃ r, Root types id r := by
  induction hn : rank id using Nat.strong_induction_on generalizing id with
  | _ n ih =>
    obtain ⟨t, ht⟩ := exists_node hid
    by_cases hbound : t.IsBound
    · obtain ⟨b, rfl⟩ := InternalType.isBound_iff.mp hbound
      have hlt := hr.descends id _ ht b (by simp)
      obtain ⟨r, hroot⟩ := ih (rank b) (by omega) (hr.inRange id _ ht b (by simp)) rfl
      exact ⟨r, .step ht hroot⟩
    · exact ⟨id, .here ht hbound⟩

theorem Ranked.root_le (hr : types.Ranked rank) (h : Root types id r) : rank r ≤ rank id := by
  induction h with
  | here => exact Nat.le_refl _
  | step hb _ ih =>
    have := hr.descends _ _ hb _ (List.mem_singleton.mpr rfl)
    omega

end

/-! ## Compression -/

/-- Bound variables may be bound further along their way, and that is all. -/
structure Compressed (types types' : TypeStore) : Prop where
  length : types'.length = types.length
  node : ∀ (id : Nat) t, types[id]? = some t → ¬ t.IsBound → types'[id]? = some t
  bound : ∀ (id b : Nat), types[id]? = some (.InternalTypeVariable (some b)) →
    ∃ b', types'[id]? = some (.InternalTypeVariable (some b'))
  root : ∀ (id r : Nat), Root types' id r ↔ Root types id r
  ranked : ∀ rank, types.Ranked rank → types'.Ranked rank

theorem Compressed.refl (types : TypeStore) : Compressed types types :=
  ⟨rfl, fun _ _ h _ => h, fun _ b h => ⟨b, h⟩, fun _ _ => Iff.rfl, fun _ h => h⟩

theorem Compressed.trans {types types1 types2 : TypeStore} (h : Compressed types types1)
    (h' : Compressed types1 types2) : Compressed types types2 := by
  refine ⟨h'.length.trans h.length, fun id t ht hnot => ?_, fun id b hb => ?_, fun id r => ?_,
    fun rank hr => h'.ranked rank (h.ranked rank hr)⟩
  · exact h'.node id t (h.node id t ht hnot) hnot
  · obtain ⟨b', hb'⟩ := h.bound id b hb
    exact h'.bound id b' hb'
  · rw [h'.root, h.root]

theorem Compressed.acyclic {types types' : TypeStore} (h : Compressed types types')
    (ha : types.Acyclic) : types'.Acyclic := by
  obtain ⟨rank, hr⟩ := ha
  exact ⟨rank, h.ranked rank hr⟩

/-- The nodes that are not bound are the same. -/
theorem Compressed.node_iff {types types' : TypeStore} (h : Compressed types types') {id : Nat}
    {t : InternalType} (hnot : ¬ t.IsBound) : types'[id]? = some t ↔ types[id]? = some t := by
  constructor
  · intro ht
    obtain ⟨t0, ht0⟩ := exists_node (by
      have := lt_length ht
      rw [h.length] at this
      exact this)
    by_cases hbound : t0.IsBound
    · obtain ⟨b, rfl⟩ := InternalType.isBound_iff.mp hbound
      obtain ⟨b', hb'⟩ := h.bound id b ht0
      rw [ht] at hb'
      cases hb'
      exact absurd trivial hnot
    · have ht' := h.node id t0 ht0 hbound
      rw [ht] at ht'
      cases ht'
      exact ht0
  · exact fun ht => h.node id t ht hnot

theorem getElem?_set_self {types : TypeStore} {id : Nat} {t t' : InternalType}
    (h : types[id]? = some t') : (types.set id t)[id]? = some t := by
  rw [List.getElem?_set_self (lt_length h)]

theorem Root.set_bound {types : TypeStore} {id b r x y : Nat}
    (hid : types[id]? = some (.InternalTypeVariable (some b))) (hr : Root types id r)
    (h : Root types x y) : Root (types.set id (.InternalTypeVariable (some r))) x y := by
  have hkeep : ∀ (z : Nat) t, types[z]? = some t → ¬ t.IsBound →
      (types.set id (.InternalTypeVariable (some r)))[z]? = some t := by
    intro z t hz hnot
    rw [List.getElem?_set_ne (by
      rintro rfl
      rw [hid] at hz
      cases hz
      exact absurd trivial hnot), hz]
  induction h with
  | here ht hnot => exact .here (hkeep _ _ ht hnot) hnot
  | @step x b' y hb hroot ih =>
    by_cases hx : x = id
    · subst hx
      obtain rfl := hr.unique (.step hb hroot)
      obtain ⟨t, ht, hnot⟩ := hr.node
      exact .step (getElem?_set_self hid) (.here (hkeep _ _ ht hnot) hnot)
    · exact .step (by rw [List.getElem?_set_ne (Ne.symm hx), hb]) ih

/-- One write of `resolve`. -/
theorem Compressed.set {types : TypeStore} (ha : types.Acyclic) {id b r : Nat}
    (hid : types[id]? = some (.InternalTypeVariable (some b))) (hr : Root types id r) :
    Compressed types (types.set id (.InternalTypeVariable (some r))) := by
  refine ⟨List.length_set, fun x t hx hnot => ?_, fun x b' hx => ?_, fun x y => ?_,
    fun rank hrank => ⟨fun x t hx => ?_, fun x t hx => ?_⟩⟩
  · rw [List.getElem?_set_ne (by
      rintro rfl
      rw [hid] at hx
      cases hx
      exact absurd trivial hnot), hx]
  · by_cases hne : x = id
    · subst hne
      exact ⟨r, getElem?_set_self hid⟩
    · exact ⟨b', by rw [List.getElem?_set_ne (Ne.symm hne), hx]⟩
  · constructor
    · intro h
      have hx : x < types.length := by
        cases h with
        | here ht _ => simpa using lt_length ht
        | step hb _ => simpa using lt_length hb
      obtain ⟨rank, hrank⟩ := ha
      obtain ⟨y', hy'⟩ := hrank.root hx
      rw [h.unique (Root.set_bound hid hr hy')]
      exact hy'
    · exact fun h => Root.set_bound hid hr h
  · rw [List.length_set]
    by_cases hne : x = id
    · subst hne
      rw [getElem?_set_self hid] at hx
      cases hx
      simpa using hr.lt_length
    · rw [List.getElem?_set_ne (Ne.symm hne)] at hx
      exact hrank.inRange x t hx
  · by_cases hne : x = id
    · subst hne
      rw [getElem?_set_self hid] at hx
      cases hx
      have hlt := hrank.descends x _ hid b (by simp)
      cases hr with
      | here ht hnot =>
        rw [hid] at ht
        cases ht
        exact absurd trivial hnot
      | step hb hroot =>
        rw [hid] at hb
        cases hb
        have hle := hrank.root_le hroot
        simp only [InternalType.edges, List.mem_singleton, forall_eq]
        omega
    · rw [List.getElem?_set_ne (Ne.symm hne)] at hx
      exact hrank.descends x t hx

/-! ## What is written -/

/-- A new node, a binding for a variable that has none, or the end of its
chain for a variable that is bound. -/
inductive Update (types : TypeStore) : TypeStore → Prop
  | make {t : InternalType} : ¬ t.IsBound → Update types (types ++ [t])
  | bind {v t : Nat} : types[v]? = some (.InternalTypeVariable none) →
    Update types (types.set v (.InternalTypeVariable (some t)))
  | compress {id r : Nat} : (∃ b, types[id]? = some (.InternalTypeVariable (some b))) →
    Root types id r → Update types (types.set id (.InternalTypeVariable (some r)))

instance : Writes TypeStore := ⟨fun types types' => types.Update types' ∧ types'.Acyclic⟩

/-! ## Resolution -/

theorem returns_getType {types : TypeStore} {id : Nat} {t : InternalType}
    {Q : InternalType → TypeStore → Prop} (ht : types[id]? = some t) (h : Q t types) :
    Returns (getType id) types Q := ⟨t, types, [], by simp [getType, ht], .refl types, h⟩

theorem resolveWithin_spec {types : TypeStore} {rank : Nat → Nat} (hr : types.Ranked rank)
    {n id : Nat} (hid : id < types.length) (hn : rank id < n) :
    Returns (resolveWithin n id) types fun r types' =>
      Root types id r ∧ Compressed types types' := by
  induction n generalizing id with
  | zero => omega
  | succ n ih =>
    obtain ⟨t, ht⟩ := exists_node hid
    rw [resolveWithin]
    refine returns_bind (returns_getType ht ?_)
    by_cases hbound : t.IsBound
    · obtain ⟨b, rfl⟩ := InternalType.isBound_iff.mp hbound
      have hlt := hr.descends id _ ht b (by simp)
      have hb := hr.inRange id _ ht b (by simp)
      refine returns_bind ((ih hb (by omega)).mono ?_)
      rintro r types1 ⟨hroot, hc⟩
      obtain ⟨b', hb'⟩ := hc.bound id b ht
      have hroot1 := (hc.root id r).mpr (.step ht hroot)
      have hset := Compressed.set (hc.acyclic ⟨rank, hr⟩) hb' hroot1
      have hacyclic := hset.acyclic (hc.acyclic ⟨rank, hr⟩)
      exact returns_bind (returns_modify ⟨.compress ⟨b', hb'⟩ hroot1, hacyclic⟩
        (returns_pure ⟨.step ht hroot, hc.trans hset⟩))
    · rcases t with _ | _ | _ | ⟨_ | b⟩
      case InternalTypeVariable.some => exact absurd trivial hbound
      all_goals exact returns_pure ⟨.here ht hbound, .refl types⟩

/-- `resolve` gives the root and compresses the way to it. -/
theorem resolve_spec {types : TypeStore} (ha : types.Acyclic) {id : Nat}
    (hid : id < types.length) :
    Returns (resolve id) types fun r types' => Root types id r ∧ Compressed types types' := by
  obtain ⟨rank, hr, hbound⟩ := ha.bounded
  have hlt := hbound id hid
  exact returns_bind (returns_get (resolveWithin_spec hr hid (by omega)))

theorem peekWithin_eq {types : TypeStore} {rank : Nat → Nat} (hr : types.Ranked rank)
    {n id r : Nat} (hn : rank id < n) (h : Root types id r) :
    peekWithin types n id = some r := by
  induction h generalizing n with
  | @here id t ht hnot =>
    obtain ⟨n, rfl⟩ : ∃ k, n = k + 1 := ⟨n - 1, by omega⟩
    rw [peekWithin, ht]
    rcases t with _ | _ | _ | ⟨_ | b⟩
    case InternalTypeVariable.some => exact absurd trivial hnot
    all_goals rfl
  | @step id b r hb _ ih =>
    obtain ⟨n, rfl⟩ : ∃ k, n = k + 1 := ⟨n - 1, by omega⟩
    have hlt := hr.descends id _ hb b (by simp)
    rw [peekWithin, hb]
    exact ih (by omega)

/-- `peek` gives the root too. -/
theorem peek_eq {types : TypeStore} (ha : types.Acyclic) {id r : Nat} (h : Root types id r)
    (hid : id < types.length) : peek types id = some r := by
  obtain ⟨rank, hr, hbound⟩ := ha.bounded
  have hlt := hbound id hid
  exact peekWithin_eq hr (by omega) h

end TypeStore

end mf.semantics
