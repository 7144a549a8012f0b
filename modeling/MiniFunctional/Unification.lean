-- Unification leaves just the models of the store in which the two nodes are
-- equal, and fails when there are none. Each turn binds a variable or goes
-- down in the graph, which has no cycle before and after.
import MiniFunctional.StoreModels

namespace mf.semantics

open StateOption

namespace TypeStore

variable {types types' : TypeStore} {ρ : TypeId → TypeVariant}

/-! ## Binding a variable -/

/-- The variables that are not bound. -/
def unbound (types : TypeStore) : Finset Nat :=
  (Finset.range types.length).filter fun id => types[id]? = some (.InternalTypeVariable none)

theorem mem_unbound {id : Nat} :
    id ∈ types.unbound ↔ types[id]? = some (.InternalTypeVariable none) := by
  rw [unbound, Finset.mem_filter, Finset.mem_range]
  exact ⟨fun h => h.2, fun h => ⟨lt_length h, h⟩⟩

theorem Compressed.unbound (h : Compressed types types') : types'.unbound = types.unbound := by
  ext id
  rw [mem_unbound, mem_unbound, h.node_iff (by simp)]

section

variable {v t : Nat} (hv : types[v]? = some (.InternalTypeVariable none))

include hv

/-- The nodes in which `v` occurs move above those of the type that it is bound to. -/
theorem Ranked.bind {rank : Nat → Nat} (hr : types.Ranked rank) (ht : t < types.length)
    (hnot : ¬ Occurs types v t) :
    Acyclic (types.set v (.InternalTypeVariable (some t))) := by
  classical
  have hself : Occurs types v v := .root (.here hv (by simp))
  refine ⟨fun x => if Occurs types v x then rank x + rank t + 1 else rank x,
    fun x n hx => ?_, fun x n hx => ?_⟩
  · rw [List.length_set]
    by_cases hxv : x = v
    · subst hxv
      rw [getElem?_set_self hv] at hx
      cases hx
      simpa using ht
    · rw [List.getElem?_set_ne (Ne.symm hxv)] at hx
      exact hr.inRange x n hx
  · intro y hy
    by_cases hxv : x = v
    · subst hxv
      rw [getElem?_set_self hv] at hx
      cases hx
      simp only [InternalType.edges, List.mem_singleton] at hy
      subst hy
      simp only [hself, hnot, if_true, if_false]
      omega
    · rw [List.getElem?_set_ne (Ne.symm hxv)] at hx
      have hlt := hr.descends x n hx y hy
      by_cases hoy : Occurs types v y
      · have hox := hoy.edge hx hy
        simp only [hoy, hox, if_true]
        omega
      · by_cases hox : Occurs types v x
        · simp only [hoy, hox, if_true, if_false]
          omega
        · simpa only [hoy, hox, if_false] using hlt

theorem models_bind : Models (types.set v (.InternalTypeVariable (some t))) ρ ↔
    types.Models ρ ∧ ρ v = ρ t := by
  constructor
  · refine fun h => ⟨fun id n hn => ?_, h v _ (getElem?_set_self hv)⟩
    by_cases hid : id = v
    · subst hid
      rw [hv] at hn
      cases hn
      trivial
    · exact h id n (by rw [List.getElem?_set_ne (Ne.symm hid), hn])
  · rintro ⟨h, heq⟩ id n hn
    by_cases hid : id = v
    · subst hid
      rw [getElem?_set_self hv] at hn
      cases hn
      exact heq
    · rw [List.getElem?_set_ne (Ne.symm hid)] at hn
      exact h id n hn

theorem unbound_bind :
    unbound (types.set v (.InternalTypeVariable (some t))) ⊂ types.unbound := by
  rw [Finset.ssubset_iff_of_subset]
  · refine ⟨v, mem_unbound.mpr hv, fun h => ?_⟩
    rw [mem_unbound, getElem?_set_self hv] at h
    cases h
  · intro id h
    rw [mem_unbound] at h ⊢
    by_cases hid : id = v
    · rw [hid]
      exact hv
    · rwa [List.getElem?_set_ne (Ne.symm hid)] at h

end

/-! ## Refinement of a store -/

/-- From `types` to `types'`, variables got bound or rebound, and the graph
still has no cycle. -/
structure Refines (types types' : TypeStore) : Prop where
  length : types'.length = types.length
  acyclic : types'.Acyclic
  node : ∀ (id : Nat) t, types[id]? = some t → (∀ b, t ≠ .InternalTypeVariable b) →
    types'[id]? = some t
  var : ∀ (id : Nat) b, types[id]? = some (.InternalTypeVariable b) →
    ∃ b', types'[id]? = some (.InternalTypeVariable b')
  models : ∀ ρ, types'.Models ρ → types.Models ρ
  progress : types'.unbound ⊂ types.unbound ∨ Compressed types types'

theorem Compressed.refines (h : Compressed types types') (ha : types.Acyclic) :
    Refines types types' := by
  refine ⟨h.length, h.acyclic ha, fun id t ht hnot => ?_, fun id b hb => ?_,
    fun ρ => (h.models_iff ha).mp, .inr h⟩
  · exact h.node id t ht fun hbound => by
      obtain ⟨b, rfl⟩ := InternalType.isBound_iff.mp hbound
      exact hnot _ rfl
  · cases b with
    | none => exact ⟨none, h.node id _ hb (by simp)⟩
    | some b =>
      obtain ⟨b', hb'⟩ := h.bound id b hb
      exact ⟨some b', hb'⟩

theorem Refines.trans {types1 types2 : TypeStore} (h : Refines types types1)
    (h' : Refines types1 types2) : Refines types types2 := by
  refine ⟨h'.length.trans h.length, h'.acyclic, fun id t ht hnot => ?_, fun id b hb => ?_,
    fun ρ hm => h.models ρ (h'.models ρ hm), ?_⟩
  · exact h'.node id t (h.node id t ht hnot) hnot
  · obtain ⟨b', hb'⟩ := h.var id b hb
    exact h'.var id b' hb'
  · rcases h.progress with hlt | hc
    · rcases h'.progress with hlt' | hc'
      · exact .inl (hlt'.trans hlt)
      · exact .inl (by rw [hc'.unbound]; exact hlt)
    · rcases h'.progress with hlt' | hc'
      · exact .inl (by rw [← hc.unbound]; exact hlt')
      · exact .inr (hc.trans hc')

theorem Refines.bind {rank : Nat → Nat} (hr : types.Ranked rank) {v t : Nat}
    (hv : types[v]? = some (.InternalTypeVariable none)) (ht : t < types.length)
    (hnot : ¬ Occurs types v t) :
    Refines types (types.set v (.InternalTypeVariable (some t))) := by
  refine ⟨List.length_set, hr.bind hv ht hnot, fun id n hn hvar => ?_, fun id b hb => ?_,
    fun ρ hm => ((models_bind hv).mp hm).1, .inl (unbound_bind hv)⟩
  · rw [List.getElem?_set_ne (by
      rintro rfl
      rw [hv] at hn
      cases hn
      exact hvar _ rfl), hn]
  · by_cases hid : id = v
    · subst hid
      exact ⟨_, getElem?_set_self hv⟩
    · exact ⟨b, by rw [List.getElem?_set_ne (Ne.symm hid), hb]⟩

/-! ## Unification -/

/-- The outcome of unifying `a` and `e`: on success the models that are left
are those in which the two are equal, and on failure there was none. -/
structure Unifies (types : TypeStore) (a e : Nat) (b : Bool) (types' : TypeStore) : Prop where
  refines : Refines types types'
  success : b = true → ∀ ρ, types'.Models ρ ↔ types.Models ρ ∧ ρ a = ρ e
  failure : b = false → ∀ ρ, types.Models ρ → ρ a ≠ ρ e

theorem Unifies.symm {a e : Nat} {b : Bool} (h : Unifies types a e b types') :
    Unifies types e a b types' := by
  refine ⟨h.refines, fun hb ρ => ?_, fun hb ρ hm => (h.failure hb ρ hm).symm⟩
  rw [h.success hb ρ, eq_comm]

/-- Compression before, and ids that stand for the same types. -/
theorem Unifies.compressed {types1 : TypeStore} (hc : Compressed types types1)
    (ha : types.Acyclic) {a e a' e' : Nat} {b : Bool} (h : Unifies types1 a' e' b types')
    (heq : ∀ ρ, types.Models ρ → ρ a' = ρ a ∧ ρ e' = ρ e) : Unifies types a e b types' := by
  refine ⟨(hc.refines ha).trans h.refines, fun hb ρ => ?_, fun hb ρ hm => ?_⟩
  · rw [h.success hb ρ, hc.models_iff ha]
    refine and_congr_right fun hm => ?_
    rw [(heq ρ hm).1, (heq ρ hm).2]
  · have hne := h.failure hb ρ ((hc.models_iff ha).mpr hm)
    rwa [(heq ρ hm).1, (heq ρ hm).2] at hne

theorem Unifies.refl (ha : types.Acyclic) (a : Nat) : Unifies types a a true types :=
  ⟨(Compressed.refl types).refines ha, fun _ ρ => by simp, nofun⟩

/-- Two nodes with no variable and different heads. -/
theorem Unifies.clash (ha : types.Acyclic) {a e : Nat} (h : ∀ ρ, types.Models ρ → ρ a ≠ ρ e) :
    Unifies types a e false types :=
  ⟨(Compressed.refl types).refines ha, nofun, fun _ => h⟩

theorem Unifies.equal (ha : types.Acyclic) {a e : Nat} (h : ∀ ρ, types.Models ρ → ρ a = ρ e) :
    Unifies types a e true types :=
  ⟨(Compressed.refl types).refines ha, fun _ ρ => ⟨fun hm => ⟨hm, h ρ hm⟩, fun hm => hm.1⟩,
    nofun⟩

theorem bindVariable_spec {rank : Nat → Nat} (hr : types.Ranked rank) {v t : Nat}
    (hv : types[v]? = some (.InternalTypeVariable none)) (ht : Root types t t) (hne : v ≠ t) :
    Returns (bindVariable v t) types (Unifies types v t) := by
  have ha : types.Acyclic := ⟨rank, hr⟩
  refine returns_bind ((occurs_spec ha ht.lt_length).mono ?_)
  rintro b types1 ⟨hb, hc⟩
  cases b with
  | true =>
    refine returns_pure ⟨hc.refines ha, nofun, fun _ ρ hm => ?_⟩
    exact (hb.mp rfl).ne hm ht hne
  | false =>
    have hv1 := hc.node v _ hv (by simp)
    have hnot : ¬ Occurs types1 v t := by
      rw [hc.occurs_iff, ← hb]
      simp
    have hbind := Refines.bind (hc.ranked rank hr) hv1 (by
      rw [hc.length]
      exact ht.lt_length) hnot
    refine returns_bind (returns_modify ⟨.bind hv1, hbind.acyclic⟩ (returns_pure ?_))
    exact Unifies.compressed hc ha ⟨hbind, fun _ ρ => models_bind hv1, nofun⟩
      fun ρ _ => ⟨rfl, rfl⟩

theorem unbound_card_le (types : TypeStore) : types.unbound.card ≤ types.length := by
  have := Finset.card_filter_le (Finset.range types.length)
    fun id => types[id]? = some (.InternalTypeVariable none)
  simpa [unbound] using this

/-- The turns left suffice for the second component after the first. -/
theorem Refines.turns {rank : Nat → Nat} (hr : types.Ranked rank) (h : Refines types types')
    {n x y : Nat} (hx : x < types.length) (hlt : rank x < rank y)
    (hn : types.unbound.card * (types.length + 1) + rank y ≤ n) :
    ∃ rank', types'.Ranked rank' ∧ types'.unbound.card * (types'.length + 1) + rank' x < n := by
  rcases h.progress with hss | hc
  · obtain ⟨rank', hr', hbound⟩ := h.acyclic.bounded
    refine ⟨rank', hr', ?_⟩
    have hcard := Finset.card_lt_card hss
    have hrank := hbound x (by rw [h.length]; exact hx)
    rw [h.length] at hrank ⊢
    have hmul : (types'.unbound.card + 1) * (types.length + 1) ≤
        types.unbound.card * (types.length + 1) := Nat.mul_le_mul_right _ hcard
    rw [Nat.add_mul] at hmul
    omega
  · refine ⟨rank, hc.ranked rank hr, ?_⟩
    rw [hc.unbound, hc.length]
    omega

theorem tryUnifyWithin_spec {rank : Nat → Nat} (hr : types.Ranked rank) {n a e : Nat}
    (ha : a < types.length) (he : e < types.length)
    (hn : types.unbound.card * (types.length + 1) + rank a < n) :
    Returns (tryUnifyWithin n a e) types (Unifies types a e) := by
  induction n generalizing types rank a e with
  | zero => omega
  | succ n ih =>
    have hacyclic : types.Acyclic := ⟨rank, hr⟩
    rw [tryUnifyWithin]
    refine returns_bind ((resolve_spec hacyclic ha).mono ?_)
    rintro a' types1 ⟨hra, hc1⟩
    refine returns_bind
      ((resolve_spec (hc1.acyclic hacyclic) (by rw [hc1.length]; exact he)).mono ?_)
    rintro e' types2 ⟨hre, hc2⟩
    rw [hc1.root] at hre
    have hc := hc1.trans hc2
    have hr2 := hc.ranked rank hr
    have ha2 : types2.Acyclic := ⟨rank, hr2⟩
    have hroots : ∀ ρ, types.Models ρ → ρ a' = ρ a ∧ ρ e' = ρ e :=
      fun ρ hm => ⟨(hm.root hra).symm, (hm.root hre).symm⟩
    have hle := hr.root_le hra
    have hn2 : types2.unbound.card * (types2.length + 1) + rank a' ≤ n := by
      rw [hc.unbound, hc.length]
      omega
    by_cases heq : a' = e'
    · rw [if_pos heq]
      subst heq
      exact returns_pure (.compressed hc hacyclic (.refl ha2 a') hroots)
    · rw [if_neg heq]
      obtain ⟨ta, hta, hnota⟩ := hra.node
      obtain ⟨te, hte, hnote⟩ := hre.node
      have hta2 := hc.node a' ta hta hnota
      have hte2 := hc.node e' te hte hnote
      have hma : ∀ ρ, types2.Models ρ → ta.Denotes ρ (ρ a') := fun ρ hm => hm a' ta hta2
      have hme : ∀ ρ, types2.Models ρ → te.Denotes ρ (ρ e') := fun ρ hm => hm e' te hte2
      refine returns_bind (returns_getType hta2 (returns_bind (returns_getType hte2 ?_)))
      -- the nodes at the two roots decide
      rcases ta with _ | sa | ⟨pa, qa⟩ | ⟨_ | ba⟩
      case InternalTypeVariable.some => exact absurd trivial hnota
      case InternalTypeVariable.none =>
        exact (bindVariable_spec hr2 hta2 (.here hte2 hnote) heq).mono
          fun b types3 h => .compressed hc hacyclic h hroots
      all_goals rcases te with _ | se | ⟨pe, qe⟩ | ⟨_ | be⟩
      case InternalIntType.InternalTypeVariable.some |
        InternalDataType.InternalTypeVariable.some |
        InternalFunctionType.InternalTypeVariable.some => exact absurd trivial hnote
      case InternalIntType.InternalTypeVariable.none |
        InternalDataType.InternalTypeVariable.none |
        InternalFunctionType.InternalTypeVariable.none =>
        exact (bindVariable_spec hr2 hte2 (.here hta2 hnota) (Ne.symm heq)).mono
          fun b types3 h => .compressed hc hacyclic h.symm hroots
      case InternalIntType.InternalIntType =>
        refine returns_pure (.compressed hc hacyclic (.equal ha2 fun ρ hm => ?_) hroots)
        exact (hma ρ hm).trans (hme ρ hm).symm
      case InternalDataType.InternalDataType =>
        by_cases hs : sa = se
        · subst hs
          have hok : Unifies types2 a' e' true types2 :=
            .equal ha2 fun ρ hm => (hma ρ hm).trans (hme ρ hm).symm
          simpa using returns_pure (Unifies.compressed hc hacyclic hok hroots)
        · have hfail : Unifies types2 a' e' false types2 := by
            refine .clash ha2 fun ρ hm heq => ?_
            rw [hma ρ hm, hme ρ hm] at heq
            cases heq
            exact hs rfl
          simpa [hs] using returns_pure (Unifies.compressed hc hacyclic hfail hroots)
      case InternalFunctionType.InternalFunctionType =>
        have hin := hr2.inRange a' _ hta2
        have hine := hr2.inRange e' _ hte2
        have hdown := hr2.descends a' _ hta2
        have hboth : ∀ ρ, types2.Models ρ → (ρ a' = ρ e' ↔ ρ pa = ρ pe ∧ ρ qa = ρ qe) := by
          intro ρ hm
          rw [show ρ a' = _ from hma ρ hm, show ρ e' = _ from hme ρ hm]
          simp
        refine returns_bind ((ih hr2 (hin pa (by simp)) (hine pe (by simp)) (by
          have := hdown pa (by simp)
          omega)).mono ?_)
        rintro b types3 h1
        cases b with
        | false =>
          refine returns_pure (.compressed hc hacyclic ⟨h1.refines, nofun,
            fun _ ρ hm heq => ?_⟩ hroots)
          exact h1.failure rfl ρ hm ((hboth ρ hm).mp heq).1
        | true =>
          obtain ⟨rank3, hr3, hn3⟩ := h1.refines.turns hr2 (hin qa (by simp))
            (hdown qa (by simp)) hn2
          have hlen := h1.refines.length
          refine (ih hr3 (by rw [hlen]; exact hin qa (by simp))
            (by rw [hlen]; exact hine qe (by simp)) hn3).mono fun b types4 h2 => ?_
          refine .compressed hc hacyclic ⟨h1.refines.trans h2.refines, fun hb ρ => ?_,
            fun hb ρ hm heq => ?_⟩ hroots
          · rw [h2.success hb ρ, h1.success rfl ρ, and_assoc]
            exact and_congr_right fun hm => (hboth ρ hm).symm
          · have heq' := (hboth ρ hm).mp heq
            exact h2.failure hb ρ ((h1.success rfl ρ).mpr ⟨hm, heq'.1⟩) heq'.2
      all_goals
        refine returns_pure (.compressed hc hacyclic (.clash ha2 fun ρ hm heq => ?_) hroots)
        rw [hma ρ hm, hme ρ hm] at heq
        cases heq

/-- `tryUnify` returns on every store without a cycle. -/
theorem tryUnify_spec (hacyclic : types.Acyclic) {a e : Nat} (ha : a < types.length)
    (he : e < types.length) : Returns (tryUnify a e) types (Unifies types a e) := by
  obtain ⟨rank, hr, hbound⟩ := hacyclic.bounded
  refine returns_bind (returns_get (tryUnifyWithin_spec hr ha he ?_))
  have hcard := Nat.mul_le_mul_right (types.length + 1) (unbound_card_le types)
  have hrank := hbound a ha
  rw [Nat.add_mul]
  omega

/-! ## Types read from the store -/

/-- What `materialize` says about the node: its one type, or a variable that
leaves it open. -/
def Materializes (types : TypeStore) (id : Nat) : Option TypeVariant → Prop
  | some T => ∀ ρ, types.Models ρ → ρ id = T
  | none => ∃ v : Nat, types[v]? = some (.InternalTypeVariable none) ∧ Occurs types v id

theorem Materializes.compressed (h : Compressed types types') (ha : types.Acyclic) {id : Nat}
    {T : Option TypeVariant} (hT : Materializes types' id T) : Materializes types id T := by
  cases T with
  | some T => exact fun ρ hm => hT ρ ((h.models_iff ha).mpr hm)
  | none =>
    obtain ⟨v, hv, ho⟩ := hT
    exact ⟨v, (h.node_iff (by simp)).mp hv, h.occurs_iff.mp ho⟩

theorem materializeWithin_spec {rank : Nat → Nat} (hr : types.Ranked rank) {n id : Nat}
    (hid : id < types.length) (hn : rank id < n) :
    Returns (materializeWithin n id) types fun T types' =>
      Materializes types id T ∧ Compressed types types' := by
  induction n generalizing types id with
  | zero => omega
  | succ n ih =>
    have ha : types.Acyclic := ⟨rank, hr⟩
    rw [materializeWithin]
    refine returns_bind ((resolve_spec ha hid).mono ?_)
    rintro r types1 ⟨hroot, hc⟩
    have hle := hr.root_le hroot
    have hr1 := hc.ranked rank hr
    obtain ⟨t, ht, hnot⟩ := hroot.node
    have ht1 := hc.node r t ht hnot
    have hm : ∀ ρ, types.Models ρ → t.Denotes ρ (ρ id) := by
      intro ρ hm
      rw [hm.root hroot]
      exact hm r t ht
    refine returns_bind (returns_getType ht1 ?_)
    rcases t with _ | s | ⟨p, q⟩ | ⟨_ | b⟩
    case InternalTypeVariable.some => exact absurd trivial hnot
    case InternalTypeVariable.none => exact returns_pure ⟨⟨r, ht, .root hroot⟩, hc⟩
    case InternalIntType => exact returns_pure ⟨hm, hc⟩
    case InternalDataType => exact returns_pure ⟨hm, hc⟩
    case InternalFunctionType =>
      have hin := hr1.inRange r _ ht1
      have hdown := hr1.descends r _ ht1
      refine returns_bind ((ih hr1 (hin p (by simp)) (by
        have := hdown p (by simp)
        omega)).mono ?_)
      rintro P types2 ⟨hP, hc2⟩
      refine returns_bind ((ih (hc2.ranked rank hr1) (by
        rw [hc2.length]
        exact hin q (by simp)) (by
        have := hdown q (by simp)
        omega)).mono ?_)
      rintro Q types3 ⟨hQ, hc3⟩
      have hP' := hP.compressed hc ha
      have hQ' := hQ.compressed (hc.trans hc2) ha
      have hc' := hc.trans (hc2.trans hc3)
      cases P with
      | none =>
        obtain ⟨v, hv, ho⟩ := hP'
        exact returns_pure ⟨⟨v, hv, .parameter hroot ht ho⟩, hc'⟩
      | some P =>
        cases Q with
        | none =>
          obtain ⟨v, hv, ho⟩ := hQ'
          exact returns_pure ⟨⟨v, hv, .result hroot ht ho⟩, hc'⟩
        | some Q =>
          refine returns_pure ⟨fun ρ hρ => ?_, hc'⟩
          rw [hm ρ hρ, hP' ρ hρ, hQ' ρ hρ]
          rfl

theorem materialize_spec (ha : types.Acyclic) {id : Nat} (hid : id < types.length) :
    Returns (materialize id) types fun T types' =>
      Materializes types id T ∧ Compressed types types' := by
  obtain ⟨rank, hr, hbound⟩ := ha.bounded
  have hlt := hbound id hid
  exact returns_bind (returns_get (materializeWithin_spec hr hid (by omega)))

/-- A model in which the types of the variables are concrete. -/
def ConcreteModel (scopes : ScopeTree) (types : TypeStore) (ρ : TypeId → TypeVariant) : Prop :=
  types.Models ρ ∧
    ∀ (v : Nat), types[v]? = some (.InternalTypeVariable none) → (ρ v).Concrete scopes

theorem exists_concreteModel (ha : types.Acyclic) (scopes : ScopeTree) :
    ∃ ρ, types.ConcreteModel scopes ρ := by
  obtain ⟨ρ, hm, hσ⟩ := exists_model ha fun _ => .IntType
  refine ⟨ρ, hm, fun v hv => ?_⟩
  rw [hσ v hv]
  exact trivial

/-- A type that is left open is not the same in all models. -/
theorem Materializes.two_models (ha : types.Acyclic) (scopes : ScopeTree) {id : Nat}
    (h : Materializes types id none) :
    ∃ ρ ρ', types.ConcreteModel scopes ρ ∧ types.ConcreteModel scopes ρ' ∧ ρ id ≠ ρ' id := by
  obtain ⟨v, hv, ho⟩ := h
  obtain ⟨ρ, hm, hσ⟩ := exists_model ha fun _ => .IntType
  obtain ⟨ρ', hm', hσ'⟩ := exists_model ha fun _ => .FunctionType .IntType .IntType
  refine ⟨ρ, ρ', ⟨hm, fun w hw => ?_⟩, ⟨hm', fun w hw => ?_⟩, ho.ne_of_ne hm hm' ?_⟩
  · rw [hσ w hw]
    exact trivial
  · rw [hσ' w hw]
    exact ⟨trivial, trivial⟩
  · rw [hσ v hv, hσ' v hv]
    simp

/-- Every data type in the store is one of the program. -/
def Named (scopes : ScopeTree) (types : TypeStore) : Prop :=
  ∀ (id symbol : Nat), types[id]? = some (.InternalDataType symbol) → scopes.IsDataType symbol

theorem describeWithin_some {scopes : ScopeTree} {rank : Nat → Nat} (hr : types.Ranked rank)
    (hnamed : types.Named scopes) {n id : Nat} (hid : id < types.length) (hn : rank id < n) :
    ∃ text, describeWithin scopes types n id = some text := by
  induction n generalizing id with
  | zero => omega
  | succ n ih =>
    have ha : types.Acyclic := ⟨rank, hr⟩
    obtain ⟨r, hroot⟩ := hr.root hid
    have hle := hr.root_le hroot
    obtain ⟨t, ht, hnot⟩ := hroot.node
    simp only [describeWithin, peek_eq ha hroot hid, ht, Option.bind_eq_bind, Option.bind_some]
    rcases t with _ | s | ⟨p, q⟩ | b
    case InternalIntType => exact ⟨_, rfl⟩
    case InternalTypeVariable => exact ⟨_, rfl⟩
    case InternalDataType =>
      obtain ⟨symbol, hs, _⟩ := hnamed r s ht
      exact ⟨symbol.name, by simp [hs]⟩
    case InternalFunctionType =>
      have hin := hr.inRange r _ ht
      have hdown := hr.descends r _ ht
      have hp := hin p (by simp)
      obtain ⟨ptext, hptext⟩ := ih hp (by
        have := hdown p (by simp)
        omega)
      obtain ⟨qtext, hqtext⟩ := ih (hin q (by simp)) (by
        have := hdown q (by simp)
        omega)
      obtain ⟨pr, hproot⟩ := hr.root hp
      obtain ⟨pt, hpt, _⟩ := hproot.node
      simp only [hptext, hqtext, peek_eq ha hproot hp, hpt, Option.bind_some]
      exact ⟨_, rfl⟩

theorem describe_some {scopes : ScopeTree} (ha : types.Acyclic) (hnamed : types.Named scopes)
    {id : Nat} (hid : id < types.length) : ∃ text, describe scopes types id = some text := by
  obtain ⟨rank, hr, hbound⟩ := ha.bounded
  have hlt := hbound id hid
  exact describeWithin_some hr hnamed hid (by omega)

/-- The types of a model are concrete when those of its variables are. -/
theorem ConcreteModel.concrete {scopes : ScopeTree} (ha : types.Acyclic)
    (hnamed : types.Named scopes) (h : types.ConcreteModel scopes ρ) {id : Nat}
    (hid : id < types.length) : (ρ id).Concrete scopes := by
  obtain ⟨rank, hr⟩ := ha
  obtain ⟨hm, hσ⟩ := h
  induction hn : rank id using Nat.strong_induction_on generalizing id with
  | _ n ih =>
    obtain ⟨n, ht⟩ : ∃ n, types[id]? = some n := ⟨_, List.getElem?_eq_getElem hid⟩
    have hin := hr.inRange id n ht
    have hdown := hr.descends id n ht
    have hd := hm id n ht
    rcases n with _ | s | ⟨p, q⟩ | ⟨_ | b⟩
    case InternalIntType =>
      simp only [InternalType.Denotes] at hd
      simp [hd]
    case InternalDataType =>
      simp only [InternalType.Denotes] at hd
      rw [hd]
      exact hnamed id s ht
    case InternalFunctionType =>
      simp only [InternalType.Denotes] at hd
      rw [hd]
      have hp := hdown p (by simp)
      have hq := hdown q (by simp)
      exact ⟨ih _ (by omega) (hin p (by simp)) rfl, ih _ (by omega) (hin q (by simp)) rfl⟩
    case InternalTypeVariable.none => exact hσ id ht
    case InternalTypeVariable.some =>
      simp only [InternalType.Denotes] at hd
      rw [hd]
      have hb := hdown b (by simp)
      exact ih _ (by omega) (hin b (by simp)) rfl

end TypeStore

end mf.semantics
