-- What a type store says: a model gives every node a type that it may stand
-- for. Models, and the parts of a type that the occurs check finds.
import MiniFunctional.StoreLaws

namespace mf.semantics

open StateOption

/-- What a node says about the type `T` that it stands for. -/
@[simp] def InternalType.Denotes (ρ : TypeId → TypeVariant) (T : TypeVariant) : InternalType → Prop
  | .InternalIntType => T = .IntType
  | .InternalDataType symbol => T = .DataType symbol
  | .InternalFunctionType parameter result => T = .FunctionType (ρ parameter) (ρ result)
  | .InternalTypeVariable none => True
  | .InternalTypeVariable (some binding) => T = ρ binding

namespace TypeStore

def Models (types : TypeStore) (ρ : TypeId → TypeVariant) : Prop :=
  ∀ (id : Nat) t, types[id]? = some t → t.Denotes ρ (ρ id)

variable {types types' : TypeStore} {ρ : TypeId → TypeVariant}

theorem Models.root (h : types.Models ρ) {id r : Nat} (hr : Root types id r) : ρ id = ρ r := by
  induction hr with
  | here => rfl
  | step hb _ ih => exact (h _ _ hb).trans ih

theorem models_iff_roots (ha : types.Acyclic) : types.Models ρ ↔
    (∀ id r, Root types id r → ρ id = ρ r) ∧
      ∀ (id : Nat) t, types[id]? = some t → ¬ t.IsBound → t.Denotes ρ (ρ id) := by
  constructor
  · exact fun h => ⟨fun id r hr => h.root hr, fun id t ht _ => h id t ht⟩
  · rintro ⟨hroot, hnode⟩ id t ht
    by_cases hbound : t.IsBound
    · obtain ⟨b, rfl⟩ := InternalType.isBound_iff.mp hbound
      obtain ⟨rank, hr⟩ := ha
      obtain ⟨r, hb⟩ := hr.root (hr.inRange id _ ht b (by simp))
      exact (hroot id r (.step ht hb)).trans (hroot b r hb).symm
    · exact hnode id t ht hbound

/-- Path compression changes no model. -/
theorem Compressed.models_iff (h : Compressed types types') (ha : types.Acyclic) :
    types'.Models ρ ↔ types.Models ρ := by
  rw [models_iff_roots ha, models_iff_roots (h.acyclic ha)]
  refine and_congr (forall₂_congr fun id r => by rw [h.root]) ?_
  refine forall₂_congr fun id t => ?_
  constructor
  · exact fun hd ht hnot => hd ((h.node_iff hnot).mpr ht) hnot
  · exact fun hd ht hnot => hd ((h.node_iff hnot).mp ht) hnot

theorem Models.congr {rank : Nat → Nat} (hr : types.Ranked rank) {ρ' : TypeId → TypeVariant}
    (heq : ∀ id < types.length, ρ' id = ρ id) (h : types.Models ρ) : types.Models ρ' := by
  intro id t ht
  have hd := h id t ht
  have hin := hr.inRange id t ht
  rw [heq id (TypeStore.lt_length ht)]
  rcases t with _ | _ | ⟨p, r⟩ | ⟨_ | b⟩
  case InternalFunctionType =>
    simp only [InternalType.Denotes] at hd ⊢
    rw [heq p (hin p (by simp)), heq r (hin r (by simp)), hd]
  case InternalTypeVariable.some =>
    simp only [InternalType.Denotes] at hd ⊢
    rw [heq b (hin b (by simp)), hd]
  all_goals exact hd

/-! ## A model for every choice of the variables -/

/-- The type of a node, with `σ` for the variables that are not bound. -/
def denote (types : TypeStore) (σ : TypeId → TypeVariant) : Nat → TypeId → TypeVariant
  | 0, _ => .IntType
  | n + 1, id =>
    match types[id]? with
    | some .InternalIntType => .IntType
    | some (.InternalDataType symbol) => .DataType symbol
    | some (.InternalFunctionType parameter result) =>
      .FunctionType (denote types σ n parameter) (denote types σ n result)
    | some (.InternalTypeVariable (some binding)) => denote types σ n binding
    | _ => σ id

theorem denote_eq {rank : Nat → Nat} (hr : types.Ranked rank) (σ : TypeId → TypeVariant)
    {n m id : Nat} (hn : rank id < n) (hm : rank id < m) :
    denote types σ n id = denote types σ m id := by
  induction n generalizing m id with
  | zero => omega
  | succ n ih =>
    obtain ⟨m, rfl⟩ : ∃ k, m = k + 1 := ⟨m - 1, by omega⟩
    rw [denote, denote]
    cases ht : types[id]? with
    | none => rfl
    | some t =>
      have hlt := hr.descends id t ht
      rcases t with _ | _ | ⟨p, r⟩ | ⟨_ | b⟩
      case InternalFunctionType =>
        have hp := hlt p (by simp)
        have hres := hlt r (by simp)
        simp only []
        have hpn : rank p < n := by omega
        have hpm : rank p < m := by omega
        rw [ih hpn hpm, ih (show rank r < n by omega) (show rank r < m by omega)]
      case InternalTypeVariable.some =>
        have hb := hlt b (by simp)
        exact ih (by omega) (by omega)
      all_goals rfl

theorem exists_model (ha : types.Acyclic) (σ : TypeId → TypeVariant) :
    ∃ ρ, types.Models ρ ∧
      ∀ (id : Nat), types[id]? = some (.InternalTypeVariable none) → ρ id = σ id := by
  obtain ⟨rank, hr⟩ := ha
  refine ⟨fun id => denote types σ (rank id + 1) id, fun id t ht => ?_, fun id hid => ?_⟩
  · have hlt := hr.descends id t ht
    rcases t with _ | _ | ⟨p, r⟩ | ⟨_ | b⟩
    case InternalFunctionType =>
      have hp := hlt p (by simp)
      have hres := hlt r (by simp)
      simp only [InternalType.Denotes]
      rw [denote, ht]
      simp only []
      rw [denote_eq hr σ (n := rank id) (m := rank p + 1) hp (by omega),
        denote_eq hr σ (n := rank id) (m := rank r + 1) hres (by omega)]
    case InternalTypeVariable.some =>
      have hb := hlt b (by simp)
      simp only [InternalType.Denotes]
      rw [denote, ht]
      exact denote_eq hr σ hb (by omega)
    all_goals simp [denote, ht]
  · simp [denote, hid]

/-- A model gives a node the type that its variables make it stand for. -/
theorem Models.denote (h : types.Models ρ) {rank : Nat → Nat} (hr : types.Ranked rank)
    {σ : TypeId → TypeVariant}
    (hσ : ∀ (v : Nat), types[v]? = some (.InternalTypeVariable none) → ρ v = σ v) {n id : Nat}
    (hid : id < types.length) (hn : rank id < n) : types.denote σ n id = ρ id := by
  induction n generalizing id with
  | zero => omega
  | succ n ih =>
    obtain ⟨t, ht⟩ := exists_node hid
    have hd := h id t ht
    have hin := hr.inRange id t ht
    have hlt := hr.descends id t ht
    rw [TypeStore.denote, ht]
    rcases t with _ | _ | ⟨p, r⟩ | ⟨_ | b⟩
    case InternalFunctionType =>
      have hp := hlt p (by simp)
      have hres := hlt r (by simp)
      simp only [InternalType.Denotes] at hd
      rw [hd]
      simp only
      rw [ih (hin p (by simp)) (by omega), ih (hin r (by simp)) (by omega)]
    case InternalTypeVariable.none => exact (hσ id ht).symm
    case InternalTypeVariable.some =>
      have hb := hlt b (by simp)
      simp only [InternalType.Denotes] at hd
      rw [hd]
      exact ih (hin b (by simp)) (by omega)
    all_goals exact hd.symm

/-- The type of a node under an assignment to the variables that are not bound. -/
def denoted (types : TypeStore) (σ : TypeId → TypeVariant) (id : TypeId) : TypeVariant :=
  types.denote σ (types.length + 1) id

theorem Models.denoted (h : types.Models ρ) (ha : types.Acyclic) {σ : TypeId → TypeVariant}
    (hσ : ∀ (v : Nat), types[v]? = some (.InternalTypeVariable none) → ρ v = σ v) {id : Nat}
    (hid : id < types.length) : types.denoted σ id = ρ id := by
  obtain ⟨rank, hr, hbound⟩ := ha.bounded
  have hlt := hbound id hid
  exact h.denote hr hσ hid (by omega)

theorem models_denoted (ha : types.Acyclic) (σ : TypeId → TypeVariant) :
    types.Models (types.denoted σ) := by
  obtain ⟨ρ, hm, hσ⟩ := exists_model ha σ
  obtain ⟨rank, hr⟩ := ha
  exact hm.congr hr fun id hid => hm.denoted ⟨rank, hr⟩ hσ hid

/-! ## The variables of a type -/

/-- The root `v` is a part of the type at `id`. -/
inductive Occurs (types : TypeStore) (v : Nat) : Nat → Prop
  | root {id : Nat} : Root types id v → Occurs types v id
  | parameter {id f p r : Nat} : Root types id f → types[f]? = some (.InternalFunctionType p r) →
    Occurs types v p → Occurs types v id
  | result {id f p r : Nat} : Root types id f → types[f]? = some (.InternalFunctionType p r) →
    Occurs types v r → Occurs types v id

theorem Compressed.occurs_iff (h : Compressed types types') {v id : Nat} :
    Occurs types' v id ↔ Occurs types v id := by
  constructor
  · intro ho
    induction ho with
    | root hr => exact .root ((h.root _ _).mp hr)
    | parameter hr hf _ ih =>
      exact .parameter ((h.root _ _).mp hr) ((h.node_iff (by simp)).mp hf) ih
    | result hr hf _ ih => exact .result ((h.root _ _).mp hr) ((h.node_iff (by simp)).mp hf) ih
  · intro ho
    induction ho with
    | root hr => exact .root ((h.root _ _).mpr hr)
    | parameter hr hf _ ih =>
      exact .parameter ((h.root _ _).mpr hr) ((h.node_iff (by simp)).mpr hf) ih
    | result hr hf _ ih => exact .result ((h.root _ _).mpr hr) ((h.node_iff (by simp)).mpr hf) ih

/-- What occurs in a type, by the node at its root. -/
theorem occurs_iff {v id r : Nat} {t : InternalType} (hr : Root types id r)
    (ht : types[r]? = some t) : Occurs types v id ↔ v = r ∨
      ∃ p q, t = .InternalFunctionType p q ∧ (Occurs types v p ∨ Occurs types v q) := by
  constructor
  · intro ho
    cases ho with
    | root hv => exact .inl (hv.unique hr)
    | parameter hf hnode ho =>
      obtain rfl := hf.unique hr
      rw [ht] at hnode
      cases hnode
      exact .inr ⟨_, _, rfl, .inl ho⟩
    | result hf hnode ho =>
      obtain rfl := hf.unique hr
      rw [ht] at hnode
      cases hnode
      exact .inr ⟨_, _, rfl, .inr ho⟩
  · rintro (rfl | ⟨p, q, rfl, ho | ho⟩)
    · exact .root hr
    · exact .parameter hr ht ho
    · exact .result hr ht ho

theorem occurs_bound {v id b : Nat} (hb : types[id]? = some (.InternalTypeVariable (some b)))
    (h : Occurs types v b) : Occurs types v id := by
  cases h with
  | root hr => exact .root (.step hb hr)
  | parameter hr hf ho => exact .parameter (.step hb hr) hf ho
  | result hr hf ho => exact .result (.step hb hr) hf ho

/-- What occurs in a node that is named occurs in the node that names it. -/
theorem Occurs.edge {v id x : Nat} {t : InternalType} (ht : types[id]? = some t)
    (hx : x ∈ t.edges) (h : Occurs types v x) : Occurs types v id := by
  rcases t with _ | _ | ⟨p, r⟩ | ⟨_ | b⟩
  case InternalFunctionType =>
    simp only [InternalType.edges, List.mem_cons, List.not_mem_nil, or_false] at hx
    rcases hx with rfl | rfl
    · exact .parameter (.here ht (by simp)) ht h
    · exact .result (.here ht (by simp)) ht h
  case InternalTypeVariable.some =>
    simp only [InternalType.edges, List.mem_singleton] at hx
    subst hx
    exact occurs_bound ht h
  all_goals simp at hx

def size : TypeVariant → Nat
  | .FunctionType parameter result => size parameter + size result + 1
  | _ => 0

theorem Occurs.size_le (hm : types.Models ρ) {v id : Nat} (h : Occurs types v id) :
    size (ρ v) ≤ size (ρ id) := by
  induction h with
  | root hr => rw [hm.root hr]
  | parameter hr hf _ ih =>
    rw [hm.root hr, show ρ _ = _ from hm _ _ hf, size]
    omega
  | result hr hf _ ih =>
    rw [hm.root hr, show ρ _ = _ from hm _ _ hf, size]
    omega

/-- The occurs check: a variable is never equal to a type it is a proper part of. -/
theorem Occurs.ne (hm : types.Models ρ) {v id r : Nat} (h : Occurs types v id)
    (hr : Root types id r) (hne : v ≠ r) : ρ v ≠ ρ id := by
  obtain ⟨t, ht, _⟩ := hr.node
  rcases (occurs_iff hr ht).mp h with heq | ⟨p, q, rfl, ho⟩
  · exact absurd heq hne
  · intro heq
    have hid : ρ id = .FunctionType (ρ p) (ρ q) := (hm.root hr).trans (hm _ _ ht)
    have hsize : size (ρ v) = size (ρ p) + size (ρ q) + 1 := by rw [heq, hid, size]
    rcases ho with ho | ho
    · have := ho.size_le hm
      omega
    · have := ho.size_le hm
      omega

/-- In two models that differ at a variable, every type that it occurs in differs. -/
theorem Occurs.ne_of_ne {ρ' : TypeId → TypeVariant} (hm : types.Models ρ) (hm' : types.Models ρ')
    {v id : Nat} (h : Occurs types v id) (hne : ρ v ≠ ρ' v) : ρ id ≠ ρ' id := by
  induction h with
  | root hr =>
    rw [hm.root hr, hm'.root hr]
    exact hne
  | parameter hr hf _ ih =>
    rw [hm.root hr, hm'.root hr, show ρ _ = _ from hm _ _ hf, show ρ' _ = _ from hm' _ _ hf]
    exact fun heq => ih (TypeVariant.FunctionType.inj heq).1
  | result hr hf _ ih =>
    rw [hm.root hr, hm'.root hr, show ρ _ = _ from hm _ _ hf, show ρ' _ = _ from hm' _ _ hf]
    exact fun heq => ih (TypeVariant.FunctionType.inj heq).2

theorem occursWithin_spec {rank : Nat → Nat} {n v id : Nat} (hr : types.Ranked rank)
    (hid : id < types.length) (hn : rank id < n) :
    Returns (occursWithin v n id) types fun b types' =>
      (b = true ↔ Occurs types v id) ∧ Compressed types types' := by
  induction n generalizing types id with
  | zero => omega
  | succ n ih =>
    rw [occursWithin]
    refine returns_bind ((resolve_spec ⟨rank, hr⟩ hid).mono ?_)
    rintro r types1 ⟨hroot, hc⟩
    have hle := hr.root_le hroot
    have hr1 := hc.ranked rank hr
    obtain ⟨t, ht, hnot⟩ := hroot.node
    have ht1 := hc.node r t ht hnot
    have hiff := occurs_iff (v := v) hroot ht
    by_cases hv : v = r
    · rw [if_pos hv]
      exact returns_pure ⟨by rw [hiff]; simp [hv], hc⟩
    · rw [if_neg hv]
      refine returns_bind (returns_getType ht1 ?_)
      rcases t with _ | _ | ⟨p, q⟩ | b
      case InternalFunctionType =>
        have hp := hr1.descends r _ ht1 p (by simp)
        have hq := hr1.descends r _ ht1 q (by simp)
        refine returns_bind ((ih hr1 (hr1.inRange r _ ht1 p (by simp)) (by omega)).mono ?_)
        rintro b types2 ⟨hb, hc2⟩
        rw [hc.occurs_iff] at hb
        cases b with
        | true =>
          refine returns_pure ⟨?_, hc.trans hc2⟩
          rw [hiff]
          exact ⟨fun _ => .inr ⟨p, q, rfl, .inl (hb.mp rfl)⟩, fun _ => rfl⟩
        | false =>
          have hr2 := hc2.ranked rank hr1
          refine (ih hr2 (by rw [hc2.length]; exact hr1.inRange r _ ht1 q (by simp))
            (by omega)).mono ?_
          rintro b types3 ⟨hb', hc3⟩
          rw [hc2.occurs_iff, hc.occurs_iff] at hb'
          refine ⟨?_, hc.trans (hc2.trans hc3)⟩
          rw [hb', hiff]
          constructor
          · exact fun ho => .inr ⟨p, q, rfl, .inr ho⟩
          · rintro (heq | ⟨p', q', heq, ho | ho⟩)
            · exact absurd heq hv
            · cases heq
              exact absurd (hb.mpr ho) (by simp)
            · cases heq
              exact ho
      all_goals
        refine returns_pure ⟨?_, hc⟩
        rw [hiff]
        simp [hv]

theorem occurs_spec (ha : types.Acyclic) {v id : Nat} (hid : id < types.length) :
    Returns (occurs v id) types fun b types' =>
      (b = true ↔ Occurs types v id) ∧ Compressed types types' := by
  obtain ⟨rank, hr, hbound⟩ := ha.bounded
  have hlt := hbound id hid
  exact returns_bind (returns_get (occursWithin_spec hr hid (by omega)))

end TypeStore

end mf.semantics
