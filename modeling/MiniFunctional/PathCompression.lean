-- Path compression cannot be seen: stores that differ only in how far their
-- chains of bindings are compressed give the same results.
import MiniFunctional.StoreSafety

namespace mf.semantics

open StateOption

namespace TypeStore

variable {types types' : TypeStore}

/-- The stores have the same nodes but for bound variables, and the same ends of chains. -/
structure Alike (types types' : TypeStore) : Prop where
  acyclic : types.Acyclic
  acyclic' : types'.Acyclic
  length : types'.length = types.length
  node : ∀ (id : Nat) t, ¬ t.IsBound → (types'[id]? = some t ↔ types[id]? = some t)
  root : ∀ (id r : Nat), Root types' id r ↔ Root types id r

theorem Compressed.alike (h : Compressed types types') (ha : types.Acyclic) :
    Alike types types' :=
  ⟨ha, h.acyclic ha, h.length, fun _ _ hnot => h.node_iff hnot, h.root⟩

theorem Alike.symm (h : Alike types types') : Alike types' types :=
  ⟨h.acyclic', h.acyclic, h.length.symm, fun id t hnot => (h.node id t hnot).symm,
    fun id r => (h.root id r).symm⟩

theorem Alike.trans {types1 : TypeStore} (h : Alike types types1) (h' : Alike types1 types') :
    Alike types types' :=
  ⟨h.acyclic, h'.acyclic', h'.length.trans h.length,
    fun id t hnot => (h'.node id t hnot).trans (h.node id t hnot),
    fun id r => (h'.root id r).trans (h.root id r)⟩

/-- Alike stores stay so when each is compressed. -/
theorem Alike.compressed {types1 types1' : TypeStore} (h : Alike types types')
    (hc : Compressed types types1) (hc' : Compressed types' types1') : Alike types1 types1' :=
  ((hc.alike h.acyclic).symm.trans h).trans (hc'.alike h.acyclic')

/-! ## Binding -/

/-- The ends of the chains after a variable is bound. -/
theorem root_bind {v t id r : Nat} (hv : types[v]? = some (.InternalTypeVariable none))
    (ht : Root types t t) (hne : v ≠ t) :
    Root (types.set v (.InternalTypeVariable (some t))) id r ↔
      (r ≠ v ∧ Root types id r) ∨ (r = t ∧ Root types id v) := by
  have hself : Root types v v := .here hv (by simp)
  have hkeep : ∀ x ≠ v, (types.set v (.InternalTypeVariable (some t)))[x]? = types[x]? :=
    fun x hx => List.getElem?_set_ne (Ne.symm hx)
  have hend : ∀ {x : Nat}, Root types x x → x ≠ v →
      Root (types.set v (.InternalTypeVariable (some t))) x x := by
    intro x hx hxv
    obtain ⟨n, hn, hnot⟩ := hx.node
    exact .here (by rw [hkeep x hxv, hn]) hnot
  constructor
  · intro h
    induction h with
    | @here x n hn hnot =>
      by_cases hx : x = v
      · rw [hx, getElem?_set_self hv] at hn
        cases hn
        exact absurd trivial hnot
      · rw [hkeep x hx] at hn
        exact .inl ⟨hx, .here hn hnot⟩
    | @step x b y hb hroot ih =>
      by_cases hx : x = v
      · rw [hx, getElem?_set_self hv] at hb
        cases hb
        rcases ih with ⟨_, htr⟩ | ⟨rfl, _⟩
        · exact .inr ⟨htr.unique ht, hx ▸ hself⟩
        · exact .inr ⟨rfl, hx ▸ hself⟩
      · rw [hkeep x hx] at hb
        rcases ih with ⟨hr, hbr⟩ | ⟨hr, hbv⟩
        · exact .inl ⟨hr, .step hb hbr⟩
        · exact .inr ⟨hr, .step hb hbv⟩
  · have hbound : ∀ {x b : Nat}, types[x]? = some (.InternalTypeVariable (some b)) → x ≠ v := by
      rintro x b hb rfl
      rw [hv] at hb
      cases hb
    have hbind : ∀ {x y : Nat}, Root types x y → y = v →
        Root (types.set v (.InternalTypeVariable (some t))) x t := by
      intro x y h hy
      induction h with
      | here =>
        rw [hy]
        exact .step (getElem?_set_self hv) (hend ht (Ne.symm hne))
      | step hb _ ih => exact .step ((hkeep _ (hbound hb)).trans hb) (ih hy)
    rintro (⟨hr, h⟩ | ⟨rfl, h⟩)
    · induction h with
      | here hn hnot => exact hend (.here hn hnot) hr
      | step hb _ ih => exact .step ((hkeep _ (hbound hb)).trans hb) (ih hr)
    · exact hbind h rfl

/-- Alike stores stay so when the same variable is bound in both. -/
theorem Alike.bind (h : Alike types types') {v t : Nat}
    (hv : types[v]? = some (.InternalTypeVariable none)) (ht : Root types t t) (hne : v ≠ t)
    (hnot : ¬ Occurs types v t) (hnot' : ¬ Occurs types' v t) :
    Alike (types.set v (.InternalTypeVariable (some t)))
      (types'.set v (.InternalTypeVariable (some t))) := by
  have hv' := (h.node v _ (by simp)).mpr hv
  have ht' := (h.root t t).mpr ht
  obtain ⟨rank, hr⟩ := h.acyclic
  obtain ⟨rank', hr'⟩ := h.acyclic'
  refine ⟨hr.bind hv ht.lt_length hnot, hr'.bind hv' ht'.lt_length hnot', ?_, fun id n hn => ?_,
    fun id r => ?_⟩
  · rw [List.length_set, List.length_set, h.length]
  · by_cases hid : id = v
    · rw [hid, getElem?_set_self hv, getElem?_set_self hv']
    · rw [List.getElem?_set_ne (Ne.symm hid), List.getElem?_set_ne (Ne.symm hid)]
      exact h.node id n hn
  · rw [root_bind hv ht hne, root_bind hv' ht' hne, h.root, h.root]

/-! ## Runs from alike stores -/

theorem getType_none {id : Nat} (h : types.length ≤ id) : getType id types = none := by
  unfold getType
  rw [List.getElem?_eq_none h]
  rfl

theorem resolve_none {id : Nat} (h : types.length ≤ id) : resolve id types = none := by
  unfold resolve
  rw [get_bind_run]
  show StateOption.bind (getType id) _ types = none
  unfold StateOption.bind
  rw [getType_none h]

theorem agree_resolve (h : Alike types types') (id : Nat) :
    Agree (resolve id) (resolve id) types types' fun r types1 types1' =>
      Root types1 id r ∧ (∀ x y, Root types1 x y ↔ Root types x y) ∧ Alike types1 types1' := by
  by_cases hid : id < types.length
  · have hid' : id < types'.length := by rw [h.length]; exact hid
    refine (agree_of_returns (resolve_spec h.acyclic hid) (resolve_spec h.acyclic' hid')
      fun r r' _ _ hr hr' => ?_).mono fun r types1 types1' hboth => ?_
    · exact ((h.root id r).mpr hr.1).unique hr'.1
    · obtain ⟨⟨hroot, hc⟩, _, hc'⟩ := hboth
      exact ⟨(hc.root id r).mpr hroot, hc.root, h.compressed hc hc'⟩
  · unfold Agree
    rw [resolve_none (Nat.le_of_not_lt hid), resolve_none (by rw [h.length]; omega)]
    exact .none

/-- The end of a chain is the same node in both. -/
theorem agree_getType (h : Alike types types') {id : Nat} (hid : Root types id id) :
    Agree (getType id) (getType id) types types' fun t types1 types1' =>
      types1 = types ∧ types1' = types' ∧ types[id]? = some t ∧ ¬ t.IsBound := by
  obtain ⟨t, ht, hnot⟩ := hid.node
  have ht' := (h.node id t hnot).mpr ht
  unfold Agree getType
  rw [ht, ht']
  exact .some ⟨rfl, rfl, rfl, rfl, hnot⟩

theorem agree_occursWithin (h : Alike types types') (n v id : Nat) :
    Agree (occursWithin v n id) (occursWithin v n id) types types' fun _ => Alike := by
  induction n generalizing types types' id with
  | zero => exact agree_failure
  | succ n ih =>
    unfold occursWithin
    refine agree_bind ((agree_resolve h id).mono ?_)
    intro r types1 types1' hr
    obtain ⟨hroot, _, h1⟩ := hr
    by_cases hv : v = r
    · simp only [if_pos hv]
      exact agree_pure h1
    · simp only [if_neg hv]
      refine agree_bind ((agree_getType h1 hroot.self).mono ?_)
      rintro t _ _ ⟨rfl, rfl, _, _⟩
      cases t with
      | InternalFunctionType p q =>
        refine agree_bind ((ih h1 p).mono fun b types2 types2' h2 => ?_)
        cases b with
        | true => exact agree_pure h2
        | false => exact ih h2 q
      | _ => exact agree_pure h1

theorem agree_occurs (h : Alike types types') (v id : Nat) :
    Agree (occurs v id) (occurs v id) types types' fun _ => Alike := by
  unfold Agree occurs
  rw [get_bind_run, get_bind_run, h.length]
  exact agree_occursWithin h _ v id

theorem agree_bindVariable (h : Alike types types') {v t : Nat}
    (hv : types[v]? = some (.InternalTypeVariable none)) (ht : Root types t t) (hne : v ≠ t) :
    Agree (bindVariable v t) (bindVariable v t) types types' fun _ => Alike := by
  have ht' : t < types'.length := by rw [h.length]; exact ht.lt_length
  unfold bindVariable
  refine agree_bind (((agree_occurs h v t).returns (occurs_spec h.acyclic ht.lt_length)
    (occurs_spec h.acyclic' ht')).mono ?_)
  rintro b types1 types1' ⟨h1, ⟨hb, hc⟩, hb', hc'⟩
  cases b with
  | true => exact agree_pure h1
  | false =>
    have hnot : ¬ Occurs types1 v t := by
      rw [hc.occurs_iff, ← hb]
      simp
    have hnot' : ¬ Occurs types1' v t := by
      rw [hc'.occurs_iff, ← hb']
      simp
    have hv1 := (hc.node_iff (by simp)).mpr hv
    exact .some ⟨rfl, h1.bind hv1 ((hc.root t t).mpr ht) hne hnot hnot'⟩

theorem agree_tryUnifyWithin (h : Alike types types') (n a e : Nat) :
    Agree (tryUnifyWithin n a e) (tryUnifyWithin n a e) types types' fun _ => Alike := by
  induction n generalizing types types' a e with
  | zero => exact agree_failure
  | succ n ih =>
    unfold tryUnifyWithin
    refine agree_bind ((agree_resolve h a).mono ?_)
    intro ra types1 types1' hra
    obtain ⟨hra, _, h1⟩ := hra
    refine agree_bind ((agree_resolve h1 e).mono ?_)
    intro re types2 types2' hre
    obtain ⟨hre, hroots, h2⟩ := hre
    have hra2 := (hroots ra ra).mpr hra.self
    by_cases heq : ra = re
    · simp only [if_pos heq]
      exact agree_pure h2
    · simp only [if_neg heq]
      refine agree_bind ((agree_getType h2 hra2).mono ?_)
      rintro ta _ _ ⟨rfl, rfl, hta, hnota⟩
      refine agree_bind ((agree_getType h2 hre.self).mono ?_)
      rintro te _ _ ⟨rfl, rfl, hte, hnote⟩
      -- the nodes at the two roots decide, and they are the same in both stores
      rcases ta with _ | sa | ⟨pa, qa⟩ | ⟨_ | ba⟩
      case InternalTypeVariable.some => exact absurd trivial hnota
      case InternalTypeVariable.none => exact agree_bindVariable h2 hta hre.self heq
      all_goals rcases te with _ | se | ⟨pe, qe⟩ | ⟨_ | be⟩
      case InternalIntType.InternalTypeVariable.some |
        InternalDataType.InternalTypeVariable.some |
        InternalFunctionType.InternalTypeVariable.some => exact absurd trivial hnote
      case InternalIntType.InternalTypeVariable.none |
        InternalDataType.InternalTypeVariable.none |
        InternalFunctionType.InternalTypeVariable.none =>
        exact agree_bindVariable h2 hte hra2 (Ne.symm heq)
      case InternalFunctionType.InternalFunctionType =>
        refine agree_bind ((ih h2 pa pe).mono fun b types3 types3' h3 => ?_)
        cases b with
        | true => exact ih h3 qa qe
        | false => exact agree_pure h3
      all_goals exact agree_pure h2

theorem agree_tryUnify (h : Alike types types') (a e : Nat) :
    Agree (tryUnify a e) (tryUnify a e) types types' fun _ => Alike := by
  unfold Agree tryUnify
  rw [get_bind_run, get_bind_run, h.length]
  exact agree_tryUnifyWithin h _ a e

theorem agree_materializeWithin (h : Alike types types') (n id : Nat) :
    Agree (materializeWithin n id) (materializeWithin n id) types types' fun _ => Alike := by
  induction n generalizing types types' id with
  | zero => exact agree_failure
  | succ n ih =>
    unfold materializeWithin
    refine agree_bind ((agree_resolve h id).mono ?_)
    intro r types1 types1' hr
    obtain ⟨hroot, _, h1⟩ := hr
    refine agree_bind ((agree_getType h1 hroot.self).mono ?_)
    rintro t _ _ ⟨rfl, rfl, _, _⟩
    cases t with
    | InternalFunctionType p q =>
      refine agree_bind ((ih h1 p).mono fun parameter types2 types2' h2 => ?_)
      refine agree_bind ((ih h2 q).mono fun result types3 types3' h3 => ?_)
      cases parameter with
      | none => exact agree_pure h3
      | some parameter =>
        cases result with
        | none => exact agree_pure h3
        | some result => exact agree_pure h3
    | _ => exact agree_pure h1

theorem agree_materialize (h : Alike types types') (id : Nat) :
    Agree (materialize id) (materialize id) types types' fun _ => Alike := by
  unfold Agree materialize
  rw [get_bind_run, get_bind_run, h.length]
  exact agree_materializeWithin h _ id

theorem Alike.peek (h : Alike types types') (id : Nat) : types'.peek id = types.peek id := by
  by_cases hid : id < types.length
  · have hid' : id < types'.length := by rw [h.length]; exact hid
    obtain ⟨rank, hr⟩ := h.acyclic
    obtain ⟨r, hroot⟩ := hr.root hid
    rw [peek_eq h.acyclic hroot hid, peek_eq h.acyclic' ((h.root id r).mpr hroot) hid']
  · have hnone : types[id]? = none := List.getElem?_eq_none (Nat.le_of_not_lt hid)
    have hnone' : types'[id]? = none := List.getElem?_eq_none (by rw [h.length]; omega)
    unfold TypeStore.peek peekWithin
    rw [hnone, hnone']
    rfl

/-! ## Calls in any order -/

/-- What a computation returns. -/
def result {α : Type} (m : StoreM α) (types : TypeStore) : Option α := (m types).map (·.1)

theorem result_eq {α : Type} {m m' : StoreM α} {Q : α → TypeStore → TypeStore → Prop}
    (h : Agree m m' types types' Q) : result m' types' = result m types := by
  unfold Agree at h
  unfold result
  generalize m types = x at h ⊢
  generalize m' types' = y at h ⊢
  cases h with
  | none => rfl
  | some hq => exact congrArg some hq.1.symm

/-- A call on the store. -/
inductive Query
  | resolve (id : TypeId)
  | occurs (var type : TypeId)
  | tryUnify (actual expected : TypeId)
  | materialize (id : TypeId)

def Query.isResolve : Query → Bool
  | .resolve _ => true
  | _ => false

/-- The types that the call walks through are among the first `n`. -/
@[simp] def Query.InRange (n : Nat) : Query → Prop
  | .resolve id => id < n
  | .occurs _ type => type < n
  | .tryUnify actual expected => actual < n ∧ expected < n
  | .materialize id => id < n

inductive Answer
  | decided (b : Bool)
  | type (T : Option TypeVariant)

/-- The calls in their order, with the answers of all but those of `resolve`. -/
def answers : List Query → StoreM (List Answer)
  | [] => return []
  | .resolve id :: queries => do
    let _ ← resolve id
    answers queries
  | .occurs var type :: queries => do
    let b ← occurs var type
    return .decided b :: (← answers queries)
  | .tryUnify actual expected :: queries => do
    let b ← tryUnify actual expected
    return .decided b :: (← answers queries)
  | .materialize id :: queries => do
    let T ← materialize id
    return .type T :: (← answers queries)

/-- Calls of `resolve` between the others change no answer. -/
theorem agree_answers (h : Alike types types') {queries : List Query}
    (hq : ∀ q ∈ queries, q.InRange types.length) :
    Agree (answers queries) (answers (queries.filter fun q => !q.isResolve)) types types'
      fun _ => Alike := by
  induction queries generalizing types types' with
  | nil => exact agree_pure h
  | cons q queries ih =>
    rw [List.forall_mem_cons] at hq
    obtain ⟨hq, hrest⟩ := hq
    have hnext : ∀ {types1 types1' : TypeStore}, Alike types1 types1' →
        types1.length = types.length → Agree (answers queries)
          (answers (queries.filter fun q => !q.isResolve)) types1 types1' fun _ => Alike := by
      intro types1 types1' h1 hlen
      rw [← hlen] at hrest
      exact ih h1 hrest
    have hreturn : ∀ {types1 types1' : TypeStore} (a : Answer), Alike types1 types1' →
        types1.length = types.length → Agree (answers queries >>= fun rest => pure (a :: rest))
          (answers (queries.filter fun q => !q.isResolve) >>= fun rest => pure (a :: rest))
          types1 types1' fun _ => Alike := by
      intro types1 types1' a h1 hlen
      exact agree_bind ((hnext h1 hlen).mono fun _ _ _ h2 => agree_pure h2)
    cases q with
    | resolve id =>
      -- the store is compressed on the left only
      obtain ⟨r, types1, visited, hrun, hpath, _, hc⟩ := resolve_spec h.acyclic hq
      have hskip := hnext ((hc.alike h.acyclic).symm.trans h) hc.length
      unfold Agree at hskip
      show Option.Rel _ (StateOption.bind (resolve id) (fun _ => answers queries) types)
        (answers (queries.filter fun q => !q.isResolve) types')
      unfold StateOption.bind
      rw [hrun]
      simp only
      generalize answers queries types1 = x at hskip ⊢
      generalize answers (queries.filter fun q => !q.isResolve) types' = y at hskip ⊢
      cases hskip with
      | none => exact .none
      | some hq => exact .some hq
    | occurs var type =>
      have hboth := (agree_occurs h var type).returns (occurs_spec h.acyclic hq)
        (occurs_spec h.acyclic' (by rw [h.length]; exact hq))
      refine agree_bind (hboth.mono fun b types1 types1' h1 => ?_)
      obtain ⟨h1, ⟨_, hc⟩, _⟩ := h1
      exact hreturn _ h1 hc.length
    | tryUnify actual expected =>
      have hboth := (agree_tryUnify h actual expected).returns
        (tryUnify_spec h.acyclic hq.1 hq.2)
        (tryUnify_spec h.acyclic' (by rw [h.length]; exact hq.1) (by rw [h.length]; exact hq.2))
      refine agree_bind (hboth.mono fun b types1 types1' h1 => ?_)
      obtain ⟨h1, hunifies, _⟩ := h1
      exact hreturn _ h1 hunifies.refines.length
    | materialize id =>
      have hboth := (agree_materialize h id).returns (materialize_spec h.acyclic hq)
        (materialize_spec h.acyclic' (by rw [h.length]; exact hq))
      refine agree_bind (hboth.mono fun T types1 types1' h1 => ?_)
      obtain ⟨h1, ⟨_, hc⟩, _⟩ := h1
      exact hreturn _ h1 hc.length

/-- Path compression is invisible: `resolve` finds what `peek` finds and leaves
a store on which all ids look the same, and calls of it anywhere between other calls
do not change their answers. -/
theorem resolve_invisible (hin : types.InRange) (hno : types.NoCycle) :
    (∀ id < types.length, ∃ r types' visited, resolve id types = some (r, types', visited) ∧
      types.peek id = some r ∧ types'.InRange ∧ types'.NoCycle ∧
      ∀ j, types'.peek j = types.peek j ∧
        result (materialize j) types' = result (materialize j) types) ∧
    ∀ queries : List Query, (∀ q ∈ queries, q.InRange types.length) →
      result (answers queries) types =
        result (answers (queries.filter fun q => !q.isResolve)) types := by
  have hacyclic := acyclic_iff.mpr ⟨hin, hno⟩
  have hself : Alike types types := (Compressed.refl types).alike hacyclic
  constructor
  · intro id hid
    obtain ⟨r, types', visited, hrun, _, hroot, hc⟩ := resolve_spec hacyclic hid
    have halike := hc.alike hacyclic
    obtain ⟨hin', hno'⟩ := acyclic_iff.mp halike.acyclic'
    exact ⟨r, types', visited, hrun, peek_eq hacyclic hroot hid, hin', hno',
      fun j => ⟨halike.peek j, result_eq (agree_materialize halike j)⟩⟩
  · intro queries hq
    exact (result_eq (agree_answers hself hq)).symm

/-- `t0` bound to `t1`, that bound to `Int`, and `t0 -> t3`. -/
def chainStore : TypeStore :=
  [.InternalTypeVariable (some 1), .InternalTypeVariable (some 2), .InternalIntType,
    .InternalTypeVariable none, .InternalFunctionType 0 3]

theorem resolve_invisible_chain :
    (∀ id < chainStore.length, ∃ r types' visited,
      resolve id chainStore = some (r, types', visited) ∧
      chainStore.peek id = some r ∧ types'.InRange ∧ types'.NoCycle ∧
      ∀ j, types'.peek j = chainStore.peek j ∧
        result (materialize j) types' = result (materialize j) chainStore) ∧
    ∀ queries : List Query, (∀ q ∈ queries, q.InRange chainStore.length) →
      result (answers queries) chainStore =
        result (answers (queries.filter fun q => !q.isResolve)) chainStore := by
  have hranked : chainStore.Ranked fun id => if id = 4 then 3 else 2 - id := by
    constructor
    · intro id t ht
      have hid := lt_length ht
      simp only [chainStore, List.length_cons, List.length_nil] at hid
      interval_cases id <;> simp [chainStore] at ht <;> subst ht <;> simp [chainStore]
    · intro id t ht
      have hid := lt_length ht
      simp only [chainStore, List.length_cons, List.length_nil] at hid
      interval_cases id <;> simp [chainStore] at ht <;> subst ht <;> simp
  obtain ⟨hin, hno⟩ := acyclic_iff.mp ⟨_, hranked⟩
  exact resolve_invisible hin hno

end TypeStore

end mf.semantics
