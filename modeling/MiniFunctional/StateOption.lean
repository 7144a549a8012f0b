-- Computations on a state that may give no result, with the states that they
-- go through, and the rules for "the computation returns, each of its writes
-- is allowed, and what it returns satisfies `Q`".
import Mathlib.Data.Option.Basic

/-- A computation on a state. With the value and the state that it leaves come
the states that it wrote, in order. -/
def StateOption (σ α : Type) : Type := σ → Option (α × σ × List σ)

namespace StateOption

variable {σ α β : Type}

def bind (m : StateOption σ α) (f : α → StateOption σ β) : StateOption σ β := fun s =>
  match m s with
  | none => none
  | some (a, s', visited) =>
    match f a s' with
    | none => none
    | some (b, s'', visited') => some (b, s'', visited ++ visited')

instance : Monad (StateOption σ) where
  pure a := fun s => some (a, s, [])
  bind := bind

theorem bind_return (m : StateOption σ α) : bind m (fun a => pure a) = m := by
  funext s
  cases hm : m s with
  | none => simp [bind, hm]
  | some r => simp [bind, hm, pure]

theorem return_bind (a : α) (f : α → StateOption σ β) : bind (pure a) f = f a := by
  funext s
  cases hf : f a s with
  | none => simp [bind, hf, pure]
  | some r => simp [bind, hf, pure]

theorem bind_bind {γ : Type} (m : StateOption σ α) (f : α → StateOption σ β)
    (g : β → StateOption σ γ) : bind (bind m f) g = bind m fun a => bind (f a) g := by
  funext s
  unfold bind
  rcases m s with _ | ⟨a, s', visited⟩
  · rfl
  · simp only
    rcases f a s' with _ | ⟨b, s'', visited'⟩
    · rfl
    · simp only
      cases g b s'' with
      | none => rfl
      | some r => simp

instance : LawfulMonad (StateOption σ) :=
  LawfulMonad.mk' _ (fun m => bind_return m) (fun a f => return_bind a f) fun m f g =>
    bind_bind m f g

instance : MonadStateOf σ (StateOption σ) where
  get := fun s => some (s, s, [])
  set s' := fun _ => some (⟨⟩, s', [s'])
  modifyGet f := fun s => some ((f s).1, (f s).2, [(f s).2])

instance : Alternative (StateOption σ) where
  failure := fun _ => none
  orElse m m' := fun s => (m s).or (m' ⟨⟩ s)

theorem get_bind_run (f : σ → StateOption σ α) (s : σ) : (get >>= f) s = f s s := by
  show bind get f s = f s s
  have hget : (get : StateOption σ σ) s = some (s, s, []) := rfl
  unfold bind
  rw [hget]
  simp only
  cases f s s with
  | none => rfl
  | some r => rfl

/-! ## Two runs -/

/-- The runs of two computations return the same value, and that with the
states that they leave satisfies `Q`; or neither returns. -/
def Agree (m m' : StateOption σ α) (s s' : σ) (Q : α → σ → σ → Prop) : Prop :=
  Option.Rel (fun x y => x.1 = y.1 ∧ Q x.1 x.2.1 y.2.1) (m s) (m' s')

section

variable {m m' : StateOption σ α} {s s' : σ}

theorem agree_pure {a : α} {Q : α → σ → σ → Prop} (h : Q a s s') :
    Agree (pure a) (pure a) s s' Q := .some ⟨rfl, h⟩

theorem agree_failure {Q : α → σ → σ → Prop} :
    Agree (failure : StateOption σ α) failure s s' Q := .none

theorem Agree.mono {Q R : α → σ → σ → Prop} (h : Agree m m' s s' Q)
    (himp : ∀ a s1 s1', Q a s1 s1' → R a s1 s1') : Agree m m' s s' R := by
  unfold Agree at h ⊢
  generalize m s = x at h ⊢
  generalize m' s' = y at h ⊢
  cases h with
  | none => exact .none
  | some hq => exact .some ⟨hq.1, himp _ _ _ hq.2⟩

theorem agree_bind {f f' : α → StateOption σ β} {Q : β → σ → σ → Prop}
    (h : Agree m m' s s' fun a s1 s1' => Agree (f a) (f' a) s1 s1' Q) :
    Agree (m >>= f) (m' >>= f') s s' Q := by
  unfold Agree at h
  show Option.Rel _ (bind m f s) (bind m' f' s')
  unfold bind
  generalize m s = x at h ⊢
  generalize m' s' = y at h ⊢
  cases h with
  | none => exact .none
  | @some x y hq =>
    obtain ⟨a, s1, visited⟩ := x
    obtain ⟨a', s1', visited'⟩ := y
    obtain ⟨heq, hf⟩ := hq
    simp only at heq hf
    subst heq
    simp only
    generalize f a s1 = x at hf ⊢
    generalize f' a s1' = y at hf ⊢
    cases hf with
    | none => exact .none
    | some hq => exact .some hq

end

/-! ## Runs -/

/-- The writes that a state allows. -/
class Writes (σ : Type) where
  Write : σ → σ → Prop

variable [Writes σ]

/-- From the first state to the last, through the states of the list. -/
inductive Path : σ → List σ → σ → Prop
  | refl (s : σ) : Path s [] s
  | write {s s1 s' : σ} {visited : List σ} : Writes.Write s s1 → Path s1 visited s' →
    Path s (s1 :: visited) s'

theorem Path.append {s s1 s2 : σ} {visited visited' : List σ} (h : Path s visited s1)
    (h' : Path s1 visited' s2) : Path s (visited ++ visited') s2 := by
  induction h with
  | refl => exact h'
  | write hw _ ih => exact .write hw (ih h')

/-- What every write keeps holds of every state on the way. -/
theorem Path.invariant {I : σ → Prop} (hI : ∀ s s' : σ, I s → Writes.Write s s' → I s')
    {s s' : σ} {visited : List σ} (h : Path s visited s') (hs : I s) : ∀ x ∈ visited, I x := by
  induction h with
  | refl => simp
  | @write s s1 s' visited hw _ ih =>
    have h1 := hI s s1 hs hw
    intro x hx
    rcases List.mem_cons.mp hx with rfl | hx
    · exact h1
    · exact ih h1 x hx

/-- From the state `s`, `m` returns a value and a state that satisfy `Q`, and
all its writes are allowed. -/
def Returns (m : StateOption σ α) (s : σ) (Q : α → σ → Prop) : Prop :=
  ∃ a s' visited, m s = some (a, s', visited) ∧ Path s visited s' ∧ Q a s'

theorem Returns.mono {m : StateOption σ α} {s : σ} {Q R : α → σ → Prop} (h : Returns m s Q)
    (himp : ∀ a s', Q a s' → R a s') : Returns m s R := by
  obtain ⟨a, s', visited, hm, hpath, hq⟩ := h
  exact ⟨a, s', visited, hm, hpath, himp a s' hq⟩

theorem returns_pure {a : α} {s : σ} {Q : α → σ → Prop} (h : Q a s) :
    Returns (pure a) s Q := ⟨a, s, [], rfl, .refl s, h⟩

theorem returns_get {s : σ} {Q : σ → σ → Prop} (h : Q s s) : Returns get s Q :=
  ⟨s, s, [], rfl, .refl s, h⟩

theorem returns_modify {f : σ → σ} {s : σ} {Q : PUnit → σ → Prop} (hw : Writes.Write s (f s))
    (h : Q ⟨⟩ (f s)) : Returns (modify f) s Q :=
  ⟨⟨⟩, f s, [f s], rfl, .write hw (.refl _), h⟩

theorem returns_bind {m : StateOption σ α} {f : α → StateOption σ β} {s : σ}
    {Q : β → σ → Prop} (h : Returns m s fun a s' => Returns (f a) s' Q) :
    Returns (m >>= f) s Q := by
  obtain ⟨a, s', visited, hm, hpath, b, s'', visited', hf, hpath', hq⟩ := h
  refine ⟨b, s'', visited ++ visited', ?_, hpath.append hpath', hq⟩
  show bind m f s = _
  unfold bind
  rw [hm]
  simp only
  rw [hf]

/-- From the state `s`, `m` returns `a` and leaves the state `s'`. -/
def Runs (m : StateOption σ α) (s : σ) (a : α) (s' : σ) : Prop :=
  ∃ visited, m s = some (a, s', visited)

theorem Returns.run {m : StateOption σ α} {s : σ} {Q : α → σ → Prop} (h : Returns m s Q) :
    ∃ a s', Runs m s a s' ∧ Q a s' := by
  obtain ⟨a, s', visited, hm, _, hq⟩ := h
  exact ⟨a, s', ⟨visited, hm⟩, hq⟩

theorem Returns.of_runs {m : StateOption σ α} {s s' : σ} {a : α} {Q : α → σ → Prop}
    (h : Returns m s Q) (hrun : Runs m s a s') : Q a s' := by
  obtain ⟨_, _, _, hm, _, hq⟩ := h
  obtain ⟨_, hm'⟩ := hrun
  rw [hm] at hm'
  cases hm'
  exact hq

omit [Writes σ] in
theorem Runs.unique {m : StateOption σ α} {s s1 s2 : σ} {a1 a2 : α} (h : Runs m s a1 s1)
    (h' : Runs m s a2 s2) : a1 = a2 ∧ s1 = s2 := by
  obtain ⟨_, hm⟩ := h
  obtain ⟨_, hm'⟩ := h'
  rw [hm] at hm'
  cases hm'
  exact ⟨rfl, rfl⟩

omit [Writes σ] in
theorem Runs.bind {m : StateOption σ α} {f : α → StateOption σ β} {s s1 s2 : σ} {a : α} {b : β}
    (h : Runs m s a s1) (hf : Runs (f a) s1 b s2) : Runs (m >>= f) s b s2 := by
  obtain ⟨visited, hm⟩ := h
  obtain ⟨visited', hm'⟩ := hf
  refine ⟨visited ++ visited', ?_⟩
  show StateOption.bind m f s = _
  unfold StateOption.bind
  rw [hm]
  simp only
  rw [hm']

/-- A loop over a list keeps an invariant that speaks of the elements done. -/
theorem returns_forM {f : α → StateOption σ PUnit} {I : List α → σ → Prop} {l d : List α}
    {s : σ} (h0 : I d s)
    (hstep : ∀ before a after s, d ++ l = before ++ a :: after → I before s →
      Returns (f a) s fun _ s' => I (before ++ [a]) s') :
    Returns (l.forM f) s fun _ s' => I (d ++ l) s' := by
  induction l generalizing d s with
  | nil => exact returns_pure (by simpa using h0)
  | cons a l ih =>
    refine returns_bind ((hstep d a l s rfl h0).mono fun _ s' h' => ?_)
    have hrest := ih h' fun before b after s hsplit =>
      hstep before b after s (by simpa using hsplit)
    simpa using hrest

/-! ## Two runs that return -/

variable {s s' : σ}

/-- What holds of each run. -/
theorem Agree.returns {m : StateOption σ α} {Q : α → σ → σ → Prop} {P P' : α → σ → Prop}
    (h : Agree m m s s' Q) (hp : Returns m s P) (hp' : Returns m s' P') :
    Agree m m s s' fun a s1 s1' => Q a s1 s1' ∧ P a s1 ∧ P' a s1' := by
  obtain ⟨a, s1, visited, hm, _, hP⟩ := hp
  obtain ⟨a', s1', visited', hm', _, hP'⟩ := hp'
  unfold Agree at h ⊢
  rw [hm, hm'] at h ⊢
  cases h with
  | some h =>
    obtain ⟨heq, hq⟩ := h
    simp only at heq hq
    subst heq
    exact .some ⟨rfl, hq, hP, hP'⟩

/-- Two runs that return, with the same value. -/
theorem agree_of_returns {m : StateOption σ α} {P P' : α → σ → Prop} (hp : Returns m s P)
    (hp' : Returns m s' P') (heq : ∀ a a' s1 s1', P a s1 → P' a' s1' → a = a') :
    Agree m m s s' fun a s1 s1' => P a s1 ∧ P' a s1' := by
  obtain ⟨a, s1, visited, hm, _, hP⟩ := hp
  obtain ⟨a', s1', visited', hm', _, hP'⟩ := hp'
  obtain rfl := heq a a' s1 s1' hP hP'
  unfold Agree
  rw [hm, hm']
  exact .some ⟨rfl, hP, hP'⟩

end StateOption
