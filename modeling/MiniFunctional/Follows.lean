-- When code follows a computation that may fail: it returns a value that goes
-- with the result, and leaves the blocks that there are as they are.
import MiniFunctional.LlvmRuns

namespace llvm

variable {ε ρ σ α β : Type} {trapped : ε → Prop}

/-- The code traps where the failure is one of `trapped`; of other failures
nothing is said. -/
def Follows (trapped : ε → Prop) (x : Except ε ρ) (b : Behaviour α) (m : Memory)
    (output : String) (Q : ρ → α → Memory → Prop) : Prop :=
  match x with
  | .ok r => ∃ a m', b m output = .returns a m' output ∧ m <+: m' ∧ Q r a m'
  | .error e => trapped e → b m output = .traps output

variable {m : Memory} {output : String} {x : Except ε ρ} {b : Behaviour α}
  {Q Q' : ρ → α → Memory → Prop}

theorem Follows.pure {r : ρ} {a : α} (h : Q r a m) :
    Follows trapped (.ok r) (Pure.pure a) m output Q :=
  ⟨a, m, rfl, List.prefix_rfl, h⟩

theorem Follows.trap {e : ε} :
    Follows trapped (.error e) (Behaviour.trap : Behaviour α) m output Q := fun _ => rfl

theorem Follows.other {e : ε} (h : ¬ trapped e) : Follows trapped (.error e) b m output Q :=
  fun he => absurd he h

theorem Follows.mono (h : Follows trapped x b m output Q)
    (hQ : ∀ r a m', m <+: m' → Q r a m' → Q' r a m') : Follows trapped x b m output Q' := by
  cases x with
  | error e => exact h
  | ok r =>
    obtain ⟨a, m', hrun, hm, hq⟩ := h
    exact ⟨a, m', hrun, hm, hQ r a m' hm hq⟩

/-- What follows from a later memory on is what follows. -/
theorem Follows.later {b' : Behaviour β} {Q : ρ → β → Memory → Prop} {a : α} {m' : Memory}
    (hrun : b m output = .returns a m' output) (hm : m <+: m') {f : α → Behaviour β}
    (hf : f a = b') (h : Follows trapped x b' m' output Q) :
    Follows trapped x (b >>= f) m output Q := by
  subst hf
  unfold Follows at h ⊢
  rw [Behaviour.bind_returns hrun]
  cases x with
  | error e => exact h
  | ok r =>
    obtain ⟨a', m'', hrun', hm', hq⟩ := h
    exact ⟨a', m'', hrun', hm.trans hm', hq⟩

/-- The code does what other code does from a later memory on. -/
theorem Follows.same {b' : Behaviour α} {m' : Memory} (hb : b m output = b' m' output)
    (hm : m <+: m') (h : Follows trapped x b' m' output Q) : Follows trapped x b m output Q := by
  unfold Follows at h ⊢
  rw [hb]
  cases x with
  | error e => exact h
  | ok r =>
    obtain ⟨a, m'', hrun, hm', hq⟩ := h
    exact ⟨a, m'', hrun, hm.trans hm', hq⟩

/-- Code after code follows a computation after a computation. -/
theorem Follows.bind {f : ρ → Except ε σ} {g : α → Behaviour β} {Q' : σ → β → Memory → Prop}
    (h : Follows trapped x b m output Q)
    (hf : ∀ r a m', m <+: m' → Q r a m' → Follows trapped (f r) (g a) m' output Q') :
    Follows trapped (x >>= f) (b >>= g) m output Q' := by
  cases x with
  | error e =>
    intro he
    exact Behaviour.bind_traps (h he) g
  | ok r =>
    obtain ⟨a, m', hrun, hm, hq⟩ := h
    exact .later hrun hm rfl (hf r a m' hm hq)

/-- The code does something with the value at the end. -/
theorem Follows.returning {Q' : ρ → β → Memory → Prop} (h : Follows trapped x b m output Q)
    {f : α → β} (hQ : ∀ r a m', Q r a m' → Q' r (f a) m') :
    Follows trapped x (b >>= fun a => Pure.pure (f a)) m output Q' := by
  cases x with
  | error e => exact fun he => Behaviour.bind_traps (h he) _
  | ok r =>
    obtain ⟨a, m', hrun, hm, hq⟩ := h
    exact .later hrun hm rfl (.pure (hQ r a m' hq))

/-- A step of the computation that the code has no part in. -/
theorem Follows.silent {y : Except ε σ} {f : σ → Except ε ρ}
    (hy : ∀ e, y = .error e → ¬ trapped e)
    (h : ∀ s, y = .ok s → Follows trapped (f s) b m output Q) :
    Follows trapped (y >>= f) b m output Q := by
  cases y with
  | error e => exact .other (hy e rfl)
  | ok s => exact h s rfl

end llvm
