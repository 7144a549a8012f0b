-- Computations that return a value or throw: what holds of the value, and
-- which exceptions there can be.
import Mathlib.Logic.Basic

namespace ExceptLaws

variable {ε α β : Type}

/-- The value satisfies `Q`, or the exception is one of `E`. -/
def Satisfies (x : Except ε α) (E : ε → Prop) (Q : α → Prop) : Prop :=
  match x with
  | .ok a => Q a
  | .error e => E e

variable {x : Except ε α} {E : ε → Prop} {Q : α → Prop}

@[simp] theorem satisfies_pure (a : α) : Satisfies (pure a : Except ε α) E Q ↔ Q a := Iff.rfl

@[simp] theorem satisfies_ok (a : α) : Satisfies (.ok a : Except ε α) E Q ↔ Q a := Iff.rfl

@[simp] theorem satisfies_error (e : ε) : Satisfies (.error e : Except ε α) E Q ↔ E e := Iff.rfl

@[simp] theorem satisfies_throw (e : ε) : Satisfies (throw e : Except ε α) E Q ↔ E e := Iff.rfl

theorem satisfies_bind {f : α → Except ε β} {R : β → Prop} :
    Satisfies (x >>= f) E R ↔ Satisfies x E fun a => Satisfies (f a) E R := by
  cases x with
  | ok a => rfl
  | error e => rfl

theorem satisfies_map {f : α → β} {R : β → Prop} :
    Satisfies (f <$> x) E R ↔ Satisfies x E fun a => R (f a) := by
  cases x with
  | ok a => rfl
  | error e => rfl

theorem satisfies_mapError {ε' : Type} {f : ε → ε'} {E' : ε' → Prop} :
    Satisfies (x.mapError f) E' Q ↔ Satisfies x (fun e => E' (f e)) Q := by
  cases x with
  | ok a => rfl
  | error e => rfl

theorem Satisfies.mono {Q' : α → Prop} (h : Satisfies x E Q) (hq : ∀ a, Q a → Q' a) :
    Satisfies x E Q' := by
  cases x with
  | ok a => exact hq a h
  | error e => exact h

theorem Satisfies.weaken {E' : ε → Prop} (h : Satisfies x E Q) (he : ∀ e, E e → E' e) :
    Satisfies x E' Q := by
  cases x with
  | ok a => exact h
  | error e => exact he e h

/-- Sequencing: what follows runs on a value that satisfies `Q`. -/
theorem Satisfies.bind {f : α → Except ε β} {R : β → Prop} (h : Satisfies x E Q)
    (hf : ∀ a, Q a → Satisfies (f a) E R) : Satisfies (x >>= f) E R :=
  satisfies_bind.mpr (h.mono hf)

/-- The same, where the value is known to be that of the first computation. -/
theorem Satisfies.bind_of {f : α → Except ε β} {R : β → Prop} (h : Satisfies x E Q)
    (hf : ∀ a, x = .ok a → Q a → Satisfies (f a) E R) : Satisfies (x >>= f) E R := by
  cases x with
  | ok a => exact hf a rfl h
  | error e => exact h

/-- Whatever the first throws, and whatever it returns. -/
theorem satisfies_bind_of {f : α → Except ε β} {R : β → Prop}
    (h : ∀ a, Satisfies (f a) (fun _ => True) R) : Satisfies (x >>= f) (fun _ => True) R := by
  cases x with
  | ok a => exact h a
  | error e => exact trivial

theorem Satisfies.of_ok {a : α} (h : Satisfies x E Q) (hx : x = .ok a) : Q a := by
  rw [hx] at h
  exact h

theorem Satisfies.of_error {e : ε} (h : Satisfies x E Q) (hx : x = .error e) : E e := by
  rw [hx] at h
  exact h

theorem ok_bind (a : α) (f : α → Except ε β) : Except.ok a >>= f = f a := rfl

theorem exists_of_isOk (h : x.isOk = true) : ∃ a, x = .ok a := by
  cases x with
  | ok a => exact ⟨a, rfl⟩
  | error e => cases h

theorem bind_eq_ok {f : α → Except ε β} {b : β} :
    x >>= f = .ok b ↔ ∃ a, x = .ok a ∧ f a = .ok b := by
  cases x with
  | ok a =>
    constructor
    · intro h
      exact ⟨a, rfl, h⟩
    · rintro ⟨_, ha, h⟩
      cases ha
      exact h
  | error e =>
    constructor
    · intro h
      cases h
    · rintro ⟨_, ha, _⟩
      cases ha

/-! ## Two computations -/

/-- The same exception, or values that `R` relates. -/
inductive Corresponds {α' : Type} (R : α → α' → Prop) : Except ε α → Except ε α' → Prop
  | error (e : ε) : Corresponds R (.error e) (.error e)
  | ok {a : α} {a' : α'} : R a a' → Corresponds R (.ok a) (.ok a')

section

variable {α' β' : Type} {y : Except ε α'} {R : α → α' → Prop}

theorem Corresponds.bind {f : α → Except ε β} {f' : α' → Except ε β'} {S : β → β' → Prop}
    (h : Corresponds R x y) (hf : ∀ a a', R a a' → Corresponds S (f a) (f' a')) :
    Corresponds S (x >>= f) (y >>= f') := by
  cases h with
  | error e => exact .error e
  | ok hR => exact hf _ _ hR

theorem Corresponds.map {f : α → β} {f' : α' → β'} {S : β → β' → Prop}
    (h : Corresponds R x y) (hf : ∀ a a', R a a' → S (f a) (f' a')) :
    Corresponds S (f <$> x) (f' <$> y) := by
  cases h with
  | error e => exact .error e
  | ok hR => exact .ok (hf _ _ hR)

theorem corresponds_refl (x : Except ε α) : Corresponds Eq x x := by
  cases x with
  | error e => exact .error e
  | ok a => exact .ok rfl

theorem Corresponds.eq {y : Except ε α} (h : Corresponds Eq x y) : x = y := by
  cases h with
  | error e => rfl
  | ok heq => rw [heq]

end

end ExceptLaws
