-- Rules for the parser's monad. `Meets` says what holds after a run that
-- returns, and that a run which throws did not throw for want of fuel.
import MiniFunctional.Parse

open mf.util mf.ast mf.tokenization

namespace mf.parsing

variable {α β γ : Type}

def Meets (p : Parser α) (s : ParserState) (Q : α → ParserState → Prop) : Prop :=
  match p s with
  | .ok a s' => Q a s'
  | .error e _ => e ≠ .outOfFuel

theorem Meets.mono {p : Parser α} {s : ParserState} {Q Q' : α → ParserState → Prop}
    (h : Meets p s Q) (hq : ∀ a s', Q a s' → Q' a s') : Meets p s Q' := by
  unfold Meets at h ⊢
  split
  · rename_i a s' hp
    rw [hp] at h
    exact hq a s' h
  · rename_i e s' hp
    rw [hp] at h
    exact h

@[simp] theorem meets_pure (a : α) (s : ParserState) (Q : α → ParserState → Prop) :
    Meets (pure a) s Q ↔ Q a s := Iff.rfl

theorem bind_run (p : Parser α) (f : α → Parser β) (s : ParserState) :
    (p >>= f) s = match p s with
      | .ok a s' => f a s'
      | .error e s' => .error e s' := by
  change EStateM.bind p f s = _
  unfold EStateM.bind
  cases p s <;> rfl

@[simp] theorem meets_bind (p : Parser α) (f : α → Parser β) (s : ParserState)
    (Q : β → ParserState → Prop) :
    Meets (p >>= f) s Q ↔ Meets p s fun a s' => Meets (f a) s' Q := by
  unfold Meets
  rw [bind_run]
  cases p s <;> rfl

theorem meets_of_run {p : Parser α} {s s' : ParserState} {a : α} (h : p s = .ok a s')
    {Q : α → ParserState → Prop} : Meets p s Q ↔ Q a s' := by
  unfold Meets
  rw [h]

/-- What a run returns is what it meets. -/
theorem Meets.of_ok {p : Parser α} {s s' : ParserState} {a : α} {Q : α → ParserState → Prop}
    (h : Meets p s Q) (hp : p s = .ok a s') : Q a s' := by
  unfold Meets at h
  rw [hp] at h
  exact h

theorem Meets.of_error {p : Parser α} {s s' : ParserState} {e : ParseError}
    {Q : α → ParserState → Prop} (h : Meets p s Q) (hp : p s = .error e s') : e ≠ .outOfFuel := by
  unfold Meets at h
  rw [hp] at h
  exact h

/-! ## The cursor -/

/-- The next token holds the alternative `T`. -/
def sees (T : Alternative α) (s : ParserState) : Bool :=
  match s.rest with
  | token :: _ => (T token.load).isSome
  | [] => false

@[simp] theorem atEnd_run (s : ParserState) : atEnd s = .ok s.rest.isEmpty s := rfl

@[simp] theorem check_run (T : Alternative α) (s : ParserState) : check T s = .ok (sees T s) s := by
  obtain ⟨rest, positions, overrun⟩ := s
  cases rest <;> rfl

@[simp] theorem meets_atEnd (s : ParserState) (Q : Bool → ParserState → Prop) :
    Meets atEnd s Q ↔ Q s.rest.isEmpty s := Iff.rfl

@[simp] theorem meets_check (T : Alternative α) (s : ParserState) (Q : Bool → ParserState → Prop) :
    Meets (check T) s Q ↔ Q (sees T s) s := by
  unfold Meets
  rw [check_run]

/-- Some check of the list holds; each is a plain look at the next token. -/
theorem checkAny_run (cs : List (Parser Bool)) (s : ParserState)
    (h : ∀ c ∈ cs, ∃ b, c s = .ok b s) :
    checkAny cs s =
      .ok (cs.any fun c => match c s with | .ok b _ => b | .error _ _ => false) s := by
  induction cs with
  | nil => rfl
  | cons c cs ih =>
    obtain ⟨b, hb⟩ := h c (by simp)
    have ih := ih fun c hc => h c (by simp [hc])
    rw [checkAny, bind_run, hb]
    cases b with
    | true => simp [hb]; rfl
    | false => simpa [hb] using ih

/-- A read at the cursor changes no more than the record of it. -/
theorem meets_cursor (s : ParserState) (Q : Token → ParserState → Prop)
    (h : ∀ token overrun, (∀ t ts, s.rest = t :: ts → token = t ∧ overrun = s.overrun) →
      Q token { s with overrun }) : Meets cursor s Q := by
  unfold Meets cursor
  obtain ⟨rest, positions, overrun⟩ := s
  cases rest with
  | nil => exact h _ true (by simp)
  | cons t ts => exact h t overrun (by simp)

theorem expect_run (T : Alternative α) (s : ParserState) :
    expect T s = match s.rest with
      | [] => .error .unexpectedEndOfInput s
      | token :: rest => match T token.load with
        | some payload => .ok payload { s with rest }
        | none => .error (.unexpectedToken token.position) s := by
  obtain ⟨rest, positions, overrun⟩ := s
  unfold expect
  rw [bind_run, check_run]
  cases rest with
  | nil => rfl
  | cons token rest =>
    cases hT : T token.load with
    | none =>
      simp [sees, hT]
      rfl
    | some payload =>
      simp only [sees, hT, Option.isSome_some, Bool.not_true, Bool.false_eq_true, if_false]
      change (getAlternative T token.load : Parser α) _ = _
      simp only [getAlternative, hT]
      rfl

theorem matchToken_run (T : Alternative α) (s : ParserState) :
    matchToken T s = .ok (sees T s) (if sees T s then { s with rest := s.rest.tail } else s) := by
  obtain ⟨rest, positions, overrun⟩ := s
  unfold matchToken
  rw [bind_run, check_run]
  cases rest with
  | nil => rfl
  | cons token rest =>
    cases hT : T token.load with
    | none =>
      simp [sees, hT]
      rfl
    | some payload =>
      simp only [sees, hT, Option.isSome_some, if_true]
      rfl

theorem allocateNode_run (position : Position) (s : ParserState) :
    allocateNode position s = if s.positions.length ≥ kInvalidNodeId then .error .tooManyNodes s
      else .ok s.positions.length { s with positions := s.positions ++ [position] } := rfl

theorem throw_run (e : ParseError) (s : ParserState) : (throw e : Parser α) s = .error e s := rfl

/-- `throwExpected` never returns. -/
theorem meets_throwExpected (expected : String) (s : ParserState)
    (Q : α → ParserState → Prop) : Meets (throwExpected expected) s Q := by
  unfold Meets throwExpected
  obtain ⟨rest, positions, overrun⟩ := s
  cases rest <;> simp [bind_run, atEnd, cursor, throw_run]

/-! ## Loops -/

/-- The rule of a loop. `Q b s c s'` is what holds of a run of the loop from
the value `b` in state `s` to the value `c` in state `s'`: a turn that goes
on takes a token and leads from later runs to this one. -/
theorem meets_iterate {step : β → Parser (β ⊕ γ)} {m : Nat}
    {Q : β → ParserState → γ → ParserState → Prop}
    (h : ∀ b s, s.rest.length < m → Meets (step b) s fun r s' =>
      match r with
      | .inl b' => s'.rest.length < s.rest.length ∧ ∀ c s'', Q b' s' c s'' → Q b s c s''
      | .inr c => Q b s c s') :
    ∀ n b s, s.rest.length < n → s.rest.length < m → Meets (iterate step n b) s (Q b s) := by
  intro n
  induction n with
  | zero => intro b s hn; omega
  | succ n ih =>
    intro b s hn hm
    rw [iterate, meets_bind]
    refine (h b s hm).mono fun r s' hr => ?_
    cases r with
    | inl b' =>
      obtain ⟨hlt, hQ⟩ := hr
      exact (ih b' s' (by omega) (by omega)).mono fun c s'' hc => hQ c s'' hc
    | inr c => exact hr

theorem meets_loop {step : β → Parser (β ⊕ γ)} {m : Nat}
    {Q : β → ParserState → γ → ParserState → Prop}
    (h : ∀ b s, s.rest.length < m → Meets (step b) s fun r s' =>
      match r with
      | .inl b' => s'.rest.length < s.rest.length ∧ ∀ c s'', Q b' s' c s'' → Q b s c s''
      | .inr c => Q b s c s')
    (b : β) (s : ParserState) (hm : s.rest.length < m) : Meets (loop b step) s (Q b s) :=
  meets_iterate h _ b s (by omega) hm

/-! ## What a run takes and makes -/

/-- A run from `s` to `s'` took the tokens `used` and made the nodes `ids`,
which are the ids of `s'` that `s` does not have. -/
structure Progress (s s' : ParserState) (used : List TokenVariant) (ids : List NodeId) : Prop where
  took : loads s.rest = used ++ loads s'.rest
  grew : s'.positions.length = s.positions.length + ids.length
  made : ids.Perm (List.range' s.positions.length ids.length)
  fits : s.positions.length ≤ kInvalidNodeId → s'.positions.length ≤ kInvalidNodeId

theorem Progress.refl (s : ParserState) : Progress s s [] [] :=
  ⟨rfl, rfl, List.Perm.refl _, id⟩

theorem Progress.trans {s s1 s2 : ParserState} {u1 u2 : List TokenVariant} {i1 i2 : List NodeId}
    (h1 : Progress s s1 u1 i1) (h2 : Progress s1 s2 u2 i2) :
    Progress s s2 (u1 ++ u2) (i1 ++ i2) := by
  refine ⟨?_, ?_, ?_, fun h => h2.fits (h1.fits h)⟩
  · rw [h1.took, h2.took, List.append_assoc]
  · rw [h2.grew, h1.grew, List.length_append, Nat.add_assoc]
  · have h := h1.made.append h2.made
    rw [h1.grew] at h
    rw [List.length_append, ← List.range'_append_1]
    exact h

theorem Progress.perm {s s' : ParserState} {used : List TokenVariant} {ids ids' : List NodeId}
    (h : Progress s s' used ids) (hp : ids.Perm ids') : Progress s s' used ids' := by
  refine ⟨h.took, ?_, ?_, h.fits⟩
  · rw [h.grew, hp.length_eq]
  · rw [← hp.length_eq]
    exact hp.symm.trans h.made

/-- A node whose id is the last one made stands first in its tree. -/
theorem Progress.rotate {s s' : ParserState} {used : List TokenVariant} {id : NodeId}
    {ids : List NodeId} (h : Progress s s' used (ids ++ [id])) : Progress s s' used (id :: ids) :=
  h.perm (List.perm_append_singleton id ids)

/-- The record of an access is no progress. -/
theorem Progress.of_overrun {s s' : ParserState} {overrun : Bool} {used : List TokenVariant}
    {ids : List NodeId} (h : Progress { s with overrun } s' used ids) : Progress s s' used ids :=
  ⟨h.took, h.grew, h.made, h.fits⟩

theorem Progress.length {s s' : ParserState} {used : List TokenVariant} {ids : List NodeId}
    (h : Progress s s' used ids) : s.rest.length = used.length + s'.rest.length := by
  have := congrArg List.length h.took
  simpa [loads] using this

theorem meets_expect (T : Alternative α) (s : ParserState) (Q : α → ParserState → Prop)
    (h : ∀ load payload s', T load = some payload → Progress s s' [load] [] → Q payload s') :
    Meets (expect T) s Q := by
  unfold Meets
  rw [expect_run]
  obtain ⟨rest, positions, overrun⟩ := s
  cases rest with
  | nil => simp
  | cons token rest =>
    simp only
    cases hT : T token.load with
    | none => simp
    | some payload =>
      exact h token.load payload _ hT ⟨by simp [loads], by simp, by simp, id⟩

theorem meets_expectEmpty (load : TokenVariant) (s : ParserState) (Q : Unit → ParserState → Prop)
    (h : ∀ s', Progress s s' [load] [] → Q () s') : Meets (expect (Empty load)) s Q := by
  refine meets_expect _ _ _ fun l payload s' hl hp => ?_
  unfold Empty at hl
  split at hl
  · rename_i heq
    subst heq
    exact h s' hp
  · cases hl

theorem meets_allocateNode (position : Position) (s : ParserState)
    (Q : NodeId → ParserState → Prop) (h : ∀ id s', Progress s s' [] [id] → Q id s') :
    Meets (allocateNode position) s Q := by
  unfold Meets
  rw [allocateNode_run]
  split
  · rename_i hp
    split at hp
    · cases hp
    · rename_i hlt
      obtain ⟨rfl, rfl⟩ : _ ∧ _ := by simpa using hp
      refine h _ _ ⟨rfl, by simp, by simp, fun _ => ?_⟩
      simp only [List.length_append, List.length_singleton]
      omega
  · rename_i hp
    split at hp
    · cases hp
      simp
    · cases hp

theorem meets_matchToken (T : Alternative α) (s : ParserState) (Q : Bool → ParserState → Prop)
    (hno : sees T s = false → Q false s)
    (hyes : ∀ load s', (T load).isSome → Progress s s' [load] [] → Q true s') :
    Meets (matchToken T) s Q := by
  unfold Meets
  rw [matchToken_run]
  simp only
  obtain ⟨rest, positions, overrun⟩ := s
  cases hs : sees T ⟨rest, positions, overrun⟩ with
  | false => simpa [hs] using hno hs
  | true =>
    cases rest with
    | nil => simp [sees] at hs
    | cons token rest =>
      refine hyes token.load _ (by simpa [sees] using hs) ⟨?_, ?_, ?_, id⟩ <;> simp [loads]

end mf.parsing
