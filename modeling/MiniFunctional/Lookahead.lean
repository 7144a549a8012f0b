-- The parser looks one token ahead: a run that leaves some token does the same
-- on every input that goes on as this one up to that token.
import MiniFunctional.ParserLaws

open mf.util mf.ast mf.tokenization

namespace mf.parsing

variable {α β γ : Type}

abbrev ParserResult (α : Type) := EStateM.Result ParseError ParserState α

/-! ## Ends of runs -/

/-- The same state, with other tokens to go. -/
def ParserState.withRest (s : ParserState) (rest : List Token) : ParserState := { s with rest }

/-- The tokens that the run leaves. -/
def left : ParserResult α → List Token
  | .ok _ s => s.rest
  | .error _ s => s.rest

/-- The same end, with other tokens left. -/
def leaving (rest : List Token) : ParserResult α → ParserResult α
  | .ok a s => .ok a (s.withRest rest)
  | .error e s => .error e (s.withRest rest)

/-- The model's own bound was too small. -/
def Exhausted (x : ParserResult α) : Prop := ∃ s, x = .error .outOfFuel s

/-- The runs of `p` and `q` from the two states, which go on with `r` and `r'`
after the common tokens `w₀`: where `p` leaves some of these, `q` leaves them
too, and ends in the same way. -/
def SameRun (p q : Parser α) (s : ParserState) (w₀ r r' : List Token) : Prop :=
  ∀ w, w ≠ [] → left (p (s.withRest (w₀ ++ r))) = w ++ r →
    Exhausted (p (s.withRest (w₀ ++ r))) ∨ Exhausted (q (s.withRest (w₀ ++ r'))) ∨
      q (s.withRest (w₀ ++ r')) = leaving (w ++ r') (p (s.withRest (w₀ ++ r)))

/-- `p` takes a part of its tokens, and `q` does the same wherever the tokens
are the same up to the first one that is left. -/
structure Lookahead (p q : Parser α) : Prop where
  takes : ∀ s, left (p s) <:+ s.rest
  same : ∀ s w₀ r r', SameRun p q s w₀ r r'

/-! ## Steps -/

/-- A step that takes no token. -/
theorem Lookahead.look {p : Parser α} (hleft : ∀ s, left (p s) = s.rest)
    (h : ∀ (s : ParserState) t r r', p (s.withRest (t :: r')) =
      leaving (t :: r') (p (s.withRest (t :: r)))) : Lookahead p p := by
  constructor
  · intro s
    exact (hleft s).symm ▸ List.suffix_refl s.rest
  · intro s w₀ r r' w hw hsame
    rw [hleft] at hsame
    obtain rfl : w₀ = w := List.append_cancel_right hsame
    obtain ⟨t, w, rfl⟩ := List.exists_cons_of_ne_nil hw
    exact .inr (.inr (h s t (w ++ r) (w ++ r')))

theorem Lookahead.pure (a : α) : Lookahead (Pure.pure a) (Pure.pure a) :=
  .look (fun _ => rfl) fun _ _ _ _ => rfl

theorem Lookahead.throw (e : ParseError) :
    Lookahead (MonadExcept.throw e : Parser α) (MonadExcept.throw e) :=
  .look (fun _ => rfl) fun _ _ _ _ => rfl

theorem lookahead_atEnd : Lookahead atEnd atEnd :=
  .look (fun _ => rfl) fun _ _ _ _ => rfl

theorem lookahead_cursor : Lookahead cursor cursor := by
  apply Lookahead.look
  · rintro ⟨rest, positions, overrun⟩
    cases rest with
    | nil => rfl
    | cons t rest => rfl
  · intro s t r r'
    rfl

theorem lookahead_allocateNode (position : Position) :
    Lookahead (allocateNode position) (allocateNode position) := by
  apply Lookahead.look
  · intro s
    rw [allocateNode_run]
    split <;> rfl
  · intro s t r r'
    rw [allocateNode_run, allocateNode_run]
    by_cases hfull : s.positions.length ≥ kInvalidNodeId
    · simp only [ParserState.withRest, hfull, if_true, leaving]
    · simp only [ParserState.withRest, hfull, if_false, leaving]

theorem lookahead_check (T : Alternative α) : Lookahead (check T) (check T) := by
  apply Lookahead.look
  · intro s
    rw [check_run]
    rfl
  · intro s t r r'
    rw [check_run, check_run]
    rfl

/-- The first token is taken. -/
theorem lookahead_next :
    Lookahead (modify fun s => { s with rest := s.rest.tail } : Parser PUnit)
      (modify fun s => { s with rest := s.rest.tail }) := by
  constructor
  · intro s
    exact List.tail_suffix s.rest
  · intro s w₀ r r' w hw hsame
    have htail : (w₀ ++ r).tail = w ++ r := hsame
    have hlength := congrArg List.length htail
    have hpos := List.length_pos_iff.mpr hw
    cases w₀ with
    | nil =>
      simp only [List.nil_append, List.length_tail, List.length_append] at hlength
      omega
    | cons t w₀ =>
      obtain rfl : w₀ = w := List.append_cancel_right htail
      exact .inr (.inr rfl)

theorem Lookahead.bind {p q : Parser α} {f g : α → Parser β} (h : Lookahead p q)
    (hf : ∀ a, Lookahead (f a) (g a)) : Lookahead (p >>= f) (q >>= g) := by
  constructor
  · intro s
    rw [bind_run]
    have htakes := h.takes s
    cases hp : p s with
    | error e s' =>
      rw [hp] at htakes
      exact htakes
    | ok a s' =>
      rw [hp] at htakes
      exact ((hf a).takes s').trans htakes
  · intro s w₀ r r' w hw hsame
    rw [bind_run] at hsame ⊢
    rw [bind_run]
    have hrun := h.same s w₀ r r'
    have htakes := h.takes (s.withRest (w₀ ++ r))
    unfold SameRun at hrun
    cases hp : p (s.withRest (w₀ ++ r)) with
    | error e s' =>
      rw [hp] at hsame hrun
      rcases hrun w hw hsame with ⟨s1, he⟩ | ⟨s1, hq⟩ | hq
      · cases he
        exact .inl ⟨_, rfl⟩
      · rw [hq]
        exact .inr (.inl ⟨_, rfl⟩)
      · rw [hq]
        exact .inr (.inr rfl)
    | ok a s' =>
      rw [hp] at hsame hrun htakes
      -- what `f a` leaves, `p` leaves too
      obtain ⟨u, hu⟩ := (hf a).takes s'
      have hrest : s'.rest = (u ++ w) ++ r := by
        rw [← hu, List.append_assoc]
        exact congrArg (u ++ ·) hsame
      rcases hrun (u ++ w) (by simp [hw]) hrest with ⟨s1, he⟩ | ⟨s1, hq⟩ | hq
      · cases he
      · rw [hq]
        exact .inr (.inl ⟨_, rfl⟩)
      · rw [hq]
        have hsecond := (hf a).same s' (u ++ w) r r'
        unfold SameRun at hsecond
        have hs' : s'.withRest (u ++ w ++ r) = s' := by
          rw [← hrest]
          rfl
        rw [hs'] at hsecond
        exact hsecond w hw hsame

/-! ## Loops -/

theorem Lookahead.outOfFuel_left (q : Parser α) : Lookahead (MonadExcept.throw .outOfFuel) q := by
  constructor
  · intro s
    exact List.suffix_refl _
  · intro s w₀ r r' w _ _
    exact .inl ⟨_, rfl⟩

theorem iterate_succ (step : β → Parser (β ⊕ γ)) (n : Nat) (b : β) :
    iterate step (n + 1) b = step b >>= Sum.elim (iterate step n) Pure.pure := by
  rw [iterate]
  apply congrArg (step b >>= ·)
  funext r
  cases r with
  | inl b' => rfl
  | inr c => rfl

theorem Lookahead.iterate {step step' : β → Parser (β ⊕ γ)}
    (h : ∀ b, Lookahead (step b) (step' b)) :
    ∀ n n' b, Lookahead (iterate step n b) (iterate step' n' b) := by
  intro n
  induction n with
  | zero => exact fun n' b => .outOfFuel_left _
  | succ n ih =>
    intro n' b
    rw [iterate_succ]
    cases n' with
    | zero =>
      refine ⟨Lookahead.takes (q := step' b >>= Sum.elim (parsing.iterate step' 0) Pure.pure) ?_,
        fun s w₀ r r' w _ _ => .inr (.inl ⟨_, rfl⟩)⟩
      exact (h b).bind fun t => by
        cases t with
        | inl b' => exact ih 0 b'
        | inr c => exact .pure c
    | succ n' =>
      rw [iterate_succ]
      apply (h b).bind
      intro r
      cases r with
      | inl b' => exact ih n' b'
      | inr c => exact .pure c

theorem Lookahead.loop {step step' : β → Parser (β ⊕ γ)} (h : ∀ b, Lookahead (step b) (step' b))
    (b : β) : Lookahead (loop b step) (loop b step') := by
  constructor
  · intro s
    exact (Lookahead.iterate h _ 0 b).takes s
  · intro s w₀ r r'
    exact (Lookahead.iterate h _ _ b).same s w₀ r r'

/-! ## The cursor -/

theorem lookahead_advance : Lookahead advance advance :=
  lookahead_cursor.bind fun t => lookahead_next.bind fun _ => .pure t

theorem lookahead_throwExpected (expected : String) :
    Lookahead (throwExpected expected : Parser α) (throwExpected expected) := by
  unfold throwExpected
  apply lookahead_atEnd.bind
  intro ended
  cases ended with
  | true => exact .throw _
  | false => exact lookahead_cursor.bind fun t => .throw _

theorem lookahead_getAlternative (T : Alternative α) (load : TokenVariant) :
    Lookahead (getAlternative T load) (getAlternative T load) := by
  unfold getAlternative
  cases T load with
  | none => exact .throw _
  | some payload => exact .pure payload

theorem lookahead_expect (T : Alternative α) : Lookahead (expect T) (expect T) := by
  unfold expect
  apply (lookahead_check T).bind
  intro b
  cases b with
  | true => exact lookahead_advance.bind fun t => lookahead_getAlternative T _
  | false =>
    apply lookahead_atEnd.bind
    intro ended
    cases ended with
    | true => exact .throw _
    | false => exact lookahead_cursor.bind fun t => .throw _

theorem lookahead_matchToken (T : Alternative α) : Lookahead (matchToken T) (matchToken T) := by
  unfold matchToken
  apply (lookahead_check T).bind
  intro b
  cases b with
  | true => exact lookahead_advance.bind fun t => .pure true
  | false => exact .pure false

theorem lookahead_checkAny (cs : List (Parser Bool)) (h : ∀ c ∈ cs, Lookahead c c) :
    Lookahead (checkAny cs) (checkAny cs) := by
  induction cs with
  | nil => exact .pure false
  | cons c cs ih =>
    apply (h c List.mem_cons_self).bind
    intro b
    cases b with
    | true => exact .pure true
    | false => exact ih fun c hc => h c (List.mem_cons_of_mem _ hc)

theorem lookahead_parseNamesWhile (T : Alternative String) :
    Lookahead (parseNamesWhile T) (parseNamesWhile T) := by
  apply Lookahead.loop
  intro names
  apply (lookahead_check T).bind
  intro b
  cases b with
  | true => exact (lookahead_expect T).bind fun name => .pure _
  | false => exact .pure _

theorem lookahead_expectAnyName (Ts : List (Alternative String)) :
    Lookahead (expectAnyName Ts) (expectAnyName Ts) := by
  induction Ts with
  | nil => exact lookahead_throwExpected _
  | cons T Ts ih =>
    apply (lookahead_check T).bind
    intro b
    cases b with
    | true => exact lookahead_expect T
    | false => exact ih

/-! ## Expressions

`self` and `self'` are the parser of the nested expressions, with two bounds. -/

theorem lookahead_parsePattern : Lookahead parsePattern parsePattern := by
  unfold parsePattern
  apply (lookahead_check _).bind
  intro b
  cases b with
  | true =>
    apply lookahead_cursor.bind
    intro t
    exact (lookahead_allocateNode _).bind fun id => (lookahead_expect _).bind fun name => .pure _
  | false =>
    apply (lookahead_check _).bind
    intro b
    cases b with
    | false => exact lookahead_throwExpected _
    | true =>
      apply lookahead_cursor.bind
      intro t
      apply (lookahead_allocateNode _).bind
      intro id
      exact (lookahead_expect _).bind fun name =>
        (lookahead_parseNamesWhile _).bind fun names => .pure _

theorem lookahead_matchBinaryOperator
    (operators : List (TokenVariant × BinaryOperatorFactory)) :
    Lookahead (matchBinaryOperator operators) (matchBinaryOperator operators) := by
  induction operators with
  | nil => exact .pure none
  | cons operator operators ih =>
    apply (lookahead_matchToken _).bind
    intro matched
    cases matched with
    | true => exact .pure _
    | false => exact ih

section

variable {self self' : Parser Expression} (hself : Lookahead self self')

include hself

theorem Lookahead.parseBranch : Lookahead (parseBranch self) (parseBranch self') := by
  apply lookahead_cursor.bind
  intro t
  apply lookahead_parsePattern.bind
  intro pattern
  apply (lookahead_expect _).bind
  intro _
  apply (lookahead_expect _).bind
  intro _
  apply hself.bind
  intro body
  exact (lookahead_expect _).bind fun _ => (lookahead_allocateNode _).bind fun id => .pure _

theorem Lookahead.nextBranch (branches : List Branch) :
    Lookahead (nextBranch self branches) (nextBranch self' branches) := by
  apply (lookahead_check _).bind
  intro closed
  apply lookahead_atEnd.bind
  intro ended
  by_cases hmore : (!closed && !ended) = true
  · simp only [hmore, if_true]
    exact (Lookahead.parseBranch hself).bind fun b => .pure _
  · simp only [hmore]
    exact .pure _

theorem Lookahead.parseCaseExpression :
    Lookahead (parseCaseExpression self) (parseCaseExpression self') := by
  apply lookahead_cursor.bind
  intro t
  apply (lookahead_expect _).bind
  intro _
  apply hself.bind
  intro scrutinee
  apply (lookahead_expect _).bind
  intro _
  apply (lookahead_expect _).bind
  intro _
  apply (Lookahead.parseBranch hself).bind
  intro first
  apply (Lookahead.loop (Lookahead.nextBranch hself) _).bind
  intro branches
  exact (lookahead_expect _).bind fun _ => (lookahead_allocateNode _).bind fun id => .pure _

theorem Lookahead.parsePrimary : Lookahead (parsePrimary self) (parsePrimary self') := by
  apply (lookahead_check _).bind
  intro paren
  cases paren with
  | true =>
    apply (lookahead_expect _).bind
    intro _
    exact hself.bind fun e => (lookahead_expect _).bind fun _ => .pure e
  | false =>
    apply (lookahead_check _).bind
    intro literal
    cases literal with
    | true =>
      apply lookahead_cursor.bind
      intro t
      exact (lookahead_allocateNode _).bind fun id => (lookahead_expect _).bind fun value => .pure _
    | false =>
      apply (lookahead_checkAny _ (by simp [lookahead_check])).bind
      intro name
      cases name with
      | true =>
        apply lookahead_cursor.bind
        intro t
        exact (lookahead_expectAnyName _).bind fun name =>
          (lookahead_allocateNode _).bind fun id => .pure _
      | false =>
        apply (lookahead_check _).bind
        intro case'
        cases case' with
        | true => exact Lookahead.parseCaseExpression hself
        | false => exact lookahead_throwExpected _

theorem Lookahead.parseApplication :
    Lookahead (parseApplication self) (parseApplication self') := by
  apply (Lookahead.parsePrimary hself).bind
  intro f
  apply Lookahead.loop
  intro f
  apply (lookahead_checkAny _ (by simp [lookahead_check])).bind
  intro more
  cases more with
  | false => exact .pure _
  | true =>
    apply lookahead_cursor.bind
    intro t
    exact (Lookahead.parsePrimary hself).bind fun argument =>
      (lookahead_allocateNode _).bind fun id => .pure _

omit hself in
theorem Lookahead.parseBinaryLevel {operand operand' : Parser Expression}
    (h : Lookahead operand operand') (operators : List (TokenVariant × BinaryOperatorFactory)) :
    Lookahead (parseBinaryLevel operand (matchBinaryOperator operators))
      (parseBinaryLevel operand' (matchBinaryOperator operators)) := by
  apply h.bind
  intro e
  apply Lookahead.loop
  intro e
  apply lookahead_atEnd.bind
  intro ended
  cases ended with
  | true => exact .pure _
  | false =>
    apply lookahead_cursor.bind
    intro t
    apply (lookahead_matchBinaryOperator operators).bind
    intro matched
    cases matched with
    | none => exact .pure _
    | some factory =>
      exact (lookahead_allocateNode _).bind fun id => h.bind fun right => .pure _

theorem Lookahead.parseTerm : Lookahead (parseTerm self) (parseTerm self') :=
  (Lookahead.parseApplication hself).parseBinaryLevel _

end

theorem lookahead_parseExpressionWithin (n n' : Nat) :
    Lookahead (parseExpressionWithin n) (parseExpressionWithin n') := by
  induction n generalizing n' with
  | zero => exact .outOfFuel_left _
  | succ n ih =>
    cases n' with
    | zero =>
      refine ⟨Lookahead.takes ((Lookahead.parseTerm (ih 0)).parseBinaryLevel _), ?_⟩
      exact fun s w₀ r r' w _ _ => .inr (.inl ⟨_, rfl⟩)
    | succ n' => exact (Lookahead.parseTerm (ih n')).parseBinaryLevel _

theorem lookahead_parseExpression : Lookahead parseExpression parseExpression := by
  constructor
  · intro s
    unfold parseExpression
    exact (lookahead_parseExpressionWithin (s.rest.length + 1) 0).takes s
  · intro s w₀ r r'
    have hsame := (lookahead_parseExpressionWithin ((w₀ ++ r).length + 1)
      ((w₀ ++ r').length + 1)).same s w₀ r r'
    unfold SameRun parseExpression at *
    exact hsame

/-! ## Definitions -/

theorem lookahead_parseConstructor : Lookahead parseConstructor parseConstructor := by
  apply lookahead_cursor.bind
  intro t
  apply (lookahead_expect _).bind
  intro name
  exact (lookahead_parseNamesWhile _).bind fun fields =>
    (lookahead_allocateNode _).bind fun id => .pure _

theorem lookahead_parseFunctionDefinition :
    Lookahead parseFunctionDefinition parseFunctionDefinition := by
  apply lookahead_cursor.bind
  intro t
  apply (lookahead_expect _).bind
  intro _
  apply (lookahead_expect _).bind
  intro name
  apply (lookahead_parseNamesWhile _).bind
  intro parameters
  apply (lookahead_expect _).bind
  intro _
  apply (lookahead_expect _).bind
  intro _
  apply lookahead_parseExpression.bind
  intro body
  exact (lookahead_expect _).bind fun _ => (lookahead_allocateNode _).bind fun id => .pure _

theorem lookahead_parseDataTypeDefinition :
    Lookahead parseDataTypeDefinition parseDataTypeDefinition := by
  have hnext : ∀ constructors, Lookahead (nextConstructor constructors)
      (nextConstructor constructors) := by
    intro constructors
    apply (lookahead_matchToken _).bind
    intro comma
    cases comma with
    | true => exact lookahead_parseConstructor.bind fun c => .pure _
    | false => exact .pure _
  apply lookahead_cursor.bind
  intro t
  apply (lookahead_expect _).bind
  intro _
  apply (lookahead_expect _).bind
  intro name
  apply (lookahead_expect _).bind
  intro _
  apply (lookahead_expect _).bind
  intro _
  apply lookahead_parseConstructor.bind
  intro first
  apply (Lookahead.loop hnext _).bind
  intro constructors
  exact (lookahead_expect _).bind fun _ => (lookahead_allocateNode _).bind fun id => .pure _

theorem lookahead_parseDefinition : Lookahead parseDefinition parseDefinition := by
  apply (lookahead_check _).bind
  intro function
  cases function with
  | true => exact lookahead_parseFunctionDefinition.bind fun fd => .pure _
  | false =>
    apply (lookahead_check _).bind
    intro data
    cases data with
    | true => exact lookahead_parseDataTypeDefinition.bind fun dt => .pure _
    | false => exact lookahead_throwExpected _

theorem lookahead_parseProgram : Lookahead parseProgram parseProgram := by
  apply Lookahead.loop
  intro program
  apply lookahead_atEnd.bind
  intro ended
  cases ended with
  | true => exact .pure _
  | false => exact lookahead_parseDefinition.bind fun d => .pure _

end mf.parsing
