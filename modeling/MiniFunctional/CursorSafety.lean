-- The parser goes past the end of its input just when the input is cut off
-- where a constructor or the first branch of a case expression is due.
import MiniFunctional.CutOffInputs

open mf.util mf.ast mf.tokenization mf.grammar

namespace mf.parsing

variable {α β γ : Type} {s : ParserState} {B : Prop}

/-! ## Runs that stay inside -/

/-- A run that returns has not gone past the end, and `Q` holds of it; one that
throws has gone past the end only if `B` holds. -/
def Within (p : Parser α) (s : ParserState) (B : Prop) (Q : α → ParserState → Prop) : Prop :=
  match p s with
  | .ok a s' => s'.overrun = false ∧ Q a s'
  | .error _ s' => s'.overrun = true → B

theorem Within.mono {p : Parser α} {B' : Prop} {Q Q' : α → ParserState → Prop}
    (h : Within p s B Q) (hB : B → B') (hQ : ∀ a s', Q a s' → Q' a s') : Within p s B' Q' := by
  unfold Within at h ⊢
  cases hp : p s with
  | ok a s' =>
    rw [hp] at h
    exact ⟨h.1, hQ a s' h.2⟩
  | error e s' =>
    rw [hp] at h
    exact fun ho => hB (h ho)

theorem Within.pure {a : α} {Q : α → ParserState → Prop} (ho : s.overrun = false) (h : Q a s) :
    Within (Pure.pure a) s B Q := ⟨ho, h⟩

theorem Within.bind {p : Parser α} {f : α → Parser β} {S : α → ParserState → Prop}
    {Q : β → ParserState → Prop} (h : Within p s B S)
    (hf : ∀ a s', s'.overrun = false → S a s' → Within (f a) s' B Q) :
    Within (p >>= f) s B Q := by
  unfold Within at h ⊢
  rw [bind_run]
  cases hp : p s with
  | ok a s' =>
    rw [hp] at h
    exact hf a s' h.1 h.2
  | error e s' =>
    rw [hp] at h
    exact h

/-- What is known of the runs that return. -/
theorem Within.meets {p : Parser α} {Q Q' : α → ParserState → Prop} (h : Within p s B Q)
    (hm : Meets p s Q') : Within p s B Q' := by
  unfold Within Meets at *
  cases hp : p s with
  | ok a s' =>
    rw [hp] at h hm
    exact ⟨h.1, hm⟩
  | error e s' =>
    rw [hp] at h
    exact h

theorem Within.of_run {p : Parser α} {f : α → Parser β} {a : α} {Q : β → ParserState → Prop}
    (hp : p s = .ok a s) (h : Within (f a) s B Q) : Within (p >>= f) s B Q := by
  unfold Within at h ⊢
  rw [bind_run, hp]
  exact h

theorem Within.check {T : Alternative α} {f : Bool → Parser β} {Q : β → ParserState → Prop}
    (h : Within (f (sees T s)) s B Q) : Within (check T >>= f) s B Q :=
  .of_run (check_run T s) h

theorem Within.atEnd {f : Bool → Parser β} {Q : β → ParserState → Prop}
    (h : Within (f s.rest.isEmpty) s B Q) : Within (atEnd >>= f) s B Q :=
  .of_run (atEnd_run s) h

/-- A read at a cursor that has a token. -/
theorem Within.cursor {f : Token → Parser β} {Q : β → ParserState → Prop} (hne : s.rest ≠ [])
    (h : ∀ t, Within (f t) s B Q) : Within (cursor >>= f) s B Q := by
  obtain ⟨rest, positions, overrun⟩ := s
  cases rest with
  | nil => exact absurd rfl hne
  | cons t rest => exact .of_run rfl (h t)

theorem ne_nil_of_sees {T : Alternative α} (h : sees T s = true) : s.rest ≠ [] := by
  intro hnil
  simp [sees, hnil] at h

/-! ## Steps with a look -/

theorem within_expect {T : Alternative α} (ho : s.overrun = false) :
    Within (expect T) s B fun _ _ => True := by
  unfold Within
  rw [expect_run]
  obtain ⟨rest, positions, overrun⟩ := s
  subst ho
  cases rest with
  | nil => simp
  | cons t rest =>
    cases hT : T t.load with
    | none => simp [hT]
    | some payload => simp [hT]

theorem within_expectEmpty (load : TokenVariant) (ho : s.overrun = false) :
    Within (expect (Empty load)) s B fun _ s' => Progress s s' [load] [] :=
  (within_expect ho).meets (meets_expectEmpty load s _ fun _ hp => hp)

theorem within_expectName {T : Alternative String} {f : String → TokenVariant}
    (hT : HoldsName T f) (ho : s.overrun = false) :
    Within (expectName T) s B fun name s' => Progress s s' [f name] [] :=
  (within_expect ho).meets (meets_expectName hT s _ fun _ _ hp => hp)

theorem within_allocateNode (position : Position) (ho : s.overrun = false) :
    Within (allocateNode position) s B fun id s' => Progress s s' [] [id] := by
  refine Within.meets (Q := fun _ _ => True) ?_ (meets_allocateNode position s _ fun _ _ hp => hp)
  unfold Within
  rw [allocateNode_run]
  by_cases hfull : s.positions.length ≥ kInvalidNodeId
  · simp [hfull, ho]
  · simp [hfull, ho]

theorem within_matchToken {T : Alternative α} (ho : s.overrun = false) :
    Within (matchToken T) s B fun _ _ => True := by
  unfold Within
  rw [matchToken_run]
  by_cases hsees : sees T s = true
  · simp [hsees, ho]
  · simp [hsees, ho]

theorem within_throwExpected (expected : String) (ho : s.overrun = false)
    (Q : α → ParserState → Prop) : Within (throwExpected expected) s B Q := by
  unfold Within throwExpected
  obtain ⟨rest, positions, overrun⟩ := s
  subst ho
  cases rest <;> simp [bind_run, atEnd, cursor, throw_run]

/-- The rule of a loop. `L` is what a cut is in the rest of the loop. -/
theorem within_iterate {step : β → Parser (β ⊕ γ)} {m : Nat} {L : List TokenVariant → Prop}
    (h : ∀ b s, s.rest.length < m → s.overrun = false →
      Within (step b) s (L (loads s.rest)) fun r s' => ∀ b', r = .inl b' →
        s'.rest.length < m ∧ (L (loads s'.rest) → L (loads s.rest))) :
    ∀ n b s, s.rest.length < m → s.overrun = false →
      Within (iterate step n b) s (L (loads s.rest)) fun _ _ => True := by
  intro n
  induction n with
  | zero =>
    intro b s _ ho
    unfold Within iterate
    rw [throw_run]
    simp [ho]
  | succ n ih =>
    intro b s hm ho
    rw [iterate]
    refine Within.bind (h b s hm ho) fun r s' ho' hr => ?_
    cases r with
    | inl b' =>
      obtain ⟨hm', hL⟩ := hr b' rfl
      exact (ih b' s' hm' ho').mono hL fun _ _ h => h
    | inr c => exact .pure ho' trivial

theorem within_loop {step : β → Parser (β ⊕ γ)} {m : Nat} {L : List TokenVariant → Prop}
    (h : ∀ b s, s.rest.length < m → s.overrun = false →
      Within (step b) s (L (loads s.rest)) fun r s' => ∀ b', r = .inl b' →
        s'.rest.length < m ∧ (L (loads s'.rest) → L (loads s.rest)))
    (b : β) (hm : s.rest.length < m) (ho : s.overrun = false) :
    Within (loop b step) s (L (loads s.rest)) fun _ _ => True :=
  within_iterate h _ b s hm ho

theorem within_parseNamesWhile {T : Alternative String} {f : String → TokenVariant}
    (hT : HoldsName T f) (ho : s.overrun = false) :
    Within (parseNamesWhile T) s B fun names s' => Progress s s' (names.map f) [] := by
  refine Within.meets (Q := fun _ _ => True) ?_ (meets_parseNamesWhile hT s)
  have hloop : Within (parseNamesWhile T) s False fun _ _ => True := by
    refine within_loop (m := s.rest.length + 1) (L := fun _ => False) (fun names s1 hm ho => ?_)
      [] (by omega) ho
    apply Within.check
    by_cases hsees : sees T s1 = true
    · simp only [hsees, if_true]
      refine Within.bind (within_expectName hT ho) fun name s2 ho2 hp => ?_
      refine Within.pure ho2 fun _ _ => ⟨?_, id⟩
      have hlength := hp.length
      simp only [List.length_singleton] at hlength
      omega
    · simp only [hsees]
      exact Within.pure ho fun _ h => by cases h
  exact hloop.mono False.elim fun _ _ h => h

/-! ## Phrases -/

/-- On fewer than `m` tokens, `p` goes past the end only where a phrase of `nt`
is cut off, and a run that returns has read a phrase. -/
def Guards (nt : Nonterminal) (m : Nat) (p : Parser α) : Prop :=
  ∀ s, s.rest.length < m → s.overrun = false →
    Within p s (CutOff nt (loads s.rest)) fun _ s' => ∃ (d : Tree nt) (ids : List NodeId),
      Progress s s' d.yield ids

/-- What the parser derives, with its looks at the cursor. -/
theorem Guards.of_derives {nt : Nonterminal} {m : Nat} {p : Parser α} {ids : α → List NodeId}
    {erase : α → Denotation nt} (hm : Derives nt m p ids erase)
    (h : ∀ s, s.rest.length < m → s.overrun = false →
      Within p s (CutOff nt (loads s.rest)) fun _ _ => True) : Guards nt m p := by
  intro s hlt ho
  refine ((h s hlt ho).meets (hm s hlt)).mono id ?_
  rintro a s' ⟨d, hp, _⟩
  exact ⟨d, ids a, hp⟩

theorem within_parsePattern (ho : s.overrun = false) :
    Within parsePattern s B fun _ s' => ∃ (d : Tree .Pattern) (ids : List NodeId),
      Progress s s' d.yield ids := by
  have hquiet : Within parsePattern s B fun _ _ => True := by
    apply Within.check
    by_cases hlower : sees LowerVariable s = true
    · simp only [hlower, if_true]
      refine Within.cursor (ne_nil_of_sees hlower) fun t => ?_
      refine Within.bind (within_allocateNode _ ho) fun id s1 ho1 _ => ?_
      exact Within.bind (within_expectName holdsName_lower ho1) fun name s2 ho2 _ =>
        .pure ho2 trivial
    · simp only [hlower]
      apply Within.check
      by_cases hupper : sees UpperVariable s = true
      · simp only [hupper, if_true]
        refine Within.cursor (ne_nil_of_sees hupper) fun t => ?_
        refine Within.bind (within_allocateNode _ ho) fun id s1 ho1 _ => ?_
        refine Within.bind (within_expectName holdsName_upper ho1) fun name s2 ho2 _ => ?_
        exact Within.bind (within_parseNamesWhile holdsName_lower ho2) fun names s3 ho3 _ =>
          .pure ho3 trivial
      · simp only [hupper]
        exact within_throwExpected _ ho _
  refine (hquiet.meets (meets_parsePattern s)).mono id ?_
  rintro p s' ⟨d, hp, _⟩
  exact ⟨d, _, hp⟩

/-! ### Operators of one level -/

/-- The nonterminals of a level: `whole` is an operand and then `rest`, which is
operators with operands. -/
structure CutLevel {O : Type} (token : O → TokenVariant) (operand rest whole : Nonterminal) :
    Prop where
  first : ∀ {w}, CutOff operand w → CutOff whole w
  more : ∀ (d : Tree operand) {w}, CutOff rest w → CutOff whole (d.yield ++ w)
  next : ∀ (op : O) {w}, CutOff operand w → CutOff rest (token op :: w)
  after : ∀ (op : O) (d : Tree operand) {w}, CutOff rest w →
    CutOff rest (token op :: (d.yield ++ w))

theorem cutLevel_sum : CutLevel SumOperator.token .Term .Sums .Expression :=
  ⟨.firstTerm, .moreTerms, .nextTerm, .afterTerm⟩

theorem cutLevel_product : CutLevel ProductOperator.token .Factor .Products .Term :=
  ⟨.firstFactor, .moreFactors, .nextFactor, .afterFactor⟩

theorem within_matchBinaryOperator (operators : List (TokenVariant × BinaryOperatorFactory))
    (ho : s.overrun = false) : Within (matchBinaryOperator operators) s B fun _ _ => True := by
  induction operators generalizing s with
  | nil => exact .pure ho trivial
  | cons operator operators ih =>
    obtain ⟨token, factory⟩ := operator
    rw [matchBinaryOperator]
    refine Within.bind (within_matchToken ho) fun matched s1 ho1 _ => ?_
    cases matched with
    | true => exact .pure ho1 trivial
    | false => exact ih ho1

theorem within_parseBinaryLevel {O : Type} {token : O → TokenVariant}
    {kind : O → BinaryOperatorKind} {operand rest whole : Nonterminal}
    (hlevel : CutLevel token operand rest whole) {p : Parser Expression} {m : Nat}
    (hp : Guards operand m p) {operators : List (TokenVariant × BinaryOperatorFactory)}
    (hop : MatchesOperator token kind (matchBinaryOperator operators))
    (hm : s.rest.length < m) (ho : s.overrun = false) :
    Within (parseBinaryLevel p (matchBinaryOperator operators)) s (CutOff whole (loads s.rest))
      fun _ _ => True := by
  refine Within.bind ((hp s hm ho).mono hlevel.first fun _ _ h => h) ?_
  rintro left s1 ho1 ⟨d, ids, hprogress⟩
  have hlength := hprogress.length
  have hloop : Within (loop left (nextOperand p (matchBinaryOperator operators))) s1
      (CutOff rest (loads s1.rest)) fun _ _ => True := by
    refine within_loop (m := m) (fun left s2 hm2 ho2 => ?_) left (by omega) ho1
    apply Within.atEnd
    by_cases hend : s2.rest.isEmpty = true
    · simp only [hend, if_true]
      exact .pure ho2 fun _ h => by cases h
    simp only [hend]
    refine Within.cursor (fun hnil => hend (by rw [hnil]; rfl)) fun t => ?_
    refine Within.bind ((within_matchBinaryOperator operators ho2).meets (hop s2)) ?_
    rintro r s3 ho3 (⟨rfl, rfl⟩ | ⟨op, rfl, hp3⟩)
    · exact .pure ho3 fun _ h => by cases h
    refine Within.bind (within_allocateNode _ ho3) fun id s4 ho4 hp4 => ?_
    have htook := (hp3.trans hp4).took
    have hlength4 := (hp3.trans hp4).length
    simp only [List.append_nil, List.singleton_append, List.length_cons] at htook hlength4
    refine Within.bind ((hp s4 (by omega) ho4).mono (fun hcut => ?_) fun _ _ h => h) ?_
    · rw [htook]
      exact hlevel.next op hcut
    rintro right s5 ho5 ⟨d5, ids5, hp5⟩
    have hlength5 := hp5.length
    refine Within.pure ho5 fun left' _ => ⟨by omega, fun hcut => ?_⟩
    rw [htook, hp5.took]
    exact hlevel.after op d5 hcut
  refine hloop.mono (fun hcut => ?_) fun _ _ h => h
  rw [hprogress.took]
  exact hlevel.more d hcut

/-! ### Case expressions -/

variable {m : Nat} {self : Parser Expression}

theorem within_parseBranch (hself : Guards .Expression m self) (hm : s.rest.length < m)
    (ho : s.overrun = false) :
    Within (parseBranch self) s (CutOff .Branch (loads s.rest)) fun _ _ => True := by
  by_cases hend : s.rest = []
  · obtain ⟨rest, positions, overrun⟩ := s
    simp only at hend
    subst hend
    -- the position is read, and there is no pattern
    exact fun _ => .branch
  refine Within.cursor hend fun t => ?_
  refine Within.bind (within_parsePattern ho) ?_
  rintro pattern s1 ho1 ⟨d, ids, hp1⟩
  refine Within.bind (within_expectEmpty _ ho1) fun _ s2 ho2 hp2 => ?_
  refine Within.bind (within_expectEmpty _ ho2) fun _ s3 ho3 hp3 => ?_
  have hp := (hp1.trans hp2).trans hp3
  have hlength := hp.length
  refine Within.bind ((hself s3 (by omega) ho3).mono (fun hcut => ?_) fun _ _ h => h)
    fun body s4 ho4 _ => ?_
  · rw [hp.took]
    simpa using CutOff.branchBody d hcut
  refine Within.bind (within_expectEmpty _ ho4) fun _ s5 ho5 _ => ?_
  exact Within.bind (within_allocateNode _ ho5) fun id s6 ho6 _ => .pure ho6 trivial

theorem guards_parseBranch (hself : Guards .Expression m self)
    (hderives : SelfDerives m self) : Guards .Branch m (parseBranch self) :=
  Guards.of_derives (fun s hm => meets_parseBranch hderives s hm) fun _ hm ho =>
    within_parseBranch hself hm ho

theorem within_branches (hself : Guards .Expression m self) (hderives : SelfDerives m self)
    (branches : List Branch) (hm : s.rest.length < m) (ho : s.overrun = false) :
    Within (loop branches (nextBranch self)) s (CutOff .Branches (loads s.rest))
      fun _ _ => True := by
  refine within_loop (m := m) (fun bs s1 hm1 ho1 => ?_) branches hm ho
  refine Within.check (Within.atEnd ?_)
  by_cases hmore : (!sees (Empty .RightBrace) s1 && !s1.rest.isEmpty) = true
  · simp only [hmore, if_true]
    have hne : loads s1.rest ≠ [] := by
      intro hnil
      rw [List.map_eq_nil_iff.mp hnil] at hmore
      simp at hmore
    refine Within.bind ((guards_parseBranch hself hderives s1 hm1 ho1).mono
      (fun hcut => .nextBranch hcut hne) fun _ _ h => h) ?_
    rintro b s2 ho2 ⟨d, ids, hp⟩
    have hlength := hp.length
    refine Within.pure ho2 fun bs' _ => ⟨by omega, fun hcut => ?_⟩
    rw [hp.took]
    exact .afterBranch d hcut
  · simp only [hmore]
    exact .pure ho1 fun _ h => by cases h

theorem within_parseCaseExpression (hself : Guards .Expression m self)
    (hderives : SelfDerives m self) (hm : s.rest.length ≤ m) (ho : s.overrun = false)
    (hne : s.rest ≠ []) :
    Within (parseCaseExpression self) s (CutOff .CaseExpression (loads s.rest))
      fun _ _ => True := by
  refine Within.cursor hne fun t => ?_
  refine Within.bind (within_expectEmpty _ ho) fun _ s1 ho1 hp1 => ?_
  have hlength1 := hp1.length
  simp only [List.length_singleton] at hlength1
  refine Within.bind ((hself s1 (by omega) ho1).mono (fun hcut => ?_) fun _ _ h => h) ?_
  · rw [hp1.took]
    exact .scrutinee hcut
  rintro scrutinee s2 ho2 ⟨e, ids, hp2⟩
  refine Within.bind (within_expectEmpty _ ho2) fun _ s3 ho3 hp3 => ?_
  refine Within.bind (within_expectEmpty _ ho3) fun _ s4 ho4 hp4 => ?_
  have hp := ((hp1.trans hp2).trans hp3).trans hp4
  have hlength4 := hp.length
  simp only [List.length_append, List.length_singleton] at hlength4
  refine Within.bind ((guards_parseBranch hself hderives s4 (by omega) ho4).mono
    (fun hcut => ?_) fun _ _ h => h) ?_
  · rw [hp.took]
    simpa using CutOff.firstBranch e hcut
  rintro first s5 ho5 ⟨b, ids5, hp5⟩
  have hlength5 := hp5.length
  refine Within.bind ((within_branches hself hderives [first] (by omega) ho5).mono
    (fun hcut => ?_) fun _ _ h => h) fun branches s6 ho6 _ => ?_
  · rw [(hp.trans hp5).took]
    simpa using CutOff.moreBranches e b hcut
  refine Within.bind (within_expectEmpty _ ho6) fun _ s7 ho7 _ => ?_
  exact Within.bind (within_allocateNode _ ho7) fun id s8 ho8 _ => .pure ho8 trivial

/-! ### Applications -/

theorem within_parseVariable (ho : s.overrun = false) (hne : s.rest ≠ []) :
    Within parseVariable s B fun _ _ => True := by
  have hname : Within (expectAnyName [LowerVariable, UpperVariable]) s B fun _ _ => True := by
    apply Within.check
    by_cases hlower : sees LowerVariable s = true
    · simp only [hlower, if_true]
      exact within_expect ho
    · simp only [hlower]
      apply Within.check
      by_cases hupper : sees UpperVariable s = true
      · simp only [hupper, if_true]
        exact within_expect ho
      · simp only [hupper]
        exact within_throwExpected _ ho _
  refine Within.cursor hne fun t => Within.bind hname fun name s1 ho1 _ => ?_
  exact Within.bind (within_allocateNode _ ho1) fun id s2 ho2 _ => .pure ho2 trivial

theorem within_parsePrimary (hself : Guards .Expression m self)
    (hderives : SelfDerives m self) (hm : s.rest.length ≤ m) (ho : s.overrun = false) :
    Within (parsePrimary self) s (CutOff .Primary (loads s.rest)) fun _ _ => True := by
  apply Within.check
  by_cases hparen : sees (Empty .LeftParentheses) s = true
  · simp only [hparen, if_true]
    refine Within.bind (within_expectEmpty _ ho) fun _ s1 ho1 hp1 => ?_
    have hlength1 := hp1.length
    simp only [List.length_singleton] at hlength1
    refine Within.bind ((hself s1 (by omega) ho1).mono (fun hcut => ?_) fun _ _ h => h)
      fun e s2 ho2 _ => ?_
    · rw [hp1.took]
      exact .parenthesized hcut
    exact Within.bind (within_expectEmpty _ ho2) fun _ s3 ho3 _ => .pure ho3 trivial
  simp only [hparen]
  apply Within.check
  by_cases hint : sees IntLiteral s = true
  · simp only [hint, if_true]
    refine Within.cursor (ne_nil_of_sees hint) fun t => ?_
    refine Within.bind (within_allocateNode _ ho) fun id s1 ho1 _ => ?_
    exact Within.bind (within_expect ho1) fun value s2 ho2 _ => .pure ho2 trivial
  simp only [hint]
  have hany : checkAny [check LowerVariable, check UpperVariable] s =
      .ok (sees LowerVariable s || sees UpperVariable s) s := by
    rw [checkAny_run _ _ (by simp)]
    simp
  refine Within.of_run hany ?_
  by_cases hvariable : (sees LowerVariable s || sees UpperVariable s) = true
  · simp only [hvariable, if_true]
    have hne : s.rest ≠ [] := by
      rcases Bool.or_eq_true_iff.mp hvariable with h | h
      · exact ne_nil_of_sees h
      · exact ne_nil_of_sees h
    exact within_parseVariable ho hne
  simp only [hvariable]
  apply Within.check
  by_cases hcase : sees (Empty .Case) s = true
  · simp only [hcase, if_true]
    exact (within_parseCaseExpression hself hderives hm ho (ne_nil_of_sees hcase)).mono
      .casePrimary fun _ _ h => h
  · simp only [hcase]
    exact within_throwExpected _ ho _

theorem guards_parsePrimary (hself : Guards .Expression m self)
    (hderives : SelfDerives m self) : Guards .Primary (m + 1) (parsePrimary self) :=
  Guards.of_derives (fun s hm => meets_parsePrimary hderives s (by omega)) fun _ hm ho =>
    within_parsePrimary hself hderives (by omega) ho

theorem within_parseApplication (hself : Guards .Expression m self)
    (hderives : SelfDerives m self) (hm : s.rest.length < m + 1) (ho : s.overrun = false) :
    Within (parseApplication self) s (CutOff .Application (loads s.rest)) fun _ _ => True := by
  have hprimary := guards_parsePrimary hself hderives
  refine Within.bind ((hprimary s hm ho).mono .function fun _ _ h => h) ?_
  rintro f s1 ho1 ⟨d, ids, hp1⟩
  have hlength1 := hp1.length
  have hloop : Within (loop f (nextArgument self)) s1 (CutOff .Arguments (loads s1.rest))
      fun _ _ => True := by
    refine within_loop (m := m + 1) (fun f s2 hm2 ho2 => ?_) f (by omega) ho1
    refine Within.of_run (checkAny_primary s2) ?_
    by_cases hbegins : beginsPrimary (loads s2.rest) = true
    · simp only [hbegins, if_true]
      have hne : s2.rest ≠ [] := by
        intro hnil
        rw [hnil] at hbegins
        cases hbegins
      refine Within.cursor hne fun t => ?_
      refine Within.bind ((hprimary s2 hm2 ho2).mono .nextArgument fun _ _ h => h) ?_
      rintro a s3 ho3 ⟨d3, ids3, hp3⟩
      refine Within.bind (within_allocateNode _ ho3) fun id s4 ho4 hp4 => ?_
      have htook := (hp3.trans hp4).took
      have hlength := (hp3.trans hp4).length
      rw [List.append_nil] at htook
      refine Within.pure ho4 fun f' _ => ⟨by omega, fun hcut => ?_⟩
      rw [htook]
      exact .afterArgument d3 hcut
    · simp only [hbegins]
      exact .pure ho2 fun _ h => by cases h
  refine hloop.mono (fun hcut => ?_) fun _ _ h => h
  rw [hp1.took]
  exact .arguments d hcut

theorem guards_parseFactor (hself : Guards .Expression m self)
    (hderives : SelfDerives m self) : Guards .Factor (m + 1) (parseFactor self) :=
  Guards.of_derives (fun s hm => meets_parseFactor hderives s (by omega)) fun _ hm ho =>
    (within_parseApplication hself hderives hm ho).mono .application fun _ _ h => h

theorem guards_parseTerm (hself : Guards .Expression m self)
    (hderives : SelfDerives m self) : Guards .Term (m + 1) (parseTerm self) :=
  Guards.of_derives (fun s hm => meets_parseTerm hderives s (by omega)) fun _ hm ho =>
    within_parseBinaryLevel cutLevel_product (guards_parseFactor hself hderives)
      matchesOperator_product hm ho

theorem guards_parseExpressionWithin (n : Nat) :
    Guards .Expression n (parseExpressionWithin n) := by
  induction n with
  | zero => exact fun s hm => absurd hm (Nat.not_lt_zero _)
  | succ n ih =>
    refine Guards.of_derives (selfDerives_parseExpressionWithin (n + 1)) fun _ hm ho => ?_
    exact within_parseBinaryLevel cutLevel_sum
      (guards_parseTerm ih (selfDerives_parseExpressionWithin n)) matchesOperator_sum hm ho

theorem within_parseExpression (ho : s.overrun = false) :
    Within parseExpression s (CutOff .Expression (loads s.rest)) fun _ _ => True := by
  have h := (guards_parseExpressionWithin (s.rest.length + 1) s (by omega) ho).mono id
    fun _ _ _ => trivial
  unfold Within at h ⊢
  unfold parseExpression
  exact h

/-! ### Definitions -/

theorem within_parseConstructor (ho : s.overrun = false) :
    Within parseConstructor s (CutOff .Constructor (loads s.rest)) fun _ s' =>
      ∃ (d : Tree .Constructor) (ids : List NodeId), Progress s s' d.yield ids := by
  have hquiet : Within parseConstructor s (CutOff .Constructor (loads s.rest))
      fun _ _ => True := by
    by_cases hend : s.rest = []
    · obtain ⟨rest, positions, overrun⟩ := s
      simp only at hend
      subst hend
      -- the position is read, and there is no name
      exact fun _ => .constructor
    refine Within.cursor hend fun t => ?_
    refine Within.bind (within_expectName holdsName_upper ho) fun name s1 ho1 _ => ?_
    refine Within.bind (within_parseNamesWhile holdsName_upper ho1) fun fields s2 ho2 _ => ?_
    exact Within.bind (within_allocateNode _ ho2) fun id s3 ho3 _ => .pure ho3 trivial
  refine (hquiet.meets (meets_parseConstructor s)).mono id ?_
  rintro c s' ⟨d, hp, _⟩
  exact ⟨d, _, hp⟩

theorem within_parseFunctionDefinition (ho : s.overrun = false) (hne : s.rest ≠ []) :
    Within parseFunctionDefinition s (CutOff .Definition (loads s.rest)) fun _ _ => True := by
  refine Within.cursor hne fun t => ?_
  refine Within.bind (within_expectEmpty _ ho) fun _ s1 ho1 hp1 => ?_
  refine Within.bind (within_expectName holdsName_lower ho1) fun name s2 ho2 hp2 => ?_
  refine Within.bind (within_parseNamesWhile holdsName_lower ho2) fun parameters s3 ho3 hp3 => ?_
  refine Within.bind (within_expectEmpty _ ho3) fun _ s4 ho4 hp4 => ?_
  refine Within.bind (within_expectEmpty _ ho4) fun _ s5 ho5 hp5 => ?_
  have hp := (((hp1.trans hp2).trans hp3).trans hp4).trans hp5
  refine Within.bind ((within_parseExpression ho5).mono (fun hcut => ?_) fun _ _ h => h)
    fun body s6 ho6 _ => ?_
  · rw [hp.took]
    simpa using CutOff.functionBody name parameters hcut
  refine Within.bind (within_expectEmpty _ ho6) fun _ s7 ho7 _ => ?_
  exact Within.bind (within_allocateNode _ ho7) fun id s8 ho8 _ => .pure ho8 trivial

theorem within_constructors (constructors : List Constructor) (ho : s.overrun = false) :
    Within (loop constructors nextConstructor) s (CutOff .Constructors (loads s.rest))
      fun _ _ => True := by
  refine within_loop (m := s.rest.length + 1) (fun cs s1 hm1 ho1 => ?_) constructors (by omega) ho
  have hcomma : Within (matchToken (Empty .Comma)) s1 (CutOff .Constructors (loads s1.rest))
      fun matched s' => matched = true → Progress s1 s' [.Comma] [] := by
    refine (within_matchToken ho1).meets (meets_matchToken _ s1 _ (fun _ h => by cases h) ?_)
    intro load s' hl hp _
    obtain rfl : load = .Comma := by
      by_contra hne
      simp [Empty, hne] at hl
    exact hp
  refine Within.bind hcomma fun matched s2 ho2 hp => ?_
  cases matched with
  | false => exact .pure ho2 fun _ h => by cases h
  | true =>
    have hp2 := hp rfl
    refine Within.bind ((within_parseConstructor ho2).mono (fun hcut => ?_) fun _ _ h => h) ?_
    · rw [hp2.took]
      exact .nextConstructor hcut
    rintro c s3 ho3 ⟨d, ids, hp3⟩
    have hlength := (hp2.trans hp3).length
    refine Within.pure ho3 fun cs' _ => ⟨by omega, fun hcut => ?_⟩
    rw [(hp2.trans hp3).took]
    simpa using CutOff.afterConstructor d hcut

theorem within_parseDataTypeDefinition (ho : s.overrun = false) (hne : s.rest ≠ []) :
    Within parseDataTypeDefinition s (CutOff .Definition (loads s.rest)) fun _ _ => True := by
  refine Within.cursor hne fun t => ?_
  refine Within.bind (within_expectEmpty _ ho) fun _ s1 ho1 hp1 => ?_
  refine Within.bind (within_expectName holdsName_upper ho1) fun name s2 ho2 hp2 => ?_
  refine Within.bind (within_expectEmpty _ ho2) fun _ s3 ho3 hp3 => ?_
  refine Within.bind (within_expectEmpty _ ho3) fun _ s4 ho4 hp4 => ?_
  have hp := ((hp1.trans hp2).trans hp3).trans hp4
  refine Within.bind ((within_parseConstructor ho4).mono (fun hcut => ?_) fun _ _ h => h) ?_
  · rw [hp.took]
    simpa using CutOff.firstConstructor name hcut
  rintro first s5 ho5 ⟨c, ids, hp5⟩
  refine Within.bind ((within_constructors [first] ho5).mono (fun hcut => ?_) fun _ _ h => h)
    fun constructors s6 ho6 _ => ?_
  · rw [(hp.trans hp5).took]
    simpa using CutOff.moreConstructors name c hcut
  refine Within.bind (within_expectEmpty _ ho6) fun _ s7 ho7 _ => ?_
  exact Within.bind (within_allocateNode _ ho7) fun id s8 ho8 _ => .pure ho8 trivial

theorem within_parseDefinition (ho : s.overrun = false) :
    Within parseDefinition s (CutOff .Definition (loads s.rest)) fun _ s' =>
      ∃ (d : Tree .Definition) (ids : List NodeId), Progress s s' d.yield ids := by
  have hlooks : Within parseDefinition s (CutOff .Definition (loads s.rest)) fun _ _ => True := by
    apply Within.check
    by_cases hfunction : sees (Empty .Function) s = true
    · simp only [hfunction, if_true]
      exact Within.bind (within_parseFunctionDefinition ho (ne_nil_of_sees hfunction))
        fun fd s1 ho1 _ => .pure ho1 trivial
    simp only [hfunction]
    apply Within.check
    by_cases hdata : sees (Empty .Data) s = true
    · simp only [hdata, if_true]
      exact Within.bind (within_parseDataTypeDefinition ho (ne_nil_of_sees hdata))
        fun dt s1 ho1 _ => .pure ho1 trivial
    · simp only [hdata]
      exact within_throwExpected _ ho _
  refine (hlooks.meets (meets_parseDefinition s)).mono id ?_
  rintro def' s' ⟨d, hp, _⟩
  exact ⟨d, _, hp⟩

theorem within_parseProgram (ho : s.overrun = false) :
    Within parseProgram s (CutOff .Program (loads s.rest)) fun _ _ => True := by
  refine within_loop (m := s.rest.length + 1) (fun program s1 hm1 ho1 => ?_)
    (⟨[]⟩ : Program) (by omega) ho
  apply Within.atEnd
  by_cases hend : s1.rest.isEmpty = true
  · simp only [hend, if_true]
    exact .pure ho1 fun _ h => by cases h
  simp only [hend]
  refine Within.bind ((within_parseDefinition ho1).mono .definition fun _ _ h => h) ?_
  rintro def' s2 ho2 ⟨d, ids, hp⟩
  have hlength := hp.length
  refine Within.pure ho2 fun program' _ => ⟨by omega, fun hcut => ?_⟩
  rw [hp.took]
  exact .afterDefinition d hcut

/-! ## The parser -/

/-- The state in which the parser returns or throws. -/
def endState (tokens : TokenVector) : ParserState :=
  match parseProgram ⟨tokens.tokens, [], false⟩ with
  | .ok _ s => s
  | .error _ s => s

/-- Every access through the cursor is made while `it_ != end_`. -/
def StaysInside (tokens : TokenVector) : Prop := (endState tokens).overrun = false

theorem not_staysInside_of_cutOff {tokens : TokenVector}
    (h : CutOff .Program (loads tokens.tokens)) : ¬ StaysInside tokens := by
  have hfits := tokens.fits
  have hpast : Overruns parseProgram (loads tokens.tokens) (2 * (loads tokens.tokens).length) :=
    Overruns.loop fun k hk => goesPast h k [] hk
  obtain ⟨e, s', hthrow, ho⟩ := hpast ⟨tokens.tokens, [], false⟩ rfl (by
    unfold maxTokens at hfits
    unfold kInvalidNodeId
    simp only [loads, List.length_map, List.length_nil]
    omega)
  unfold StaysInside endState
  rw [hthrow]
  simp [ho]

/-- The parser stays inside its input just when the input is not cut off where
a constructor or the first branch of a case expression is due. -/
theorem parse_staysInside (tokens : TokenVector) :
    StaysInside tokens ↔ ¬ CutOff .Program (loads tokens.tokens) := by
  constructor
  · exact fun h hcut => not_staysInside_of_cutOff hcut h
  · intro hnot
    have hwithin := within_parseProgram (s := ⟨tokens.tokens, [], false⟩) rfl
    unfold Within at hwithin
    unfold StaysInside endState
    cases hp : parseProgram ⟨tokens.tokens, [], false⟩ with
    | ok program s =>
      rw [hp] at hwithin
      exact hwithin.1
    | error e s =>
      rw [hp] at hwithin
      exact Bool.eq_false_iff.mpr fun ho => hnot (hwithin ho)

/-- `data A = {`. -/
def dataTokens : TokenVector :=
  ⟨[.Data, .UpperVariable "A", .Equal, .LeftBrace].map fun load => ⟨load, ⟨1, 1, 1, 1⟩⟩, by decide⟩

/-- The position of the constructor that is due is read at the end. -/
theorem parse_staysInside_data : ¬ StaysInside dataTokens := by
  unfold StaysInside
  decide

end mf.parsing
