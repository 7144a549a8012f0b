-- Token lists that end where the parser reads on without a look: where a
-- constructor of a data type is due, or the first branch of a case expression.
-- On each of them the parser goes through the cursor at the end.
import MiniFunctional.ParseComplete

open mf.util mf.ast mf.tokenization mf.grammar

namespace mf.grammar

/-- What is left of a phrase that is cut off there. In front of the phrase that
the cut is in stand whole phrases. -/
inductive CutOff : Nonterminal → List TokenVariant → Prop
  -- Program = { Definition }
  | definition {w} : CutOff .Definition w → CutOff .Program w
  | afterDefinition (d : Tree .Definition) {w} : CutOff .Program w → CutOff .Program (d.yield ++ w)
  -- FunctionDefinition = "defn", lowerVariable, { lowerVariable }, "=", "{", Expression, "}"
  | functionBody (name : String) (parameters : List String) {w} : CutOff .Expression w →
    CutOff .Definition (.Function :: .LowerVariable name ::
      (parameters.map .LowerVariable ++ .Equal :: .LeftBrace :: w))
  -- DataTypeDefinition = "data", upperVariable, "=", "{", Constructor, { ",", Constructor }, "}"
  | firstConstructor (name : String) {w} : CutOff .Constructor w →
    CutOff .Definition (.Data :: .UpperVariable name :: .Equal :: .LeftBrace :: w)
  | moreConstructors (name : String) (c : Tree .Constructor) {w} : CutOff .Constructors w →
    CutOff .Definition (.Data :: .UpperVariable name :: .Equal :: .LeftBrace :: (c.yield ++ w))
  /-- A cut: there is no constructor. -/
  | constructor : CutOff .Constructor []
  | nextConstructor {w} : CutOff .Constructor w → CutOff .Constructors (.Comma :: w)
  | afterConstructor (c : Tree .Constructor) {w} : CutOff .Constructors w →
    CutOff .Constructors (.Comma :: (c.yield ++ w))
  -- Expression = Term, { ("+" | "-"), Term }
  | firstTerm {w} : CutOff .Term w → CutOff .Expression w
  | moreTerms (t : Tree .Term) {w} : CutOff .Sums w → CutOff .Expression (t.yield ++ w)
  | nextTerm (op : SumOperator) {w} : CutOff .Term w → CutOff .Sums (op.token :: w)
  | afterTerm (op : SumOperator) (t : Tree .Term) {w} : CutOff .Sums w →
    CutOff .Sums (op.token :: (t.yield ++ w))
  -- Term = Factor, { ("*" | "/"), Factor }
  | firstFactor {w} : CutOff .Factor w → CutOff .Term w
  | moreFactors (f : Tree .Factor) {w} : CutOff .Products w → CutOff .Term (f.yield ++ w)
  | nextFactor (op : ProductOperator) {w} : CutOff .Factor w → CutOff .Products (op.token :: w)
  | afterFactor (op : ProductOperator) (f : Tree .Factor) {w} : CutOff .Products w →
    CutOff .Products (op.token :: (f.yield ++ w))
  -- Factor = Application
  | application {w} : CutOff .Application w → CutOff .Factor w
  -- Application = Primary, { Primary }
  | function {w} : CutOff .Primary w → CutOff .Application w
  | arguments (p : Tree .Primary) {w} : CutOff .Arguments w → CutOff .Application (p.yield ++ w)
  | nextArgument {w} : CutOff .Primary w → CutOff .Arguments w
  | afterArgument (p : Tree .Primary) {w} : CutOff .Arguments w → CutOff .Arguments (p.yield ++ w)
  -- Primary = num | lowerVariable | upperVariable | "(", Expression, ")" | CaseExpression
  | parenthesized {w} : CutOff .Expression w → CutOff .Primary (.LeftParentheses :: w)
  | casePrimary {w} : CutOff .CaseExpression w → CutOff .Primary w
  -- CaseExpression = "case", Expression, "of", "{", Branch, { Branch }, "}"
  | scrutinee {w} : CutOff .Expression w → CutOff .CaseExpression (.Case :: w)
  | firstBranch (e : Tree .Expression) {w} : CutOff .Branch w →
    CutOff .CaseExpression (.Case :: (e.yield ++ .Of :: .LeftBrace :: w))
  | moreBranches (e : Tree .Expression) (b : Tree .Branch) {w} : CutOff .Branches w →
    CutOff .CaseExpression (.Case :: (e.yield ++ .Of :: .LeftBrace :: (b.yield ++ w)))
  /-- A cut: there is no branch. -/
  | branch : CutOff .Branch []
  -- Branch = Pattern, "->", "{", Expression, "}"
  | branchBody (p : Tree .Pattern) {w} : CutOff .Expression w →
    CutOff .Branch (p.yield ++ .Arrow :: .LeftBrace :: w)
  /-- Before a later branch the parser looks if there is one. -/
  | nextBranch {w} : CutOff .Branch w → w ≠ [] → CutOff .Branches w
  | afterBranch (b : Tree .Branch) {w} : CutOff .Branches w → CutOff .Branches (b.yield ++ w)

/-! ## Where it begins -/

def CutOffBeginsAs : Nonterminal → List TokenVariant → Prop
  | .Program | .Definition => Begins startsDefinition
  | .Constructor | .Pattern => fun _ => True
  | .Constructors => Begins (· == .Comma)
  | .Sums => Begins isSumOperator
  | .Products => Begins isProductOperator
  | .Expression | .Term | .Factor | .Application | .Arguments | .Primary | .CaseExpression =>
    Begins startsPrimary
  | .Branch => fun ts => ts ≠ [] → Begins startsPattern ts
  | .Branches => Begins startsPattern

theorem CutOff.beginsAs {s : Nonterminal} {ts : List TokenVariant} (h : CutOff s ts) :
    CutOffBeginsAs s ts := by
  induction h with
  | constructor => trivial
  | branch => exact fun h => absurd rfl h
  | definition _ ih | firstTerm _ ih | firstFactor _ ih | application _ ih | function _ ih
  | nextArgument _ ih | casePrimary _ ih => exact ih
  | nextBranch _ hne ih => exact ih hne
  | afterDefinition d _ _ => exact d.beginsAs.append _
  | moreTerms t _ _ => exact t.beginsAs.append _
  | moreFactors f _ _ => exact f.beginsAs.append _
  | arguments p _ _ => exact p.beginsAs.append _
  | afterArgument p _ _ => exact p.beginsAs.append _
  | branchBody p _ _ => exact fun _ => p.beginsAs.append _
  | afterBranch b _ _ => exact b.beginsAs.append _
  | nextTerm op _ _ => cases op <;> exact ⟨_, _, rfl, rfl⟩
  | afterTerm op _ _ _ => cases op <;> exact ⟨_, _, rfl, rfl⟩
  | nextFactor op _ _ => cases op <;> exact ⟨_, _, rfl, rfl⟩
  | afterFactor op _ _ _ => cases op <;> exact ⟨_, _, rfl, rfl⟩
  | functionBody | firstConstructor | moreConstructors | nextConstructor | afterConstructor
  | parenthesized | scrutinee | firstBranch | moreBranches => exact ⟨_, _, rfl, rfl⟩

theorem Begins.stops {s : Nonterminal} {p : TokenVariant → Bool} {ts : List TokenVariant}
    (h : Begins p ts) (hp : ∀ t, p t = true → continues s t = false) : Stops s ts := by
  obtain ⟨t, rest, rfl, ht⟩ := h
  exact (stops_cons s t rest).mpr (hp t ht)

variable {w : List TokenVariant}

theorem CutOff.stops_term (h : CutOff .Sums w) : Stops .Term w :=
  Begins.stops h.beginsAs fun t ht => by cases t <;> simp_all

theorem CutOff.stops_factor (h : CutOff .Products w) : Stops .Factor w :=
  Begins.stops h.beginsAs fun t ht => by cases t <;> simp_all

theorem CutOff.stops_constructor (h : CutOff .Constructors w) : Stops .Constructor w :=
  Begins.stops h.beginsAs fun t ht => by cases t <;> simp_all

end mf.grammar

namespace mf.parsing

variable {α β γ : Type} {w ts : List TokenVariant} {m n k : Nat}

/-! ## Runs that go past the end -/

/-- On the tokens `ts` and no more, `p` goes through the cursor at the end and
throws, as long as there are ids for `n` nodes. -/
def Overruns (p : Parser α) (ts : List TokenVariant) (n : Nat) : Prop :=
  ∀ s, loads s.rest = ts → s.positions.length + n ≤ kInvalidNodeId →
    ∃ e s', p s = .error e s' ∧ s'.overrun = true

theorem Overruns.mono {p : Parser α} (h : Overruns p ts n) (hle : n ≤ m) : Overruns p ts m :=
  fun s hs hn => h s hs (by omega)

/-- What comes after the throw does not run. -/
theorem Overruns.bind {p : Parser α} {f : α → Parser β} (h : Overruns p ts n) :
    Overruns (p >>= f) ts n := by
  intro s hs hn
  obtain ⟨e, s', hp, ho⟩ := h s hs hn
  refine ⟨e, s', ?_, ho⟩
  rw [bind_run, hp]

theorem Overruns.after {p : Parser α} {f : α → Parser β} {u : List TokenVariant} {S : α → Prop}
    (hp : Accepts p u w m S) (hf : ∀ a, S a → Overruns (f a) w n) (hle : m + n ≤ k) :
    Overruns (p >>= f) (u ++ w) k := by
  intro s hs hk
  obtain ⟨a, s1, hrun, hrest, hlength, ha⟩ := hp s hs (by omega)
  obtain ⟨e, s', hthrow, ho⟩ := hf a ha s1 hrest (by omega)
  refine ⟨e, s', ?_, ho⟩
  rw [bind_run, hrun]
  exact hthrow

theorem Overruns.look {p : Parser α} {f : α → Parser β} {b : α}
    (hp : ∀ s, loads s.rest = ts → p s = .ok b s) (hf : Overruns (f b) ts n) :
    Overruns (p >>= f) ts n := by
  intro s hs hn
  obtain ⟨e, s', hthrow, ho⟩ := hf s hs hn
  exact ⟨e, s', by rw [bind_run, hp s hs]; exact hthrow, ho⟩

theorem Overruns.check {T : Alternative α} {f : Bool → Parser β}
    (h : Overruns (f (headSees T ts)) ts n) : Overruns (check T >>= f) ts n := by
  refine Overruns.look (fun s hs => ?_) h
  rw [check_run, sees_eq_headSees, hs]

theorem Overruns.atEnd {f : Bool → Parser β} (h : Overruns (f ts.isEmpty) ts n) :
    Overruns (atEnd >>= f) ts n := by
  refine Overruns.look (fun s hs => ?_) h
  rw [atEnd_run, ← hs, List.isEmpty_map]

theorem Overruns.cursor {f : Token → Parser β} (h : ∀ t, Overruns (f t) ts n) :
    Overruns (cursor >>= f) ts n := by
  intro s hs hn
  obtain ⟨rest, positions, overrun⟩ := s
  cases rest with
  | nil => exact h ⟨.Comma, ⟨0, 0, 0, 0⟩⟩ ⟨[], positions, true⟩ hs hn
  | cons t rest => exact h t ⟨t :: rest, positions, overrun⟩ hs hn

theorem Overruns.expect {T : Alternative α} {f : α → Parser β} {load : TokenVariant} {a : α}
    (hT : T load = some a) (h : Overruns (f a) w n) :
    Overruns (expect T >>= f) (load :: w) n := by
  have hone : Accepts (parsing.expect T) [load] w 0 (· = a) := by
    have h' : Accepts (parsing.expect T >>= Pure.pure) [load] w 0 (· = a) :=
      Accepts.expect hT (Accepts.pure rfl)
    rwa [bind_pure] at h'
  refine Overruns.after hone (fun b hb => ?_) (Nat.le_of_eq (Nat.zero_add n))
  rwa [hb]

theorem Overruns.expectEmpty {f : Unit → Parser β} {load : TokenVariant}
    (h : Overruns (f ()) w n) : Overruns (parsing.expect (Empty load) >>= f) (load :: w) n :=
  Overruns.expect (by simp [Empty]) h

theorem Overruns.checkAny {cs : List (Parser Bool)} {f : Bool → Parser β}
    {g : List TokenVariant → Bool} (hg : ∀ s, parsing.checkAny cs s = .ok (g (loads s.rest)) s)
    (h : Overruns (f (g ts)) ts n) : Overruns (parsing.checkAny cs >>= f) ts n := by
  refine Overruns.look (fun s hs => ?_) h
  rw [hg, hs]

theorem overruns_allocate (position : Position) {f : NodeId → Parser β}
    (h : ∀ id, Overruns (f id) ts n) : Overruns (allocateNode position >>= f) ts (n + 1) := by
  intro s hs hn
  obtain ⟨e, s', hthrow, ho⟩ := h s.positions.length
    { s with positions := s.positions ++ [position] } hs
    (by simp only [List.length_append, List.length_singleton]; omega)
  refine ⟨e, s', ?_, ho⟩
  rw [bind_run, allocateNode_run, if_neg (by omega)]
  exact hthrow

theorem Overruns.loop {step : β → Parser (β ⊕ γ)} {b : β}
    (h : ∀ k, ts.length < k → Overruns (iterate step k b) ts n) : Overruns (loop b step) ts n := by
  intro s hs hn
  have hlength := congrArg List.length hs
  simp only [loads, List.length_map] at hlength
  exact h (s.rest.length + 1) (by omega) s hs hn

/-- The turn throws. -/
theorem Overruns.turn {step : β → Parser (β ⊕ γ)} {b : β} (hk : ts.length < k)
    (h : Overruns (step b) ts n) : Overruns (iterate step k b) ts n := by
  obtain ⟨k, rfl⟩ : ∃ j, k = j + 1 := ⟨k - 1, by omega⟩
  rw [iterate]
  exact h.bind

/-- A turn that goes on, and a later one throws. -/
theorem Overruns.laterTurn {step : β → Parser (β ⊕ γ)} {b : β} {u : List TokenVariant} {l : Nat}
    {S : β → Prop} (hk : (u ++ w).length < k) (hu : u ≠ [])
    (hs : Accepts (step b) u w m fun r => ∃ b', r = .inl b' ∧ S b')
    (hw : ∀ b' k', S b' → w.length < k' → Overruns (iterate step k' b') w n) (hle : m + n ≤ l) :
    Overruns (iterate step k b) (u ++ w) l := by
  obtain ⟨k, rfl⟩ : ∃ j, k = j + 1 := ⟨k - 1, by omega⟩
  rw [iterate]
  refine Overruns.after hs (fun r hr => ?_) hle
  obtain ⟨b', rfl, hb⟩ := hr
  have hpos := List.length_pos_iff.mpr hu
  rw [List.length_append] at hk
  exact hw b' k hb (by omega)

/-! ## The parse functions -/

/-- The parse function of the nonterminal goes past the end of the tokens. -/
def GoesPast : Nonterminal → List TokenVariant → Prop
  | .Program, ts => ∀ k definitions, ts.length < k →
    Overruns (iterate nextDefinition k ⟨definitions⟩) ts (2 * ts.length)
  | .Definition, ts => Overruns parseDefinition ts (2 * ts.length)
  | .Constructor, ts => Overruns parseConstructor ts (2 * ts.length)
  | .Constructors, ts => ∀ k cs, ts.length < k →
    Overruns (iterate nextConstructor k cs) ts (2 * ts.length)
  | .Expression, ts => ∀ n, ts.length < n → Overruns (parseExpressionWithin n) ts (2 * ts.length)
  | .Sums, ts => ∀ n k left, ts.length ≤ n → ts.length < k →
    Overruns (iterate (nextOperand (parseTerm (parseExpressionWithin n))
      (matchBinaryOperator [(.Plus, Addition), (.Minus, Subtraction)])) k left) ts (2 * ts.length)
  | .Term, ts => ∀ n, ts.length ≤ n →
    Overruns (parseTerm (parseExpressionWithin n)) ts (2 * ts.length)
  | .Products, ts => ∀ n k left, ts.length ≤ n → ts.length < k →
    Overruns (iterate (nextOperand (parseFactor (parseExpressionWithin n))
      (matchBinaryOperator [(.Star, Multiplication), (.Slash, Division)])) k left) ts
      (2 * ts.length)
  | .Factor, ts => ∀ n, ts.length ≤ n →
    Overruns (parseFactor (parseExpressionWithin n)) ts (2 * ts.length)
  | .Application, ts => ∀ n, ts.length ≤ n →
    Overruns (parseApplication (parseExpressionWithin n)) ts (2 * ts.length)
  | .Arguments, ts => ∀ n k f, ts.length ≤ n → ts.length < k →
    Overruns (iterate (nextArgument (parseExpressionWithin n)) k f) ts (2 * ts.length)
  | .Primary, ts => ∀ n, ts.length ≤ n →
    Overruns (parsePrimary (parseExpressionWithin n)) ts (2 * ts.length)
  | .CaseExpression, ts => ∀ n, ts.length ≤ n →
    Overruns (parseCaseExpression (parseExpressionWithin n)) ts (2 * ts.length)
  | .Branch, ts => ∀ n, ts.length ≤ n →
    Overruns (parseBranch (parseExpressionWithin n)) ts (2 * ts.length)
  | .Branches, ts => ∀ n k bs, ts.length ≤ n → ts.length < k →
    Overruns (iterate (nextBranch (parseExpressionWithin n)) k bs) ts (2 * ts.length)
  -- a pattern is never cut off
  | .Pattern, _ => False

/-! ### Operators -/

/-- The right operand is cut off. -/
theorem overruns_nextOperand {operand : Parser Expression}
    {operator : Parser (Option BinaryOperatorFactory)} {op : TokenVariant}
    {factory : BinaryOperatorFactory} (left : Expression) (hk : (op :: w).length < k)
    (hop : Accepts operator [op] w 0 (· = some factory))
    (hand : Overruns operand w (2 * w.length)) :
    Overruns (iterate (nextOperand operand operator) k left) (op :: w)
      (2 * (op :: w).length) := by
  apply Overruns.turn hk
  unfold nextOperand
  apply Overruns.atEnd
  simp only [List.isEmpty_cons, Bool.false_eq_true, if_false]
  refine Overruns.cursor fun t => ?_
  refine Overruns.after (u := [op]) (n := 2 * w.length + 1) hop (fun r hr => ?_)
    (by simp only [List.length_cons]; omega)
  subst hr
  exact overruns_allocate _ fun id => hand.bind

/-- What is after the right operand is cut off. -/
theorem overruns_laterOperand {operand : Parser Expression}
    {operator : Parser (Option BinaryOperatorFactory)} {op : TokenVariant}
    {factory : BinaryOperatorFactory} {u : List TokenVariant} {R : Expression → Prop}
    (left : Expression) (hk : (op :: (u ++ w)).length < k)
    (hop : Accepts operator [op] (u ++ w) 0 (· = some factory))
    (hand : Accepts operand u w m R) (hm : m ≤ 2 * u.length)
    (hw : ∀ left' k', w.length < k' →
      Overruns (iterate (nextOperand operand operator) k' left') w (2 * w.length)) :
    Overruns (iterate (nextOperand operand operator) k left) (op :: (u ++ w))
      (2 * (op :: (u ++ w)).length) := by
  refine Overruns.laterTurn (u := op :: u) (m := m + 1) (S := fun _ => True) hk (by simp) ?_
    (fun left' k' _ hk' => hw left' k' hk')
    (by simp only [List.length_cons, List.length_append]; omega)
  unfold nextOperand
  apply Accepts.atEnd
  simp only [List.cons_append, List.isEmpty_cons, Bool.false_eq_true, if_false]
  refine Accepts.cursor fun t => ?_
  rw [show m + 1 = 0 + (m + 1) by omega]
  refine Accepts.bind (u := [op]) hop fun r hr => ?_
  subst hr
  refine accepts_allocate _ fun id => ?_
  exact Accepts.map hand fun right _ => ⟨_, rfl, trivial⟩

theorem goesPast_nextTerm (op : SumOperator) (ih : GoesPast .Term w) :
    GoesPast .Sums (op.token :: w) := by
  intro n k left hn hk
  simp only [List.length_cons] at hn
  exact overruns_nextOperand left hk (accepts_sumOperator op w) (ih n (by omega))

theorem goesPast_afterTerm (op : SumOperator) (t : Tree .Term) (h : CutOff .Sums w)
    (ih : GoesPast .Sums w) : GoesPast .Sums (op.token :: (t.yield ++ w)) := by
  intro n k left hn hk
  simp only [List.length_cons, List.length_append] at hn
  have hnodes := nodes_le t
  exact overruns_laterOperand left hk (accepts_sumOperator op _)
    (accepted t w n h.stops_term (by simp only [List.length_append]; omega)) (by omega)
    fun left' k' hk' => ih n k' left' (by omega) hk'

theorem goesPast_nextFactor (op : ProductOperator) (ih : GoesPast .Factor w) :
    GoesPast .Products (op.token :: w) := by
  intro n k left hn hk
  simp only [List.length_cons] at hn
  exact overruns_nextOperand left hk (accepts_productOperator op w) (ih n (by omega))

theorem goesPast_afterFactor (op : ProductOperator) (f : Tree .Factor) (h : CutOff .Products w)
    (ih : GoesPast .Products w) : GoesPast .Products (op.token :: (f.yield ++ w)) := by
  intro n k left hn hk
  simp only [List.length_cons, List.length_append] at hn
  have hnodes := nodes_le f
  exact overruns_laterOperand left hk (accepts_productOperator op _)
    (accepted f w n h.stops_factor (by simp only [List.length_append]; omega)) (by omega)
    fun left' k' hk' => ih n k' left' (by omega) hk'

theorem goesPast_moreFactors (f : Tree .Factor) (h : CutOff .Products w)
    (ih : GoesPast .Products w) : GoesPast .Term (f.yield ++ w) := by
  intro n hn
  simp only [List.length_append] at hn
  have hnodes := nodes_le f
  refine Overruns.after (accepted f w n h.stops_factor (by simp only [List.length_append]; omega))
    (fun left _ => Overruns.loop fun k hk => ih n k left (by omega) hk) ?_
  simp only [List.length_append]
  omega

theorem goesPast_firstTerm (ih : GoesPast .Term w) : GoesPast .Expression w := by
  intro n hn
  obtain ⟨n, rfl⟩ : ∃ j, n = j + 1 := ⟨n - 1, by omega⟩
  exact Overruns.bind (ih n (by omega))

theorem goesPast_moreTerms (t : Tree .Term) (h : CutOff .Sums w) (ih : GoesPast .Sums w) :
    GoesPast .Expression (t.yield ++ w) := by
  intro n hn
  obtain ⟨n, rfl⟩ : ∃ j, n = j + 1 := ⟨n - 1, by omega⟩
  simp only [List.length_append] at hn
  have hnodes := nodes_le t
  refine Overruns.after (accepted t w n h.stops_term (by simp only [List.length_append]; omega))
    (fun left _ => Overruns.loop fun k hk => ih n k left (by omega) hk) ?_
  simp only [List.length_append]
  omega

/-! ### Applications -/

theorem goesPast_arguments (p : Tree .Primary) (ih : GoesPast .Arguments w) :
    GoesPast .Application (p.yield ++ w) := by
  intro n hn
  simp only [List.length_append] at hn
  have hnodes := nodes_le p
  refine Overruns.after (accepted p w n (by simp only [List.length_append]; omega))
    (fun f _ => Overruns.loop fun k hk => ih n k f (by omega) hk) ?_
  simp only [List.length_append]
  omega

theorem beginsPrimary_of_begins (h : Begins startsPrimary ts) : beginsPrimary ts = true := by
  obtain ⟨t, rest, rfl, ht⟩ := h
  exact ht

theorem goesPast_nextArgument (h : CutOff .Primary w) (ih : GoesPast .Primary w) :
    GoesPast .Arguments w := by
  intro n k f hn hk
  apply Overruns.turn hk
  refine Overruns.checkAny checkAny_primary ?_
  rw [beginsPrimary_of_begins h.beginsAs]
  exact Overruns.cursor fun t => (ih n hn).bind

theorem goesPast_afterArgument (p : Tree .Primary) (ih : GoesPast .Arguments w) :
    GoesPast .Arguments (p.yield ++ w) := by
  intro n k f hn hk
  simp only [List.length_append] at hn
  have hnodes := nodes_le p
  obtain ⟨t, rest, ht, hstart⟩ := p.beginsAs
  have hbegins : beginsPrimary (p.yield ++ w) = true :=
    beginsPrimary_of_begins (Begins.append ⟨t, rest, ht, hstart⟩ w)
  refine Overruns.laterTurn (m := nodes p + 1) (S := fun _ => True) hk (by simp [ht]) ?_
    (fun f' k' _ hk' => ih n k' f' (by omega) hk') ?_
  · refine Accepts.checkAny checkAny_primary ?_
    rw [hbegins]
    refine Accepts.cursor fun t => ?_
    exact Accepts.mapNode (accepted p w n (by simp only [List.length_append]; omega))
      fun a id _ => ⟨_, rfl, trivial⟩
  · simp only [slack] at hnodes
    simp only [List.length_append]
    omega

theorem goesPast_parenthesized (ih : GoesPast .Expression w) :
    GoesPast .Primary (.LeftParentheses :: w) := by
  intro n hn
  simp only [List.length_cons] at hn
  apply Overruns.check
  exact Overruns.mono (Overruns.expectEmpty (ih n (by omega)).bind)
    (by simp only [List.length_cons]; omega)

theorem goesPast_casePrimary (h : CutOff .CaseExpression w) (ih : GoesPast .CaseExpression w) :
    GoesPast .Primary w := by
  intro n hn
  have hcase : ∃ rest, w = .Case :: rest := by
    cases h with
    | scrutinee _ => exact ⟨_, rfl⟩
    | firstBranch e _ => exact ⟨_, rfl⟩
    | moreBranches e b _ => exact ⟨_, rfl⟩
  obtain ⟨rest, rfl⟩ := hcase
  apply Overruns.check
  apply Overruns.check
  refine Overruns.look (b := false) (fun s hs => ?_) (Overruns.check (ih n hn))
  rw [checkAny_run _ _ (by simp)]
  simp [sees_eq_headSees, hs, LowerVariable, UpperVariable]

/-! ### Case expressions -/

theorem goesPast_scrutinee (ih : GoesPast .Expression w) :
    GoesPast .CaseExpression (.Case :: w) := by
  intro n hn
  simp only [List.length_cons] at hn
  refine Overruns.cursor fun t => ?_
  exact Overruns.mono (Overruns.expectEmpty (ih n (by omega)).bind)
    (by simp only [List.length_cons]; omega)

theorem goesPast_firstBranch (e : Tree .Expression) (ih : GoesPast .Branch w) :
    GoesPast .CaseExpression (.Case :: (e.yield ++ .Of :: .LeftBrace :: w)) := by
  intro n hn
  simp only [List.length_cons, List.length_append] at hn
  have hnodes := nodes_le e
  refine Overruns.cursor fun t => Overruns.expectEmpty ?_
  refine Overruns.after (accepted e _ n (by simp)
    (by simp only [List.length_append, List.length_cons]; omega)) (fun scrutinee _ =>
      Overruns.expectEmpty (Overruns.expectEmpty (ih n (by omega)).bind)) ?_
  simp only [List.length_cons, List.length_append]
  omega

theorem goesPast_moreBranches (e : Tree .Expression) (b : Tree .Branch)
    (ih : GoesPast .Branches w) :
    GoesPast .CaseExpression (.Case :: (e.yield ++ .Of :: .LeftBrace :: (b.yield ++ w))) := by
  intro n hn
  simp only [List.length_cons, List.length_append] at hn
  have hnodes := nodes_le e
  have hnodes' := nodes_le b
  refine Overruns.cursor fun t => Overruns.expectEmpty ?_
  refine Overruns.after (n := nodes b + 2 * w.length) (accepted e _ n (by simp)
    (by simp only [List.length_append, List.length_cons]; omega)) (fun scrutinee _ =>
      Overruns.expectEmpty (Overruns.expectEmpty ?_)) ?_
  · refine Overruns.after (accepted b w n (by simp only [List.length_append]; omega))
      (fun first _ => ?_) (Nat.le_refl _)
    exact (Overruns.loop fun k hk => ih n k [first] (by omega) hk).bind
  · simp only [List.length_cons, List.length_append]
    omega

theorem goesPast_branch : GoesPast .Branch [] := by
  intro n _ s hs _
  obtain ⟨rest, positions, overrun⟩ := s
  cases rest with
  | nil => exact ⟨.expectedGotEndOfInput "pattern", ⟨[], positions, true⟩, rfl, rfl⟩
  | cons t rest => cases hs

theorem goesPast_branchBody (p : Tree .Pattern) (ih : GoesPast .Expression w) :
    GoesPast .Branch (p.yield ++ .Arrow :: .LeftBrace :: w) := by
  intro n hn
  simp only [List.length_cons, List.length_append] at hn
  have hnodes := nodes_le p
  refine Overruns.cursor fun t => ?_
  refine Overruns.after (accepted p _ (by simp)) (fun pattern _ =>
    Overruns.expectEmpty (Overruns.expectEmpty (ih n (by omega)).bind)) ?_
  simp only [List.length_append, List.length_cons]
  omega

theorem headSees_brace_of_begins (h : Begins startsPattern ts) :
    headSees (Empty .RightBrace) ts = false ∧ ts.isEmpty = false := by
  obtain ⟨t, rest, rfl, ht⟩ := h
  constructor
  · cases t <;> simp_all [Empty]
  · rfl

theorem goesPast_nextBranch (h : CutOff .Branch w) (hne : w ≠ []) (ih : GoesPast .Branch w) :
    GoesPast .Branches w := by
  intro n k bs hn hk
  obtain ⟨hbrace, hend⟩ := headSees_brace_of_begins (h.beginsAs hne)
  apply Overruns.turn hk
  refine Overruns.check (Overruns.atEnd ?_)
  rw [hbrace, hend]
  exact (ih n hn).bind

theorem goesPast_afterBranch (b : Tree .Branch) (ih : GoesPast .Branches w) :
    GoesPast .Branches (b.yield ++ w) := by
  intro n k bs hn hk
  simp only [List.length_append] at hn
  have hnodes := nodes_le b
  obtain ⟨t, rest, ht, hstart⟩ := b.beginsAs
  obtain ⟨hbrace, hend⟩ := headSees_brace_of_begins (Begins.append ⟨t, rest, ht, hstart⟩ w)
  refine Overruns.laterTurn (m := nodes b) (S := fun _ => True) hk (by simp [ht]) ?_
    (fun bs' k' _ hk' => ih n k' bs' (by omega) hk')
    (by simp only [List.length_append]; omega)
  refine Accepts.check (Accepts.atEnd ?_)
  rw [hbrace, hend]
  exact Accepts.map (accepted b w n (by simp only [List.length_append]; omega))
    fun branch _ => ⟨_, rfl, trivial⟩

/-! ### Definitions -/

theorem goesPast_constructor : GoesPast .Constructor [] := by
  intro s hs _
  obtain ⟨rest, positions, overrun⟩ := s
  cases rest with
  | nil => exact ⟨.unexpectedEndOfInput, ⟨[], positions, true⟩, rfl, rfl⟩
  | cons t rest => cases hs

theorem goesPast_nextConstructor (ih : GoesPast .Constructor w) :
    GoesPast .Constructors (.Comma :: w) := by
  intro k cs hk
  apply Overruns.turn hk
  have hcomma : Accepts (matchToken (Empty .Comma)) [.Comma] w 0 (· = true) := by
    have h : Accepts (matchToken (Empty .Comma) >>= Pure.pure) [.Comma] w 0 (· = true) :=
      Accepts.matchToken_yes rfl (Accepts.pure rfl)
    rwa [bind_pure] at h
  refine Overruns.after (u := [.Comma]) (n := 2 * w.length) hcomma (fun b hb => ?_)
    (by simp only [List.length_cons]; omega)
  subst hb
  exact ih.bind

theorem goesPast_afterConstructor (c : Tree .Constructor) (h : CutOff .Constructors w)
    (ih : GoesPast .Constructors w) : GoesPast .Constructors (.Comma :: (c.yield ++ w)) := by
  intro k cs hk
  have hnodes := nodes_le c
  refine Overruns.laterTurn (u := .Comma :: c.yield) (m := nodes c) (S := fun _ => True) hk
    (by simp) ?_ (fun cs' k' _ hk' => ih k' cs' hk')
    (by simp only [List.length_cons, List.length_append]; omega)
  apply Accepts.matchToken_yes rfl
  exact Accepts.map (accepted c w h.stops_constructor) fun constructor _ => ⟨_, rfl, trivial⟩

theorem goesPast_firstConstructor (name : String) (ih : GoesPast .Constructor w) :
    GoesPast .Definition (.Data :: .UpperVariable name :: .Equal :: .LeftBrace :: w) := by
  have h : Overruns parseDataTypeDefinition
      (.Data :: .UpperVariable name :: .Equal :: .LeftBrace :: w) (2 * w.length) := by
    refine Overruns.cursor fun t => Overruns.expectEmpty (Overruns.expect (a := name) rfl ?_)
    exact Overruns.expectEmpty (Overruns.expectEmpty ih.bind)
  refine Overruns.mono (Overruns.check (Overruns.check h.bind)) ?_
  simp only [List.length_cons]
  omega

theorem goesPast_moreConstructors (name : String) (c : Tree .Constructor)
    (h : CutOff .Constructors w) (ih : GoesPast .Constructors w) :
    GoesPast .Definition
      (.Data :: .UpperVariable name :: .Equal :: .LeftBrace :: (c.yield ++ w)) := by
  have hnodes := nodes_le c
  have h : Overruns parseDataTypeDefinition
      (.Data :: .UpperVariable name :: .Equal :: .LeftBrace :: (c.yield ++ w))
      (nodes c + 2 * w.length) := by
    refine Overruns.cursor fun t => Overruns.expectEmpty (Overruns.expect (a := name) rfl ?_)
    refine Overruns.expectEmpty (Overruns.expectEmpty ?_)
    refine Overruns.after (accepted c w h.stops_constructor) (fun first _ => ?_) (Nat.le_refl _)
    exact (Overruns.loop fun k hk => ih k [first] hk).bind
  refine Overruns.mono (Overruns.check (Overruns.check h.bind)) ?_
  simp only [List.length_cons, List.length_append]
  omega

theorem goesPast_functionBody (name : String) (parameters : List String)
    (ih : GoesPast .Expression w) : GoesPast .Definition (.Function :: .LowerVariable name ::
      (parameters.map .LowerVariable ++ .Equal :: .LeftBrace :: w)) := by
  have hself : Overruns parseExpression w (2 * w.length) := by
    intro s hs hn
    have hlength := congrArg List.length hs
    simp only [loads, List.length_map] at hlength
    exact ih (s.rest.length + 1) (by omega) s hs hn
  have h : Overruns parseFunctionDefinition (.Function :: .LowerVariable name ::
      (parameters.map .LowerVariable ++ .Equal :: .LeftBrace :: w)) (2 * w.length) := by
    refine Overruns.cursor fun t => Overruns.expectEmpty (Overruns.expect (a := name) rfl ?_)
    refine Overruns.after (m := 0) (accepts_parseNamesWhile holdsName_lower parameters rfl)
      (fun names _ => ?_) (Nat.le_of_eq (Nat.zero_add _))
    exact Overruns.expectEmpty (Overruns.expectEmpty hself.bind)
  refine Overruns.mono (Overruns.check h.bind) ?_
  simp only [List.length_cons, List.length_append]
  omega

theorem goesPast_definition (h : CutOff .Definition w) (ih : GoesPast .Definition w) :
    GoesPast .Program w := by
  intro k definitions hk
  obtain ⟨t, rest, hw, _⟩ := h.beginsAs
  have hend : w.isEmpty = false := by
    rw [hw]
    rfl
  apply Overruns.turn hk
  apply Overruns.atEnd
  rw [hend]
  exact Overruns.bind ih

theorem goesPast_afterDefinition (d : Tree .Definition) (ih : GoesPast .Program w) :
    GoesPast .Program (d.yield ++ w) := by
  intro k definitions hk
  have hnodes := nodes_le d
  obtain ⟨t, rest, ht, _⟩ := d.beginsAs
  have hend : (d.yield ++ w).isEmpty = false := by
    rw [ht]
    rfl
  refine Overruns.laterTurn (m := nodes d) (n := 2 * w.length) (S := fun _ => True) hk
    (by simp [ht]) ?_ (fun q k' _ hk' => ?_) (by simp only [List.length_append]; omega)
  · apply Accepts.atEnd
    rw [hend]
    exact Accepts.map (accepted d w) fun def' _ => ⟨_, rfl, trivial⟩
  · obtain ⟨definitions'⟩ := q
    exact ih k' definitions' hk'

theorem goesPast {s : Nonterminal} {ts : List TokenVariant} (h : CutOff s ts) :
    GoesPast s ts := by
  induction h with
  | definition h ih => exact goesPast_definition h ih
  | afterDefinition d _ ih => exact goesPast_afterDefinition d ih
  | functionBody name parameters _ ih => exact goesPast_functionBody name parameters ih
  | firstConstructor name _ ih => exact goesPast_firstConstructor name ih
  | moreConstructors name c h ih => exact goesPast_moreConstructors name c h ih
  | constructor => exact goesPast_constructor
  | nextConstructor _ ih => exact goesPast_nextConstructor ih
  | afterConstructor c h ih => exact goesPast_afterConstructor c h ih
  | firstTerm _ ih => exact goesPast_firstTerm ih
  | moreTerms t h ih => exact goesPast_moreTerms t h ih
  | nextTerm op _ ih => exact goesPast_nextTerm op ih
  | afterTerm op t h ih => exact goesPast_afterTerm op t h ih
  | firstFactor _ ih => exact fun n hn => (ih n hn).bind
  | moreFactors f h ih => exact goesPast_moreFactors f h ih
  | nextFactor op _ ih => exact goesPast_nextFactor op ih
  | afterFactor op f h ih => exact goesPast_afterFactor op f h ih
  | application _ ih => exact ih
  | function _ ih => exact fun n hn => (ih n hn).bind
  | arguments p _ ih => exact goesPast_arguments p ih
  | nextArgument h ih => exact goesPast_nextArgument h ih
  | afterArgument p _ ih => exact goesPast_afterArgument p ih
  | parenthesized _ ih => exact goesPast_parenthesized ih
  | casePrimary h ih => exact goesPast_casePrimary h ih
  | scrutinee _ ih => exact goesPast_scrutinee ih
  | firstBranch e _ ih => exact goesPast_firstBranch e ih
  | moreBranches e b _ ih => exact goesPast_moreBranches e b ih
  | branch => exact goesPast_branch
  | branchBody p _ ih => exact goesPast_branchBody p ih
  | nextBranch h hne ih => exact goesPast_nextBranch h hne ih
  | afterBranch b _ ih => exact goesPast_afterBranch b ih

end mf.parsing
