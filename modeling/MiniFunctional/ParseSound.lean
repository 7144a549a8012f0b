-- What the parser returns is derivable: the tokens it took are the yield of a
-- tree that denotes its result, and the nodes it made are the ids of the
-- result. One rule for each parse function; a bound on the tokens left keeps
-- the model's own fuel out of the errors.
import MiniFunctional.ParserLaws
import MiniFunctional.Unambiguous

open mf.util mf.ast mf.tokenization mf.grammar

namespace mf.parsing

/-- Every run of `p` on fewer than `m` tokens that returns has a derivation
from the nonterminal `nt`. -/
def Derives {α : Type} (nt : Nonterminal) (m : Nat) (p : Parser α) (ids : α → List NodeId)
    (erase : α → Denotation nt) : Prop :=
  ∀ s, s.rest.length < m → Meets p s fun a s' =>
    ∃ d : Tree nt, Progress s s' d.yield (ids a) ∧ erase a = d.denote

/-! ## Names -/

/-- The alternative `T` holds one kind of name. -/
def HoldsName (T : Alternative String) (f : String → TokenVariant) : Prop :=
  ∀ load name, T load = some name ↔ load = f name

theorem holdsName_lower : HoldsName LowerVariable .LowerVariable := by
  intro load name
  cases load <;> simp [LowerVariable]

theorem holdsName_upper : HoldsName UpperVariable .UpperVariable := by
  intro load name
  cases load <;> simp [UpperVariable]

theorem meets_expectName {T : Alternative String} {f : String → TokenVariant}
    (hT : HoldsName T f) (s : ParserState) (Q : String → ParserState → Prop)
    (h : ∀ name s', Progress s s' [f name] [] → Q name s') : Meets (expectName T) s Q := by
  refine meets_expect _ _ _ fun load name s' hl hp => ?_
  rw [hT] at hl
  subst hl
  exact h name s' hp

theorem meets_parseNamesWhile {T : Alternative String} {f : String → TokenVariant}
    (hT : HoldsName T f) (s : ParserState) :
    Meets (parseNamesWhile T) s fun names s' => Progress s s' (names.map f) [] := by
  refine (meets_loop (m := s.rest.length + 1)
    (Q := fun names s c s' => ∃ new, c = names ++ new ∧ Progress s s' (new.map f) [])
    (fun names s _ => ?_) [] s (by omega)).mono ?_
  · simp only [nextName, meets_bind, meets_check]
    split
    · simp only [meets_bind]
      refine meets_expectName hT _ _ fun name s' hp => ?_
      simp only [meets_pure]
      refine ⟨by have := hp.length; simp at this; omega, ?_⟩
      rintro c s'' ⟨new, rfl, hp'⟩
      exact ⟨name :: new, by simp, by simpa using hp.trans hp'⟩
    · exact ⟨[], by simp, Progress.refl _⟩
  · rintro _ s' ⟨new, rfl, hp⟩
    simpa using hp

/-! ## Operators of one level -/

/-- The tokens of `operand (op operand)*`. -/
def levelYield {nt : Nonterminal} {O : Type} (token : O → TokenVariant)
    (rest : List (O × Tree nt)) : List TokenVariant :=
  rest.flatMap fun x => token x.1 :: x.2.yield

/-- `matchOperator` takes one of the operators, or nothing. -/
def MatchesOperator {O : Type} (token : O → TokenVariant) (kind : O → BinaryOperatorKind)
    (p : Parser (Option BinaryOperatorFactory)) : Prop :=
  ∀ s, Meets p s fun r s' =>
    (r = none ∧ s' = s) ∨
    ∃ op, r = some (Expression.BinaryOperator (kind op)) ∧ Progress s s' [token op] []

theorem matchesOperator_sum : MatchesOperator SumOperator.token SumOperator.kind
    (matchBinaryOperator [(.Plus, Addition), (.Minus, Subtraction)]) := by
  intro s
  simp only [matchBinaryOperator, meets_bind]
  refine meets_matchToken _ _ _ (fun _ => ?_) fun load s' hl hp => ?_
  · simp only [meets_bind, Bool.false_eq_true, if_false]
    refine meets_matchToken _ _ _ (fun _ => ?_) fun load s' hl hp => ?_
    · simp
    · simp only [Empty] at hl
      split at hl
      · subst load
        exact Or.inr ⟨.Minus, rfl, hp⟩
      · cases hl
  · simp only [Empty] at hl
    split at hl
    · subst load
      exact Or.inr ⟨.Plus, rfl, hp⟩
    · cases hl

theorem matchesOperator_product : MatchesOperator ProductOperator.token ProductOperator.kind
    (matchBinaryOperator [(.Star, Multiplication), (.Slash, Division)]) := by
  intro s
  simp only [matchBinaryOperator, meets_bind]
  refine meets_matchToken _ _ _ (fun _ => ?_) fun load s' hl hp => ?_
  · simp only [meets_bind, Bool.false_eq_true, if_false]
    refine meets_matchToken _ _ _ (fun _ => ?_) fun load s' hl hp => ?_
    · simp
    · simp only [Empty] at hl
      split at hl
      · subst load
        exact Or.inr ⟨.Slash, rfl, hp⟩
      · cases hl
  · simp only [Empty] at hl
    split at hl
    · subst load
      exact Or.inr ⟨.Star, rfl, hp⟩
    · cases hl

/-- Both levels of operators parse a list of operands, from left to right. -/
theorem meets_parseBinaryLevel {nt : Nonterminal} {O : Type} {token : O → TokenVariant}
    {kind : O → BinaryOperatorKind} {operand : Parser Expression}
    {operator : Parser (Option BinaryOperatorFactory)} {m : Nat}
    (value : Tree nt → Expression) (hop : MatchesOperator token kind operator)
    (hand : ∀ s, s.rest.length < m → Meets operand s fun e s' =>
      ∃ d : Tree nt, Progress s s' d.yield e.ids ∧ e.withoutIds = value d)
    (s : ParserState) (hm : s.rest.length < m) :
    Meets (parseBinaryLevel operand operator) s fun e s' =>
      ∃ (d : Tree nt) (rest : List (O × Tree nt)),
        Progress s s' (d.yield ++ levelYield token rest) e.ids ∧
        e.withoutIds = chain (value d) (rest.map fun x => (kind x.1, value x.2)) := by
  simp only [parseBinaryLevel, meets_bind]
  refine (hand s hm).mono ?_
  rintro left s1 ⟨d, hp, hv⟩
  refine (meets_loop (m := m)
    (Q := fun left s e s' => ∃ (rest : List (O × Tree nt)) (ids : List NodeId),
      Progress s s' (levelYield token rest) ids ∧ e.ids.Perm (left.ids ++ ids) ∧
      e.withoutIds = chain left.withoutIds (rest.map fun x => (kind x.1, value x.2)))
    (fun left s hs => ?_) left s1 (by have := hp.length; omega)).mono ?_
  · simp only [nextOperand, meets_bind, meets_atEnd]
    split
    · exact ⟨[], [], Progress.refl _, by simp, rfl⟩
    simp only [meets_bind]
    refine meets_cursor _ _ fun t overrun _ => ?_
    refine (hop _).mono fun r s2 hr => ?_
    rcases hr with ⟨rfl, rfl⟩ | ⟨op, rfl, hp1⟩
    · exact ⟨[], [], (Progress.refl _).of_overrun, by simp, rfl⟩
    simp only [meets_bind]
    refine meets_allocateNode _ _ _ fun id s3 hp2 => ?_
    have hlen1 := hp1.length
    have hlen2 := hp2.length
    simp only [List.length_cons, List.length_nil] at hlen1 hlen2
    refine (hand s3 (by omega)).mono ?_
    rintro right s4 ⟨d, hp3, hv3⟩
    have hlen3 := hp3.length
    simp only [meets_pure]
    refine ⟨by omega, ?_⟩
    rintro e s5 ⟨rest, ids, hp4, hids, hv4⟩
    refine ⟨(op, d) :: rest, id :: (right.ids ++ ids), ?_, ?_, ?_⟩
    · have := (((hp1.trans hp2).trans hp3).trans hp4).of_overrun
      simpa [levelYield] using this
    · refine hids.trans ?_
      simp only [Expression.ids, List.cons_append, List.append_assoc]
      exact List.perm_middle.symm
    · rw [hv4]
      simp [chain, Expression.withoutIds, hv3]
  · rintro e s2 ⟨rest, ids, hp2, hids, hv2⟩
    exact ⟨d, rest, (hp.trans hp2).perm hids.symm, by rw [hv2, hv]⟩

/-! ## The trees of a repetition, from its list -/

def ofSums : List (SumOperator × Tree .Term) → Tree .Sums
  | [] => .sumsEnd
  | (op, t) :: rest => .nextSum op t (ofSums rest)

def ofProducts : List (ProductOperator × Tree .Factor) → Tree .Products
  | [] => .productsEnd
  | (op, f) :: rest => .nextProduct op f (ofProducts rest)

theorem ofSums_yield (rest : List (SumOperator × Tree .Term)) :
    (ofSums rest).yield = levelYield SumOperator.token rest := by
  induction rest with
  | nil => rfl
  | cons x rest ih => simp [ofSums, levelYield, ih]

theorem ofSums_denote (rest : List (SumOperator × Tree .Term)) :
    (ofSums rest).denote = rest.map fun x => (x.1.kind, (x.2.denote : Expression)) := by
  induction rest with
  | nil => rfl
  | cons x rest ih =>
    simp only [ofSums, Tree.denote, ih]
    rfl

theorem ofProducts_yield (rest : List (ProductOperator × Tree .Factor)) :
    (ofProducts rest).yield = levelYield ProductOperator.token rest := by
  induction rest with
  | nil => rfl
  | cons x rest ih => simp [ofProducts, levelYield, ih]

theorem ofProducts_denote (rest : List (ProductOperator × Tree .Factor)) :
    (ofProducts rest).denote = rest.map fun x => (x.1.kind, (x.2.denote : Expression)) := by
  induction rest with
  | nil => rfl
  | cons x rest ih =>
    simp only [ofProducts, Tree.denote, ih]
    rfl

/-! ## Patterns -/

theorem meets_parsePattern (s : ParserState) : Meets parsePattern s fun p s' =>
    ∃ d : Tree .Pattern, Progress s s' d.yield [p.id] ∧ p.withoutIds = d.denote := by
  simp only [parsePattern, meets_bind, meets_check]
  split
  · simp only [parseVariablePattern, meets_bind]
    refine meets_cursor _ _ fun t overrun _ => ?_
    refine meets_allocateNode _ _ _ fun id s1 hp1 => ?_
    refine meets_expectName holdsName_lower _ _ fun name s2 hp2 => ?_
    exact ⟨.variablePattern name, (hp1.trans hp2).of_overrun, rfl⟩
  · simp only [meets_bind, meets_check]
    split
    · simp only [parseConstructorPattern, meets_bind]
      refine meets_cursor _ _ fun t overrun _ => ?_
      refine meets_allocateNode _ _ _ fun id s1 hp1 => ?_
      refine meets_expectName holdsName_upper _ _ fun name s2 hp2 => ?_
      refine (meets_parseNamesWhile holdsName_lower _).mono fun names s3 hp3 => ?_
      exact ⟨.constructorPattern name names, ((hp1.trans hp2).trans hp3).of_overrun, rfl⟩
    · exact meets_throwExpected _ _ _

/-! ## Expressions

`self` is the parser of the nested expressions, which all start after a token
of the phrase. -/

def SelfDerives (m : Nat) (self : Parser Expression) : Prop :=
  Derives .Expression m self Expression.ids Expression.withoutIds

theorem meets_parseBranch {m : Nat} {self : Parser Expression} (hself : SelfDerives m self)
    (s : ParserState) (hm : s.rest.length < m) : Meets (parseBranch self) s fun b s' =>
    ∃ d : Tree .Branch, Progress s s' d.yield (b.id :: b.pattern.id :: b.body.ids) ∧
      b.withoutIds = d.denote := by
  simp only [parseBranch, meets_bind]
  refine meets_cursor _ _ fun t overrun _ => ?_
  refine (meets_parsePattern _).mono ?_
  rintro p s1 ⟨dp, hp1, hv1⟩
  refine meets_expectEmpty _ _ _ fun s2 hp2 => ?_
  refine meets_expectEmpty _ _ _ fun s3 hp3 => ?_
  have hlen := ((hp1.trans hp2).trans hp3).of_overrun.length
  refine (hself s3 (by omega)).mono ?_
  rintro e s4 ⟨de, hp4, hv4⟩
  refine meets_expectEmpty _ _ _ fun s5 hp5 => ?_
  refine meets_allocateNode _ _ _ fun id s6 hp6 => ?_
  refine ⟨.branch dp de, ?_, ?_⟩
  · have h := (((((hp1.trans hp2).trans hp3).trans hp4).trans hp5).trans hp6).of_overrun
    have h' : Progress s s6 (Tree.branch dp de).yield ((p.id :: e.ids) ++ [id]) := by
      simpa using h
    exact h'.rotate
  · simp [Branch.withoutIds, hv1, hv4]

/-- The loop over the branches after the first. -/
theorem meets_branches {m : Nat} {self : Parser Expression} (hself : SelfDerives m self)
    (bs : List Branch) (s : ParserState) (hm : s.rest.length < m) :
    Meets (loop bs (nextBranch self)) s fun branches s' =>
    ∃ (new : List Branch) (d : Tree .Branches), branches = bs ++ new ∧
      Progress s s' d.yield (idsBranches new) ∧ new.map Branch.withoutIds = d.denote := by
  refine meets_loop (Q := fun bs s branches s' => ∃ (new : List Branch) (d : Tree .Branches),
    branches = bs ++ new ∧ Progress s s' d.yield (idsBranches new) ∧
      new.map Branch.withoutIds = d.denote) (fun bs s hs => ?_) bs s hm
  simp only [nextBranch, meets_bind, meets_check, meets_atEnd]
  split
  · simp only [meets_bind]
    refine (meets_parseBranch hself s hs).mono ?_
    rintro b s1 ⟨d, hp, hv⟩
    simp only [meets_pure]
    refine ⟨?_, ?_⟩
    · have := hp.length
      cases d
      simp at this
      omega
    · rintro branches s2 ⟨new, ds, rfl, hp2, hv2⟩
      refine ⟨b :: new, .nextBranch d ds, by simp, ?_, ?_⟩
      · obtain ⟨id, p, e⟩ := b
        simpa [idsBranches] using hp.trans hp2
      · simp [hv, hv2]
  · exact ⟨[], .branchesEnd, by simp, Progress.refl _, rfl⟩

theorem meets_parseCaseExpression {m : Nat} {self : Parser Expression}
    (hself : SelfDerives m self) (s : ParserState) (hm : s.rest.length ≤ m) :
    Meets (parseCaseExpression self) s fun e s' =>
    ∃ d : Tree .CaseExpression, Progress s s' d.yield e.ids ∧ e.withoutIds = d.denote := by
  simp only [parseCaseExpression, meets_bind]
  refine meets_cursor _ _ fun t overrun _ => ?_
  refine meets_expectEmpty _ _ _ fun s1 hp1 => ?_
  have hlen1 := hp1.length
  simp only [List.length_cons, List.length_nil] at hlen1
  refine (hself s1 (by omega)).mono ?_
  rintro e s2 ⟨de, hp2, hv2⟩
  refine meets_expectEmpty _ _ _ fun s3 hp3 => ?_
  refine meets_expectEmpty _ _ _ fun s4 hp4 => ?_
  have hlen4 := ((hp2.trans hp3).trans hp4).length
  refine (meets_parseBranch hself s4 (by omega)).mono ?_
  rintro b s5 ⟨db, hp5, hv5⟩
  have hlen5 := hp5.length
  refine (meets_branches hself [b] s5 (by omega)).mono ?_
  rintro _ s6 ⟨new, ds, rfl, hp6, hv6⟩
  refine meets_expectEmpty _ _ _ fun s7 hp7 => ?_
  refine meets_allocateNode _ _ _ fun id s8 hp8 => ?_
  refine ⟨.caseExpression de db ds, ?_, ?_⟩
  · have h := (((((((hp1.trans hp2).trans hp3).trans hp4).trans hp5).trans hp6).trans hp7).trans
      hp8).of_overrun
    obtain ⟨bid, bp, be⟩ := b
    have h' : Progress s s8 (Tree.caseExpression de db ds).yield
        ((e.ids ++ idsBranches (⟨bid, bp, be⟩ :: new)) ++ [id]) := by
      simpa [idsBranches] using h
    exact h'.rotate
  · simp only [Expression.withoutIds, withoutIdsBranches_eq, hv2, List.map_cons, hv5, hv6,
      List.singleton_append, Tree.denote]

theorem meets_parseVariable (s : ParserState) : Meets parseVariable s fun e s' =>
    ∃ d : Tree .Primary, Progress s s' d.yield e.ids ∧ e.withoutIds = d.denote := by
  simp only [parseVariable, meets_bind]
  refine meets_cursor _ _ fun t overrun _ => ?_
  simp only [expectAnyName, meets_bind, meets_check]
  split
  · refine meets_expectName holdsName_lower _ _ fun name s1 hp1 => ?_
    refine meets_allocateNode _ _ _ fun id s2 hp2 => ?_
    exact ⟨.lowerVariable name, (hp1.trans hp2).of_overrun, rfl⟩
  · simp only [meets_bind, meets_check]
    split
    · refine meets_expectName holdsName_upper _ _ fun name s1 hp1 => ?_
      refine meets_allocateNode _ _ _ fun id s2 hp2 => ?_
      exact ⟨.upperVariable name, (hp1.trans hp2).of_overrun, rfl⟩
    · exact meets_throwExpected _ _ _

theorem meets_parsePrimary {m : Nat} {self : Parser Expression} (hself : SelfDerives m self)
    (s : ParserState) (hm : s.rest.length ≤ m) : Meets (parsePrimary self) s fun e s' =>
    ∃ d : Tree .Primary, Progress s s' d.yield e.ids ∧ e.withoutIds = d.denote := by
  simp only [parsePrimary, meets_bind, meets_check]
  split
  · simp only [parseParenthesized, meets_bind]
    refine meets_expectEmpty _ _ _ fun s1 hp1 => ?_
    have hlen1 := hp1.length
    simp only [List.length_cons, List.length_nil] at hlen1
    refine (hself s1 (by omega)).mono ?_
    rintro e s2 ⟨de, hp2, hv2⟩
    refine meets_expectEmpty _ _ _ fun s3 hp3 => ?_
    refine ⟨.parenthesized de, ?_, hv2⟩
    simpa using (hp1.trans hp2).trans hp3
  simp only [meets_bind, meets_check]
  split
  · simp only [parseIntLiteral, meets_bind]
    refine meets_cursor _ _ fun t overrun _ => ?_
    refine meets_allocateNode _ _ _ fun id s1 hp1 => ?_
    refine meets_expect _ _ _ fun load value s2 hl hp2 => ?_
    obtain rfl : load = .IntLiteral value := by
      cases load <;> simp_all [IntLiteral]
    exact ⟨.num value, (hp1.trans hp2).of_overrun, rfl⟩
  have hany : checkAny [check LowerVariable, check UpperVariable] s =
      .ok (sees LowerVariable s || sees UpperVariable s) s := by
    rw [checkAny_run _ _ (by simp)]
    simp
  simp only [meets_bind]
  rw [meets_of_run hany]
  split
  · exact meets_parseVariable s
  simp only [meets_bind, meets_check]
  split
  · refine (meets_parseCaseExpression hself s hm).mono ?_
    rintro e s1 ⟨d, hp, hv⟩
    exact ⟨.casePrimary d, hp, hv⟩
  · exact meets_throwExpected _ _ _

theorem meets_parseApplication {m : Nat} {self : Parser Expression} (hself : SelfDerives m self)
    (s : ParserState) (hm : s.rest.length ≤ m) : Meets (parseApplication self) s fun e s' =>
    ∃ d : Tree .Application, Progress s s' d.yield e.ids ∧ e.withoutIds = d.denote := by
  simp only [parseApplication, meets_bind]
  refine (meets_parsePrimary hself s hm).mono ?_
  rintro f s1 ⟨df, hp1, hv1⟩
  refine (meets_loop (m := m + 1) (Q := fun f s e s' => ∃ (ids : List NodeId) (d : Tree .Arguments),
    Progress s s' d.yield ids ∧ e.ids.Perm (f.ids ++ ids) ∧
      e.withoutIds = applyAll f.withoutIds d.denote) (fun f s hs => ?_) f s1
    (by have := hp1.length; omega)).mono ?_
  · have hany : ∃ b, checkAny [check IntLiteral, check LowerVariable, check UpperVariable,
        check (Empty .LeftParentheses), check (Empty .Case)] s = .ok b s :=
      ⟨_, checkAny_run _ _ (by simp)⟩
    obtain ⟨b, hb⟩ := hany
    simp only [nextArgument, meets_bind]
    rw [meets_of_run hb]
    split
    · simp only [meets_bind]
      refine meets_cursor _ _ fun t overrun _ => ?_
      refine (meets_parsePrimary hself _ (by simp only; omega)).mono ?_
      rintro a s2 ⟨da, hp2, hv2⟩
      refine meets_allocateNode _ _ _ fun id s3 hp3 => ?_
      have hp := (hp2.trans hp3).of_overrun
      simp only [meets_pure]
      refine ⟨?_, ?_⟩
      · obtain ⟨t, ts, ht, _⟩ := da.beginsAs
        have := hp.length
        rw [ht] at this
        simp only [List.cons_append, List.length_cons] at this
        omega
      · rintro e s4 ⟨ids, d, hp4, hids, hv4⟩
        refine ⟨id :: (a.ids ++ ids), .nextArgument da d, ?_, ?_, ?_⟩
        · have h := hp.trans hp4
          simp only [List.append_nil, List.append_assoc] at h
          exact h.perm List.perm_middle
        · refine hids.trans ?_
          simp only [Expression.ids, List.cons_append, List.append_assoc]
          exact List.perm_middle.symm
        · rw [hv4]
          simp only [Expression.withoutIds, applyAll, hv2, Tree.denote]
          rfl
    · exact ⟨[], .argumentsEnd, Progress.refl _, by simp, rfl⟩
  · rintro e s2 ⟨ids, d, hp2, hids, hv2⟩
    exact ⟨.application df d, (hp1.trans hp2).perm hids.symm, by rw [hv2, hv1]; rfl⟩

theorem meets_parseFactor {m : Nat} {self : Parser Expression} (hself : SelfDerives m self)
    (s : ParserState) (hm : s.rest.length ≤ m) : Meets (parseFactor self) s fun e s' =>
    ∃ d : Tree .Factor, Progress s s' d.yield e.ids ∧ e.withoutIds = d.denote := by
  refine (meets_parseApplication hself s hm).mono ?_
  rintro e s1 ⟨d, hp, hv⟩
  exact ⟨.factor d, hp, hv⟩

theorem meets_parseTerm {m : Nat} {self : Parser Expression} (hself : SelfDerives m self)
    (s : ParserState) (hm : s.rest.length ≤ m) : Meets (parseTerm self) s fun e s' =>
    ∃ d : Tree .Term, Progress s s' d.yield e.ids ∧ e.withoutIds = d.denote := by
  refine (meets_parseBinaryLevel (m := m + 1) (fun d : Tree .Factor => d.denote)
    matchesOperator_product
    (fun s hs => meets_parseFactor hself s (by omega)) s (by omega)).mono ?_
  rintro e s' ⟨d, rest, hp, hv⟩
  refine ⟨.term d (ofProducts rest), ?_, ?_⟩
  · simpa [ofProducts_yield] using hp
  · rw [hv]
    simp only [Tree.denote, ofProducts_denote]

theorem selfDerives_parseExpressionWithin (n : Nat) : SelfDerives n (parseExpressionWithin n) := by
  induction n with
  | zero => intro s hs; omega
  | succ n ih =>
    intro s hs
    refine (meets_parseBinaryLevel (m := n + 1) (fun d : Tree .Term => d.denote) matchesOperator_sum
      (fun s hs => meets_parseTerm ih s (by omega)) s hs).mono ?_
    rintro e s' ⟨d, rest, hp, hv⟩
    refine ⟨.expression d (ofSums rest), ?_, ?_⟩
    · simpa [ofSums_yield] using hp
    · rw [hv]
      simp only [Tree.denote, ofSums_denote]

theorem meets_parseExpression (s : ParserState) : Meets parseExpression s fun e s' =>
    ∃ d : Tree .Expression, Progress s s' d.yield e.ids ∧ e.withoutIds = d.denote := by
  have h := selfDerives_parseExpressionWithin (s.rest.length + 1) s (by omega)
  unfold Meets at h ⊢
  unfold parseExpression
  exact h

/-! ## Definitions -/

theorem meets_parseConstructor (s : ParserState) : Meets parseConstructor s fun c s' =>
    ∃ d : Tree .Constructor, Progress s s' d.yield [c.id] ∧ c.withoutIds = d.denote := by
  simp only [parseConstructor, meets_bind]
  refine meets_cursor _ _ fun t overrun _ => ?_
  refine meets_expectName holdsName_upper _ _ fun name s1 hp1 => ?_
  refine (meets_parseNamesWhile holdsName_upper _).mono fun fields s2 hp2 => ?_
  refine meets_allocateNode _ _ _ fun id s3 hp3 => ?_
  refine ⟨.constructor name fields, ?_, rfl⟩
  simpa using ((hp1.trans hp2).trans hp3).of_overrun

theorem meets_parseFunctionDefinition (s : ParserState) :
    Meets parseFunctionDefinition s fun fd s' => ∃ d : Tree .Definition,
      Progress s s' d.yield (Definition.FunctionDefinition fd).ids ∧
      (Definition.FunctionDefinition fd).withoutIds = d.denote := by
  simp only [parseFunctionDefinition, meets_bind]
  refine meets_cursor _ _ fun t overrun _ => ?_
  refine meets_expectEmpty _ _ _ fun s1 hp1 => ?_
  refine meets_expectName holdsName_lower _ _ fun name s2 hp2 => ?_
  refine (meets_parseNamesWhile holdsName_lower _).mono fun parameters s3 hp3 => ?_
  refine meets_expectEmpty _ _ _ fun s4 hp4 => ?_
  refine meets_expectEmpty _ _ _ fun s5 hp5 => ?_
  refine (meets_parseExpression s5).mono ?_
  rintro e s6 ⟨de, hp6, hv6⟩
  refine meets_expectEmpty _ _ _ fun s7 hp7 => ?_
  refine meets_allocateNode _ _ _ fun id s8 hp8 => ?_
  refine ⟨.functionDefinition name parameters de, ?_, by simp [Definition.withoutIds, hv6]⟩
  have h := (((((((hp1.trans hp2).trans hp3).trans hp4).trans hp5).trans hp6).trans hp7).trans
    hp8).of_overrun
  have h' : Progress s s8 (Tree.functionDefinition name parameters de).yield (e.ids ++ [id]) := by
    simpa using h
  exact h'.rotate

theorem meets_parseDataTypeDefinition (s : ParserState) :
    Meets parseDataTypeDefinition s fun dt s' => ∃ d : Tree .Definition,
      Progress s s' d.yield (Definition.DataTypeDefinition dt).ids ∧
      (Definition.DataTypeDefinition dt).withoutIds = d.denote := by
  simp only [parseDataTypeDefinition, meets_bind]
  refine meets_cursor _ _ fun t overrun _ => ?_
  refine meets_expectEmpty _ _ _ fun s1 hp1 => ?_
  refine meets_expectName holdsName_upper _ _ fun name s2 hp2 => ?_
  refine meets_expectEmpty _ _ _ fun s3 hp3 => ?_
  refine meets_expectEmpty _ _ _ fun s4 hp4 => ?_
  refine (meets_parseConstructor s4).mono ?_
  rintro c s5 ⟨dc, hp5, hv5⟩
  refine (meets_loop (m := s5.rest.length + 1) (Q := fun cs s all s' =>
    ∃ (new : List Constructor) (d : Tree .Constructors), all = cs ++ new ∧
      Progress s s' d.yield (new.map (·.id)) ∧ new.map Constructor.withoutIds = d.denote)
    (fun cs s hs => ?_) [c] s5 (by omega)).mono ?_
  · simp only [nextConstructor, meets_bind]
    refine meets_matchToken _ _ _ (fun _ => ?_) fun load s1 hl hp1 => ?_
    · exact ⟨[], .constructorsEnd, by simp, Progress.refl _, rfl⟩
    · simp only [if_true, meets_bind]
      obtain rfl : load = .Comma := by
        by_contra hne
        simp [Empty, hne] at hl
      refine (meets_parseConstructor s1).mono ?_
      rintro c s2 ⟨dc, hp2, hv2⟩
      simp only [meets_pure]
      refine ⟨by have := (hp1.trans hp2).length; simp at this; omega, ?_⟩
      rintro all s3 ⟨new, d, rfl, hp3, hv3⟩
      refine ⟨c :: new, .nextConstructor dc d, by simp, ?_, ?_⟩
      · simpa using (hp1.trans hp2).trans hp3
      · simp only [List.map_cons, hv2, hv3, Tree.denote]
  · rintro _ s6 ⟨new, ds, rfl, hp6, hv6⟩
    refine meets_expectEmpty _ _ _ fun s7 hp7 => ?_
    refine meets_allocateNode _ _ _ fun id s8 hp8 => ?_
    refine ⟨.dataTypeDefinition name dc ds, ?_, ?_⟩
    · have h := (((((((hp1.trans hp2).trans hp3).trans hp4).trans hp5).trans hp6).trans hp7).trans
        hp8).of_overrun
      have h' : Progress s s8 (Tree.dataTypeDefinition name dc ds).yield
          ((c :: new).map (·.id) ++ [id]) := by
        simpa using h
      exact h'.rotate
    · simp only [Definition.withoutIds, List.map_cons, hv5, hv6, List.singleton_append, Tree.denote]

theorem meets_parseDefinition (s : ParserState) : Meets parseDefinition s fun def' s' =>
    ∃ d : Tree .Definition, Progress s s' d.yield def'.ids ∧ def'.withoutIds = d.denote := by
  simp only [parseDefinition, meets_bind, meets_check]
  split
  · simp only [meets_bind]
    exact meets_parseFunctionDefinition s
  · simp only [meets_bind, meets_check]
    split
    · simp only [meets_bind]
      exact meets_parseDataTypeDefinition s
    · exact meets_throwExpected _ _ _

theorem meets_parseProgram (s : ParserState) : Meets parseProgram s fun p s' =>
    s'.rest = [] ∧
      ∃ d : Tree .Program, Progress s s' d.yield p.ids ∧ p.withoutIds = d.toProgram := by
  refine (meets_loop (m := s.rest.length + 1)
    (Q := fun (p : Program) s (q : Program) s' => s'.rest = [] ∧
    ∃ (new : List Definition) (d : Tree .Program), q.definitions = p.definitions ++ new ∧
      Progress s s' d.yield (new.flatMap (·.ids)) ∧ new.map Definition.withoutIds = d.denote)
    (fun p s hs => ?_) ⟨[]⟩ s (by omega)).mono ?_
  · simp only [nextDefinition, meets_bind, meets_atEnd]
    split
    · rename_i hend
      exact ⟨by simpa using hend, [], .programEnd, by simp, Progress.refl _, rfl⟩
    · simp only [meets_bind]
      refine (meets_parseDefinition s).mono ?_
      rintro def' s1 ⟨dd, hp1, hv1⟩
      simp only [meets_pure]
      refine ⟨?_, ?_⟩
      · obtain ⟨t, ts, ht, _⟩ := dd.beginsAs
        have := hp1.length
        rw [ht, List.length_cons] at this
        omega
      · rintro q s2 ⟨hnil, new, d, hq, hp2, hv2⟩
        refine ⟨hnil, def' :: new, .nextDefinition dd d, by simp [hq], ?_, ?_⟩
        · simpa using hp1.trans hp2
        · simp only [List.map_cons, hv1, hv2, Tree.denote]
  · rintro q s' ⟨hnil, new, d, hq, hp, hv⟩
    simp only [List.nil_append] at hq
    refine ⟨hnil, d, ?_, ?_⟩
    · simpa [Program.ids, hq] using hp
    · simp only [Program.withoutIds, hq, Tree.toProgram]
      exact congrArg Program.mk hv

end mf.parsing
