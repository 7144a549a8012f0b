-- What is derivable, the parser accepts: on the yield of a tree, before tokens
-- that stop the phrase, each parse function takes just the yield and returns
-- what the tree denotes.
import MiniFunctional.ParseSound

open mf.util mf.ast mf.tokenization mf.grammar

namespace mf.parsing

variable {α β γ : Type}

/-- On the tokens `used` before `tail`, `p` takes `used`, makes `nodes` nodes
and returns a value with the property `R`, as long as the ids last. -/
def Accepts (p : Parser α) (used tail : List TokenVariant) (nodes : Nat) (R : α → Prop) : Prop :=
  ∀ s, loads s.rest = used ++ tail → s.positions.length + nodes ≤ kInvalidNodeId →
    ∃ a s', p s = .ok a s' ∧ loads s'.rest = tail ∧
      s'.positions.length = s.positions.length + nodes ∧ R a

theorem Accepts.pure {a : α} {tail : List TokenVariant} {R : α → Prop} (h : R a) :
    Accepts (pure a) [] tail 0 R := by
  intro s hs _
  exact ⟨a, s, rfl, hs, rfl, h⟩

theorem Accepts.bind {p : Parser α} {f : α → Parser β} {u v tail : List TokenVariant}
    {m n : Nat} {S : α → Prop} {R : β → Prop} (hp : Accepts p u (v ++ tail) m S)
    (hf : ∀ a, S a → Accepts (f a) v tail n R) :
    Accepts (p >>= f) (u ++ v) tail (m + n) R := by
  intro s hs hm
  obtain ⟨a, s1, hp1, ht1, hl1, ha⟩ := hp s (by rw [hs, List.append_assoc]) (by omega)
  obtain ⟨b, s2, hp2, ht2, hl2, hb⟩ := hf a ha s1 ht1 (by omega)
  refine ⟨b, s2, ?_, ht2, by omega, hb⟩
  rw [bind_run, hp1]
  exact hp2

theorem Accepts.mono {p : Parser α} {used tail : List TokenVariant} {n : Nat} {R R' : α → Prop}
    (h : Accepts p used tail n R) (hR : ∀ a, R a → R' a) : Accepts p used tail n R' := by
  intro s hs hn
  obtain ⟨a, s', hp, ht, hl, ha⟩ := h s hs hn
  exact ⟨a, s', hp, ht, hl, hR a ha⟩

/-- A step that takes no token and makes no node. -/
theorem Accepts.look {p : Parser α} {f : α → Parser β} {used tail : List TokenVariant} {n : Nat}
    {R : β → Prop} {b : α} (hp : ∀ s, loads s.rest = used ++ tail → p s = .ok b s)
    (hf : Accepts (f b) used tail n R) : Accepts (p >>= f) used tail n R := by
  intro s hs hn
  obtain ⟨c, s', hc, h⟩ := hf s hs hn
  exact ⟨c, s', by rw [bind_run, hp s hs]; exact hc, h⟩

/-! ## The cursor -/

/-- The first load holds the alternative `T`. -/
def headSees (T : Alternative α) : List TokenVariant → Bool
  | [] => false
  | load :: _ => (T load).isSome

@[simp] theorem headSees_cons (T : Alternative α) (load : TokenVariant) (ts : List TokenVariant) :
    headSees T (load :: ts) = (T load).isSome := rfl

theorem sees_eq_headSees (T : Alternative α) (s : ParserState) :
    sees T s = headSees T (loads s.rest) := by
  obtain ⟨rest, positions, overrun⟩ := s
  cases rest <;> rfl

theorem Accepts.check {T : Alternative α} {f : Bool → Parser β} {used tail : List TokenVariant}
    {n : Nat} {R : β → Prop} (h : Accepts (f (headSees T (used ++ tail))) used tail n R) :
    Accepts (check T >>= f) used tail n R := by
  refine Accepts.look (fun s hs => ?_) h
  rw [check_run, sees_eq_headSees, hs]

theorem Accepts.atEnd {f : Bool → Parser β} {used tail : List TokenVariant} {n : Nat}
    {R : β → Prop} (h : Accepts (f (used ++ tail).isEmpty) used tail n R) :
    Accepts (atEnd >>= f) used tail n R := by
  refine Accepts.look (fun s hs => ?_) h
  rw [atEnd_run, ← hs, List.isEmpty_map]

theorem Accepts.cursor {f : Token → Parser β} {used tail : List TokenVariant} {n : Nat}
    {R : β → Prop} (h : ∀ t, Accepts (f t) used tail n R) :
    Accepts (cursor >>= f) used tail n R := by
  intro s hs hn
  obtain ⟨rest, positions, overrun⟩ := s
  cases rest with
  | nil =>
    obtain ⟨b, s', hb⟩ := h ⟨.Comma, ⟨0, 0, 0, 0⟩⟩ ⟨[], positions, true⟩ hs hn
    exact ⟨b, s', hb⟩
  | cons t ts =>
    obtain ⟨b, s', hb⟩ := h t ⟨t :: ts, positions, overrun⟩ hs hn
    exact ⟨b, s', hb⟩

theorem Accepts.expect {T : Alternative α} {f : α → Parser β} {load : TokenVariant} {a : α}
    {used tail : List TokenVariant} {n : Nat} {R : β → Prop} (hT : T load = some a)
    (h : Accepts (f a) used tail n R) : Accepts (expect T >>= f) (load :: used) tail n R := by
  intro s hs hn
  obtain ⟨rest, positions, overrun⟩ := s
  cases rest with
  | nil => simp [loads] at hs
  | cons t ts =>
    simp only [loads, List.map_cons, List.cons_append, List.cons.injEq] at hs
    obtain ⟨b, s', hb⟩ := h ⟨ts, positions, overrun⟩ hs.2 hn
    refine ⟨b, s', ?_, hb.2⟩
    rw [bind_run, expect_run]
    simp only [hs.1, hT]
    exact hb.1

theorem Accepts.expectEmpty {f : Unit → Parser β} {load : TokenVariant}
    {used tail : List TokenVariant} {n : Nat} {R : β → Prop} (h : Accepts (f ()) used tail n R) :
    Accepts (parsing.expect (Empty load) >>= f) (load :: used) tail n R :=
  Accepts.expect (by simp [Empty]) h

theorem accepts_allocate (position : Position) {f : NodeId → Parser β}
    {used tail : List TokenVariant} {n : Nat} {R : β → Prop}
    (h : ∀ id, Accepts (f id) used tail n R) :
    Accepts (allocateNode position >>= f) used tail (n + 1) R := by
  intro s hs hn
  obtain ⟨b, s', hb⟩ := h s.positions.length { s with positions := s.positions ++ [position] } hs
    (by simp only [List.length_append, List.length_singleton]; omega)
  refine ⟨b, s', ?_, hb.2.1, ?_, hb.2.2.2⟩
  · rw [bind_run, allocateNode_run, if_neg (by omega)]
    exact hb.1
  · have := hb.2.2.1
    simp only [List.length_append, List.length_singleton] at this
    omega

/-- The check that `matchToken` makes fails. -/
theorem Accepts.matchToken_no {T : Alternative α} {f : Bool → Parser β}
    {used tail : List TokenVariant} {n : Nat} {R : β → Prop}
    (hT : headSees T (used ++ tail) = false) (h : Accepts (f false) used tail n R) :
    Accepts (matchToken T >>= f) used tail n R := by
  refine Accepts.look (fun s hs => ?_) h
  rw [matchToken_run, sees_eq_headSees, hs, hT]
  rfl

theorem Accepts.matchToken_yes {T : Alternative α} {f : Bool → Parser β} {load : TokenVariant}
    {used tail : List TokenVariant} {n : Nat} {R : β → Prop} (hT : (T load).isSome = true)
    (h : Accepts (f true) used tail n R) :
    Accepts (matchToken T >>= f) (load :: used) tail n R := by
  intro s hs hn
  have hsees : sees T s = true := by
    rw [sees_eq_headSees, hs]
    exact hT
  have htail : loads s.rest.tail = used ++ tail := by
    have := congrArg List.tail hs
    simpa [loads, List.map_tail] using this
  obtain ⟨b, s', hb⟩ := h { s with rest := s.rest.tail } htail hn
  refine ⟨b, s', ?_, hb.2⟩
  rw [bind_run, matchToken_run, hsees]
  exact hb.1

theorem Accepts.checkAny {cs : List (Parser Bool)} {f : Bool → Parser β}
    {used tail : List TokenVariant} {n : Nat} {R : β → Prop} {g : List TokenVariant → Bool}
    (hg : ∀ s, parsing.checkAny cs s = .ok (g (loads s.rest)) s)
    (h : Accepts (f (g (used ++ tail))) used tail n R) :
    Accepts (parsing.checkAny cs >>= f) used tail n R := by
  refine Accepts.look (fun s hs => ?_) h
  rw [hg, hs]

/-- A result is all that is left to build. -/
theorem Accepts.map {p : Parser α} {g : α → β} {used tail : List TokenVariant} {n : Nat}
    {S : α → Prop} {R : β → Prop} (hp : Accepts p used tail n S) (h : ∀ a, S a → R (g a)) :
    Accepts (p >>= fun a => Pure.pure (g a)) used tail n R := by
  intro s hs hn
  obtain ⟨a, s', hp, ht, hl, ha⟩ := hp s hs hn
  exact ⟨g a, s', by rw [bind_run, hp]; rfl, ht, hl, h a ha⟩

/-- The node of the result is the last one made. -/
theorem Accepts.mapNode {p : Parser α} {g : α → NodeId → β} {position : Position}
    {used tail : List TokenVariant} {n : Nat} {S : α → Prop} {R : β → Prop}
    (hp : Accepts p used tail n S) (h : ∀ a id, S a → R (g a id)) :
    Accepts (p >>= fun a => allocateNode position >>= fun id => Pure.pure (g a id)) used tail
      (n + 1) R := by
  have := Accepts.bind (v := []) (n := 0 + 1) hp fun a ha =>
    accepts_allocate position fun id => Accepts.pure (h a id ha)
  simpa using this

/-! ## Loops -/

theorem Accepts.loop {step : β → Parser (β ⊕ γ)} {b : β} {used tail : List TokenVariant} {n : Nat}
    {R : γ → Prop} (h : ∀ k, used.length < k → Accepts (iterate step k b) used tail n R) :
    Accepts (loop b step) used tail n R := by
  intro s hs hn
  have hlen : used.length < s.rest.length + 1 := by
    have := congrArg List.length hs
    simp only [loads, List.length_map, List.length_append] at this
    omega
  exact h _ hlen s hs hn

/-- The last turn of a loop. -/
theorem Accepts.iterate_end {step : β → Parser (β ⊕ γ)} {b : β} {c : γ} {k : Nat}
    {tail : List TokenVariant} {R : γ → Prop} (hk : 0 < k)
    (hs : Accepts (step b) [] tail 0 (· = .inr c)) (hc : R c) :
    Accepts (iterate step k b) [] tail 0 R := by
  obtain ⟨k, rfl⟩ : ∃ j, k = j + 1 := ⟨k - 1, by omega⟩
  rw [iterate]
  refine Accepts.bind (n := 0) (v := []) hs fun r hr => ?_
  subst hr
  exact Accepts.pure hc

/-- A turn of a loop that goes on. -/
theorem Accepts.iterate_next {step : β → Parser (β ⊕ γ)} {b : β} {k : Nat}
    {u v tail : List TokenVariant} {m n : Nat} {S : β → Prop} {R : γ → Prop}
    (hk : (u ++ v).length < k) (hu : u ≠ [])
    (hs : Accepts (step b) u (v ++ tail) m fun r => ∃ b', r = .inl b' ∧ S b')
    (hn : ∀ b' k', S b' → v.length < k' → Accepts (iterate step k' b') v tail n R) :
    Accepts (iterate step k b) (u ++ v) tail (m + n) R := by
  obtain ⟨k, rfl⟩ : ∃ j, k = j + 1 := ⟨k - 1, by omega⟩
  rw [iterate]
  refine hs.bind ?_
  rintro r ⟨b', rfl, hb⟩
  have := List.length_pos_iff.mpr hu
  rw [List.length_append] at hk
  exact hn b' k hb (by omega)

/-! ## Names -/

theorem accepts_names {T : Alternative String} {f : String → TokenVariant} (hT : HoldsName T f)
    (new : List String) {tail : List TokenVariant} (htail : headSees T tail = false)
    (names : List String) (k : Nat) (hk : (new.map f).length < k) :
    Accepts (iterate (nextName T) k names) (new.map f) tail 0 (· = names ++ new) := by
  induction new generalizing names k with
  | nil =>
    refine Accepts.iterate_end (c := names) hk ?_ (by simp)
    refine Accepts.check ?_
    simp only [List.nil_append, htail]
    exact Accepts.pure rfl
  | cons name new ih =>
    have hname : T (f name) = some name := (hT _ _).mpr rfl
    refine Accepts.iterate_next (u := [f name]) (m := 0) (n := 0)
      (S := (· = names ++ [name])) hk (by simp) ?_ fun b' k' hb hk' => ?_
    · refine Accepts.check ?_
      simp only [List.cons_append, headSees_cons, hname, Option.isSome_some, if_true]
      exact Accepts.expect hname (Accepts.pure ⟨_, rfl, rfl⟩)
    · subst hb
      exact (ih _ k' hk').mono fun a ha => by rw [ha]; simp

theorem accepts_expectName {T : Alternative String} {f : String → TokenVariant}
    (hT : HoldsName T f) (name : String) (tail : List TokenVariant) :
    Accepts (expectName T) [f name] tail 0 (· = name) := by
  have hname : T (f name) = some name := (hT _ _).mpr rfl
  have h : Accepts (expect T >>= Pure.pure) [f name] tail 0 (· = name) :=
    Accepts.expect hname (Accepts.pure rfl)
  rw [bind_pure] at h
  exact h

theorem accepts_parseNamesWhile {T : Alternative String} {f : String → TokenVariant}
    (hT : HoldsName T f) (names : List String) {tail : List TokenVariant}
    (htail : headSees T tail = false) :
    Accepts (parseNamesWhile T) (names.map f) tail 0 (· = names) := by
  refine Accepts.loop fun k hk => ?_
  simpa using accepts_names hT names htail [] k hk

theorem headSees_lower_of_stops {s : Nonterminal} {tail : List TokenVariant} (h : Stops s tail)
    (hs : ∀ n, continues s (.LowerVariable n) = true) : headSees LowerVariable tail = false := by
  cases tail with
  | nil => rfl
  | cons t ts =>
    cases t <;> simp only [headSees_cons, LowerVariable, Option.isSome_none]
    exact absurd (h _ _ rfl) (by rw [hs]; simp)

theorem headSees_upper_of_stops {s : Nonterminal} {tail : List TokenVariant} (h : Stops s tail)
    (hs : ∀ n, continues s (.UpperVariable n) = true) : headSees UpperVariable tail = false := by
  cases tail with
  | nil => rfl
  | cons t ts =>
    cases t <;> simp only [headSees_cons, UpperVariable, Option.isSome_none]
    exact absurd (h _ _ rfl) (by rw [hs]; simp)

/-! ## The nodes of a tree -/

/-- The number of nodes that the parser makes for a tree. -/
@[simp] def nodes : {s : Nonterminal} → Tree s → Nat
  | _, .programEnd => 0
  | _, .nextDefinition d p => nodes d + nodes p
  | _, .functionDefinition _ _ e => nodes e + 1
  | _, .dataTypeDefinition _ c cs => nodes c + (nodes cs + 1)
  | _, .constructor _ _ => 1
  | _, .constructorsEnd => 0
  | _, .nextConstructor c cs => nodes c + nodes cs
  | _, .expression t ts => nodes t + nodes ts
  | _, .sumsEnd => 0
  | _, .nextSum _ t ts => nodes t + 1 + nodes ts
  | _, .term f fs => nodes f + nodes fs
  | _, .productsEnd => 0
  | _, .nextProduct _ f fs => nodes f + 1 + nodes fs
  | _, .factor a => nodes a
  | _, .application p ps => nodes p + nodes ps
  | _, .argumentsEnd => 0
  | _, .nextArgument p ps => nodes p + 1 + nodes ps
  | _, .num _ => 1
  | _, .lowerVariable _ => 1
  | _, .upperVariable _ => 1
  | _, .parenthesized e => nodes e
  | _, .casePrimary c => nodes c
  | _, .caseExpression e b bs => nodes e + (nodes b + (nodes bs + 1))
  | _, .branch p e => nodes p + (nodes e + 1)
  | _, .branchesEnd => 0
  | _, .nextBranch b bs => nodes b + nodes bs
  | _, .variablePattern _ => 1
  | _, .constructorPattern _ _ => 1

/-- What a phrase leaves of two nodes for each token: an argument has a node
of its own and one for its application. -/
@[simp] def slack : Nonterminal → Nat
  | .Expression | .Term | .Factor | .Application | .Primary | .CaseExpression => 1
  | _ => 0

theorem nodes_le {s : Nonterminal} (d : Tree s) : nodes d + slack s ≤ 2 * d.yield.length := by
  induction d with
  | programEnd | constructorsEnd | sumsEnd | productsEnd | argumentsEnd | branchesEnd => simp
  | nextDefinition | functionDefinition | dataTypeDefinition | constructor | nextConstructor
  | expression | nextSum | term | nextProduct | factor | application | nextArgument | num
  | lowerVariable | upperVariable | parenthesized | casePrimary | caseExpression | branch
  | nextBranch | variablePattern | constructorPattern => simp_all; try omega

/-! ## Expressions -/

/-- The parse function of a nonterminal accepts the tree. The parser of the
nested expressions has more fuel than there are tokens. -/
def Accepted : (s : Nonterminal) → Tree s → Prop
  | .Program, d => ∀ k definitions, d.yield.length < k →
    Accepts (iterate nextDefinition k ⟨definitions⟩) d.yield [] (nodes d) fun p =>
      p.withoutIds = ⟨definitions.map Definition.withoutIds ++ d.denote⟩
  | .Definition, d => ∀ tail, Accepts parseDefinition d.yield tail (nodes d)
      (Definition.withoutIds · = d.denote)
  | .Constructor, d => ∀ tail, Stops .Constructor tail →
    Accepts parseConstructor d.yield tail (nodes d) (Constructor.withoutIds · = d.denote)
  | .Constructors, d => ∀ tail k cs, Stops .Constructors tail → d.yield.length < k →
    Accepts (iterate nextConstructor k cs) d.yield tail (nodes d) fun all =>
      all.map Constructor.withoutIds = cs.map Constructor.withoutIds ++ d.denote
  | .Expression, d => ∀ tail n, Stops .Expression tail → (d.yield ++ tail).length < n →
    Accepts (parseExpressionWithin n) d.yield tail (nodes d) (Expression.withoutIds · = d.denote)
  | .Sums, d => ∀ tail n k left, Stops .Sums tail → (d.yield ++ tail).length ≤ n →
    d.yield.length < k →
    Accepts (iterate (nextOperand (parseTerm (parseExpressionWithin n))
      (matchBinaryOperator [(.Plus, Addition), (.Minus, Subtraction)])) k left) d.yield tail
      (nodes d) (Expression.withoutIds · = chain left.withoutIds d.denote)
  | .Term, d => ∀ tail n, Stops .Term tail → (d.yield ++ tail).length ≤ n →
    Accepts (parseTerm (parseExpressionWithin n)) d.yield tail (nodes d)
      (Expression.withoutIds · = d.denote)
  | .Products, d => ∀ tail n k left, Stops .Products tail → (d.yield ++ tail).length ≤ n →
    d.yield.length < k →
    Accepts (iterate (nextOperand (parseFactor (parseExpressionWithin n))
      (matchBinaryOperator [(.Star, Multiplication), (.Slash, Division)])) k left) d.yield tail
      (nodes d) (Expression.withoutIds · = chain left.withoutIds d.denote)
  | .Factor, d => ∀ tail n, Stops .Factor tail → (d.yield ++ tail).length ≤ n →
    Accepts (parseFactor (parseExpressionWithin n)) d.yield tail (nodes d)
      (Expression.withoutIds · = d.denote)
  | .Application, d => ∀ tail n, Stops .Application tail → (d.yield ++ tail).length ≤ n →
    Accepts (parseApplication (parseExpressionWithin n)) d.yield tail (nodes d)
      (Expression.withoutIds · = d.denote)
  | .Arguments, d => ∀ tail n k f, Stops .Arguments tail → (d.yield ++ tail).length ≤ n →
    d.yield.length < k →
    Accepts (iterate (nextArgument (parseExpressionWithin n)) k f) d.yield tail (nodes d)
      (Expression.withoutIds · = applyAll f.withoutIds d.denote)
  | .Primary, d => ∀ tail n, (d.yield ++ tail).length ≤ n →
    Accepts (parsePrimary (parseExpressionWithin n)) d.yield tail (nodes d)
      (Expression.withoutIds · = d.denote)
  | .CaseExpression, d => ∀ tail n, (d.yield ++ tail).length ≤ n →
    Accepts (parseCaseExpression (parseExpressionWithin n)) d.yield tail (nodes d)
      (Expression.withoutIds · = d.denote)
  | .Branch, d => ∀ tail n, (d.yield ++ tail).length ≤ n →
    Accepts (parseBranch (parseExpressionWithin n)) d.yield tail (nodes d)
      (Branch.withoutIds · = d.denote)
  | .Branches, d => ∀ tail n k bs, (d.yield ++ .RightBrace :: tail).length ≤ n →
    d.yield.length < k →
    Accepts (iterate (nextBranch (parseExpressionWithin n)) k bs) d.yield (.RightBrace :: tail)
      (nodes d) fun all =>
        all.map Branch.withoutIds = bs.map Branch.withoutIds ++ d.denote
  | .Pattern, d => ∀ tail, Stops .Pattern tail →
    Accepts parsePattern d.yield tail (nodes d) (Pattern.withoutIds · = d.denote)

/-! ### Operators -/

theorem accepts_sumOperator (op : SumOperator) (tail : List TokenVariant) :
    Accepts (matchBinaryOperator [(.Plus, Addition), (.Minus, Subtraction)]) [op.token] tail 0
      (· = some (Expression.BinaryOperator op.kind)) := by
  cases op with
  | Plus => exact Accepts.matchToken_yes rfl (Accepts.pure rfl)
  | Minus => exact Accepts.matchToken_no rfl (Accepts.matchToken_yes rfl (Accepts.pure rfl))

theorem accepts_productOperator (op : ProductOperator) (tail : List TokenVariant) :
    Accepts (matchBinaryOperator [(.Star, Multiplication), (.Slash, Division)]) [op.token] tail 0
      (· = some (Expression.BinaryOperator op.kind)) := by
  cases op with
  | Star => exact Accepts.matchToken_yes rfl (Accepts.pure rfl)
  | Slash => exact Accepts.matchToken_no rfl (Accepts.matchToken_yes rfl (Accepts.pure rfl))

theorem headSees_empty {load : TokenVariant} {tail : List TokenVariant}
    (h : ∀ rest, tail ≠ load :: rest) : headSees (Empty load) tail = false := by
  cases tail with
  | nil => rfl
  | cons t ts =>
    simp only [headSees_cons, Empty]
    split
    · rename_i heq
      exact absurd (heq ▸ rfl) (h ts)
    · rfl

/-- No operator of the level stands next: the match takes nothing. -/
theorem accepts_noOperator {t1 t2 : TokenVariant} {f1 f2 : BinaryOperatorFactory}
    {tail : List TokenVariant} (h1 : ∀ rest, tail ≠ t1 :: rest) (h2 : ∀ rest, tail ≠ t2 :: rest) :
    Accepts (matchBinaryOperator [(t1, f1), (t2, f2)]) [] tail 0 (· = none) := by
  refine Accepts.matchToken_no (headSees_empty h1) ?_
  exact Accepts.matchToken_no (headSees_empty h2) (Accepts.pure rfl)

/-- The last turn of the loop of a level. -/
theorem accepts_operandsEnd {operand : Parser Expression}
    {operator : Parser (Option BinaryOperatorFactory)} {tail : List TokenVariant}
    (left : Expression) {k : Nat} (hk : 0 < k)
    (hop : Accepts operator [] tail 0 (· = none)) :
    Accepts (iterate (nextOperand operand operator) k left) [] tail 0 (· = left) := by
  refine Accepts.iterate_end (c := left) hk ?_ rfl
  refine Accepts.atEnd ?_
  simp only [List.nil_append]
  split
  · exact Accepts.pure rfl
  · refine Accepts.cursor fun t => ?_
    refine Accepts.bind (u := []) (v := []) (n := 0) hop fun r hr => ?_
    subst hr
    exact Accepts.pure rfl

/-- A turn of the loop of a level: an operator and its right operand. -/
theorem accepts_nextOperand {operand : Parser Expression}
    {operator : Parser (Option BinaryOperatorFactory)} {op : TokenVariant}
    {kind : BinaryOperatorKind} {u1 u2 tail : List TokenVariant} {n1 n2 : Nat}
    {value : Expression} {rest : List (BinaryOperatorKind × Expression)} (left : Expression)
    {k : Nat} (hk : (op :: (u1 ++ u2)).length < k)
    (hop : Accepts operator [op] (u1 ++ (u2 ++ tail)) 0
      (· = some (Expression.BinaryOperator kind)))
    (hand : Accepts operand u1 (u2 ++ tail) n1 (Expression.withoutIds · = value))
    (hrest : ∀ left' k', u2.length < k' →
      Accepts (iterate (nextOperand operand operator) k' left') u2 tail n2
        (Expression.withoutIds · = chain left'.withoutIds rest)) :
    Accepts (iterate (nextOperand operand operator) k left) (op :: (u1 ++ u2)) tail (n1 + 1 + n2)
      (Expression.withoutIds · = chain left.withoutIds ((kind, value) :: rest)) := by
  refine Accepts.iterate_next (u := op :: u1)
    (S := fun e => e.withoutIds = .BinaryOperator kind 0 left.withoutIds value)
    hk (by simp) ?_ fun b' k' hb hk' => ?_
  · refine Accepts.atEnd ?_
    simp only [List.cons_append, List.isEmpty_cons, Bool.false_eq_true, if_false]
    refine Accepts.cursor fun t => ?_
    rw [show n1 + 1 = 0 + (n1 + 1) by omega]
    refine Accepts.bind (u := [op]) hop fun r hr => ?_
    subst hr
    refine accepts_allocate _ fun id => ?_
    exact Accepts.map hand fun right hr => ⟨_, rfl, by simp [Expression.withoutIds, hr]⟩
  · refine (hrest b' k' hk').mono fun e he => ?_
    rw [he, hb]
    rfl

theorem ne_of_stops {s : Nonterminal} {tail : List TokenVariant} (h : Stops s tail)
    {t : TokenVariant} (ht : continues s t = true) (rest : List TokenVariant) :
    tail ≠ t :: rest := by
  rintro rfl
  exact absurd (h _ _ rfl) (by rw [ht]; simp)

theorem accepted_sumsEnd : Accepted .Sums .sumsEnd := by
  intro tail n k left hstop _ hk
  refine (accepts_operandsEnd left hk (accepts_noOperator (ne_of_stops hstop rfl)
    (ne_of_stops hstop rfl))).mono fun e he => ?_
  rw [he]
  rfl

theorem accepted_productsEnd : Accepted .Products .productsEnd := by
  intro tail n k left hstop _ hk
  refine (accepts_operandsEnd left hk (accepts_noOperator (ne_of_stops hstop rfl)
    (ne_of_stops hstop rfl))).mono fun e he => ?_
  rw [he]
  rfl

theorem accepted_nextSum (op : SumOperator) {t : Tree .Term} {ts : Tree .Sums}
    (iht : Accepted .Term t) (ihts : Accepted .Sums ts) : Accepted .Sums (.nextSum op t ts) := by
  intro tail n k left hstop hn hk
  simp only [Tree.yield, List.length_cons, List.length_append] at hn
  refine accepts_nextOperand left hk (accepts_sumOperator op _)
    (iht _ n (stops_sums hstop) ?_) fun left' k' hk' => ihts tail n k' left' hstop ?_ hk'
  · simp only [List.length_append]
    omega
  · simp only [List.length_append]
    omega

theorem accepted_nextProduct (op : ProductOperator) {f : Tree .Factor} {fs : Tree .Products}
    (ihf : Accepted .Factor f) (ihfs : Accepted .Products fs) :
    Accepted .Products (.nextProduct op f fs) := by
  intro tail n k left hstop hn hk
  simp only [Tree.yield, List.length_cons, List.length_append] at hn
  refine accepts_nextOperand left hk (accepts_productOperator op _)
    (ihf _ n (stops_products hstop) ?_) fun left' k' hk' => ihfs tail n k' left' hstop ?_ hk'
  · simp only [List.length_append]
    omega
  · simp only [List.length_append]
    omega

theorem accepted_term {f : Tree .Factor} {fs : Tree .Products} (ihf : Accepted .Factor f)
    (ihfs : Accepted .Products fs) : Accepted .Term (.term f fs) := by
  intro tail n hstop hn
  simp only [Tree.yield, List.append_assoc] at hn
  refine Accepts.bind (ihf _ n (stops_products hstop) hn) fun left hl => ?_
  refine Accepts.loop fun k hk => ?_
  refine (ihfs tail n k left hstop (by simp only [List.length_append] at hn ⊢; omega) hk).mono
    fun e he => ?_
  rw [he, hl]
  rfl

theorem accepted_expression {t : Tree .Term} {ts : Tree .Sums} (iht : Accepted .Term t)
    (ihts : Accepted .Sums ts) : Accepted .Expression (.expression t ts) := by
  intro tail n hstop hn
  obtain ⟨n, rfl⟩ : ∃ j, n = j + 1 := ⟨n - 1, by omega⟩
  simp only [Tree.yield, List.append_assoc] at hn
  refine Accepts.bind (iht _ n (stops_sums hstop) (by omega)) fun left hl => ?_
  refine Accepts.loop fun k hk => ?_
  refine (ihts tail n k left hstop (by simp only [List.length_append] at hn ⊢; omega) hk).mono
    fun e he => ?_
  rw [he, hl]
  rfl

/-! ### Applications -/

def beginsPrimary : List TokenVariant → Bool
  | load :: _ => startsPrimary load
  | [] => false

/-- The lookahead of the loop over the arguments. -/
theorem checkAny_primary (s : ParserState) :
    checkAny [check IntLiteral, check LowerVariable, check UpperVariable,
      check (Empty .LeftParentheses), check (Empty .Case)] s =
      .ok (beginsPrimary (loads s.rest)) s := by
  rw [checkAny_run _ _ (by simp)]
  obtain ⟨rest, positions, overrun⟩ := s
  cases rest with
  | nil => rfl
  | cons t ts =>
    obtain ⟨load, position⟩ := t
    cases load <;> simp [sees, IntLiteral, LowerVariable, UpperVariable, Empty, beginsPrimary]

theorem accepted_argumentsEnd : Accepted .Arguments .argumentsEnd := by
  intro tail n k f hstop _ hk
  refine Accepts.iterate_end (c := f) hk ?_ rfl
  refine Accepts.checkAny checkAny_primary ?_
  have hfalse : beginsPrimary ([] ++ tail) = false := by
    cases tail with
    | nil => rfl
    | cons t ts => exact hstop t ts rfl
  rw [hfalse]
  exact Accepts.pure rfl

theorem accepted_nextArgument {p : Tree .Primary} {ps : Tree .Arguments}
    (ihp : Accepted .Primary p) (ihps : Accepted .Arguments ps) :
    Accepted .Arguments (.nextArgument p ps) := by
  intro tail n k f hstop hn hk
  obtain ⟨t, ts, ht, hstart⟩ := p.beginsAs
  simp only [Tree.yield, List.append_assoc, List.length_append] at hn
  refine Accepts.iterate_next (u := p.yield)
    (S := fun e => e.withoutIds = .Application 0 f.withoutIds p.denote) hk (by simp [ht]) ?_
    fun f' k' hf hk' => ?_
  · refine Accepts.checkAny checkAny_primary ?_
    have htrue : beginsPrimary (p.yield ++ (ps.yield ++ tail)) = true := by
      rw [ht]
      exact hstart
    rw [htrue]
    refine Accepts.cursor fun t => ?_
    exact Accepts.mapNode (ihp _ n (by simpa using hn)) fun a id ha =>
      ⟨_, rfl, by simp [Expression.withoutIds, ha]⟩
  · refine (ihps tail n k' f' hstop (by simp only [List.length_append]; omega) hk').mono
      fun e he => ?_
    rw [he, hf]
    rfl

theorem accepted_application {p : Tree .Primary} {ps : Tree .Arguments}
    (ihp : Accepted .Primary p) (ihps : Accepted .Arguments ps) :
    Accepted .Application (.application p ps) := by
  intro tail n hstop hn
  simp only [Tree.yield, List.append_assoc] at hn
  refine Accepts.bind (ihp _ n hn) fun f hf => ?_
  refine Accepts.loop fun k hk => ?_
  refine (ihps tail n k f hstop (by simp only [List.length_append] at hn ⊢; omega) hk).mono
    fun e he => ?_
  rw [he, hf]
  rfl

/-! ### Primaries -/

theorem accepted_num (value : Int32) : Accepted .Primary (.num value) := by
  intro tail n _
  refine Accepts.check ?_
  refine Accepts.check ?_
  refine Accepts.cursor fun t => accepts_allocate _ fun id => ?_
  exact Accepts.expect rfl (Accepts.pure rfl)

theorem accepted_lowerVariable (name : String) : Accepted .Primary (.lowerVariable name) := by
  intro tail n _
  refine Accepts.check (Accepts.check ?_)
  refine Accepts.look (b := true) (fun s hs => ?_) ?_
  · rw [checkAny_run _ _ (by simp)]
    simp [sees_eq_headSees, hs, LowerVariable]
  refine Accepts.cursor fun t => ?_
  have h : Accepts (expectAnyName [LowerVariable, UpperVariable]) [.LowerVariable name] tail 0
      (· = name) := by
    refine Accepts.check ?_
    simp only [List.cons_append, headSees_cons, LowerVariable, Option.isSome_some, if_true]
    exact accepts_expectName holdsName_lower name tail
  exact Accepts.mapNode h fun a id ha => by rw [ha]; rfl

theorem accepted_upperVariable (name : String) : Accepted .Primary (.upperVariable name) := by
  intro tail n _
  refine Accepts.check (Accepts.check ?_)
  refine Accepts.look (b := true) (fun s hs => ?_) ?_
  · rw [checkAny_run _ _ (by simp)]
    simp [sees_eq_headSees, hs, UpperVariable]
  refine Accepts.cursor fun t => ?_
  have h : Accepts (expectAnyName [LowerVariable, UpperVariable]) [.UpperVariable name] tail 0
      (· = name) := by
    refine Accepts.check (Accepts.check ?_)
    simp only [List.cons_append, headSees_cons, UpperVariable, Option.isSome_some, if_true]
    exact accepts_expectName holdsName_upper name tail
  exact Accepts.mapNode h fun a id ha => by rw [ha]; rfl

theorem accepted_parenthesized {e : Tree .Expression} (ih : Accepted .Expression e) :
    Accepted .Primary (.parenthesized e) := by
  intro tail n hn
  simp only [Tree.yield, List.cons_append, List.append_assoc, List.length_cons, List.length_append,
    List.length_nil] at hn
  refine Accepts.check (Accepts.expectEmpty ?_)
  refine Accepts.bind (n := 0) (ih _ n (by simp) ?_) fun a ha => ?_
  · simp only [List.length_append, List.length_cons, List.length_nil]
    omega
  exact Accepts.expectEmpty (Accepts.pure ha)

theorem accepted_casePrimary {c : Tree .CaseExpression} (ih : Accepted .CaseExpression c) :
    Accepted .Primary (.casePrimary c) := by
  intro tail n hn
  have h := ih tail n hn
  obtain ⟨e, b, bs⟩ := c
  refine Accepts.check (Accepts.check ?_)
  refine Accepts.look (b := false) (fun s hs => ?_) (Accepts.check h)
  rw [checkAny_run _ _ (by simp)]
  simp [sees_eq_headSees, hs, LowerVariable, UpperVariable]

/-! ### Branches -/

theorem accepted_variablePattern (name : String) : Accepted .Pattern (.variablePattern name) := by
  intro tail _
  refine Accepts.check (Accepts.cursor fun t => accepts_allocate _ fun id => ?_)
  exact Accepts.expect rfl (Accepts.pure rfl)

theorem accepted_constructorPattern (name : String) (arguments : List String) :
    Accepted .Pattern (.constructorPattern name arguments) := by
  intro tail hstop
  refine Accepts.check (Accepts.check ?_)
  refine Accepts.cursor fun t => accepts_allocate _ fun id => ?_
  refine Accepts.expect (a := name) rfl ?_
  exact Accepts.map (accepts_parseNamesWhile holdsName_lower arguments
    (headSees_lower_of_stops hstop fun _ => rfl)) fun names hnames => by rw [hnames]; rfl

theorem accepted_branch {p : Tree .Pattern} {e : Tree .Expression} (ihp : Accepted .Pattern p)
    (ihe : Accepted .Expression e) : Accepted .Branch (.branch p e) := by
  intro tail n hn
  simp only [Tree.yield, List.cons_append, List.append_assoc, List.length_append,
    List.length_cons, List.length_nil] at hn
  refine Accepts.cursor fun t => ?_
  refine Accepts.bind (ihp _ (by simp)) fun pattern hp => ?_
  refine Accepts.expectEmpty (Accepts.expectEmpty ?_)
  refine Accepts.bind (ihe _ n (by simp) ?_) fun body he => ?_
  · simp only [List.length_append, List.length_cons, List.length_nil]
    omega
  refine Accepts.expectEmpty (accepts_allocate _ fun id => Accepts.pure ?_)
  simp [Branch.withoutIds, hp, he]

theorem accepted_branchesEnd : Accepted .Branches .branchesEnd := by
  intro tail n k bs _ hk
  refine Accepts.iterate_end (c := bs) hk ?_ (by simp)
  exact Accepts.check (Accepts.atEnd (Accepts.pure rfl))

theorem accepted_nextBranch {b : Tree .Branch} {bs : Tree .Branches} (ihb : Accepted .Branch b)
    (ihbs : Accepted .Branches bs) : Accepted .Branches (.nextBranch b bs) := by
  intro tail n k branches hn hk
  obtain ⟨t, ts, ht, hstart⟩ := b.beginsAs
  simp only [Tree.yield, List.append_assoc, List.length_append] at hn
  refine Accepts.iterate_next (u := b.yield)
    (S := fun all => all.map Branch.withoutIds = branches.map Branch.withoutIds ++ [b.denote]) hk
    (by simp [ht]) ?_ fun bs' k' hbs hk' => ?_
  · refine Accepts.check (Accepts.atEnd ?_)
    have hbrace : headSees (Empty .RightBrace) (b.yield ++ (bs.yield ++ .RightBrace :: tail)) =
        false := by
      rw [ht]
      cases t <;> simp_all [Empty]
    have hend : (b.yield ++ (bs.yield ++ TokenVariant.RightBrace :: tail)).isEmpty = false := by
      rw [ht]
      rfl
    rw [hbrace, hend]
    exact Accepts.map (ihb _ n (by simpa using hn)) fun branch hb => ⟨_, rfl, by simp [hb]⟩
  · refine (ihbs tail n k' bs' (by simp only [List.length_append]; omega) hk').mono fun all ha => ?_
    rw [ha, hbs]
    simp

theorem accepted_caseExpression {e : Tree .Expression} {b : Tree .Branch} {bs : Tree .Branches}
    (ihe : Accepted .Expression e) (ihb : Accepted .Branch b) (ihbs : Accepted .Branches bs) :
    Accepted .CaseExpression (.caseExpression e b bs) := by
  intro tail n hn
  simp only [Tree.yield, List.cons_append, List.append_assoc, List.length_append,
    List.length_cons, List.length_nil] at hn
  refine Accepts.cursor fun t => Accepts.expectEmpty ?_
  refine Accepts.bind (ihe _ n (by simp) ?_) fun scrutinee hs => ?_
  · simp only [List.length_append, List.length_cons, List.length_nil]
    omega
  refine Accepts.expectEmpty (Accepts.expectEmpty ?_)
  refine Accepts.bind (ihb _ n ?_) fun first hf => ?_
  · simp only [List.length_append, List.length_cons, List.length_nil]
    omega
  have hloop : Accepts (loop [first] (nextBranch (parseExpressionWithin n))) bs.yield
      ([.RightBrace] ++ tail) (nodes bs) fun all =>
        all.map Branch.withoutIds = [first].map Branch.withoutIds ++ bs.denote := by
    refine Accepts.loop fun k hk => ihbs tail n k [first] ?_ hk
    simp only [List.length_append, List.length_cons]
    omega
  refine Accepts.bind hloop fun branches hbs => ?_
  refine Accepts.expectEmpty (accepts_allocate _ fun id => Accepts.pure ?_)
  simp only [Expression.withoutIds, withoutIdsBranches_eq, hs, hbs, List.map_cons, List.map_nil, hf]
  rfl

/-! ## Definitions -/

theorem accepted_constructor (name : String) (fields : List String) :
    Accepted .Constructor (.constructor name fields) := by
  intro tail hstop
  refine Accepts.cursor fun t => Accepts.expect (a := name) rfl ?_
  exact Accepts.mapNode (accepts_parseNamesWhile holdsName_upper fields
    (headSees_upper_of_stops hstop fun _ => rfl)) fun names id hnames => by rw [hnames]; rfl

theorem accepted_constructorsEnd : Accepted .Constructors .constructorsEnd := by
  intro tail k cs hstop hk
  refine Accepts.iterate_end (c := cs) hk ?_ (by simp)
  exact Accepts.matchToken_no (headSees_empty (ne_of_stops hstop rfl)) (Accepts.pure rfl)

theorem accepted_nextConstructor {c : Tree .Constructor} {cs : Tree .Constructors}
    (ihc : Accepted .Constructor c) (ihcs : Accepted .Constructors cs) :
    Accepted .Constructors (.nextConstructor c cs) := by
  intro tail k constructors hstop hk
  refine Accepts.iterate_next (u := .Comma :: c.yield)
    (S := fun all => all.map Constructor.withoutIds =
      constructors.map Constructor.withoutIds ++ [c.denote]) hk
    (by simp) ?_ fun cs' k' hcs hk' => ?_
  · refine Accepts.matchToken_yes rfl ?_
    exact Accepts.map (ihc _ (stops_constructors hstop)) fun constructor hc =>
      ⟨_, rfl, by simp [hc]⟩
  · refine (ihcs tail k' cs' hstop hk').mono fun all ha => ?_
    rw [ha, hcs]
    simp

theorem accepts_parseExpression {e : Tree .Expression} (h : Accepted .Expression e)
    {tail : List TokenVariant} (hstop : Stops .Expression tail) :
    Accepts parseExpression e.yield tail (nodes e) (Expression.withoutIds · = e.denote) := by
  intro s hs hn
  refine h tail (s.rest.length + 1) hstop ?_ s hs hn
  have := congrArg List.length hs
  simp only [loads, List.length_map] at this
  omega

theorem accepted_functionDefinition (name : String) (parameters : List String)
    {e : Tree .Expression} (ih : Accepted .Expression e) :
    Accepted .Definition (.functionDefinition name parameters e) := by
  intro tail
  refine Accepts.check ?_
  have h : Accepts parseFunctionDefinition (Tree.functionDefinition name parameters e).yield
      tail (nodes e + 1) fun fd =>
        (Definition.FunctionDefinition fd).withoutIds =
          .FunctionDefinition ⟨0, name, parameters, e.denote⟩ := by
    refine Accepts.cursor fun t => Accepts.expectEmpty (Accepts.expect (a := name) rfl ?_)
    rw [show nodes e + 1 = 0 + (nodes e + 1) by omega]
    refine Accepts.bind (accepts_parseNamesWhile holdsName_lower parameters rfl) fun ps hps => ?_
    refine Accepts.expectEmpty (Accepts.expectEmpty ?_)
    have hstop : Stops .Expression ([TokenVariant.RightBrace] ++ tail) := by simp
    refine Accepts.bind (accepts_parseExpression ih hstop) fun body he => ?_
    refine Accepts.expectEmpty (accepts_allocate _ fun id => Accepts.pure ?_)
    simp [Definition.withoutIds, hps, he]
  exact Accepts.map h fun fd hfd => hfd

theorem accepted_dataTypeDefinition (name : String) {c : Tree .Constructor}
    {cs : Tree .Constructors} (ihc : Accepted .Constructor c) (ihcs : Accepted .Constructors cs) :
    Accepted .Definition (.dataTypeDefinition name c cs) := by
  intro tail
  refine Accepts.check (Accepts.check ?_)
  have h : Accepts parseDataTypeDefinition (Tree.dataTypeDefinition name c cs).yield
      tail (nodes c + (nodes cs + 1)) fun dt =>
        (Definition.DataTypeDefinition dt).withoutIds =
          .DataTypeDefinition ⟨0, name, c.denote :: cs.denote⟩ := by
    refine Accepts.cursor fun t => Accepts.expectEmpty (Accepts.expect (a := name) rfl ?_)
    refine Accepts.expectEmpty (Accepts.expectEmpty ?_)
    refine Accepts.bind (ihc (cs.yield ++ [.RightBrace] ++ tail)
      (by rw [List.append_assoc]; exact stops_constructors (by simp))) fun first hf => ?_
    have hloop : Accepts (loop [first] nextConstructor) cs.yield
        ([.RightBrace] ++ tail) (nodes cs) fun all =>
          all.map Constructor.withoutIds = [first].map Constructor.withoutIds ++ cs.denote :=
      Accepts.loop fun k hk => ihcs _ k [first] (by simp) hk
    refine Accepts.bind hloop fun constructors hcs => ?_
    refine Accepts.expectEmpty (accepts_allocate _ fun id => Accepts.pure ?_)
    simp [Definition.withoutIds, hcs, hf]
  exact Accepts.map h fun dt hdt => hdt

theorem accepted_programEnd : Accepted .Program .programEnd := by
  intro k definitions hk
  refine Accepts.iterate_end (c := ⟨definitions⟩) hk ?_ (by simp [Program.withoutIds])
  exact Accepts.atEnd (Accepts.pure rfl)

theorem accepted_nextDefinition {d : Tree .Definition} {p : Tree .Program}
    (ihd : Accepted .Definition d) (ihp : Accepted .Program p) :
    Accepted .Program (.nextDefinition d p) := by
  intro k definitions hk
  obtain ⟨t, ts, ht, _⟩ := d.beginsAs
  refine Accepts.iterate_next (u := d.yield)
    (S := fun q => q.withoutIds = ⟨definitions.map Definition.withoutIds ++ [d.denote]⟩) hk
    (by simp [ht]) ?_ fun q k' hq hk' => ?_
  · refine Accepts.atEnd ?_
    have hend : (d.yield ++ (p.yield ++ [])).isEmpty = false := by
      rw [ht]
      rfl
    rw [hend]
    exact Accepts.map (ihd _) fun def' hd => ⟨_, rfl, by simp [Program.withoutIds, hd]⟩
  · obtain ⟨ds⟩ := q
    refine (ihp k' ds hk').mono fun all ha => ?_
    simp only [Program.withoutIds, Program.mk.injEq] at hq
    rw [ha, hq]
    simp

theorem accepted {s : Nonterminal} (d : Tree s) : Accepted s d := by
  induction d with
  | programEnd => exact accepted_programEnd
  | nextDefinition d p ihd ihp => exact accepted_nextDefinition ihd ihp
  | functionDefinition name parameters e ih => exact accepted_functionDefinition name parameters ih
  | dataTypeDefinition name c cs ihc ihcs => exact accepted_dataTypeDefinition name ihc ihcs
  | constructor name fields => exact accepted_constructor name fields
  | constructorsEnd => exact accepted_constructorsEnd
  | nextConstructor c cs ihc ihcs => exact accepted_nextConstructor ihc ihcs
  | expression t ts iht ihts => exact accepted_expression iht ihts
  | sumsEnd => exact accepted_sumsEnd
  | nextSum op t ts iht ihts => exact accepted_nextSum op iht ihts
  | term f fs ihf ihfs => exact accepted_term ihf ihfs
  | productsEnd => exact accepted_productsEnd
  | nextProduct op f fs ihf ihfs => exact accepted_nextProduct op ihf ihfs
  | factor a ih => exact ih
  | application p ps ihp ihps => exact accepted_application ihp ihps
  | argumentsEnd => exact accepted_argumentsEnd
  | nextArgument p ps ihp ihps => exact accepted_nextArgument ihp ihps
  | num value => exact accepted_num value
  | lowerVariable name => exact accepted_lowerVariable name
  | upperVariable name => exact accepted_upperVariable name
  | parenthesized e ih => exact accepted_parenthesized ih
  | casePrimary c ih => exact accepted_casePrimary ih
  | caseExpression e b bs ihe ihb ihbs => exact accepted_caseExpression ihe ihb ihbs
  | branch p e ihp ihe => exact accepted_branch ihp ihe
  | branchesEnd => exact accepted_branchesEnd
  | nextBranch b bs ihb ihbs => exact accepted_nextBranch ihb ihbs
  | variablePattern name => exact accepted_variablePattern name
  | constructorPattern name arguments => exact accepted_constructorPattern name arguments

end mf.parsing
