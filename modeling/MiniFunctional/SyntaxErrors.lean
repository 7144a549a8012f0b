-- The parser's errors. What it throws blames the first token with which the
-- input is no longer the beginning of a program: the tokens before it begin
-- one, and with it every input is rejected, with the same error.
import MiniFunctional.Lookahead
import MiniFunctional.ParseGrammar

open mf.util mf.ast mf.tokenization mf.grammar

namespace mf.parsing

variable {α β γ : Type} {s : ParserState}

/-! ## The number of nodes -/

/-- The nodes of what a tree denotes. -/
def idCount : (nt : Nonterminal) → Denotation nt → Nat
  | .Program, definitions => (List.flatMap Definition.ids definitions).length
  | .Definition, d => (Definition.ids d).length
  | .Constructor, _ => 1
  | .Constructors, constructors => List.length (α := Constructor) constructors
  | .Sums, rest | .Products, rest =>
    (List.flatMap (fun x => x.2.ids) rest).length + List.length rest
  | .Arguments, arguments => (List.flatMap Expression.ids arguments).length + List.length arguments
  | .Branch, b => 2 + b.body.ids.length
  | .Branches, bs => (idsBranches bs).length
  | .Pattern, _ => 1
  | .Expression, e | .Term, e | .Factor, e | .Application, e | .Primary, e
  | .CaseExpression, e => (Expression.ids e).length

theorem chain_ids (left : Expression) (rest : List (BinaryOperatorKind × Expression)) :
    (chain left rest).ids.length =
      left.ids.length + ((rest.flatMap fun x => x.2.ids).length + rest.length) := by
  unfold chain
  induction rest generalizing left with
  | nil => simp
  | cons x rest ih =>
    simp only [List.foldl_cons, ih, Expression.ids, List.length_cons, List.length_append,
      List.flatMap_cons]
    omega

theorem applyAll_ids (f : Expression) (arguments : List Expression) :
    (applyAll f arguments).ids.length =
      f.ids.length + ((arguments.flatMap Expression.ids).length + arguments.length) := by
  unfold applyAll
  induction arguments generalizing f with
  | nil => simp
  | cons a arguments ih =>
    simp only [List.foldl_cons, ih, Expression.ids, List.length_cons, List.length_append,
      List.flatMap_cons]
    omega

theorem idsBranches_cons (b : Branch) (bs : List Branch) :
    (idsBranches (b :: bs)).length = 2 + b.body.ids.length + (idsBranches bs).length := by
  obtain ⟨id, p, e⟩ := b
  simp only [idsBranches, List.length_cons, List.length_append]
  omega

theorem idCount_denote {nt : Nonterminal} (d : Tree nt) : idCount nt d.denote = nodes d := by
  induction d with
  | programEnd | constructorsEnd | sumsEnd | productsEnd | argumentsEnd | branchesEnd => rfl
  | constructor | num | lowerVariable | upperVariable | variablePattern | constructorPattern => rfl
  | factor a ih => exact ih
  | parenthesized e ih => exact ih
  | casePrimary c ih => exact ih
  | expression t ts iht ihts =>
    simp only [idCount] at iht ihts ⊢
    simp only [Tree.denote, chain_ids, iht, ihts, nodes]
  | term f fs ihf ihfs =>
    simp only [idCount] at ihf ihfs ⊢
    simp only [Tree.denote, chain_ids, ihf, ihfs, nodes]
  | application p ps ihp ihps =>
    simp only [idCount] at ihp ihps ⊢
    simp only [Tree.denote, applyAll_ids, ihp, ihps, nodes]
  | nextSum op t ts iht ihts =>
    simp only [idCount] at iht ihts ⊢
    simp only [Tree.denote, List.flatMap_cons, List.length_append, List.length_cons, iht, nodes,
      ← ihts]
    omega
  | nextProduct op f fs ihf ihfs =>
    simp only [idCount] at ihf ihfs ⊢
    simp only [Tree.denote, List.flatMap_cons, List.length_append, List.length_cons, ihf, nodes,
      ← ihfs]
    omega
  | nextArgument p ps ihp ihps =>
    simp only [idCount] at ihp ihps ⊢
    simp only [Tree.denote, List.flatMap_cons, List.length_append, List.length_cons, ihp, nodes,
      ← ihps]
    omega
  | nextDefinition d p ihd ihp =>
    simp only [idCount] at ihd ihp ⊢
    simp only [Tree.denote, List.flatMap_cons, List.length_append, ihd, ihp, nodes]
  | functionDefinition name parameters e ih =>
    simp only [idCount] at ih ⊢
    simp only [Tree.denote, Definition.ids, List.length_cons, ih, nodes]
  | dataTypeDefinition name c cs ihc ihcs =>
    simp only [idCount] at ihc ihcs ⊢
    simp only [Tree.denote, Definition.ids, List.length_cons, List.length_map, ihcs, nodes]
    omega
  | nextConstructor c cs ihc ihcs =>
    simp only [idCount] at ihc ihcs ⊢
    simp only [Tree.denote, List.length_cons, ihcs, nodes]
    omega
  | branch p e ihp ih =>
    simp only [idCount] at ihp ih ⊢
    simp only [Tree.denote, ih, nodes]
    omega
  | caseExpression e b bs ihe ihb ihbs =>
    simp only [idCount] at ihe ihb ihbs ⊢
    simp only [Tree.denote, Expression.ids, List.length_cons, List.length_append,
      idsBranches_cons, ihe, ihb, ihbs, nodes]
    omega
  | nextBranch b bs ihb ihbs =>
    simp only [idCount] at ihb ihbs ⊢
    simp only [Tree.denote, idsBranches_cons, ihb, ihbs, nodes]

theorem withoutIds_ids (e : Expression) : e.withoutIds.ids.length = e.ids.length := by
  induction e with
  | IntLiteral id value => rfl
  | Variable id name => rfl
  | BinaryOperator kind id left right ihl ihr =>
    simp only [Expression.withoutIds, Expression.ids, List.length_cons, List.length_append,
      ihl, ihr]
  | Application id function argument ihf iha =>
    simp only [Expression.withoutIds, Expression.ids, List.length_cons, List.length_append,
      ihf, iha]
  | CaseExpression id scrutinee branches ihs ihb =>
    simp only [Expression.withoutIds, Expression.ids, List.length_cons, List.length_append, ihs]
    have hbranches : (idsBranches (withoutIdsBranches branches)).length =
        (idsBranches branches).length := by
      clear ihs
      induction branches with
      | nil => rfl
      | cons b bs ih =>
        obtain ⟨bid, p, e⟩ := b
        have hbody := ihb _ List.mem_cons_self
        have hrest := ih fun b hb => ihb b (List.mem_cons_of_mem _ hb)
        simp only at hbody
        simp only [withoutIdsBranches, idsBranches_cons, hbody, hrest]
    rw [hbranches]

/-- Room for the ids of the nodes of the tokens to go. -/
def Roomy (s : ParserState) : Prop := s.positions.length + 2 * s.rest.length ≤ 2 * maxTokens

theorem Roomy.progress {s s' : ParserState} {used : List TokenVariant} {ids : List NodeId}
    (h : Roomy s) (hp : Progress s s' used ids) (hn : ids.length ≤ 2 * used.length) : Roomy s' := by
  have hgrew := hp.grew
  have hlength := hp.length
  unfold Roomy at *
  omega

theorem Roomy.allocates (h : Roomy s) : s.positions.length < kInvalidNodeId := by
  unfold Roomy maxTokens at h
  unfold kInvalidNodeId
  omega

/-! ## Beginnings of phrases -/

/-- The tokens begin a phrase. -/
def Viable (nt : Nonterminal) (u : List TokenVariant) : Prop := ∃ d : Tree nt, u <+: d.yield

def someExpression : Tree .Expression :=
  .expression (.term (.factor (.application (.num 0) .argumentsEnd)) .productsEnd) .sumsEnd

def somePhrase : (nt : Nonterminal) → Tree nt
  | .Program => .programEnd
  | .Definition => .functionDefinition "f" [] someExpression
  | .Constructor => .constructor "C" []
  | .Constructors => .constructorsEnd
  | .Expression => someExpression
  | .Sums => .sumsEnd
  | .Term => .term (.factor (.application (.num 0) .argumentsEnd)) .productsEnd
  | .Products => .productsEnd
  | .Factor => .factor (.application (.num 0) .argumentsEnd)
  | .Application => .application (.num 0) .argumentsEnd
  | .Arguments => .argumentsEnd
  | .Primary => .num 0
  | .CaseExpression =>
    .caseExpression someExpression (.branch (.variablePattern "x") someExpression)
    .branchesEnd
  | .Branch => .branch (.variablePattern "x") someExpression
  | .Branches => .branchesEnd
  | .Pattern => .variablePattern "x"

theorem viable_nil (nt : Nonterminal) : Viable nt [] := ⟨somePhrase nt, List.nil_prefix⟩

/-! ## Runs that explain their errors -/

/-- The error names the first token left, or the end. -/
def Blames : ParseError → List Token → Prop
  | .unexpectedEndOfInput, rest => rest = []
  | .expectedGotEndOfInput _, rest => rest = []
  | .unexpectedToken position, rest => ∃ t ts, rest = t :: ts ∧ t.position = position
  | .expectedAt _ position, rest => ∃ t ts, rest = t :: ts ∧ t.position = position
  | .tooManyNodes, _ | .badVariantAccess, _ | .outOfFuel, _ => False

/-- `Q` holds of a run that returns; one that throws blames the first token that
it leaves, and `V` holds of the tokens that it took. -/
def Explains (p : Parser α) (s : ParserState) (V : List TokenVariant → Prop)
    (Q : α → ParserState → Prop) : Prop :=
  match p s with
  | .ok a s' => Q a s'
  | .error e s' => e ≠ .outOfFuel → Blames e s'.rest ∧ ∃ u, loads s.rest = u ++ loads s'.rest ∧ V u

variable {V V' : List TokenVariant → Prop}

theorem Explains.mono {p : Parser α} {Q Q' : α → ParserState → Prop} (h : Explains p s V Q)
    (hV : ∀ u, V u → V' u) (hQ : ∀ a s', Q a s' → Q' a s') : Explains p s V' Q' := by
  unfold Explains at h ⊢
  cases hp : p s with
  | ok a s' =>
    rw [hp] at h
    exact hQ a s' h
  | error e s' =>
    rw [hp] at h
    intro he
    obtain ⟨hblames, u, htook, hu⟩ := h he
    exact ⟨hblames, u, htook, hV u hu⟩

theorem Explains.pure {a : α} {Q : α → ParserState → Prop} (h : Q a s) :
    Explains (Pure.pure a) s V Q := h

/-- After `p` has taken the tokens `w`, an error has to explain what was taken
with these in front. -/
theorem Explains.bind {p : Parser α} {f : α → Parser β} {S : α → ParserState → Prop}
    {Q : β → ParserState → Prop} (h : Explains p s V S)
    (hf : ∀ a s', S a s' → ∃ w, loads s.rest = w ++ loads s'.rest ∧
      Explains (f a) s' (fun u => V (w ++ u)) Q) : Explains (p >>= f) s V Q := by
  unfold Explains at h ⊢
  rw [bind_run]
  cases hp : p s with
  | error e s' =>
    rw [hp] at h
    exact h
  | ok a s' =>
    rw [hp] at h
    obtain ⟨w, hw, hrest⟩ := hf a s' h
    unfold Explains at hrest
    simp only
    cases hq : f a s' with
    | ok b s'' =>
      rw [hq] at hrest
      exact hrest
    | error e s'' =>
      rw [hq] at hrest
      intro he
      obtain ⟨hblames, u, htook, hu⟩ := hrest he
      exact ⟨hblames, w ++ u, by rw [hw, htook, List.append_assoc], hu⟩

/-- What is known of the runs that return. -/
theorem Explains.meets {p : Parser α} {Q Q' : α → ParserState → Prop} (h : Explains p s V Q)
    (hm : Meets p s Q') : Explains p s V Q' := by
  unfold Explains Meets at *
  cases hp : p s with
  | ok a s' =>
    rw [hp] at hm
    exact hm
  | error e s' =>
    rw [hp] at h
    exact h

theorem Explains.of_run {p : Parser α} {f : α → Parser β} {a : α} {Q : β → ParserState → Prop}
    (hp : p s = .ok a s) (h : Explains (f a) s V Q) : Explains (p >>= f) s V Q := by
  unfold Explains at h ⊢
  rw [bind_run, hp]
  exact h

theorem Explains.check {T : Alternative α} {f : Bool → Parser β} {Q : β → ParserState → Prop}
    (h : Explains (f (sees T s)) s V Q) : Explains (check T >>= f) s V Q :=
  .of_run (check_run T s) h

theorem Explains.atEnd {f : Bool → Parser β} {Q : β → ParserState → Prop}
    (h : Explains (f s.rest.isEmpty) s V Q) : Explains (atEnd >>= f) s V Q :=
  .of_run (atEnd_run s) h

theorem Explains.cursor {f : Token → Parser β} {Q : β → ParserState → Prop}
    (h : ∀ t overrun, Explains (f t) { s with overrun } V Q) : Explains (cursor >>= f) s V Q := by
  obtain ⟨rest, positions, overrun⟩ := s
  cases rest with
  | nil => exact h _ true
  | cons t rest => exact h t overrun

/-! ### Steps -/

theorem explains_expect {T : Alternative α} (hV : V []) :
    Explains (expect T) s V fun _ _ => True := by
  unfold Explains
  rw [expect_run]
  obtain ⟨rest, positions, overrun⟩ := s
  cases rest with
  | nil => exact fun _ => ⟨rfl, [], rfl, hV⟩
  | cons t rest =>
    simp only
    cases hT : T t.load with
    | some payload => trivial
    | none => exact fun _ => ⟨⟨t, rest, rfl, rfl⟩, [], rfl, hV⟩

theorem explains_expectEmpty (load : TokenVariant) (hV : V []) :
    Explains (expect (Empty load)) s V fun _ s' => Progress s s' [load] [] :=
  (explains_expect hV).meets (meets_expectEmpty load s _ fun _ hp => hp)

theorem explains_expectName {T : Alternative String} {f : String → TokenVariant}
    (hT : HoldsName T f) (hV : V []) :
    Explains (expectName T) s V fun name s' => Progress s s' [f name] [] :=
  (explains_expect hV).meets (meets_expectName hT s _ fun _ _ hp => hp)

theorem explains_allocateNode (position : Position) (hroom : Roomy s) :
    Explains (allocateNode position) s V fun id s' => Progress s s' [] [id] := by
  refine Explains.meets (Q := fun _ _ => True) ?_ (meets_allocateNode position s _ fun _ _ hp => hp)
  unfold Explains
  rw [allocateNode_run, if_neg (Nat.not_le.mpr hroom.allocates)]
  trivial

theorem explains_matchToken {T : Alternative α} : Explains (matchToken T) s V fun _ _ => True := by
  unfold Explains
  rw [matchToken_run]
  trivial

theorem explains_throwExpected (expected : String) (hV : V []) (Q : α → ParserState → Prop) :
    Explains (throwExpected expected) s V Q := by
  unfold Explains throwExpected
  obtain ⟨rest, positions, overrun⟩ := s
  cases rest with
  | nil => exact fun _ => ⟨rfl, [], rfl, hV⟩
  | cons t rest => exact fun _ => ⟨⟨t, rest, rfl, rfl⟩, [], rfl, hV⟩

/-- The rule of a loop. `L` is what the tokens of the rest of the loop begin. -/
theorem explains_iterate {step : β → Parser (β ⊕ γ)} {m : Nat} {L : List TokenVariant → Prop}
    (h : ∀ b s, s.rest.length < m → Roomy s → Explains (step b) s L fun r s' =>
      ∃ w, loads s.rest = w ++ loads s'.rest ∧ ∀ b', r = .inl b' →
        s'.rest.length < m ∧ Roomy s' ∧ ∀ u, L u → L (w ++ u)) :
    ∀ n b s, s.rest.length < m → Roomy s → Explains (iterate step n b) s L fun _ _ => True := by
  intro n
  induction n with
  | zero =>
    intro b s _ _
    exact fun h => absurd rfl h
  | succ n ih =>
    intro b s hm hroom
    rw [iterate_succ]
    apply (h b s hm hroom).bind
    rintro r s' ⟨w, hw, hnext⟩
    refine ⟨w, hw, ?_⟩
    cases r with
    | inl b' =>
      obtain ⟨hm', hroom', hL⟩ := hnext b' rfl
      exact (ih b' s' hm' hroom').mono hL fun _ _ h => h
    | inr c => exact .pure trivial

theorem explains_loop {step : β → Parser (β ⊕ γ)} {m : Nat} {L : List TokenVariant → Prop}
    (h : ∀ b s, s.rest.length < m → Roomy s → Explains (step b) s L fun r s' =>
      ∃ w, loads s.rest = w ++ loads s'.rest ∧ ∀ b', r = .inl b' →
        s'.rest.length < m ∧ Roomy s' ∧ ∀ u, L u → L (w ++ u))
    (b : β) (hm : s.rest.length < m) (hroom : Roomy s) :
    Explains (loop b step) s L fun _ _ => True :=
  explains_iterate h _ b s hm hroom

/-- A list of names has no end that is an error. -/
theorem explains_parseNamesWhile {T : Alternative String} {f : String → TokenVariant}
    (hT : HoldsName T f) (hroom : Roomy s) :
    Explains (parseNamesWhile T) s V fun names s' => Progress s s' (names.map f) [] := by
  refine Explains.meets (Q := fun _ _ => True) ?_ (meets_parseNamesWhile hT s)
  have hloop : Explains (parseNamesWhile T) s (fun _ => False) fun _ _ => True := by
    refine explains_loop (m := s.rest.length + 1) (fun names s1 hm hroom1 => ?_) [] (by omega) hroom
    apply Explains.check
    by_cases hsees : sees T s1 = true
    · simp only [hsees, if_true]
      -- the name that is seen is taken
      have hname : Explains (expectName T) s1 (fun _ => False)
          fun name s' => Progress s1 s' [f name] [] := by
        refine Explains.meets (Q := fun _ _ => True) ?_ (meets_expectName hT s1 _ fun _ _ hp => hp)
        obtain ⟨rest, positions, overrun⟩ := s1
        unfold Explains expectName
        rw [expect_run]
        cases rest with
        | nil => cases hsees
        | cons t rest =>
          obtain ⟨payload, hpayload⟩ := Option.isSome_iff_exists.mp hsees
          simp only [hpayload]
      apply hname.bind
      intro name s2 hp
      have hlength := hp.length
      simp only [List.length_singleton] at hlength
      have hroom2 := hroom1.progress hp (Nat.zero_le _)
      exact ⟨_, hp.took, .pure ⟨_, hp.took, fun b' _ => ⟨by omega, hroom2, fun _ h => h⟩⟩⟩
    · simp only [hsees]
      exact .pure ⟨[], rfl, fun _ h => by cases h⟩
  exact hloop.mono (fun _ => False.elim) fun _ _ h => h

/-! ## Phrases -/

/-- A phrase of `nt` was read. -/
def Phrase (nt : Nonterminal) (s s' : ParserState) (ids : List NodeId) (d : Tree nt) : Prop :=
  Progress s s' d.yield ids ∧ ids.length + slack nt ≤ 2 * d.yield.length

theorem Phrase.roomy {nt : Nonterminal} {s s' : ParserState} {ids : List NodeId} {d : Tree nt}
    (h : Phrase nt s s' ids d) (hroom : Roomy s) : Roomy s' :=
  hroom.progress h.1 (by have := h.2; omega)

/-- On fewer than `m` tokens, `p` throws only after the beginning of a phrase of
`nt`, and what it returns is a phrase. -/
def ExplainsPhrase (nt : Nonterminal) (m : Nat) (p : Parser α) : Prop :=
  ∀ s, s.rest.length < m → Roomy s →
    Explains p s (Viable nt) fun _ s' => ∃ ids d, Phrase nt s s' ids d

/-- The nodes of a phrase, by what it denotes. -/
theorem phrase_of_meets {nt : Nonterminal} {p : Parser α} {ids : α → List NodeId}
    {erase : α → Denotation nt} (hcount : ∀ a, (ids a).length = idCount nt (erase a))
    (hm : Meets p s fun a s' => ∃ d : Tree nt, Progress s s' d.yield (ids a) ∧ erase a = d.denote)
    (h : Explains p s V fun _ _ => True) :
    Explains p s V fun _ s' => ∃ ids d, Phrase nt s s' ids d := by
  refine (h.meets hm).mono (fun _ h => h) ?_
  rintro a s' ⟨d, hp, hv⟩
  refine ⟨ids a, d, hp, ?_⟩
  rw [hcount, hv, idCount_denote]
  exact nodes_le d

theorem expression_count (e : Expression) :
    e.ids.length = idCount .Expression e.withoutIds := (withoutIds_ids e).symm

theorem explains_parsePattern (hroom : Roomy s) : Explains parsePattern s (Viable .Pattern)
    fun _ s' => ∃ ids d, Phrase .Pattern s s' ids d := by
  have hcount : ∀ p : Pattern, [p.id].length = idCount .Pattern p.withoutIds := fun _ => rfl
  refine phrase_of_meets hcount (meets_parsePattern s) ?_
  unfold parsePattern
  apply Explains.check
  by_cases hlower : sees LowerVariable s = true
  · simp only [hlower, if_true]
    refine Explains.cursor fun t overrun => ?_
    refine Explains.bind (explains_allocateNode _ hroom) fun id s1 hp1 => ⟨[], hp1.took, ?_⟩
    refine Explains.bind (explains_expectName holdsName_lower (viable_nil _)) fun name s2 hp2 => ?_
    exact ⟨_, hp2.took, .pure trivial⟩
  · simp only [hlower]
    apply Explains.check
    by_cases hupper : sees UpperVariable s = true
    · simp only [hupper, if_true]
      refine Explains.cursor fun t overrun => ?_
      refine Explains.bind (explains_allocateNode _ hroom) fun id s1 hp1 => ⟨[], hp1.took, ?_⟩
      refine Explains.bind (explains_expectName holdsName_upper (viable_nil _))
        fun name s2 hp2 => ⟨_, hp2.took, ?_⟩
      have hroom2 : Roomy s2 := hroom.progress (hp1.trans hp2).of_overrun (by simp)
      refine Explains.bind (explains_parseNamesWhile holdsName_lower hroom2) fun names s3 hp3 => ?_
      exact ⟨_, hp3.took, .pure trivial⟩
    · simp only [hupper]
      exact explains_throwExpected _ (viable_nil _) _

/-! ### Operators of one level -/

/-- The nonterminals of a level: `whole` is an operand and then `rest`, which is
operators with operands. -/
structure ViableLevel {O : Type} (token : O → TokenVariant) (operand rest whole : Nonterminal) :
    Prop where
  first : ∀ {u}, Viable operand u → Viable whole u
  more : ∀ (d : Tree operand) {u}, Viable rest u → Viable whole (d.yield ++ u)
  next : ∀ (op : O) {u}, Viable operand u → Viable rest (token op :: u)
  after : ∀ (op : O) (d : Tree operand) {u}, Viable rest u →
    Viable rest (token op :: (d.yield ++ u))

theorem viableLevel_sum : ViableLevel SumOperator.token .Term .Sums .Expression := by
  constructor
  · rintro u ⟨d, h⟩
    exact ⟨.expression d .sumsEnd, by simpa using h⟩
  · rintro d u ⟨d', h⟩
    exact ⟨.expression d d', by simpa using h⟩
  · rintro op u ⟨d, h⟩
    exact ⟨.nextSum op d .sumsEnd, by simpa using h⟩
  · rintro op d u ⟨d', h⟩
    exact ⟨.nextSum op d d', by simpa using h⟩

theorem viableLevel_product : ViableLevel ProductOperator.token .Factor .Products .Term := by
  constructor
  · rintro u ⟨d, h⟩
    exact ⟨.term d .productsEnd, by simpa using h⟩
  · rintro d u ⟨d', h⟩
    exact ⟨.term d d', by simpa using h⟩
  · rintro op u ⟨d, h⟩
    exact ⟨.nextProduct op d .productsEnd, by simpa using h⟩
  · rintro op d u ⟨d', h⟩
    exact ⟨.nextProduct op d d', by simpa using h⟩

theorem matchBinaryOperator_returns (operators : List (TokenVariant × BinaryOperatorFactory))
    (s : ParserState) : ∃ r s', matchBinaryOperator operators s = .ok r s' := by
  induction operators generalizing s with
  | nil => exact ⟨none, s, rfl⟩
  | cons operator operators ih =>
    obtain ⟨token, factory⟩ := operator
    rw [matchBinaryOperator, bind_run, matchToken_run]
    cases sees (Empty token) s with
    | true => exact ⟨_, _, rfl⟩
    | false => exact ih s

theorem explains_matchBinaryOperator {O : Type} {token : O → TokenVariant}
    {kind : O → BinaryOperatorKind} {operators : List (TokenVariant × BinaryOperatorFactory)}
    (hop : MatchesOperator token kind (matchBinaryOperator operators)) :
    Explains (matchBinaryOperator operators) s V fun r s' => (r = none ∧ s' = s) ∨
      ∃ op, r = some (Expression.BinaryOperator (kind op)) ∧ Progress s s' [token op] [] := by
  refine Explains.meets (Q := fun _ _ => True) ?_ (hop s)
  obtain ⟨r, s', hrun⟩ := matchBinaryOperator_returns operators s
  unfold Explains
  rw [hrun]
  trivial

theorem explains_parseBinaryLevel {O : Type} {token : O → TokenVariant}
    {kind : O → BinaryOperatorKind} {operand rest whole : Nonterminal}
    (hlevel : ViableLevel token operand rest whole)
    {p : Parser Expression} {m : Nat} (hp : ExplainsPhrase operand m p)
    {operators : List (TokenVariant × BinaryOperatorFactory)}
    (hop : MatchesOperator token kind (matchBinaryOperator operators))
    (hm : s.rest.length < m) (hroom : Roomy s) :
    Explains (parseBinaryLevel p (matchBinaryOperator operators)) s (Viable whole)
      fun _ _ => True := by
  refine Explains.bind ((hp s hm hroom).mono (fun _ => hlevel.first) fun _ _ h => h) ?_
  rintro left s1 ⟨ids, d, hphrase⟩
  have hlength := hphrase.1.length
  refine ⟨_, hphrase.1.took, ?_⟩
  have hloop : Explains (loop left (nextOperand p (matchBinaryOperator operators))) s1
      (Viable rest) fun _ _ => True := by
    refine explains_loop (m := m) (fun left s2 hm2 hroom2 => ?_) left (by omega)
      (hphrase.roomy hroom)
    apply Explains.atEnd
    by_cases hend : s2.rest.isEmpty = true
    · simp only [hend, if_true]
      exact .pure ⟨[], rfl, fun _ h => by cases h⟩
    simp only [hend]
    refine Explains.cursor fun t overrun => ?_
    refine Explains.bind (explains_matchBinaryOperator hop) ?_
    rintro r s3 (⟨rfl, rfl⟩ | ⟨op, rfl, hp3⟩)
    · exact ⟨[], rfl, .pure ⟨[], rfl, fun _ h => by cases h⟩⟩
    have hroom3 : Roomy s3 := hroom2.progress hp3.of_overrun (Nat.zero_le _)
    refine ⟨_, hp3.took, Explains.bind (explains_allocateNode _ hroom3) fun id s4 hp4 => ?_⟩
    refine ⟨[], hp4.took, ?_⟩
    have hp' := (hp3.trans hp4).of_overrun
    have hroom4 : Roomy s4 := hroom2.progress hp' (by simp)
    have hlength4 := hp'.length
    simp only [List.append_nil, List.length_singleton] at hlength4
    refine Explains.bind ((hp s4 (by omega) hroom4).mono (fun u hu => hlevel.next op hu)
      fun _ _ h => h) ?_
    rintro right s5 ⟨ids5, d5, hphrase5⟩
    have hlength5 := hphrase5.1.length
    have htook := (hp'.trans hphrase5.1).took
    refine ⟨_, hphrase5.1.took, .pure ⟨_, htook, fun left' _ => ⟨by omega, ?_, fun u hu => ?_⟩⟩⟩
    · exact hphrase5.roomy hroom4
    · simpa using hlevel.after op d5 hu
  exact hloop.mono (fun u hu => hlevel.more d hu) fun _ _ h => h

/-! ### Case expressions -/

variable {m : Nat} {self : Parser Expression}

theorem branch_count (b : Branch) :
    (b.id :: b.pattern.id :: b.body.ids).length = idCount .Branch b.withoutIds := by
  obtain ⟨id, p, e⟩ := b
  simp only [idCount, Branch.withoutIds, List.length_cons, withoutIds_ids]
  omega

theorem explains_parseBranch (hself : ExplainsPhrase .Expression m self)
    (hm : s.rest.length < m) (hroom : Roomy s) :
    Explains (parseBranch self) s (Viable .Branch) fun _ _ => True := by
  refine Explains.cursor fun t overrun => ?_
  refine Explains.bind ((explains_parsePattern (s := { s with overrun }) hroom).mono
    (fun u hu => ?_) fun _ _ h => h) ?_
  · obtain ⟨d, h⟩ := hu
    exact ⟨.branch d someExpression, h.trans (List.prefix_append _ _)⟩
  rintro pattern s1 ⟨ids, d, hphrase⟩
  refine ⟨_, hphrase.1.took, ?_⟩
  have hroom1 : Roomy s1 := hphrase.roomy hroom
  refine Explains.bind (explains_expectEmpty _ ⟨.branch d someExpression, by simp⟩)
    fun _ s2 hp2 => ⟨_, hp2.took, ?_⟩
  refine Explains.bind (explains_expectEmpty _ ⟨.branch d someExpression, by simp⟩)
    fun _ s3 hp3 => ⟨_, hp3.took, ?_⟩
  have hp := (hphrase.1.trans hp2).trans hp3
  have hlength := hp.length
  have hroom3 : Roomy s3 := hroom1.progress (hp2.trans hp3) (by simp)
  refine Explains.bind ((hself s3 (by simp only at hlength; omega) hroom3).mono (fun u hu => ?_)
    fun _ _ h => h) ?_
  · obtain ⟨e, h⟩ := hu
    exact ⟨.branch d e, by simpa using h.trans (List.prefix_append _ _)⟩
  rintro body s4 ⟨ids4, e, hphrase4⟩
  refine ⟨_, hphrase4.1.took, ?_⟩
  refine Explains.bind (explains_expectEmpty _ ⟨.branch d e, by simp⟩) fun _ s5 hp5 =>
    ⟨_, hp5.took, ?_⟩
  have hroom5 : Roomy s5 := (hphrase4.roomy hroom3).progress hp5 (by simp)
  exact Explains.bind (explains_allocateNode _ hroom5) fun id s6 hp6 => ⟨_, hp6.took, .pure trivial⟩

theorem explainsPhrase_parseBranch (hself : ExplainsPhrase .Expression m self)
    (hderives : SelfDerives m self) :
    ExplainsPhrase .Branch m (parseBranch self) := fun s hm hroom =>
  phrase_of_meets branch_count (meets_parseBranch hderives s hm)
    (explains_parseBranch hself hm hroom)

theorem explains_branches (hself : ExplainsPhrase .Expression m self)
    (hderives : SelfDerives m self) (branches : List Branch) (hm : s.rest.length < m)
    (hroom : Roomy s) :
    Explains (loop branches (nextBranch self)) s (Viable .Branches) fun _ _ => True := by
  refine explains_loop (m := m) (fun bs s1 hm1 hroom1 => ?_) branches hm hroom
  refine Explains.check (Explains.atEnd ?_)
  by_cases hmore : (!sees (Empty .RightBrace) s1 && !s1.rest.isEmpty) = true
  · simp only [hmore, if_true]
    refine Explains.bind ((explainsPhrase_parseBranch hself hderives s1 hm1 hroom1).mono
      (fun u hu => ?_) fun _ _ h => h) ?_
    · obtain ⟨b, h⟩ := hu
      exact ⟨.nextBranch b .branchesEnd, by simpa using h⟩
    rintro b s2 ⟨ids, d, hphrase⟩
    have hlength := hphrase.1.length
    have hroom2 := hphrase.roomy hroom1
    refine ⟨_, hphrase.1.took, .pure ⟨_, hphrase.1.took, fun bs' _ => ⟨by omega, hroom2, ?_⟩⟩⟩
    rintro u ⟨ds, h⟩
    exact ⟨.nextBranch d ds, by simpa using h⟩
  · simp only [hmore]
    exact .pure ⟨[], rfl, fun _ h => by cases h⟩

theorem branches_phrase (hderives : SelfDerives m self) (branches : List Branch)
    (hm : s.rest.length < m) : Meets (loop branches (nextBranch self)) s fun _ s' =>
      ∃ ids d, Phrase .Branches s s' ids d := by
  refine (meets_branches hderives branches s hm).mono ?_
  rintro _ s' ⟨new, d, rfl, hp, hv⟩
  refine ⟨_, d, hp, ?_⟩
  have hcount := idCount_denote d
  rw [← hv] at hcount
  simp only [idCount] at hcount
  have hsame : (idsBranches (new.map Branch.withoutIds)).length = (idsBranches new).length := by
    clear hv hp hcount
    induction new with
    | nil => rfl
    | cons b bs ih =>
      obtain ⟨id, p, e⟩ := b
      rw [List.map_cons, idsBranches_cons, idsBranches_cons, ih]
      simp only [Branch.withoutIds, withoutIds_ids]
  rw [← hsame, hcount]
  exact nodes_le d

theorem explains_parseCaseExpression (hself : ExplainsPhrase .Expression m self)
    (hderives : SelfDerives m self) (hm : s.rest.length ≤ m) (hroom : Roomy s) :
    Explains (parseCaseExpression self) s (Viable .CaseExpression) fun _ _ => True := by
  refine Explains.cursor fun t overrun => ?_
  refine Explains.bind (explains_expectEmpty (s := { s with overrun }) _ (viable_nil _))
    fun _ s1 hp1 => ⟨_, hp1.took, ?_⟩
  have hlength1 := hp1.length
  have hroom1 : Roomy s1 := hroom.progress hp1.of_overrun (by simp)
  simp only [List.length_singleton] at hlength1
  refine Explains.bind ((hself s1 (by omega) hroom1).mono (fun u hu => ?_) fun _ _ h => h) ?_
  · obtain ⟨e, h⟩ := hu
    exact ⟨.caseExpression e (somePhrase .Branch) .branchesEnd,
      by simpa using h.trans (List.prefix_append _ _)⟩
  rintro scrutinee s2 ⟨ids2, e, hphrase2⟩
  refine ⟨_, hphrase2.1.took, ?_⟩
  have hroom2 := hphrase2.roomy hroom1
  refine Explains.bind (explains_expectEmpty _ ⟨.caseExpression e (somePhrase .Branch) .branchesEnd,
    by simp⟩) fun _ s3 hp3 => ⟨_, hp3.took, ?_⟩
  refine Explains.bind (explains_expectEmpty _ ⟨.caseExpression e (somePhrase .Branch) .branchesEnd,
    by simp⟩) fun _ s4 hp4 => ⟨_, hp4.took, ?_⟩
  have hroom4 : Roomy s4 := hroom2.progress (hp3.trans hp4) (by simp)
  have hlength4 := ((hphrase2.1.trans hp3).trans hp4).length
  refine Explains.bind ((explainsPhrase_parseBranch hself hderives s4 (by omega) hroom4).mono
    (fun u hu => ?_) fun _ _ h => h) ?_
  · obtain ⟨b, h⟩ := hu
    exact ⟨.caseExpression e b .branchesEnd, by simpa using h.trans (List.prefix_append _ _)⟩
  rintro first s5 ⟨ids5, b, hphrase5⟩
  refine ⟨_, hphrase5.1.took, ?_⟩
  have hroom5 := hphrase5.roomy hroom4
  have hlength5 := hphrase5.1.length
  refine Explains.bind (((explains_branches hself hderives [first] (by omega) hroom5).meets
    (branches_phrase hderives [first] (by omega))).mono (fun u hu => ?_) fun _ _ h => h) ?_
  · obtain ⟨bs, h⟩ := hu
    exact ⟨.caseExpression e b bs, by simpa using h.trans (List.prefix_append _ _)⟩
  rintro branches s6 ⟨ids6, bs, hphrase6⟩
  refine ⟨_, hphrase6.1.took, ?_⟩
  have hroom6 := hphrase6.roomy hroom5
  refine Explains.bind (explains_expectEmpty _ ⟨.caseExpression e b bs, by simp⟩)
    fun _ s7 hp7 => ⟨_, hp7.took, ?_⟩
  have hroom7 : Roomy s7 := hroom6.progress hp7 (by simp)
  exact Explains.bind (explains_allocateNode _ hroom7) fun id s8 hp8 => ⟨_, hp8.took, .pure trivial⟩

/-! ### Applications -/

theorem explains_parseVariable (hroom : Roomy s) :
    Explains parseVariable s (Viable .Primary) fun _ _ => True := by
  refine Explains.cursor fun t overrun => ?_
  have hname : Explains (expectAnyName [LowerVariable, UpperVariable]) { s with overrun }
      (Viable .Primary) fun _ s' => ∃ load, Progress s s' [load] [] := by
    apply Explains.check
    by_cases hlower : sees LowerVariable { s with overrun } = true
    · simp only [hlower, if_true]
      exact (explains_expectName holdsName_lower (viable_nil _)).mono (fun _ h => h)
        fun _ _ hp => ⟨_, hp.of_overrun⟩
    · simp only [hlower]
      apply Explains.check
      by_cases hupper : sees UpperVariable { s with overrun } = true
      · simp only [hupper, if_true]
        exact (explains_expectName holdsName_upper (viable_nil _)).mono (fun _ h => h)
          fun _ _ hp => ⟨_, hp.of_overrun⟩
      · simp only [hupper]
        exact explains_throwExpected _ (viable_nil _) _
  refine Explains.bind hname ?_
  rintro name s1 ⟨load, hp1⟩
  refine ⟨_, hp1.took, ?_⟩
  have hroom1 : Roomy s1 := hroom.progress hp1 (by simp)
  exact Explains.bind (explains_allocateNode _ hroom1) fun id s2 hp2 => ⟨_, hp2.took, .pure trivial⟩

theorem explains_parsePrimary (hself : ExplainsPhrase .Expression m self)
    (hderives : SelfDerives m self) (hm : s.rest.length ≤ m) (hroom : Roomy s) :
    Explains (parsePrimary self) s (Viable .Primary) fun _ _ => True := by
  apply Explains.check
  by_cases hparen : sees (Empty .LeftParentheses) s = true
  · simp only [hparen, if_true]
    refine Explains.bind (explains_expectEmpty _ (viable_nil _)) fun _ s1 hp1 => ⟨_, hp1.took, ?_⟩
    have hlength1 := hp1.length
    have hroom1 : Roomy s1 := hroom.progress hp1 (by simp)
    simp only [List.length_singleton] at hlength1
    refine Explains.bind ((hself s1 (by omega) hroom1).mono (fun u hu => ?_) fun _ _ h => h) ?_
    · obtain ⟨e, h⟩ := hu
      exact ⟨.parenthesized e, by simpa using h.trans (List.prefix_append _ _)⟩
    rintro expression s2 ⟨ids, e, hphrase⟩
    refine ⟨_, hphrase.1.took, ?_⟩
    exact Explains.bind (explains_expectEmpty _ ⟨.parenthesized e, by simp⟩)
      fun _ s3 hp3 => ⟨_, hp3.took, .pure trivial⟩
  simp only [hparen]
  apply Explains.check
  by_cases hint : sees IntLiteral s = true
  · simp only [hint, if_true]
    refine Explains.cursor fun t overrun => ?_
    refine Explains.bind (explains_allocateNode (s := { s with overrun }) _ hroom)
      fun id s1 hp1 => ⟨[], hp1.took, ?_⟩
    -- the literal that is seen is taken
    have hvalue : Explains (expect IntLiteral) s1 (Viable .Primary)
        fun _ s' => ∃ load, Progress s1 s' [load] [] :=
      (explains_expect (viable_nil _)).meets
        (meets_expect _ _ _ fun load _ s' _ hp => ⟨load, hp⟩)
    refine Explains.bind hvalue ?_
    rintro value s2 ⟨load, hp2⟩
    exact ⟨_, hp2.took, .pure trivial⟩
  simp only [hint]
  have hany : checkAny [check LowerVariable, check UpperVariable] s =
      .ok (sees LowerVariable s || sees UpperVariable s) s := by
    rw [checkAny_run _ _ (by simp)]
    simp
  refine Explains.of_run hany ?_
  by_cases hvariable : (sees LowerVariable s || sees UpperVariable s) = true
  · simp only [hvariable, if_true]
    exact explains_parseVariable hroom
  simp only [hvariable]
  apply Explains.check
  by_cases hcase : sees (Empty .Case) s = true
  · simp only [hcase, if_true]
    refine (explains_parseCaseExpression hself hderives hm hroom).mono ?_ fun _ _ h => h
    rintro u ⟨d, h⟩
    exact ⟨.casePrimary d, h⟩
  · simp only [hcase]
    exact explains_throwExpected _ (viable_nil _) _

theorem explainsPhrase_parsePrimary (hself : ExplainsPhrase .Expression m self)
    (hderives : SelfDerives m self) : ExplainsPhrase .Primary (m + 1) (parsePrimary self) :=
  fun s hm hroom => phrase_of_meets expression_count (meets_parsePrimary hderives s (by omega))
    (explains_parsePrimary hself hderives (by omega) hroom)

theorem explains_parseApplication (hself : ExplainsPhrase .Expression m self)
    (hderives : SelfDerives m self) (hm : s.rest.length < m + 1) (hroom : Roomy s) :
    Explains (parseApplication self) s (Viable .Application) fun _ _ => True := by
  have hprimary := explainsPhrase_parsePrimary hself hderives
  refine Explains.bind ((hprimary s hm hroom).mono (fun u hu => ?_) fun _ _ h => h) ?_
  · obtain ⟨d, h⟩ := hu
    exact ⟨.application d .argumentsEnd, by simpa using h⟩
  rintro f s1 ⟨ids, d, hphrase⟩
  refine ⟨_, hphrase.1.took, ?_⟩
  have hlength := hphrase.1.length
  have hloop : Explains (loop f (nextArgument self)) s1 (Viable .Arguments) fun _ _ => True := by
    refine explains_loop (m := m + 1) (fun f s2 hm2 hroom2 => ?_) f (by omega) (hphrase.roomy hroom)
    refine Explains.of_run (checkAny_primary s2) ?_
    by_cases hbegins : beginsPrimary (loads s2.rest) = true
    · simp only [hbegins, if_true]
      refine Explains.cursor fun t overrun => ?_
      refine Explains.bind ((hprimary { s2 with overrun } hm2 hroom2).mono (fun u hu => ?_)
        fun _ _ h => h) ?_
      · obtain ⟨d, h⟩ := hu
        exact ⟨.nextArgument d .argumentsEnd, by simpa using h⟩
      rintro a s3 ⟨ids3, d3, hphrase3⟩
      have hroom3 : Roomy s3 := hphrase3.roomy hroom2
      refine ⟨_, hphrase3.1.took, ?_⟩
      refine Explains.bind (explains_allocateNode _ hroom3) fun id s4 hp4 => ⟨_, hp4.took, ?_⟩
      have hp := (hphrase3.1.trans hp4).of_overrun
      have hlength4 := hp.length
      -- the argument leaves room for the node of its application
      have hslack := hphrase3.2
      simp only [slack] at hslack
      have hroom4 : Roomy s4 := hroom2.progress hp (by
        simp only [List.length_append, List.length_singleton, List.append_nil]
        omega)
      have htook := hp.took
      rw [List.append_nil] at htook
      simp only [List.append_nil] at hlength4
      refine .pure ⟨_, htook, fun f' _ => ⟨by omega, hroom4, ?_⟩⟩
      rintro u ⟨ds, h⟩
      exact ⟨.nextArgument d3 ds, by simpa using h⟩
    · simp only [hbegins]
      exact .pure ⟨[], rfl, fun _ h => by cases h⟩
  refine hloop.mono (fun u hu => ?_) fun _ _ h => h
  obtain ⟨ds, h⟩ := hu
  exact ⟨.application d ds, by simpa using h⟩

theorem explainsPhrase_parseFactor (hself : ExplainsPhrase .Expression m self)
    (hderives : SelfDerives m self) : ExplainsPhrase .Factor (m + 1) (parseFactor self) := by
  intro s hm hroom
  have hcount : ∀ e : Expression, e.ids.length = idCount .Factor e.withoutIds := expression_count
  apply phrase_of_meets hcount (meets_parseFactor hderives s (by omega))
  refine (explains_parseApplication hself hderives hm hroom).mono ?_ fun _ _ h => h
  rintro u ⟨d, h⟩
  exact ⟨.factor d, h⟩

theorem explainsPhrase_parseTerm (hself : ExplainsPhrase .Expression m self)
    (hderives : SelfDerives m self) : ExplainsPhrase .Term (m + 1) (parseTerm self) := by
  intro s hm hroom
  have hcount : ∀ e : Expression, e.ids.length = idCount .Term e.withoutIds := expression_count
  apply phrase_of_meets hcount (meets_parseTerm hderives s (by omega))
  exact explains_parseBinaryLevel viableLevel_product (explainsPhrase_parseFactor hself hderives)
    matchesOperator_product hm hroom

theorem explainsPhrase_parseExpressionWithin (n : Nat) :
    ExplainsPhrase .Expression n (parseExpressionWithin n) := by
  induction n with
  | zero => exact fun s hm => absurd hm (Nat.not_lt_zero _)
  | succ n ih =>
    intro s hm hroom
    apply phrase_of_meets expression_count (selfDerives_parseExpressionWithin (n + 1) s hm)
    exact explains_parseBinaryLevel viableLevel_sum
      (explainsPhrase_parseTerm ih (selfDerives_parseExpressionWithin n))
      matchesOperator_sum hm hroom

theorem explains_parseExpression (hroom : Roomy s) : Explains parseExpression s (Viable .Expression)
    fun _ s' => ∃ ids d, Phrase .Expression s s' ids d := by
  have h := explainsPhrase_parseExpressionWithin (s.rest.length + 1) s (by omega) hroom
  unfold Explains at h ⊢
  unfold parseExpression
  exact h

/-! ### Definitions -/

theorem explains_parseConstructor (hroom : Roomy s) :
    Explains parseConstructor s (Viable .Constructor) fun _ s' =>
      ∃ ids d, Phrase .Constructor s s' ids d := by
  have hcount : ∀ c : Constructor, [c.id].length = idCount .Constructor c.withoutIds := fun _ => rfl
  refine phrase_of_meets hcount (meets_parseConstructor s) ?_
  refine Explains.cursor fun t overrun => ?_
  refine Explains.bind (explains_expectName (s := { s with overrun }) holdsName_upper
    (viable_nil _)) fun name s1 hp1 => ⟨_, hp1.took, ?_⟩
  have hroom1 : Roomy s1 := hroom.progress hp1.of_overrun (by simp)
  refine Explains.bind (explains_parseNamesWhile holdsName_upper hroom1)
    fun fields s2 hp2 => ⟨_, hp2.took, ?_⟩
  have hroom2 : Roomy s2 := hroom1.progress hp2 (by simp)
  exact Explains.bind (explains_allocateNode _ hroom2) fun id s3 hp3 => ⟨_, hp3.took, .pure trivial⟩

theorem explains_constructors (constructors : List Constructor) (hroom : Roomy s) :
    Explains (loop constructors nextConstructor) s (Viable .Constructors) fun _ _ => True := by
  refine explains_loop (m := s.rest.length + 1) (fun cs s1 hm1 hroom1 => ?_) constructors (by omega)
    hroom
  have hcomma : Explains (matchToken (Empty .Comma)) s1 (Viable .Constructors)
      fun matched s' => (matched = false ∧ s' = s1) ∨
        (matched = true ∧ Progress s1 s' [.Comma] []) := by
    refine explains_matchToken.meets ?_
    unfold Meets
    rw [matchToken_run]
    by_cases hsees : sees (Empty .Comma) s1 = true
    · have hmeets := meets_matchToken (Empty .Comma) s1
        (fun matched s' => Progress s1 s' [.Comma] [])
        (fun h => by simp [hsees] at h) fun load s' hl hp => by
          obtain rfl : load = .Comma := by
            by_contra hne
            simp [Empty, hne] at hl
          exact hp
      exact .inr ⟨hsees, hmeets.of_ok (matchToken_run _ _)⟩
    · exact .inl ⟨by simpa using hsees, by simp [hsees]⟩
  refine Explains.bind hcomma ?_
  rintro matched s2 (⟨rfl, rfl⟩ | ⟨rfl, hp2⟩)
  · exact ⟨[], rfl, .pure ⟨[], rfl, fun _ h => by cases h⟩⟩
  refine ⟨_, hp2.took, ?_⟩
  have hroom2 : Roomy s2 := hroom1.progress hp2 (by simp)
  refine Explains.bind ((explains_parseConstructor hroom2).mono (fun u hu => ?_) fun _ _ h => h) ?_
  · obtain ⟨c, h⟩ := hu
    exact ⟨.nextConstructor c .constructorsEnd, by simpa using h⟩
  rintro c s3 ⟨ids, d, hphrase⟩
  have htook := (hp2.trans hphrase.1).took
  have hlength := (hp2.trans hphrase.1).length
  refine ⟨_, hphrase.1.took, .pure ⟨_, htook, fun cs' _ => ⟨by omega, hphrase.roomy hroom2, ?_⟩⟩⟩
  rintro u ⟨ds, h⟩
  exact ⟨.nextConstructor d ds, by simpa using h⟩

theorem constructors_phrase (constructors : List Constructor) :
    Meets (loop constructors nextConstructor) s fun _ s' =>
      ∃ ids d, Phrase .Constructors s s' ids d := by
  refine (meets_loop (m := s.rest.length + 1) (Q := fun _ s _ s' =>
    ∃ ids d, Phrase .Constructors s s' ids d) (fun cs s hs => ?_) constructors s (by omega)).mono ?_
  · simp only [nextConstructor, meets_bind]
    refine meets_matchToken _ _ _ (fun _ => ?_) fun load s1 hl hp1 => ?_
    · exact ⟨[], .constructorsEnd, Progress.refl _, by simp⟩
    · simp only [if_true, meets_bind]
      obtain rfl : load = .Comma := by
        by_contra hne
        simp [Empty, hne] at hl
      refine (meets_parseConstructor s1).mono ?_
      rintro c s2 ⟨dc, hp2, _⟩
      simp only [meets_pure]
      refine ⟨by have := (hp1.trans hp2).length; simp at this; omega, ?_⟩
      rintro all s3 ⟨ids, d, hp3, hcount⟩
      refine ⟨c.id :: ids, .nextConstructor dc d, ?_, ?_⟩
      · simpa using (hp1.trans hp2).trans hp3
      · simp only [List.length_cons, slack, Tree.yield, List.length_append] at hcount ⊢
        omega
  · exact fun _ _ h => h

theorem explains_parseFunctionDefinition (hroom : Roomy s) :
    Explains parseFunctionDefinition s (Viable .Definition) fun _ _ => True := by
  refine Explains.cursor fun t overrun => ?_
  refine Explains.bind (explains_expectEmpty (s := { s with overrun }) _ (viable_nil _))
    fun _ s1 hp1 => ⟨_, hp1.took, ?_⟩
  refine Explains.bind
    (explains_expectName holdsName_lower ⟨.functionDefinition "f" [] someExpression,
    by simp⟩) fun name s2 hp2 => ⟨_, hp2.took, ?_⟩
  have hroom2 : Roomy s2 := hroom.progress (hp1.trans hp2).of_overrun (by simp)
  refine Explains.bind (explains_parseNamesWhile holdsName_lower hroom2)
    fun parameters s3 hp3 => ⟨_, hp3.took, ?_⟩
  refine Explains.bind (explains_expectEmpty _ ⟨.functionDefinition name parameters someExpression,
    by simp⟩) fun _ s4 hp4 => ⟨_, hp4.took, ?_⟩
  refine Explains.bind (explains_expectEmpty _ ⟨.functionDefinition name parameters someExpression,
    by simp⟩) fun _ s5 hp5 => ⟨_, hp5.took, ?_⟩
  have hroom5 : Roomy s5 := hroom2.progress ((hp3.trans hp4).trans hp5) (by simp)
  refine Explains.bind ((explains_parseExpression hroom5).mono (fun u hu => ?_) fun _ _ h => h) ?_
  · obtain ⟨e, h⟩ := hu
    exact ⟨.functionDefinition name parameters e, by simpa using h.trans (List.prefix_append _ _)⟩
  rintro body s6 ⟨ids, e, hphrase⟩
  refine ⟨_, hphrase.1.took, ?_⟩
  refine Explains.bind (explains_expectEmpty _ ⟨.functionDefinition name parameters e, by simp⟩)
    fun _ s7 hp7 => ⟨_, hp7.took, ?_⟩
  have hroom7 : Roomy s7 := (hphrase.roomy hroom5).progress hp7 (by simp)
  exact Explains.bind (explains_allocateNode _ hroom7) fun id s8 hp8 => ⟨_, hp8.took, .pure trivial⟩

theorem explains_parseDataTypeDefinition (hroom : Roomy s) :
    Explains parseDataTypeDefinition s (Viable .Definition) fun _ _ => True := by
  refine Explains.cursor fun t overrun => ?_
  refine Explains.bind (explains_expectEmpty (s := { s with overrun }) _ (viable_nil _))
    fun _ s1 hp1 => ⟨_, hp1.took, ?_⟩
  refine Explains.bind (explains_expectName holdsName_upper
    ⟨.dataTypeDefinition "D" (.constructor "C" []) .constructorsEnd, by simp⟩)
    fun name s2 hp2 => ⟨_, hp2.took, ?_⟩
  refine Explains.bind (explains_expectEmpty _
    ⟨.dataTypeDefinition name (.constructor "C" []) .constructorsEnd, by simp⟩)
    fun _ s3 hp3 => ⟨_, hp3.took, ?_⟩
  refine Explains.bind (explains_expectEmpty _
    ⟨.dataTypeDefinition name (.constructor "C" []) .constructorsEnd, by simp⟩)
    fun _ s4 hp4 => ⟨_, hp4.took, ?_⟩
  have hroom4 : Roomy s4 := hroom.progress (((hp1.trans hp2).trans hp3).trans hp4).of_overrun
    (by simp)
  refine Explains.bind ((explains_parseConstructor hroom4).mono (fun u hu => ?_) fun _ _ h => h) ?_
  · obtain ⟨c, h⟩ := hu
    exact ⟨.dataTypeDefinition name c .constructorsEnd,
      by simpa using h.trans (List.prefix_append _ _)⟩
  rintro first s5 ⟨ids5, c, hphrase5⟩
  refine ⟨_, hphrase5.1.took, ?_⟩
  have hroom5 := hphrase5.roomy hroom4
  refine Explains.bind (((explains_constructors [first] hroom5).meets
    (constructors_phrase [first])).mono (fun u hu => ?_) fun _ _ h => h) ?_
  · obtain ⟨cs, h⟩ := hu
    exact ⟨.dataTypeDefinition name c cs, by simpa using h.trans (List.prefix_append _ _)⟩
  rintro constructors s6 ⟨ids6, cs, hphrase6⟩
  refine ⟨_, hphrase6.1.took, ?_⟩
  refine Explains.bind (explains_expectEmpty _ ⟨.dataTypeDefinition name c cs, by simp⟩)
    fun _ s7 hp7 => ⟨_, hp7.took, ?_⟩
  have hroom7 : Roomy s7 := (hphrase6.roomy hroom5).progress hp7 (by simp)
  exact Explains.bind (explains_allocateNode _ hroom7) fun id s8 hp8 => ⟨_, hp8.took, .pure trivial⟩

theorem definition_count (d : Definition) : d.ids.length = idCount .Definition d.withoutIds := by
  cases d with
  | FunctionDefinition fd =>
    simp only [idCount, Definition.withoutIds, Definition.ids, List.length_cons, withoutIds_ids]
  | DataTypeDefinition dt =>
    simp only [idCount, Definition.withoutIds, Definition.ids, List.length_cons, List.length_map]

theorem explains_parseDefinition (hroom : Roomy s) :
    Explains parseDefinition s (Viable .Definition) fun _ s' =>
      ∃ ids d, Phrase .Definition s s' ids d := by
  refine phrase_of_meets definition_count (meets_parseDefinition s) ?_
  apply Explains.check
  by_cases hfunction : sees (Empty .Function) s = true
  · simp only [hfunction, if_true]
    exact Explains.bind ((explains_parseFunctionDefinition hroom).meets
      (meets_parseFunctionDefinition s)) fun fd s1 h => by
        obtain ⟨d, hp, _⟩ := h
        exact ⟨_, hp.took, .pure trivial⟩
  simp only [hfunction]
  apply Explains.check
  by_cases hdata : sees (Empty .Data) s = true
  · simp only [hdata, if_true]
    exact Explains.bind ((explains_parseDataTypeDefinition hroom).meets
      (meets_parseDataTypeDefinition s)) fun dt s1 h => by
        obtain ⟨d, hp, _⟩ := h
        exact ⟨_, hp.took, .pure trivial⟩
  · simp only [hdata]
    exact explains_throwExpected _ (viable_nil _) _

theorem explains_parseProgram (hroom : Roomy s) :
    Explains parseProgram s (Viable .Program) fun _ _ => True := by
  refine explains_loop (m := s.rest.length + 1) (fun program s1 hm1 hroom1 => ?_)
    (⟨[]⟩ : Program) (by omega) hroom
  apply Explains.atEnd
  by_cases hend : s1.rest.isEmpty = true
  · simp only [hend, if_true]
    exact .pure ⟨[], rfl, fun _ h => by cases h⟩
  simp only [hend]
  refine Explains.bind ((explains_parseDefinition hroom1).mono (fun u hu => ?_) fun _ _ h => h) ?_
  · obtain ⟨d, h⟩ := hu
    exact ⟨.nextDefinition d .programEnd, by simpa using h⟩
  rintro def' s2 ⟨ids, d, hphrase⟩
  have hlength := hphrase.1.length
  have hroom2 := hphrase.roomy hroom1
  refine ⟨_, hphrase.1.took, .pure ⟨_, hphrase.1.took, fun _ _ => ⟨by omega, hroom2, ?_⟩⟩⟩
  rintro u ⟨ds, h⟩
  exact ⟨.nextDefinition d ds, by simpa using h⟩

/-! ## The parser -/

/-- The error blames the first of the tokens `rest`: the tokens before it begin
a program, and every input that begins with them and with it is rejected with
the same error. At the end of the input, the tokens as a whole begin one. -/
structure BlamesFirst (e : ParseError) (used rest : List Token) : Prop where
  blames : Blames e rest
  begins : ∃ d : Tree .Program, loads used <+: d.yield
  rejected : ∀ t ts, rest = t :: ts → ∀ tokens : TokenVector, used ++ [t] <+: tokens.tokens →
    parse tokens = .error e

/-- The parser reports the first token with which its input is no longer the
beginning of a program. -/
theorem parse_blamesFirst {tokens : TokenVector} {e : ParseError} (h : parse tokens = .error e) :
    ∃ used rest, tokens.tokens = used ++ rest ∧ BlamesFirst e used rest := by
  have hfits := tokens.fits
  have hexplains := explains_parseProgram (s := ⟨tokens.tokens, [], false⟩) (by
    unfold Roomy
    simp only [List.length_nil]
    omega)
  have hfuel : e ≠ .outOfFuel := by
    rintro rfl
    exact parse_ne_outOfFuel tokens h
  have htakes := lookahead_parseProgram.takes ⟨tokens.tokens, [], false⟩
  cases hrun : parseProgram ⟨tokens.tokens, [], false⟩ with
  | ok program s =>
    unfold parse at h
    rw [hrun] at h
    cases h
  | error e' s =>
    have he : e' = e := by
      unfold parse at h
      rw [hrun] at h
      exact Except.error.inj h
    subst he
    unfold Explains at hexplains
    rw [hrun] at hexplains htakes
    obtain ⟨hblames, u, hu, d, hd⟩ := hexplains hfuel
    obtain ⟨used, hused⟩ := htakes
    change used ++ s.rest = tokens.tokens at hused
    refine ⟨used, s.rest, hused.symm, hblames, ⟨d, ?_⟩, ?_⟩
    · have hloads : loads used ++ loads s.rest = u ++ loads s.rest := by
        rw [← hu, ← hused]
        exact List.map_append.symm
      rw [List.append_cancel_right hloads]
      exact hd
    · rintro t ts hrest tokens' ⟨r', hr'⟩
      have hsame := lookahead_parseProgram.same ⟨[], [], false⟩ (used ++ [t]) ts r'
      unfold SameRun at hsame
      have hs : (⟨[], [], false⟩ : ParserState).withRest (used ++ [t] ++ ts) =
          ⟨tokens.tokens, [], false⟩ := by
        rw [← hused, hrest, List.append_assoc]
        rfl
      have hs' : (⟨[], [], false⟩ : ParserState).withRest (used ++ [t] ++ r') =
          ⟨tokens'.tokens, [], false⟩ := by
        rw [← hr']
        rfl
      rw [hs, hs', hrun] at hsame
      rcases hsame [t] (by simp) hrest with ⟨s1, hout⟩ | ⟨s1, hout⟩ | hq
      · cases hout
        exact absurd rfl hfuel
      · exfalso
        apply parse_ne_outOfFuel tokens'
        unfold parse
        rw [hout]
      · unfold parse
        rw [hq]
        rfl

/-- `defn f = { }`. -/
def emptyBodyTokens : TokenVector where
  tokens := [⟨.Function, ⟨1, 1, 1, 5⟩⟩, ⟨.LowerVariable "f", ⟨1, 6, 1, 7⟩⟩, ⟨.Equal, ⟨1, 8, 1, 9⟩⟩,
    ⟨.LeftBrace, ⟨1, 10, 1, 11⟩⟩, ⟨.RightBrace, ⟨1, 12, 1, 13⟩⟩]
  fits := by decide

theorem parse_blamesFirst_emptyBody : ∃ used rest, emptyBodyTokens.tokens = used ++ rest ∧
    BlamesFirst (.expectedAt "expression" ⟨1, 12, 1, 13⟩) used rest :=
  parse_blamesFirst rfl

end mf.parsing
