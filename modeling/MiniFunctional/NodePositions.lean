-- Node ids index the positions. `Written` says which tokens write a tree and
-- which of them is the anchor of each of its nodes; what the parser returns is
-- written by the tokens it took, and the position it recorded for a node is
-- that of the node's anchor.
import MiniFunctional.ParseGrammar

open mf.util mf.ast mf.tokenization mf.grammar

namespace mf.parsing

/-! ## The tokens of a tree and the anchors of its nodes

`anchor id token` relates a node to its anchor token. -/

section

variable (anchor : NodeId → Token → Prop)

/-- `names` are written by one token each. -/
def WrittenNames (token : String → TokenVariant) (names : List String) (ts : List Token) : Prop :=
  loads ts = names.map token

/-- A pattern is anchored at its own first token. -/
def WrittenPattern : Pattern → List Token → Prop
  | .VariablePattern id name, ts =>
    ∃ t, ts = [t] ∧ t.load = .LowerVariable name ∧ anchor id t
  | .ConstructorPattern id name arguments, ts =>
    ∃ t us, ts = t :: us ∧ t.load = .UpperVariable name ∧ anchor id t ∧
      WrittenNames .LowerVariable arguments us

/-- The left recursive levels of the grammar of expressions. -/
inductive Level
  | Expression
  | Term
  | Application
  | Primary

mutual

inductive Written : Level → Expression → List Token → Prop
  | num {id : NodeId} {value : Int32} {t : Token} :
      t.load = .IntLiteral value → anchor id t → Written .Primary (.IntLiteral id value) [t]
  | lowerVariable {id : NodeId} {name : String} {t : Token} :
      t.load = .LowerVariable name → anchor id t → Written .Primary (.Variable id name) [t]
  | upperVariable {id : NodeId} {name : String} {t : Token} :
      t.load = .UpperVariable name → anchor id t → Written .Primary (.Variable id name) [t]
  -- parentheses have no node
  | parenthesized {e : Expression} {ts : List Token} {l r : Token} :
      l.load = .LeftParentheses → Written .Expression e ts → r.load = .RightParentheses →
      Written .Primary e (l :: (ts ++ [r]))
  -- anchored at the keyword
  | caseExpression {id : NodeId} {s : Expression} {bs : List Branch} {ts us : List Token}
      {c o l r : Token} :
      c.load = .Case → anchor id c → Written .Expression s ts → o.load = .Of →
      l.load = .LeftBrace → bs ≠ [] → WrittenBranches bs us → r.load = .RightBrace →
      Written .Primary (.CaseExpression id s bs) (c :: (ts ++ o :: l :: (us ++ [r])))
  | primary {e : Expression} {ts : List Token} : Written .Primary e ts → Written .Application e ts
  -- anchored at the first token of the argument
  | application {id : NodeId} {f a : Expression} {ts us : List Token} {t : Token} :
      Written .Application f ts → Written .Primary a (t :: us) → anchor id t →
      Written .Application (.Application id f a) (ts ++ t :: us)
  | factor {e : Expression} {ts : List Token} : Written .Application e ts → Written .Term e ts
  -- anchored at the operator
  | product {op : ProductOperator} {id : NodeId} {l r : Expression} {ts us : List Token}
      {t : Token} :
      Written .Term l ts → t.load = op.token → anchor id t → Written .Application r us →
      Written .Term (.BinaryOperator op.kind id l r) (ts ++ t :: us)
  | term {e : Expression} {ts : List Token} : Written .Term e ts → Written .Expression e ts
  | sum {op : SumOperator} {id : NodeId} {l r : Expression} {ts us : List Token} {t : Token} :
      Written .Expression l ts → t.load = op.token → anchor id t → Written .Term r us →
      Written .Expression (.BinaryOperator op.kind id l r) (ts ++ t :: us)

/-- A branch is anchored at the first token of its pattern. -/
inductive WrittenBranches : List Branch → List Token → Prop
  | nil : WrittenBranches [] []
  | cons {id : NodeId} {p : Pattern} {e : Expression} {bs : List Branch} {t : Token}
      {ps ts us : List Token} {a l r : Token} :
      WrittenPattern anchor p (t :: ps) → anchor id t → a.load = .Arrow → l.load = .LeftBrace →
      Written .Expression e ts → r.load = .RightBrace → WrittenBranches bs us →
      WrittenBranches (⟨id, p, e⟩ :: bs) (t :: ps ++ a :: l :: (ts ++ r :: us))

end

/-- A constructor is anchored at its name. -/
def WrittenConstructor (c : Constructor) (ts : List Token) : Prop :=
  ∃ t us, ts = t :: us ∧ t.load = .UpperVariable c.name ∧ anchor c.id t ∧
    WrittenNames .UpperVariable c.fields us

inductive WrittenConstructors : List Constructor → List Token → Prop
  | single {c : Constructor} {ts : List Token} : WrittenConstructor anchor c ts →
      WrittenConstructors [c] ts
  | next {cs : List Constructor} {c : Constructor} {ts us : List Token} {t : Token} :
      WrittenConstructors cs ts → t.load = .Comma → WrittenConstructor anchor c us →
      WrittenConstructors (cs ++ [c]) (ts ++ t :: us)

/-- A definition is anchored at its keyword. -/
inductive WrittenDefinition : Definition → List Token → Prop
  | functionDefinition {fd : FunctionDefinition} {k n e l r : Token} {ps ts : List Token} :
      k.load = .Function → anchor fd.id k → n.load = .LowerVariable fd.name →
      WrittenNames .LowerVariable fd.parameters ps → e.load = .Equal → l.load = .LeftBrace →
      Written anchor .Expression fd.body ts → r.load = .RightBrace →
      WrittenDefinition (.FunctionDefinition fd) (k :: n :: (ps ++ e :: l :: (ts ++ [r])))
  | dataTypeDefinition {dt : DataTypeDefinition} {k n e l r : Token} {ts : List Token} :
      k.load = .Data → anchor dt.id k → n.load = .UpperVariable dt.name → e.load = .Equal →
      l.load = .LeftBrace → WrittenConstructors anchor dt.constructors ts → r.load = .RightBrace →
      WrittenDefinition (.DataTypeDefinition dt) (k :: n :: e :: l :: (ts ++ [r]))

inductive WrittenDefinitions : List Definition → List Token → Prop
  | nil : WrittenDefinitions [] []
  | cons {d : Definition} {ds : List Definition} {ts us : List Token} :
      WrittenDefinition anchor d ts → WrittenDefinitions ds us →
      WrittenDefinitions (d :: ds) (ts ++ us)

end

/-! ## More anchors -/

section

variable {anchor anchor' : NodeId → Token → Prop} (h : ∀ id t, anchor id t → anchor' id t)

include h

theorem WrittenPattern.mono {p : Pattern} {ts : List Token} (hp : WrittenPattern anchor p ts) :
    WrittenPattern anchor' p ts := by
  cases p with
  | VariablePattern id name =>
    obtain ⟨t, rfl, hl, ha⟩ := hp
    exact ⟨t, rfl, hl, h _ _ ha⟩
  | ConstructorPattern id name arguments =>
    obtain ⟨t, us, rfl, hl, ha, hus⟩ := hp
    exact ⟨t, us, rfl, hl, h _ _ ha, hus⟩

mutual

theorem Written.mono : {l : Level} → {e : Expression} → {ts : List Token} →
    Written anchor l e ts → Written anchor' l e ts
  | _, _, _, .num hl ha => .num hl (h _ _ ha)
  | _, _, _, .lowerVariable hl ha => .lowerVariable hl (h _ _ ha)
  | _, _, _, .upperVariable hl ha => .upperVariable hl (h _ _ ha)
  | _, _, _, .parenthesized hl he hr => .parenthesized hl (Written.mono he) hr
  | _, _, _, .caseExpression hc ha hs ho hl hne hbs hr =>
    .caseExpression hc (h _ _ ha) (Written.mono hs) ho hl hne (WrittenBranches.mono hbs) hr
  | _, _, _, .primary he => .primary (Written.mono he)
  | _, _, _, .application hf ha hanchor =>
    .application (Written.mono hf) (Written.mono ha) (h _ _ hanchor)
  | _, _, _, .factor he => .factor (Written.mono he)
  | _, _, _, .product hl ht ha hr => .product (Written.mono hl) ht (h _ _ ha) (Written.mono hr)
  | _, _, _, .term he => .term (Written.mono he)
  | _, _, _, .sum hl ht ha hr => .sum (Written.mono hl) ht (h _ _ ha) (Written.mono hr)

theorem WrittenBranches.mono : {bs : List Branch} → {ts : List Token} →
    WrittenBranches anchor bs ts → WrittenBranches anchor' bs ts
  | _, _, .nil => .nil
  | _, _, .cons hp ha harrow hl he hr hbs =>
    .cons (WrittenPattern.mono h hp) (h _ _ ha) harrow hl (Written.mono he) hr
      (WrittenBranches.mono hbs)

end

theorem WrittenConstructor.mono {c : Constructor} {ts : List Token}
    (hc : WrittenConstructor anchor c ts) : WrittenConstructor anchor' c ts := by
  obtain ⟨t, us, rfl, hl, ha, hus⟩ := hc
  exact ⟨t, us, rfl, hl, h _ _ ha, hus⟩

theorem WrittenConstructors.mono {cs : List Constructor} {ts : List Token}
    (hcs : WrittenConstructors anchor cs ts) : WrittenConstructors anchor' cs ts := by
  induction hcs with
  | single hc => exact .single (hc.mono h)
  | next _ ht hc ih => exact .next ih ht (hc.mono h)

theorem WrittenDefinition.mono {d : Definition} {ts : List Token}
    (hd : WrittenDefinition anchor d ts) : WrittenDefinition anchor' d ts := by
  cases hd with
  | functionDefinition hk ha hn hps he hl hbody hr =>
    exact .functionDefinition hk (h _ _ ha) hn hps he hl (hbody.mono h) hr
  | dataTypeDefinition hk ha hn he hl hcs hr =>
    exact .dataTypeDefinition hk (h _ _ ha) hn he hl (hcs.mono h) hr

end

/-! ## Runs of the parser -/

variable {α : Type}

/-- The anchor of a node is the token whose position stands at the node's id. -/
def IndexedBy (positions : List Position) (id : NodeId) (t : Token) : Prop :=
  positions[id]? = some t.position

/-- A run from `s` to `s'` took the tokens `used`; the positions of `s` stay
where they are. -/
structure Takes (s s' : ParserState) (used : List Token) : Prop where
  took : s.rest = used ++ s'.rest
  kept : s.positions <+: s'.positions

theorem Takes.refl (s : ParserState) : Takes s s [] := ⟨rfl, List.prefix_refl _⟩

theorem Takes.trans {s s1 s2 : ParserState} {u1 u2 : List Token} (h1 : Takes s s1 u1)
    (h2 : Takes s1 s2 u2) : Takes s s2 (u1 ++ u2) := by
  refine ⟨?_, h1.kept.trans h2.kept⟩
  rw [h1.took, h2.took, List.append_assoc]

theorem Takes.of_overrun {s s' : ParserState} {overrun : Bool} {used : List Token}
    (h : Takes { s with overrun } s' used) : Takes s s' used := ⟨h.took, h.kept⟩

theorem Takes.length {s s' : ParserState} {used : List Token} (h : Takes s s' used) :
    s.rest.length = used.length + s'.rest.length := by
  rw [h.took, List.length_append]

/-- Anchors stay. -/
theorem Takes.indexed {s s' : ParserState} {used : List Token} (h : Takes s s' used) (id : NodeId)
    (t : Token) (ht : IndexedBy s.positions id t) : IndexedBy s'.positions id t := by
  obtain ⟨more, hmore⟩ := h.kept
  unfold IndexedBy at ht ⊢
  rw [← hmore, List.getElem?_append_left (List.getElem?_eq_some_iff.mp ht).1]
  exact ht

theorem takes_expect (T : Alternative α) (s : ParserState) (Q : α → ParserState → Prop)
    (h : ∀ t payload s', T t.load = some payload → Takes s s' [t] → Q payload s') :
    Meets (expect T) s Q := by
  unfold Meets
  rw [expect_run]
  obtain ⟨rest, positions, overrun⟩ := s
  cases rest with
  | nil => simp
  | cons t rest =>
    simp only
    cases hT : T t.load with
    | none => simp
    | some payload => exact h t payload _ hT ⟨rfl, List.prefix_refl _⟩

theorem takes_expectEmpty (load : TokenVariant) (s : ParserState) (Q : Unit → ParserState → Prop)
    (h : ∀ t s', t.load = load → Takes s s' [t] → Q () s') : Meets (expect (Empty load)) s Q := by
  refine takes_expect _ _ _ fun t payload s' hl ht => ?_
  unfold Empty at hl
  split at hl
  · rename_i heq
    exact h t s' heq ht
  · cases hl

theorem takes_expectName {T : Alternative String} {f : String → TokenVariant} (hT : HoldsName T f)
    (s : ParserState) (Q : String → ParserState → Prop)
    (h : ∀ t name s', t.load = f name → Takes s s' [t] → Q name s') : Meets (expectName T) s Q := by
  refine takes_expect _ _ _ fun t name s' hl ht => ?_
  rw [hT] at hl
  exact h t name s' hl ht

/-- The new node's anchor is the token of the position that is recorded. -/
theorem takes_allocateNode (position : Position) (s : ParserState) (Q : NodeId → ParserState → Prop)
    (h : ∀ id s', Takes s s' [] → (∀ t, t.position = position → IndexedBy s'.positions id t) →
      Q id s') : Meets (allocateNode position) s Q := by
  unfold Meets
  rw [allocateNode_run]
  split
  · rename_i hp
    split at hp
    · cases hp
    · obtain ⟨rfl, rfl⟩ : _ ∧ _ := by simpa using hp
      refine h _ _ ⟨rfl, List.prefix_append _ _⟩ fun t ht => ?_
      simp [IndexedBy, ht]
  · rename_i hp
    split at hp
    · cases hp
      simp
    · cases hp

theorem takes_matchToken (T : Alternative α) (s : ParserState) (Q : Bool → ParserState → Prop)
    (hno : Q false s) (hyes : ∀ t s', (T t.load).isSome → Takes s s' [t] → Q true s') :
    Meets (matchToken T) s Q := by
  unfold Meets
  rw [matchToken_run]
  simp only
  obtain ⟨rest, positions, overrun⟩ := s
  cases hs : sees T ⟨rest, positions, overrun⟩ with
  | false => simpa [hs] using hno
  | true =>
    cases rest with
    | nil => simp [sees] at hs
    | cons t rest =>
      exact hyes t _ (by simpa [sees] using hs) ⟨rfl, List.prefix_refl _⟩

/-- The token at the cursor is the first that is taken next. -/
theorem takes_cursor (s : ParserState) (Q : Token → ParserState → Prop)
    (h : ∀ token overrun, (∀ s' t ts, Takes s s' (t :: ts) → token = t) →
      Q token { s with overrun }) : Meets cursor s Q := by
  refine meets_cursor s Q fun token overrun htoken => h token overrun fun s' t ts ht => ?_
  exact (htoken t (ts ++ s'.rest) ht.took).1

theorem takes_parseNamesWhile {T : Alternative String} {f : String → TokenVariant}
    (hT : HoldsName T f) (s : ParserState) :
    Meets (parseNamesWhile T) s fun names s' => ∃ ts, Takes s s' ts ∧ WrittenNames f names ts := by
  refine (meets_loop (m := s.rest.length + 1)
    (Q := fun names s c s' => ∃ new ts, c = names ++ new ∧ Takes s s' ts ∧ WrittenNames f new ts)
    (fun names s _ => ?_) [] s (by omega)).mono ?_
  · simp only [nextName, meets_bind, meets_check]
    split
    · simp only [meets_bind]
      refine takes_expectName hT _ _ fun t name s' ht hp => ?_
      simp only [meets_pure]
      refine ⟨by have := hp.length; simp at this; omega, ?_⟩
      rintro c s'' ⟨new, ts, rfl, hp', hts⟩
      refine ⟨name :: new, t :: ts, by simp, by simpa using hp.trans hp', ?_⟩
      unfold WrittenNames at hts ⊢
      simp [ht, hts]
    · exact ⟨[], [], by simp, Takes.refl _, rfl⟩
  · rintro _ s' ⟨new, ts, rfl, hp, hts⟩
    exact ⟨ts, hp, by simpa using hts⟩

/-! ## Expressions -/

/-- A run from `s` to `s'` took tokens that write `e`. -/
def Writes (level : Level) (s : ParserState) (e : Expression) (s' : ParserState) : Prop :=
  ∃ ts, Takes s s' ts ∧ Written (IndexedBy s'.positions) level e ts

/-- `matchOperator` takes the token of an operator, or nothing. -/
def TakesOperator {O : Type} (token : O → TokenVariant) (kind : O → BinaryOperatorKind)
    (p : Parser (Option BinaryOperatorFactory)) : Prop :=
  ∀ s, Meets p s fun r s' =>
    (r = none ∧ s' = s) ∨
    ∃ op t, r = some (Expression.BinaryOperator (kind op)) ∧ t.load = token op ∧ Takes s s' [t]

theorem isSome_empty {load x : TokenVariant} (h : (Empty load x).isSome) : x = load := by
  by_contra hne
  simp [Empty, hne] at h

theorem takesOperator_sum : TakesOperator SumOperator.token SumOperator.kind
    (matchBinaryOperator [(.Plus, Addition), (.Minus, Subtraction)]) := by
  intro s
  simp only [matchBinaryOperator, meets_bind]
  refine takes_matchToken _ _ _ ?_ fun t s' hl ht => ?_
  · simp only [meets_bind, Bool.false_eq_true, if_false]
    refine takes_matchToken _ _ _ ?_ fun t s' hl ht => ?_
    · simp
    · exact Or.inr ⟨.Minus, t, rfl, isSome_empty hl, ht⟩
  · exact Or.inr ⟨.Plus, t, rfl, isSome_empty hl, ht⟩

theorem takesOperator_product : TakesOperator ProductOperator.token ProductOperator.kind
    (matchBinaryOperator [(.Star, Multiplication), (.Slash, Division)]) := by
  intro s
  simp only [matchBinaryOperator, meets_bind]
  refine takes_matchToken _ _ _ ?_ fun t s' hl ht => ?_
  · simp only [meets_bind, Bool.false_eq_true, if_false]
    refine takes_matchToken _ _ _ ?_ fun t s' hl ht => ?_
    · simp
    · exact Or.inr ⟨.Slash, t, rfl, isSome_empty hl, ht⟩
  · exact Or.inr ⟨.Star, t, rfl, isSome_empty hl, ht⟩

/-- One level of operators: `inner` is the level of the operands. The id of a
node is made before its right operand is read, with the operator's position. -/
theorem writes_parseBinaryLevel {O : Type} {token : O → TokenVariant}
    {kind : O → BinaryOperatorKind} {operand : Parser Expression}
    {operator : Parser (Option BinaryOperatorFactory)} {m : Nat} (inner outer : Level)
    (hop : TakesOperator token kind operator)
    (hbase : ∀ anchor e ts, Written anchor inner e ts → Written anchor outer e ts)
    (hnode : ∀ anchor op id l r ts us t, Written anchor outer l ts → t.load = token op →
      anchor id t → Written anchor inner r us →
      Written anchor outer (.BinaryOperator (kind op) id l r) (ts ++ t :: us))
    (hand : ∀ s, s.rest.length < m → Meets operand s (Writes inner s))
    (s : ParserState) (hm : s.rest.length < m) :
    Meets (parseBinaryLevel operand operator) s (Writes outer s) := by
  simp only [parseBinaryLevel, meets_bind]
  refine (hand s hm).mono ?_
  rintro left s1 ⟨ts, ht, hw⟩
  refine (meets_loop (m := m)
    (Q := fun left s e s' => ∃ us, Takes s s' us ∧
      ∀ ts, Written (IndexedBy s.positions) outer left ts →
        Written (IndexedBy s'.positions) outer e (ts ++ us))
    (fun left s hs => ?_) left s1 (by have := ht.length; omega)).mono ?_
  · simp only [nextOperand, meets_bind, meets_atEnd]
    split
    · exact ⟨[], Takes.refl _, fun ts h => by simpa using h⟩
    simp only [meets_bind]
    refine takes_cursor _ _ fun token overrun htoken => ?_
    refine (hop _).mono fun r s2 hr => ?_
    rcases hr with ⟨rfl, rfl⟩ | ⟨op, t, rfl, hload, ht2⟩
    · exact ⟨[], (Takes.refl _).of_overrun, fun ts h => by simpa using h⟩
    simp only [meets_bind]
    refine takes_allocateNode _ _ _ fun id s3 ht3 hid => ?_
    have hlen2 := ht2.of_overrun.length
    have hlen3 := ht3.length
    simp only [List.length_cons, List.length_nil] at hlen2 hlen3
    refine (hand s3 (by omega)).mono ?_
    rintro right s4 ⟨us, ht4, hw4⟩
    have hlen4 := ht4.length
    simp only [meets_pure]
    refine ⟨by omega, ?_⟩
    rintro e s5 ⟨vs, ht5, hw5⟩
    have hall := (ht2.of_overrun.trans ht3).trans ht4
    refine ⟨t :: us ++ vs, by simpa using hall.trans ht5, fun ts hleft => ?_⟩
    have hanchor := ht4.indexed id t (hid t (by rw [htoken s2 t [] ht2.of_overrun]))
    have hnew := hnode _ op id _ _ _ _ _ (hleft.mono hall.indexed) hload hanchor hw4
    simpa using hw5 _ hnew
  · rintro e s2 ⟨us, ht2, hw2⟩
    exact ⟨ts ++ us, ht.trans ht2, hw2 ts (hbase _ _ _ hw)⟩

theorem written_parsePattern (s : ParserState) : Meets parsePattern s fun p s' =>
    ∃ t ts, Takes s s' (t :: ts) ∧ WrittenPattern (IndexedBy s'.positions) p (t :: ts) := by
  simp only [parsePattern, meets_bind, meets_check]
  split
  · simp only [parseVariablePattern, meets_bind]
    refine takes_cursor _ _ fun token overrun htoken => ?_
    refine takes_allocateNode _ _ _ fun id s1 ht1 hid => ?_
    refine takes_expectName holdsName_lower _ _ fun t name s2 hload ht2 => ?_
    have ht := (ht1.trans ht2).of_overrun
    exact ⟨t, [], ht, t, rfl, hload, ht2.indexed _ _ (hid t (by rw [htoken _ _ _ ht]))⟩
  · simp only [meets_bind, meets_check]
    split
    · simp only [parseConstructorPattern, meets_bind]
      refine takes_cursor _ _ fun token overrun htoken => ?_
      refine takes_allocateNode _ _ _ fun id s1 ht1 hid => ?_
      refine takes_expectName holdsName_upper _ _ fun t name s2 hload ht2 => ?_
      refine (takes_parseNamesWhile holdsName_lower _).mono ?_
      rintro names s3 ⟨ts, ht3, hnames⟩
      have ht := ((ht1.trans ht2).trans ht3).of_overrun
      refine ⟨t, ts, ht, t, ts, rfl, hload, ?_, hnames⟩
      exact (ht2.trans ht3).indexed _ _ (hid t (by rw [htoken _ _ _ ht]))
    · exact meets_throwExpected _ _ _

/-- `self` is the parser of nested expressions, which all start after a token
of the phrase. -/
def SelfWrites (m : Nat) (self : Parser Expression) : Prop :=
  ∀ s, s.rest.length < m → Meets self s (Writes .Expression s)

/-- The branches from `s` to `s'`, of which there is one at least. -/
theorem written_parseBranch {m : Nat} {self : Parser Expression} (hself : SelfWrites m self)
    (s : ParserState) (hm : s.rest.length < m) : Meets (parseBranch self) s fun b s' =>
    ∃ ts, Takes s s' ts ∧ ts ≠ [] ∧ ∀ positions bs us, s'.positions <+: positions →
      WrittenBranches (IndexedBy positions) bs us →
      WrittenBranches (IndexedBy positions) (b :: bs) (ts ++ us) := by
  simp only [parseBranch, meets_bind]
  refine takes_cursor _ _ fun token overrun htoken => ?_
  refine (written_parsePattern _).mono ?_
  rintro p s1 ⟨t, ps, ht1, hp⟩
  refine takes_expectEmpty _ _ _ fun a s2 ha ht2 => ?_
  refine takes_expectEmpty _ _ _ fun l s3 hl ht3 => ?_
  have hlen := ((ht1.trans ht2).trans ht3).of_overrun.length
  refine (hself s3 (by omega)).mono ?_
  rintro e s4 ⟨ts, ht4, he⟩
  refine takes_expectEmpty _ _ _ fun r s5 hr ht5 => ?_
  refine takes_allocateNode _ _ _ fun id s6 ht6 hid => ?_
  have ht46 := (ht4.trans ht5).trans ht6
  have ht16 := (ht2.trans ht3).trans ht46
  refine ⟨t :: ps ++ a :: l :: (ts ++ [r]), ?_, by simp, fun positions bs us hkept hbs => ?_⟩
  · simpa using (ht1.trans ht16).of_overrun
  have hgrow : Takes s6 { s6 with positions } [] := ⟨rfl, hkept⟩
  have hanchor := hgrow.indexed id t (hid t (by rw [htoken _ _ _ ht1.of_overrun]))
  have hp' := (hp.mono ht16.indexed).mono hgrow.indexed
  have he' := (he.mono (ht5.trans ht6).indexed).mono hgrow.indexed
  simpa using WrittenBranches.cons hp' hanchor ha hl he' hr hbs

theorem written_branches {m : Nat} {self : Parser Expression} (hself : SelfWrites m self)
    (bs : List Branch) (s : ParserState) (hm : s.rest.length < m) :
    Meets (loop bs (nextBranch self)) s fun branches s' =>
    ∃ new ts, branches = bs ++ new ∧ Takes s s' ts ∧
      WrittenBranches (IndexedBy s'.positions) new ts := by
  refine meets_loop (Q := fun bs s branches s' => ∃ new ts, branches = bs ++ new ∧
    Takes s s' ts ∧ WrittenBranches (IndexedBy s'.positions) new ts) (fun bs s hs => ?_) bs s hm
  simp only [nextBranch, meets_bind, meets_check, meets_atEnd]
  split
  · simp only [meets_bind]
    refine (written_parseBranch hself s hs).mono ?_
    rintro b s1 ⟨ts, ht1, hne, hb⟩
    simp only [meets_pure]
    refine ⟨?_, ?_⟩
    · have := ht1.length
      have := List.length_pos_of_ne_nil hne
      omega
    · rintro branches s2 ⟨new, us, rfl, ht2, hnew⟩
      exact ⟨b :: new, ts ++ us, by simp, ht1.trans ht2, hb _ _ _ ht2.kept hnew⟩
  · exact ⟨[], [], by simp, Takes.refl _, .nil⟩

theorem writes_parseCaseExpression {m : Nat} {self : Parser Expression} (hself : SelfWrites m self)
    (s : ParserState) (hm : s.rest.length ≤ m) :
    Meets (parseCaseExpression self) s (Writes .Primary s) := by
  simp only [parseCaseExpression, meets_bind]
  refine takes_cursor _ _ fun token overrun htoken => ?_
  refine takes_expectEmpty _ _ _ fun c s1 hc ht1 => ?_
  have hlen1 := ht1.of_overrun.length
  simp only [List.length_cons, List.length_nil] at hlen1
  refine (hself s1 (by omega)).mono ?_
  rintro e s2 ⟨ts, ht2, he⟩
  refine takes_expectEmpty _ _ _ fun o s3 ho ht3 => ?_
  refine takes_expectEmpty _ _ _ fun l s4 hl ht4 => ?_
  have hlen4 := ((ht2.trans ht3).trans ht4).length
  refine (written_parseBranch hself s4 (by omega)).mono ?_
  rintro b s5 ⟨us, ht5, _, hb⟩
  have hlen5 := ht5.length
  refine (written_branches hself [b] s5 (by omega)).mono ?_
  rintro _ s6 ⟨new, vs, rfl, ht6, hnew⟩
  refine takes_expectEmpty _ _ _ fun r s7 hr ht7 => ?_
  refine takes_allocateNode _ _ _ fun id s8 ht8 hid => ?_
  have ht68 := ht7.trans ht8
  have ht28 := (((ht3.trans ht4).trans ht5).trans ht6).trans ht68
  refine ⟨c :: (ts ++ o :: l :: (us ++ vs ++ [r])), ?_, ?_⟩
  · simpa using (ht1.trans (ht2.trans ht28)).of_overrun
  have hanchor := hid c (by rw [htoken _ _ _ ht1.of_overrun])
  have hbs := (hb _ _ _ ht6.kept hnew).mono ht68.indexed
  exact .caseExpression hc hanchor (he.mono ht28.indexed) ho hl (by simp) hbs hr

theorem writes_parseVariable (s : ParserState) : Meets parseVariable s (Writes .Primary s) := by
  simp only [parseVariable, meets_bind]
  refine takes_cursor _ _ fun token overrun htoken => ?_
  simp only [expectAnyName, meets_bind, meets_check]
  split
  · refine takes_expectName holdsName_lower _ _ fun t name s1 hload ht1 => ?_
    refine takes_allocateNode _ _ _ fun id s2 ht2 hid => ?_
    refine ⟨[t], (ht1.trans ht2).of_overrun, .lowerVariable hload (hid t ?_)⟩
    rw [htoken _ _ _ ht1.of_overrun]
  · simp only [meets_bind, meets_check]
    split
    · refine takes_expectName holdsName_upper _ _ fun t name s1 hload ht1 => ?_
      refine takes_allocateNode _ _ _ fun id s2 ht2 hid => ?_
      refine ⟨[t], (ht1.trans ht2).of_overrun, .upperVariable hload (hid t ?_)⟩
      rw [htoken _ _ _ ht1.of_overrun]
    · exact meets_throwExpected _ _ _

theorem writes_parsePrimary {m : Nat} {self : Parser Expression} (hself : SelfWrites m self)
    (s : ParserState) (hm : s.rest.length ≤ m) :
    Meets (parsePrimary self) s (Writes .Primary s) := by
  simp only [parsePrimary, meets_bind, meets_check]
  split
  · simp only [parseParenthesized, meets_bind]
    refine takes_expectEmpty _ _ _ fun l s1 hl ht1 => ?_
    have hlen1 := ht1.length
    simp only [List.length_cons, List.length_nil] at hlen1
    refine (hself s1 (by omega)).mono ?_
    rintro e s2 ⟨ts, ht2, he⟩
    refine takes_expectEmpty _ _ _ fun r s3 hr ht3 => ?_
    refine ⟨l :: (ts ++ [r]), ?_, .parenthesized hl (he.mono ht3.indexed) hr⟩
    simpa using (ht1.trans ht2).trans ht3
  simp only [meets_bind, meets_check]
  split
  · simp only [parseIntLiteral, meets_bind]
    refine takes_cursor _ _ fun token overrun htoken => ?_
    refine takes_allocateNode _ _ _ fun id s1 ht1 hid => ?_
    refine takes_expect _ _ _ fun t value s2 hload ht2 => ?_
    have ht := (ht1.trans ht2).of_overrun
    have hload' : t.load = .IntLiteral value := by
      cases h : t.load <;> simp_all [IntLiteral]
    exact ⟨[t], ht, .num hload' (ht2.indexed _ _ (hid t (by rw [htoken _ _ _ ht])))⟩
  have hany : checkAny [check LowerVariable, check UpperVariable] s =
      .ok (sees LowerVariable s || sees UpperVariable s) s := by
    rw [checkAny_run _ _ (by simp)]
    simp
  simp only [meets_bind]
  rw [meets_of_run hany]
  split
  · exact writes_parseVariable s
  simp only [meets_bind, meets_check]
  split
  · exact writes_parseCaseExpression hself s hm
  · exact meets_throwExpected _ _ _

theorem Written.ne_nil {anchor : NodeId → Token → Prop} {e : Expression} {ts : List Token}
    (h : Written anchor .Primary e ts) : ts ≠ [] := by
  cases h <;> simp

theorem writes_parseApplication {m : Nat} {self : Parser Expression} (hself : SelfWrites m self)
    (s : ParserState) (hm : s.rest.length ≤ m) :
    Meets (parseApplication self) s (Writes .Application s) := by
  simp only [parseApplication, meets_bind]
  refine (writes_parsePrimary hself s hm).mono ?_
  rintro f s1 ⟨ts, ht, hw⟩
  refine (meets_loop (m := m + 1)
    (Q := fun f s e s' => ∃ us, Takes s s' us ∧
      ∀ ts, Written (IndexedBy s.positions) .Application f ts →
        Written (IndexedBy s'.positions) .Application e (ts ++ us))
    (fun f s hs => ?_) f s1 (by have := ht.length; omega)).mono ?_
  · have hany : ∃ b, checkAny [check IntLiteral, check LowerVariable, check UpperVariable,
        check (Empty .LeftParentheses), check (Empty .Case)] s = .ok b s :=
      ⟨_, checkAny_run _ _ (by simp)⟩
    obtain ⟨b, hb⟩ := hany
    simp only [nextArgument, meets_bind]
    rw [meets_of_run hb]
    split
    · simp only [meets_bind]
      refine takes_cursor _ _ fun token overrun htoken => ?_
      refine (writes_parsePrimary hself _ (by simp only; omega)).mono ?_
      rintro a s2 ⟨us, ht2, hw2⟩
      obtain ⟨t, us, rfl⟩ := List.exists_cons_of_ne_nil hw2.ne_nil
      refine takes_allocateNode _ _ _ fun id s3 ht3 hid => ?_
      have hall := (ht2.trans ht3).of_overrun
      simp only [meets_pure]
      refine ⟨?_, ?_⟩
      · have := hall.length
        simp only [List.cons_append, List.length_cons] at this
        omega
      · rintro e s4 ⟨vs, ht4, hw4⟩
        refine ⟨t :: us ++ vs, by simpa using hall.trans ht4, fun ts hf => ?_⟩
        have hanchor := hid t (by rw [htoken _ _ _ ht2.of_overrun])
        have hnew := Written.application (hf.mono hall.indexed) (hw2.mono ht3.indexed) hanchor
        simpa using hw4 _ hnew
    · exact ⟨[], Takes.refl _, fun ts h => by simpa using h⟩
  · rintro e s2 ⟨us, ht2, hw2⟩
    exact ⟨ts ++ us, ht.trans ht2, hw2 ts (.primary hw)⟩

theorem writes_parseTerm {m : Nat} {self : Parser Expression} (hself : SelfWrites m self)
    (s : ParserState) (hm : s.rest.length ≤ m) : Meets (parseTerm self) s (Writes .Term s) := by
  refine writes_parseBinaryLevel (m := m + 1) .Application .Term takesOperator_product
    (fun _ _ _ h => .factor h) (fun _ _ _ _ _ _ _ _ hl ht ha hr => .product hl ht ha hr)
    (fun s hs => ?_) s (by omega)
  exact writes_parseApplication hself s (by omega)

theorem selfWrites_parseExpressionWithin (n : Nat) : SelfWrites n (parseExpressionWithin n) := by
  induction n with
  | zero => intro s hs; omega
  | succ n ih =>
    intro s hs
    refine writes_parseBinaryLevel (m := n + 1) .Term .Expression takesOperator_sum
      (fun _ _ _ h => .term h) (fun _ _ _ _ _ _ _ _ hl ht ha hr => .sum hl ht ha hr)
      (fun s hs => ?_) s hs
    exact writes_parseTerm ih s (by omega)

theorem writes_parseExpression (s : ParserState) :
    Meets parseExpression s (Writes .Expression s) := by
  have h := selfWrites_parseExpressionWithin (s.rest.length + 1) s (by omega)
  unfold Meets at h ⊢
  unfold parseExpression
  exact h

/-! ## Definitions -/

theorem written_parseConstructor (s : ParserState) : Meets parseConstructor s fun c s' =>
    ∃ ts, Takes s s' ts ∧ WrittenConstructor (IndexedBy s'.positions) c ts := by
  simp only [parseConstructor, meets_bind]
  refine takes_cursor _ _ fun token overrun htoken => ?_
  refine takes_expectName holdsName_upper _ _ fun t name s1 hload ht1 => ?_
  refine (takes_parseNamesWhile holdsName_upper _).mono ?_
  rintro fields s2 ⟨ts, ht2, hfields⟩
  refine takes_allocateNode _ _ _ fun id s3 ht3 hid => ?_
  refine ⟨t :: ts, by simpa using ((ht1.trans ht2).trans ht3).of_overrun, ?_⟩
  exact ⟨t, ts, rfl, hload, hid t (by rw [htoken _ _ _ ht1.of_overrun]), hfields⟩

theorem written_parseFunctionDefinition (s : ParserState) :
    Meets parseFunctionDefinition s fun fd s' => ∃ ts, ts ≠ [] ∧ Takes s s' ts ∧
      WrittenDefinition (IndexedBy s'.positions) (.FunctionDefinition fd) ts := by
  simp only [parseFunctionDefinition, meets_bind]
  refine takes_cursor _ _ fun token overrun htoken => ?_
  refine takes_expectEmpty _ _ _ fun k s1 hk ht1 => ?_
  refine takes_expectName holdsName_lower _ _ fun n name s2 hn ht2 => ?_
  refine (takes_parseNamesWhile holdsName_lower _).mono ?_
  rintro parameters s3 ⟨ps, ht3, hps⟩
  refine takes_expectEmpty _ _ _ fun e s4 he ht4 => ?_
  refine takes_expectEmpty _ _ _ fun l s5 hl ht5 => ?_
  refine (writes_parseExpression s5).mono ?_
  rintro body s6 ⟨ts, ht6, hbody⟩
  refine takes_expectEmpty _ _ _ fun r s7 hr ht7 => ?_
  refine takes_allocateNode _ _ _ fun id s8 ht8 hid => ?_
  have ht68 := ht7.trans ht8
  refine ⟨k :: n :: (ps ++ e :: l :: (ts ++ [r])), by simp, ?_, ?_⟩
  · have h := ht1.trans (ht2.trans (ht3.trans (ht4.trans (ht5.trans (ht6.trans ht68)))))
    simpa using h.of_overrun
  have hanchor := hid k (by rw [htoken _ _ _ ht1.of_overrun])
  exact .functionDefinition hk hanchor hn hps he hl (hbody.mono ht68.indexed) hr

theorem written_parseDataTypeDefinition (s : ParserState) :
    Meets parseDataTypeDefinition s fun dt s' => ∃ ts, ts ≠ [] ∧ Takes s s' ts ∧
      WrittenDefinition (IndexedBy s'.positions) (.DataTypeDefinition dt) ts := by
  simp only [parseDataTypeDefinition, meets_bind]
  refine takes_cursor _ _ fun token overrun htoken => ?_
  refine takes_expectEmpty _ _ _ fun k s1 hk ht1 => ?_
  refine takes_expectName holdsName_upper _ _ fun n name s2 hn ht2 => ?_
  refine takes_expectEmpty _ _ _ fun e s3 he ht3 => ?_
  refine takes_expectEmpty _ _ _ fun l s4 hl ht4 => ?_
  refine (written_parseConstructor s4).mono ?_
  rintro c s5 ⟨ts, ht5, hc⟩
  refine (meets_loop (m := s5.rest.length + 1)
    (Q := fun cs s all s' => ∃ us, Takes s s' us ∧
      ∀ ts, WrittenConstructors (IndexedBy s.positions) cs ts →
        WrittenConstructors (IndexedBy s'.positions) all (ts ++ us))
    (fun cs s hs => ?_) [c] s5 (by omega)).mono ?_
  · simp only [nextConstructor, meets_bind]
    refine takes_matchToken _ _ _ ?_ fun t s1 hl ht1 => ?_
    · exact ⟨[], Takes.refl _, fun ts h => by simpa using h⟩
    · simp only [if_true, meets_bind]
      refine (written_parseConstructor s1).mono ?_
      rintro c s2 ⟨us, ht2, hc⟩
      have hall := ht1.trans ht2
      simp only [meets_pure]
      refine ⟨by have := hall.length; simp at this; omega, ?_⟩
      rintro all s3 ⟨vs, ht3, hw⟩
      refine ⟨t :: us ++ vs, by simpa using hall.trans ht3, fun ts hcs => ?_⟩
      have hnew := WrittenConstructors.next (hcs.mono hall.indexed) (isSome_empty hl) hc
      simpa using hw _ hnew
  · rintro constructors s6 ⟨us, ht6, hcs⟩
    refine takes_expectEmpty _ _ _ fun r s7 hr ht7 => ?_
    refine takes_allocateNode _ _ _ fun id s8 ht8 hid => ?_
    have ht68 := ht7.trans ht8
    refine ⟨k :: n :: e :: l :: (ts ++ us ++ [r]), by simp, ?_, ?_⟩
    · have h := ht1.trans (ht2.trans (ht3.trans (ht4.trans (ht5.trans (ht6.trans ht68)))))
      simpa using h.of_overrun
    have hanchor := hid k (by rw [htoken _ _ _ ht1.of_overrun])
    exact .dataTypeDefinition hk hanchor hn he hl ((hcs ts (.single hc)).mono ht68.indexed) hr

theorem written_parseDefinition (s : ParserState) : Meets parseDefinition s fun d s' =>
    ∃ ts, ts ≠ [] ∧ Takes s s' ts ∧ WrittenDefinition (IndexedBy s'.positions) d ts := by
  simp only [parseDefinition, meets_bind, meets_check]
  split
  · simp only [meets_bind]
    exact written_parseFunctionDefinition s
  · simp only [meets_bind, meets_check]
    split
    · simp only [meets_bind]
      exact written_parseDataTypeDefinition s
    · exact meets_throwExpected _ _ _

theorem written_parseProgram (s : ParserState) : Meets parseProgram s fun p s' =>
    WrittenDefinitions (IndexedBy s'.positions) p.definitions s.rest := by
  refine (meets_loop (m := s.rest.length + 1)
    (Q := fun (p : Program) s (q : Program) s' => ∃ new, q.definitions = p.definitions ++ new ∧
      s.positions <+: s'.positions ∧ WrittenDefinitions (IndexedBy s'.positions) new s.rest)
    (fun p s hs => ?_) ⟨[]⟩ s (by omega)).mono ?_
  · simp only [nextDefinition, meets_bind, meets_atEnd]
    split
    · rename_i hend
      rw [List.isEmpty_iff.mp hend]
      exact ⟨[], by simp, List.prefix_refl _, .nil⟩
    · simp only [meets_bind]
      refine (written_parseDefinition s).mono ?_
      rintro d s1 ⟨ts, hne, ht, hd⟩
      simp only [meets_pure]
      refine ⟨?_, ?_⟩
      · have := ht.length
        have := List.length_pos_of_ne_nil hne
        omega
      · rintro q s2 ⟨new, hq, hkept, hnew⟩
        refine ⟨d :: new, by simp [hq], ht.kept.trans hkept, ?_⟩
        rw [ht.took]
        have hgrow : Takes s1 { s1 with positions := s2.positions } [] := ⟨rfl, hkept⟩
        exact .cons (hd.mono hgrow.indexed) hnew
  · rintro q s' ⟨new, hq, _, hnew⟩
    rw [hq]
    exact hnew

theorem parse_written {tokens : TokenVector} {p : ParsedProgram} (h : parse tokens = .ok p) :
    WrittenDefinitions (IndexedBy p.positions) p.ast.definitions tokens.tokens := by
  have hm := written_parseProgram ⟨tokens.tokens, [], false⟩
  unfold parse at h
  split at h
  · rename_i program s hp
    have hw := hm.of_ok hp
    cases h
    exact hw
  · cases h

/-- The ids of the nodes of a parsed program are `0 .. positions.size() - 1`,
each once, and the position at a node's id is that of the node's anchor among
the tokens that write the program. -/
theorem parse_positions {tokens : TokenVector} {p : ParsedProgram} (h : parse tokens = .ok p) :
    p.ast.ids.Nodup ∧ (∀ id, id ∈ p.ast.ids ↔ id < p.positions.length) ∧
      WrittenDefinitions (IndexedBy p.positions) p.ast.definitions tokens.tokens := by
  obtain ⟨_, _, _, hperm, _⟩ := parse_ok h
  refine ⟨hperm.nodup_iff.mpr List.nodup_range, fun id => ?_, parse_written h⟩
  rw [hperm.mem_iff, List.mem_range]

/-- The tokens of `defn main = { f (1) }`, at columns 1 to 9. -/
def parenthesizedArgument : TokenVector where
  tokens := [⟨.Function, ⟨1, 1, 1, 2⟩⟩, ⟨.LowerVariable "main", ⟨1, 2, 1, 3⟩⟩,
    ⟨.Equal, ⟨1, 3, 1, 4⟩⟩, ⟨.LeftBrace, ⟨1, 4, 1, 5⟩⟩, ⟨.LowerVariable "f", ⟨1, 5, 1, 6⟩⟩,
    ⟨.LeftParentheses, ⟨1, 6, 1, 7⟩⟩, ⟨.IntLiteral 1, ⟨1, 7, 1, 8⟩⟩,
    ⟨.RightParentheses, ⟨1, 8, 1, 9⟩⟩, ⟨.RightBrace, ⟨1, 9, 1, 10⟩⟩]
  fits := by decide

/-- The application stands at the parenthesis of its argument. -/
def parenthesizedArgumentProgram : ParsedProgram where
  ast := ⟨[.FunctionDefinition ⟨3, "main", [], .Application 2 (.Variable 0 "f") (.IntLiteral 1 1)⟩]⟩
  positions := [⟨1, 5, 1, 6⟩, ⟨1, 7, 1, 8⟩, ⟨1, 6, 1, 7⟩, ⟨1, 1, 1, 2⟩]

theorem parse_positions_argument :
    parse parenthesizedArgument = .ok parenthesizedArgumentProgram ∧
    parenthesizedArgumentProgram.ast.ids.Nodup ∧
    (∀ id, id ∈ parenthesizedArgumentProgram.ast.ids ↔ id < 4) ∧
    WrittenDefinitions (IndexedBy parenthesizedArgumentProgram.positions)
      parenthesizedArgumentProgram.ast.definitions parenthesizedArgument.tokens := by
  have h : parse parenthesizedArgument = .ok parenthesizedArgumentProgram := rfl
  exact ⟨h, parse_positions h⟩

end mf.parsing
