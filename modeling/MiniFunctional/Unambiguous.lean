-- The grammar is unambiguous: a token list has at most one derivation. A tree
-- is read off the front of a token list in one way only, as long as the
-- tokens after it do not continue the phrase.
import MiniFunctional.Grammar

open mf.ast mf.tokenization

namespace mf.grammar

/-! ## Where a phrase begins -/

@[simp] def startsPrimary : TokenVariant → Bool
  | .IntLiteral _ | .LowerVariable _ | .UpperVariable _ | .LeftParentheses | .Case => true
  | .Function | .Data | .Of | .Equal | .Arrow | .Plus | .Minus | .Star | .Slash | .LeftBrace
  | .RightBrace | .RightParentheses | .Comma => false

@[simp] def startsPattern : TokenVariant → Bool
  | .LowerVariable _ | .UpperVariable _ => true
  | _ => false

@[simp] def isLowerVariable : TokenVariant → Bool
  | .LowerVariable _ => true
  | _ => false

@[simp] def isUpperVariable : TokenVariant → Bool
  | .UpperVariable _ => true
  | _ => false

@[simp] def startsDefinition : TokenVariant → Bool
  | .Function | .Data => true
  | _ => false

/-- The token list begins with a token of the class. -/
def Begins (p : TokenVariant → Bool) (ts : List TokenVariant) : Prop :=
  ∃ t rest, ts = t :: rest ∧ p t = true

theorem Begins.append {p : TokenVariant → Bool} {ts : List TokenVariant} (h : Begins p ts)
    (more : List TokenVariant) : Begins p (ts ++ more) := by
  obtain ⟨t, rest, rfl, ht⟩ := h
  exact ⟨t, rest ++ more, rfl, ht⟩

/-- How the phrases of a nonterminal begin, where they cannot be empty. -/
def BeginsAs : Nonterminal → List TokenVariant → Prop
  | .Expression | .Term | .Factor | .Application | .Primary => Begins startsPrimary
  | .CaseExpression => Begins startsPrimary
  | .Branch | .Pattern => Begins startsPattern
  | .Definition => Begins startsDefinition
  | .Constructor => Begins isUpperVariable
  | .Program | .Constructors | .Sums | .Products | .Arguments | .Branches => fun _ => True

theorem Tree.beginsAs {s : Nonterminal} (d : Tree s) : BeginsAs s d.yield := by
  induction d with
  | programEnd | nextDefinition | constructorsEnd | nextConstructor | sumsEnd | nextSum
  | productsEnd | nextProduct | argumentsEnd | nextArgument | branchesEnd | nextBranch => trivial
  | expression t ts iht _ => exact iht.append _
  | term f fs ihf _ => exact ihf.append _
  | factor a ih => exact ih
  | application p ps ihp _ => exact ihp.append _
  | casePrimary c ih => exact ih
  | branch p e ihp _ => exact ihp.append _
  | functionDefinition | dataTypeDefinition | constructor | num | lowerVariable | upperVariable
  | parenthesized | caseExpression | variablePattern | constructorPattern => exact ⟨_, _, rfl, rfl⟩

/-! ## Where a phrase ends -/

@[simp] def isSumOperator : TokenVariant → Bool
  | .Plus | .Minus => true
  | _ => false

@[simp] def isProductOperator : TokenVariant → Bool
  | .Star | .Slash => true
  | _ => false

/-- The tokens that, right after a phrase, could still belong to it. -/
@[simp] def continues : Nonterminal → TokenVariant → Bool
  | .Application, t | .Factor, t | .Arguments, t => startsPrimary t
  | .Term, t | .Products, t => startsPrimary t || isProductOperator t
  | .Expression, t | .Sums, t => startsPrimary t || isProductOperator t || isSumOperator t
  | .Constructor, t => isUpperVariable t
  | .Constructors, t => isUpperVariable t || t == .Comma
  | .Branches, t => startsPattern t
  | .Pattern, t => isLowerVariable t
  | .Program, t => startsDefinition t
  | .Definition, _ | .Primary, _ | .CaseExpression, _ | .Branch, _ => false

/-- The token list does not continue a phrase that stands before it. -/
def Stops (s : Nonterminal) (ts : List TokenVariant) : Prop :=
  ∀ t rest, ts = t :: rest → continues s t = false

@[simp] theorem stops_nil (s : Nonterminal) : Stops s [] := by
  intro t rest h
  cases h

@[simp] theorem stops_cons (s : Nonterminal) (t : TokenVariant) (ts : List TokenVariant) :
    Stops s (t :: ts) ↔ continues s t = false := by
  constructor
  · intro h
    exact h t ts rfl
  · rintro h t' rest' ⟨⟩
    exact h

theorem Stops.mono {s s' : Nonterminal} {ts : List TokenVariant} (h : Stops s ts)
    (hs : ∀ t, continues s t = false → continues s' t = false) : Stops s' ts :=
  fun t rest ht => hs t (h t rest ht)

/-- A list that begins with a continuing token does not stop the phrase. -/
theorem Stops.not_begins {s : Nonterminal} {ts : List TokenVariant} {p : TokenVariant → Bool}
    (h : Stops s ts) (hb : Begins p ts) (hp : ∀ t, p t = true → continues s t = true) : False := by
  obtain ⟨t, rest, rfl, ht⟩ := hb
  have h1 := h t rest rfl
  rw [hp t ht] at h1
  cases h1

theorem stops_arguments {ps : Tree .Arguments} {r : List TokenVariant} :
    Stops .Primary (ps.yield ++ r) := fun _ _ _ => rfl

theorem stops_products {fs : Tree .Products} {r : List TokenVariant} (h : Stops .Products r) :
    Stops .Factor (fs.yield ++ r) := by
  cases fs with
  | productsEnd =>
    refine Stops.mono h fun t ht => ?_
    simp only [continues, Bool.or_eq_false_iff] at ht ⊢
    exact ht.1
  | nextProduct op f fs => cases op <;> simp [Tree.yield, ProductOperator.token]

theorem stops_sums {ts : Tree .Sums} {r : List TokenVariant} (h : Stops .Sums r) :
    Stops .Term (ts.yield ++ r) := by
  cases ts with
  | sumsEnd =>
    refine Stops.mono h fun t ht => ?_
    simp only [continues, Bool.or_eq_false_iff] at ht ⊢
    exact ht.1
  | nextSum op t ts =>
    cases op <;> simp [Tree.yield, SumOperator.token]

theorem stops_constructors {cs : Tree .Constructors} {r : List TokenVariant}
    (h : Stops .Constructors r) : Stops .Constructor (cs.yield ++ r) := by
  cases cs with
  | constructorsEnd =>
    refine Stops.mono h fun t ht => ?_
    simp only [continues, Bool.or_eq_false_iff] at ht ⊢
    exact ht.1
  | nextConstructor c cs => simp [Tree.yield]

/-! ## Unique readability -/

/-- Two runs of names before tokens that are no names are the same run. -/
theorem names_unique {f : String → TokenVariant} (hf : Function.Injective f)
    {xs ys : List String} {r r' : List TokenVariant} (h : xs.map f ++ r = ys.map f ++ r')
    (hr : ∀ n rest, r ≠ f n :: rest) (hr' : ∀ n rest, r' ≠ f n :: rest) : xs = ys ∧ r = r' := by
  induction xs generalizing ys with
  | nil =>
    cases ys with
    | nil => exact ⟨rfl, h⟩
    | cons y ys => exact absurd h (hr _ _)
  | cons x xs ih =>
    cases ys with
    | nil => exact absurd h.symm (hr' _ _)
    | cons y ys =>
      simp only [List.map_cons, List.cons_append, List.cons.injEq] at h
      obtain ⟨rfl, rfl⟩ := ih h.2
      exact ⟨by rw [hf h.1], rfl⟩

theorem lowerVariable_injective : Function.Injective TokenVariant.LowerVariable :=
  fun _ _ h => by injection h

theorem upperVariable_injective : Function.Injective TokenVariant.UpperVariable :=
  fun _ _ h => by injection h

theorem Stops.not_lower {s : Nonterminal} {r : List TokenVariant} (h : Stops s r)
    (hs : ∀ n, continues s (.LowerVariable n) = true) (n : String) (rest : List TokenVariant) :
    r ≠ .LowerVariable n :: rest := by
  rintro rfl
  exact absurd (h _ _ rfl) (by rw [hs n]; simp)

theorem Stops.not_upper {s : Nonterminal} {r : List TokenVariant} (h : Stops s r)
    (hs : ∀ n, continues s (.UpperVariable n) = true) (n : String) (rest : List TokenVariant) :
    r ≠ .UpperVariable n :: rest := by
  rintro rfl
  exact absurd (h _ _ rfl) (by rw [hs n]; simp)

/-- The tree is the only one that can be read off where it is read off. -/
def Readable {s : Nonterminal} (d : Tree s) : Prop :=
  ∀ (d' : Tree s) (r r' : List TokenVariant), d.yield ++ r = d'.yield ++ r' →
    Stops s r → Stops s r' → d = d' ∧ r = r'

theorem readable_programEnd :
    Readable Tree.programEnd := by
  intro d' r r' h hr hr'
  cases d' with
  | programEnd => exact ⟨rfl, h⟩
  | nextDefinition d p =>
    simp only [Tree.yield, List.nil_append, List.append_assoc] at h
    exact (hr.not_begins (h ▸ d.beginsAs.append _) fun _ ht => ht).elim

theorem readable_nextDefinition {d : Tree .Definition} {p : Tree .Program}
    (ihd : Readable d) (ihp : Readable p) :
    Readable (Tree.nextDefinition d p) := by
  intro d' r r' h hr hr'
  cases d' with
  | programEnd =>
    simp only [Tree.yield, List.nil_append, List.append_assoc] at h
    exact (hr'.not_begins (h ▸ d.beginsAs.append _) fun _ ht => ht).elim
  | nextDefinition d' p' =>
    simp only [Tree.yield, List.append_assoc] at h
    obtain ⟨rfl, h1⟩ := ihd d' _ _ h (fun _ _ _ => rfl) (fun _ _ _ => rfl)
    obtain ⟨rfl, h2⟩ := ihp p' _ _ h1 hr hr'
    exact ⟨rfl, h2⟩

theorem readable_functionDefinition (name : String) (parameters : List String)
    {e : Tree .Expression}
    (ih : Readable e) :
    Readable (Tree.functionDefinition name parameters e) := by
  intro d' r r' h hr hr'
  cases d' with
  | functionDefinition name' parameters' e' =>
    simp only [Tree.yield, List.cons_append, List.append_assoc, List.cons.injEq, true_and,
      TokenVariant.LowerVariable.injEq] at h
    obtain ⟨rfl, h1⟩ := h
    obtain ⟨rfl, h2⟩ := names_unique lowerVariable_injective h1 (by simp) (by simp)
    simp only [List.cons.injEq, true_and] at h2
    obtain ⟨rfl, h3⟩ := ih e' _ _ h2 (by simp)
      (by simp)
    simp only [List.nil_append, List.cons.injEq, true_and] at h3
    exact ⟨rfl, h3⟩
  | dataTypeDefinition => simp [Tree.yield] at h

theorem readable_dataTypeDefinition (name : String) {c : Tree .Constructor}
    {cs : Tree .Constructors}
    (ihc : Readable c) (ihcs : Readable cs) :
    Readable (Tree.dataTypeDefinition name c cs) := by
  intro d' r r' h hr hr'
  cases d' with
  | functionDefinition => simp [Tree.yield] at h
  | dataTypeDefinition name' c' cs' =>
    simp only [Tree.yield, List.cons_append, List.append_assoc, List.cons.injEq, true_and,
      TokenVariant.UpperVariable.injEq] at h
    obtain ⟨rfl, h1⟩ := h
    obtain ⟨rfl, h2⟩ := ihc c' _ _ h1 (stops_constructors (by simp))
      (stops_constructors (by simp))
    obtain ⟨rfl, h3⟩ := ihcs cs' _ _ h2 (by simp) (by simp)
    simp only [List.nil_append, List.cons.injEq, true_and] at h3
    exact ⟨rfl, h3⟩

theorem readable_constructor (name : String) (fields : List String) :
    Readable (Tree.constructor name fields) := by
  intro d' r r' h hr hr'
  cases d' with
  | constructor name' fields' =>
    simp only [Tree.yield, List.cons_append, List.cons.injEq,
      TokenVariant.UpperVariable.injEq] at h
    obtain ⟨rfl, h1⟩ := h
    obtain ⟨rfl, h2⟩ := names_unique upperVariable_injective h1 (hr.not_upper fun _ => rfl)
      (hr'.not_upper fun _ => rfl)
    exact ⟨rfl, h2⟩

theorem readable_constructorsEnd :
    Readable Tree.constructorsEnd := by
  intro d' r r' h hr hr'
  cases d' with
  | constructorsEnd => exact ⟨rfl, h⟩
  | nextConstructor c cs =>
    simp only [Tree.yield, List.nil_append] at h
    simp [h] at hr

theorem readable_nextConstructor {c : Tree .Constructor} {cs : Tree .Constructors}
    (ihc : Readable c) (ihcs : Readable cs) :
    Readable (Tree.nextConstructor c cs) := by
  intro d' r r' h hr hr'
  cases d' with
  | constructorsEnd =>
    simp only [Tree.yield, List.nil_append] at h
    simp [← h] at hr'
  | nextConstructor c' cs' =>
    simp only [Tree.yield, List.cons_append, List.append_assoc, List.cons.injEq, true_and] at h
    obtain ⟨rfl, h1⟩ := ihc c' _ _ h (stops_constructors hr) (stops_constructors hr')
    obtain ⟨rfl, h2⟩ := ihcs cs' _ _ h1 hr hr'
    exact ⟨rfl, h2⟩

theorem readable_expression {t : Tree .Term} {ts : Tree .Sums}
    (iht : Readable t) (ihts : Readable ts) :
    Readable (Tree.expression t ts) := by
  intro d' r r' h hr hr'
  cases d' with
  | expression t' ts' =>
    simp only [Tree.yield, List.append_assoc] at h
    obtain ⟨rfl, h1⟩ := iht t' _ _ h (stops_sums hr) (stops_sums hr')
    obtain ⟨rfl, h2⟩ := ihts ts' _ _ h1 hr hr'
    exact ⟨rfl, h2⟩

theorem readable_sumsEnd :
    Readable Tree.sumsEnd := by
  intro d' r r' h hr hr'
  cases d' with
  | sumsEnd => exact ⟨rfl, h⟩
  | nextSum op t ts =>
    simp only [Tree.yield, List.nil_append] at h
    rw [h] at hr
    cases op <;> simp [SumOperator.token] at hr

theorem readable_nextSum (op : SumOperator) {t : Tree .Term} {ts : Tree .Sums}
    (iht : Readable t) (ihts : Readable ts) :
    Readable (Tree.nextSum op t ts) := by
  intro d' r r' h hr hr'
  cases d' with
  | sumsEnd =>
    simp only [Tree.yield, List.nil_append] at h
    rw [← h] at hr'
    cases op <;> simp [SumOperator.token] at hr'
  | nextSum op' t' ts' =>
    simp only [Tree.yield, List.cons_append, List.append_assoc, List.cons.injEq] at h
    have hop : op = op' := by
      cases op <;> cases op' <;> simp_all [SumOperator.token]
    subst hop
    obtain ⟨rfl, h1⟩ := iht t' _ _ h.2 (stops_sums hr) (stops_sums hr')
    obtain ⟨rfl, h2⟩ := ihts ts' _ _ h1 hr hr'
    exact ⟨rfl, h2⟩

theorem readable_term {f : Tree .Factor} {fs : Tree .Products}
    (ihf : Readable f) (ihfs : Readable fs) :
    Readable (Tree.term f fs) := by
  intro d' r r' h hr hr'
  cases d' with
  | term f' fs' =>
    simp only [Tree.yield, List.append_assoc] at h
    obtain ⟨rfl, h1⟩ := ihf f' _ _ h (stops_products hr) (stops_products hr')
    obtain ⟨rfl, h2⟩ := ihfs fs' _ _ h1 hr hr'
    exact ⟨rfl, h2⟩

theorem readable_productsEnd :
    Readable Tree.productsEnd := by
  intro d' r r' h hr hr'
  cases d' with
  | productsEnd => exact ⟨rfl, h⟩
  | nextProduct op f fs =>
    simp only [Tree.yield, List.nil_append] at h
    rw [h] at hr
    cases op <;> simp [ProductOperator.token] at hr

theorem readable_nextProduct (op : ProductOperator) {f : Tree .Factor} {fs : Tree .Products}
    (ihf : Readable f) (ihfs : Readable fs) :
    Readable (Tree.nextProduct op f fs) := by
  intro d' r r' h hr hr'
  cases d' with
  | productsEnd =>
    simp only [Tree.yield, List.nil_append] at h
    rw [← h] at hr'
    cases op <;> simp [ProductOperator.token] at hr'
  | nextProduct op' f' fs' =>
    simp only [Tree.yield, List.cons_append, List.append_assoc, List.cons.injEq] at h
    have hop : op = op' := by
      cases op <;> cases op' <;> simp_all [ProductOperator.token]
    subst hop
    obtain ⟨rfl, h1⟩ := ihf f' _ _ h.2 (stops_products hr) (stops_products hr')
    obtain ⟨rfl, h2⟩ := ihfs fs' _ _ h1 hr hr'
    exact ⟨rfl, h2⟩

theorem readable_factor {a : Tree .Application} (ih : Readable a) :
    Readable (Tree.factor a) := by
  intro d' r r' h hr hr'
  cases d' with
  | factor a' =>
    obtain ⟨rfl, h1⟩ := ih a' _ _ h hr hr'
    exact ⟨rfl, h1⟩

theorem readable_application {p : Tree .Primary} {ps : Tree .Arguments}
    (ihp : Readable p) (ihps : Readable ps) :
    Readable (Tree.application p ps) := by
  intro d' r r' h hr hr'
  cases d' with
  | application p' ps' =>
    simp only [Tree.yield, List.append_assoc] at h
    obtain ⟨rfl, h1⟩ := ihp p' _ _ h stops_arguments stops_arguments
    obtain ⟨rfl, h2⟩ := ihps ps' _ _ h1 hr hr'
    exact ⟨rfl, h2⟩

theorem readable_argumentsEnd :
    Readable Tree.argumentsEnd := by
  intro d' r r' h hr hr'
  cases d' with
  | argumentsEnd => exact ⟨rfl, h⟩
  | nextArgument p ps =>
    simp only [Tree.yield, List.nil_append, List.append_assoc] at h
    exact (hr.not_begins (h ▸ p.beginsAs.append _) fun _ ht => ht).elim

theorem readable_nextArgument {p : Tree .Primary} {ps : Tree .Arguments}
    (ihp : Readable p) (ihps : Readable ps) :
    Readable (Tree.nextArgument p ps) := by
  intro d' r r' h hr hr'
  cases d' with
  | argumentsEnd =>
    simp only [Tree.yield, List.nil_append, List.append_assoc] at h
    exact (hr'.not_begins (h ▸ p.beginsAs.append _) fun _ ht => ht).elim
  | nextArgument p' ps' =>
    simp only [Tree.yield, List.append_assoc] at h
    obtain ⟨rfl, h1⟩ := ihp p' _ _ h stops_arguments stops_arguments
    obtain ⟨rfl, h2⟩ := ihps ps' _ _ h1 hr hr'
    exact ⟨rfl, h2⟩

theorem readable_num (value : Int32) :
    Readable (Tree.num value) := by
  intro d' r r' h hr hr'
  cases d' with
  | num value' => simp_all [Tree.yield]
  | casePrimary c => cases c; simp [Tree.yield] at h
  | lowerVariable | upperVariable | parenthesized => simp [Tree.yield] at h

theorem readable_lowerVariable (name : String) :
    Readable (Tree.lowerVariable name) := by
  intro d' r r' h hr hr'
  cases d' with
  | lowerVariable name' => simp_all [Tree.yield]
  | casePrimary c => cases c; simp [Tree.yield] at h
  | num | upperVariable | parenthesized => simp [Tree.yield] at h

theorem readable_upperVariable (name : String) :
    Readable (Tree.upperVariable name) := by
  intro d' r r' h hr hr'
  cases d' with
  | upperVariable name' => simp_all [Tree.yield]
  | casePrimary c => cases c; simp [Tree.yield] at h
  | num | lowerVariable | parenthesized => simp [Tree.yield] at h

theorem readable_parenthesized {e : Tree .Expression} (ih : Readable e) :
    Readable (Tree.parenthesized e) := by
  intro d' r r' h hr hr'
  cases d' with
  | parenthesized e' =>
    simp only [Tree.yield, List.cons_append, List.append_assoc, List.cons.injEq, true_and] at h
    obtain ⟨rfl, h1⟩ := ih e' _ _ h (by simp)
      (by simp)
    simp only [List.nil_append, List.cons.injEq, true_and] at h1
    exact ⟨rfl, h1⟩
  | casePrimary c => cases c; simp [Tree.yield] at h
  | num | lowerVariable | upperVariable => simp [Tree.yield] at h

theorem readable_casePrimary {c : Tree .CaseExpression} (ih : Readable c) :
    Readable (Tree.casePrimary c) := by
  intro d' r r' h hr hr'
  cases d' with
  | casePrimary c' =>
    obtain ⟨rfl, h1⟩ := ih c' _ _ h hr hr'
    exact ⟨rfl, h1⟩
  | num | lowerVariable | upperVariable | parenthesized => cases c; simp [Tree.yield] at h

theorem readable_caseExpression {e : Tree .Expression} {b : Tree .Branch} {bs : Tree .Branches}
    (ihe : Readable e) (ihb : Readable b) (ihbs : Readable bs) :
    Readable (Tree.caseExpression e b bs) := by
  intro d' r r' h hr hr'
  cases d' with
  | caseExpression e' b' bs' =>
    simp only [Tree.yield, List.cons_append, List.append_assoc, List.cons.injEq, true_and] at h
    obtain ⟨rfl, h1⟩ := ihe e' _ _ h (by simp)
      (by simp)
    simp only [List.cons.injEq, true_and] at h1
    obtain ⟨rfl, h2⟩ := ihb b' _ _ h1 (fun _ _ _ => rfl) (fun _ _ _ => rfl)
    obtain ⟨rfl, h3⟩ := ihbs bs' _ _ h2 (by simp)
      (by simp)
    simp only [List.nil_append, List.cons.injEq, true_and] at h3
    exact ⟨rfl, h3⟩

theorem readable_branch {p : Tree .Pattern} {e : Tree .Expression}
    (ihp : Readable p) (ihe : Readable e) :
    Readable (Tree.branch p e) := by
  intro d' r r' h hr hr'
  cases d' with
  | branch p' e' =>
    simp only [Tree.yield, List.cons_append, List.append_assoc] at h
    obtain ⟨rfl, h1⟩ := ihp p' _ _ h (by simp) (by simp)
    simp only [List.cons.injEq, true_and] at h1
    obtain ⟨rfl, h2⟩ := ihe e' _ _ h1 (by simp)
      (by simp)
    simp only [List.nil_append, List.cons.injEq, true_and] at h2
    exact ⟨rfl, h2⟩

theorem readable_branchesEnd :
    Readable Tree.branchesEnd := by
  intro d' r r' h hr hr'
  cases d' with
  | branchesEnd => exact ⟨rfl, h⟩
  | nextBranch b bs =>
    simp only [Tree.yield, List.nil_append, List.append_assoc] at h
    exact (hr.not_begins (h ▸ b.beginsAs.append _) fun _ ht => ht).elim

theorem readable_nextBranch {b : Tree .Branch} {bs : Tree .Branches}
    (ihb : Readable b) (ihbs : Readable bs) :
    Readable (Tree.nextBranch b bs) := by
  intro d' r r' h hr hr'
  cases d' with
  | branchesEnd =>
    simp only [Tree.yield, List.nil_append, List.append_assoc] at h
    exact (hr'.not_begins (h ▸ b.beginsAs.append _) fun _ ht => ht).elim
  | nextBranch b' bs' =>
    simp only [Tree.yield, List.append_assoc] at h
    obtain ⟨rfl, h1⟩ := ihb b' _ _ h (fun _ _ _ => rfl) (fun _ _ _ => rfl)
    obtain ⟨rfl, h2⟩ := ihbs bs' _ _ h1 hr hr'
    exact ⟨rfl, h2⟩

theorem readable_variablePattern (name : String) :
    Readable (Tree.variablePattern name) := by
  intro d' r r' h hr hr'
  cases d' with
  | variablePattern name' => simp_all [Tree.yield]
  | constructorPattern => simp [Tree.yield] at h

theorem readable_constructorPattern (name : String) (arguments : List String) :
    Readable (Tree.constructorPattern name arguments) := by
  intro d' r r' h hr hr'
  cases d' with
  | variablePattern => simp [Tree.yield] at h
  | constructorPattern name' arguments' =>
    simp only [Tree.yield, List.cons_append, List.cons.injEq,
      TokenVariant.UpperVariable.injEq] at h
    obtain ⟨rfl, h1⟩ := h
    obtain ⟨rfl, h2⟩ := names_unique lowerVariable_injective h1 (hr.not_lower fun _ => rfl)
      (hr'.not_lower fun _ => rfl)
    exact ⟨rfl, h2⟩

/-- Unique readability: a tree of a repetition ends exactly where the tokens
after it stop the phrase. -/
theorem Tree.readable {s : Nonterminal} (d : Tree s) : Readable d := by
  induction d with
  | programEnd => exact readable_programEnd
  | nextDefinition d p ihd ihp => exact readable_nextDefinition ihd ihp
  | functionDefinition name parameters e ih => exact readable_functionDefinition name parameters ih
  | dataTypeDefinition name c cs ihc ihcs => exact readable_dataTypeDefinition name ihc ihcs
  | constructor name fields => exact readable_constructor name fields
  | constructorsEnd => exact readable_constructorsEnd
  | nextConstructor c cs ihc ihcs => exact readable_nextConstructor ihc ihcs
  | expression t ts iht ihts => exact readable_expression iht ihts
  | sumsEnd => exact readable_sumsEnd
  | nextSum op t ts iht ihts => exact readable_nextSum op iht ihts
  | term f fs ihf ihfs => exact readable_term ihf ihfs
  | productsEnd => exact readable_productsEnd
  | nextProduct op f fs ihf ihfs => exact readable_nextProduct op ihf ihfs
  | factor a ih => exact readable_factor ih
  | application p ps ihp ihps => exact readable_application ihp ihps
  | argumentsEnd => exact readable_argumentsEnd
  | nextArgument p ps ihp ihps => exact readable_nextArgument ihp ihps
  | num value => exact readable_num value
  | lowerVariable name => exact readable_lowerVariable name
  | upperVariable name => exact readable_upperVariable name
  | parenthesized e ih => exact readable_parenthesized ih
  | casePrimary c ih => exact readable_casePrimary ih
  | caseExpression e b bs ihe ihb ihbs => exact readable_caseExpression ihe ihb ihbs
  | branch p e ihp ihe => exact readable_branch ihp ihe
  | branchesEnd => exact readable_branchesEnd
  | nextBranch b bs ihb ihbs => exact readable_nextBranch ihb ihbs
  | variablePattern name => exact readable_variablePattern name
  | constructorPattern name arguments => exact readable_constructorPattern name arguments

/-- Two derivations of one token list are the same tree. -/
theorem Tree.eq_of_yield_eq {d d' : Tree .Program} (h : d.yield = d'.yield) : d = d' :=
  (d.readable d' [] [] (by simp [h]) (stops_nil _) (stops_nil _)).1

end mf.grammar
