-- The ids of a program in the order in which the parser makes its nodes: an
-- operator after its left operand, an application after its argument, a
-- branch, a case expression and a definition after their parts. They count up
-- from the first, so trees of one shape have the same ids.
import MiniFunctional.ParserLaws

open mf.util mf.ast mf.tokenization

namespace mf.ast

/-! ## The order of the nodes -/

mutual

@[simp] def Expression.made : Expression → List NodeId
  | .IntLiteral id _ => [id]
  | .Variable id _ => [id]
  | .BinaryOperator _ id l r => l.made ++ id :: r.made
  | .Application id f a => f.made ++ (a.made ++ [id])
  | .CaseExpression id s bs => s.made ++ (madeBranches bs ++ [id])

@[simp] def madeBranches : List Branch → List NodeId
  | [] => []
  | ⟨id, p, e⟩ :: bs => p.id :: (e.made ++ id :: madeBranches bs)

end

def Branch.made (b : Branch) : List NodeId := b.pattern.id :: (b.body.made ++ [b.id])

def madeConstructors (cs : List Constructor) : List NodeId := cs.map (·.id)

def Definition.made : Definition → List NodeId
  | .FunctionDefinition fd => fd.body.made ++ [fd.id]
  | .DataTypeDefinition dt => madeConstructors dt.constructors ++ [dt.id]

def madeDefinitions (ds : List Definition) : List NodeId := ds.flatMap (·.made)

def Program.made (p : Program) : List NodeId := madeDefinitions p.definitions

theorem madeBranches_cons (b : Branch) (bs : List Branch) :
    madeBranches (b :: bs) = b.made ++ madeBranches bs := by
  obtain ⟨id, p, e⟩ := b
  unfold Branch.made
  simp

theorem madeBranches_append (bs bs' : List Branch) :
    madeBranches (bs ++ bs') = madeBranches bs ++ madeBranches bs' := by
  induction bs with
  | nil => rfl
  | cons b bs ih =>
    rw [List.cons_append, madeBranches_cons, ih, madeBranches_cons, List.append_assoc]

/-! ## Trees of one shape -/

mutual

theorem Expression.length_made : (e : Expression) → e.withoutIds.made.length = e.made.length
  | .IntLiteral _ _ => rfl
  | .Variable _ _ => rfl
  | .BinaryOperator _ _ l r => by
    simp only [Expression.withoutIds, Expression.made, List.length_append, List.length_cons,
      Expression.length_made l, Expression.length_made r]
  | .Application _ f a => by
    simp only [Expression.withoutIds, Expression.made, List.length_append, List.length_cons,
      Expression.length_made f, Expression.length_made a]
  | .CaseExpression _ s bs => by
    simp only [Expression.withoutIds, Expression.made, List.length_append, List.length_cons,
      Expression.length_made s, length_madeBranches bs]

theorem length_madeBranches :
    (bs : List Branch) → (madeBranches (withoutIdsBranches bs)).length = (madeBranches bs).length
  | [] => rfl
  | ⟨_, _, e⟩ :: bs => by
    simp only [withoutIdsBranches, madeBranches, List.length_append, List.length_cons,
      Expression.length_made e, length_madeBranches bs]

end

theorem Definition.length_made (d : Definition) : d.withoutIds.made.length = d.made.length := by
  cases d with
  | FunctionDefinition fd =>
    unfold Definition.withoutIds Definition.made
    simp only [List.length_append, List.length_singleton, fd.body.length_made]
  | DataTypeDefinition dt =>
    unfold Definition.withoutIds Definition.made madeConstructors
    simp

theorem Pattern.eq_of_id {p p' : Pattern} (h : p.withoutIds = p'.withoutIds) (hid : p.id = p'.id) :
    p = p' := by
  cases p <;> cases p' <;> simp_all [Pattern.withoutIds, Pattern.id]

theorem Expression.made_eq_length {e e' : Expression} (h : e.withoutIds = e'.withoutIds) :
    e.made.length = e'.made.length := by
  rw [← e.length_made, ← e'.length_made, h]

mutual

theorem Expression.eq_of_made : (e e' : Expression) → e.withoutIds = e'.withoutIds →
    e.made = e'.made → e = e'
  | .IntLiteral _ _, e', h, hm => by
    cases e' <;> simp_all [Expression.withoutIds]
  | .Variable _ _, e', h, hm => by
    cases e' <;> simp_all [Expression.withoutIds]
  | .BinaryOperator kind id l r, e', h, hm => by
    cases e' with
    | BinaryOperator kind' id' l' r' =>
      simp only [Expression.withoutIds, Expression.BinaryOperator.injEq, true_and] at h
      obtain ⟨rfl, hl, hr⟩ := h
      obtain ⟨hml, hm⟩ := List.append_inj hm (Expression.made_eq_length hl)
      obtain ⟨rfl, hmr⟩ := List.cons.inj hm
      rw [Expression.eq_of_made l l' hl hml, Expression.eq_of_made r r' hr hmr]
    | _ => simp [Expression.withoutIds] at h
  | .Application id f a, e', h, hm => by
    cases e' with
    | Application id' f' a' =>
      simp only [Expression.withoutIds, Expression.Application.injEq, true_and] at h
      obtain ⟨hf, ha⟩ := h
      obtain ⟨hmf, hm⟩ := List.append_inj hm (Expression.made_eq_length hf)
      obtain ⟨hma, hid⟩ := List.append_inj hm (Expression.made_eq_length ha)
      obtain rfl := List.singleton_inj.mp hid
      rw [Expression.eq_of_made f f' hf hmf, Expression.eq_of_made a a' ha hma]
    | _ => simp [Expression.withoutIds] at h
  | .CaseExpression id s bs, e', h, hm => by
    cases e' with
    | CaseExpression id' s' bs' =>
      simp only [Expression.withoutIds, Expression.CaseExpression.injEq, true_and] at h
      obtain ⟨hs, hbs⟩ := h
      have hlen : (madeBranches bs).length = (madeBranches bs').length := by
        rw [← length_madeBranches, ← length_madeBranches bs', hbs]
      obtain ⟨hms, hm⟩ := List.append_inj hm (Expression.made_eq_length hs)
      obtain ⟨hmb, hid⟩ := List.append_inj hm hlen
      obtain rfl := List.singleton_inj.mp hid
      rw [Expression.eq_of_made s s' hs hms, eq_of_madeBranches bs bs' hbs hmb]
    | _ => simp [Expression.withoutIds] at h

theorem eq_of_madeBranches : (bs bs' : List Branch) →
    withoutIdsBranches bs = withoutIdsBranches bs' → madeBranches bs = madeBranches bs' → bs = bs'
  | [], [], _, _ => rfl
  | [], ⟨_, _, _⟩ :: _, h, _ => by simp [withoutIdsBranches] at h
  | ⟨_, _, _⟩ :: _, [], h, _ => by simp [withoutIdsBranches] at h
  | ⟨id, p, e⟩ :: bs, ⟨id', p', e'⟩ :: bs', h, hm => by
    simp only [withoutIdsBranches, List.cons.injEq, Branch.mk.injEq, true_and] at h
    obtain ⟨⟨hp, he⟩, hbs⟩ := h
    obtain ⟨hid, hmade⟩ := List.cons.inj hm
    obtain ⟨hme, hrest⟩ := List.append_inj hmade (Expression.made_eq_length he)
    obtain ⟨rfl, hmbs⟩ := List.cons.inj hrest
    rw [Pattern.eq_of_id hp hid, Expression.eq_of_made e e' he hme,
      eq_of_madeBranches bs bs' hbs hmbs]

end

theorem constructors_eq_of_made {cs cs' : List Constructor}
    (h : cs.map (·.withoutIds) = cs'.map (·.withoutIds))
    (hm : madeConstructors cs = madeConstructors cs') : cs = cs' := by
  unfold madeConstructors at hm
  induction cs generalizing cs' with
  | nil =>
    cases cs' with
    | nil => rfl
    | cons c' cs' => cases h
  | cons c cs ih =>
    cases cs' with
    | nil => cases h
    | cons c' cs' =>
      simp only [List.map_cons, List.cons.injEq] at h hm
      obtain ⟨id, name, fields⟩ := c
      obtain ⟨id', name', fields'⟩ := c'
      simp only [Constructor.withoutIds, Constructor.mk.injEq, true_and] at h hm
      obtain ⟨⟨rfl, rfl⟩, h⟩ := h
      obtain ⟨rfl, hm⟩ := hm
      rw [ih h hm]

theorem Definition.eq_of_made {d d' : Definition} (h : d.withoutIds = d'.withoutIds)
    (hm : d.made = d'.made) : d = d' := by
  cases d with
  | FunctionDefinition fd =>
    cases d' with
    | DataTypeDefinition dt => cases h
    | FunctionDefinition fd' =>
      obtain ⟨id, name, parameters, body⟩ := fd
      obtain ⟨id', name', parameters', body'⟩ := fd'
      simp only [Definition.withoutIds, Definition.FunctionDefinition.injEq,
        FunctionDefinition.mk.injEq, true_and] at h
      obtain ⟨rfl, rfl, hbody⟩ := h
      obtain ⟨hm, hid⟩ := List.append_inj hm (Expression.made_eq_length hbody)
      obtain rfl := List.singleton_inj.mp hid
      rw [Expression.eq_of_made body body' hbody hm]
  | DataTypeDefinition dt =>
    cases d' with
    | FunctionDefinition fd => cases h
    | DataTypeDefinition dt' =>
      obtain ⟨id, name, constructors⟩ := dt
      obtain ⟨id', name', constructors'⟩ := dt'
      simp only [Definition.withoutIds, Definition.DataTypeDefinition.injEq,
        DataTypeDefinition.mk.injEq, true_and] at h
      obtain ⟨rfl, hcs⟩ := h
      have hlen :
          (madeConstructors constructors).length = (madeConstructors constructors').length := by
        unfold madeConstructors
        rw [List.length_map, List.length_map]
        simpa using congrArg List.length hcs
      obtain ⟨hm, hid⟩ := List.append_inj hm hlen
      obtain rfl := List.singleton_inj.mp hid
      rw [constructors_eq_of_made hcs hm]

theorem definitions_length_made {ds ds' : List Definition}
    (h : ds.map (·.withoutIds) = ds'.map (·.withoutIds)) :
    (madeDefinitions ds).length = (madeDefinitions ds').length := by
  have hlength : ∀ ds : List Definition,
      (madeDefinitions (ds.map (·.withoutIds))).length = (madeDefinitions ds).length := by
    intro ds
    unfold madeDefinitions
    induction ds with
    | nil => rfl
    | cons d ds ih =>
      simp only [List.map_cons, List.flatMap_cons, List.length_append, d.length_made, ih]
  rw [← hlength ds, ← hlength ds', h]

theorem definitions_eq_of_made {ds ds' : List Definition}
    (h : ds.map (·.withoutIds) = ds'.map (·.withoutIds))
    (hm : madeDefinitions ds = madeDefinitions ds') : ds = ds' := by
  unfold madeDefinitions at hm
  induction ds generalizing ds' with
  | nil =>
    cases ds' with
    | nil => rfl
    | cons d' ds' => cases h
  | cons d ds ih =>
    cases ds' with
    | nil => cases h
    | cons d' ds' =>
      simp only [List.map_cons, List.cons.injEq] at h
      obtain ⟨hd, hds⟩ := h
      have hlen : d.made.length = d'.made.length := by
        rw [← d.length_made, ← d'.length_made, hd]
      obtain ⟨hmd, hmds⟩ := List.append_inj hm hlen
      rw [Definition.eq_of_made hd hmd, ih hds hmds]

end mf.ast

namespace mf.parsing

variable {α β γ : Type}

/-! ## Runs that return -/

/-- What a run of `p` from `s` comes to, if it returns. -/
def Brings (p : Parser α) (s : ParserState) (Q : α → ParserState → Prop) : Prop :=
  ∀ a s', p s = .ok a s' → Q a s'

theorem Brings.mono {p : Parser α} {s : ParserState} {Q Q' : α → ParserState → Prop}
    (h : Brings p s Q) (hq : ∀ a s', Q a s' → Q' a s') : Brings p s Q' :=
  fun a s' hp => hq a s' (h a s' hp)

theorem Brings.bind {p : Parser α} {f : α → Parser β} {s : ParserState}
    {P : α → ParserState → Prop} {Q : β → ParserState → Prop} (hp : Brings p s P)
    (hf : ∀ a s', P a s' → Brings (f a) s' Q) : Brings (p >>= f) s Q := by
  intro b s'' hrun
  rw [bind_run] at hrun
  cases h : p s with
  | ok a s' =>
    rw [h] at hrun
    exact hf a s' (hp a s' h) b s'' hrun
  | error e s' =>
    rw [h] at hrun
    cases hrun

theorem brings_pure {a : α} {s : ParserState} {Q : α → ParserState → Prop} (h : Q a s) :
    Brings (pure a) s Q := by
  rintro _ _ ⟨⟩
  exact h

theorem brings_throw (e : ParseError) (s : ParserState) (Q : α → ParserState → Prop) :
    Brings (throw e : Parser α) s Q := by
  intro a s' h
  cases h

/-- A run from `n` nodes to `m` nodes made the nodes `ids`, one after the other. -/
structure Counts (n : Nat) (ids : List NodeId) (m : Nat) : Prop where
  range : ids = List.range' n ids.length
  next : m = n + ids.length

theorem Counts.refl (n : Nat) : Counts n [] n := ⟨rfl, rfl⟩

theorem Counts.trans {n m k : Nat} {ids ids' : List NodeId} (h : Counts n ids m)
    (h' : Counts m ids' k) : Counts n (ids ++ ids') k := by
  constructor
  · have happend := List.range'_append_1 (s := n) (m := ids.length) (n := ids'.length)
    rw [List.length_append, ← happend, ← h.next, ← h.range, ← h'.range]
  · rw [h'.next, h.next, List.length_append, Nat.add_assoc]

/-- The nodes that a run of `p` makes are those of its result, in order. -/
def Makes (p : Parser α) (ids : α → List NodeId) : Prop :=
  ∀ s, Brings p s fun a s' => Counts s.positions.length (ids a) s'.positions.length

/-! ## Steps that make no node -/

theorem makes_pure (a : α) : Makes (pure a) fun _ => [] := fun _ => brings_pure (.refl _)

theorem makes_atEnd : Makes atEnd fun _ => [] := by
  rintro s _ _ ⟨⟩
  exact .refl _

theorem makes_cursor : Makes cursor fun _ => [] := by
  intro s t s' h
  unfold cursor at h
  split at h <;>
  · cases h
    exact .refl _

theorem makes_check (T : Alternative α) : Makes (check T) fun _ => [] := by
  intro s b s' h
  rw [check_run] at h
  cases h
  exact .refl _

theorem makes_checkAny {cs : List (Parser Bool)} (h : ∀ c ∈ cs, Makes c fun _ => []) :
    Makes (checkAny cs) fun _ => [] := by
  induction cs with
  | nil => exact makes_pure false
  | cons c cs ih =>
    intro s
    unfold checkAny
    refine (h c List.mem_cons_self s).bind fun b s1 h1 => ?_
    cases b with
    | true => exact brings_pure h1
    | false =>
      refine (ih (fun c hc => h c (List.mem_cons_of_mem _ hc)) s1).mono fun b s2 h2 => ?_
      exact h1.trans h2

theorem makes_expect (T : Alternative α) : Makes (expect T) fun _ => [] := by
  intro s a s' h
  rw [expect_run] at h
  split at h
  · cases h
  · split at h <;> cases h
    exact .refl _

theorem makes_matchToken (T : Alternative α) : Makes (matchToken T) fun _ => [] := by
  intro s b s' h
  rw [matchToken_run] at h
  cases h
  split <;> exact .refl _

theorem makes_throwExpected (expected : String) (ids : α → List NodeId) :
    Makes (throwExpected expected) ids := by
  intro s
  unfold throwExpected
  refine (makes_atEnd s).bind fun b s1 _ => ?_
  cases b with
  | true => exact brings_throw _ _ _
  | false => exact (makes_cursor s1).bind fun t s2 _ => brings_throw _ _ _

theorem makes_allocateNode (position : Position) :
    Makes (allocateNode position) fun id => [id] := by
  intro s id s' h
  rw [allocateNode_run] at h
  split at h
  · cases h
  · cases h
    exact ⟨rfl, by simp⟩

/-! ## Loops -/

/-- Each turn of the loop adds nodes to those of its value. -/
theorem brings_iterate {step : β → Parser (β ⊕ γ)} {before : β → List NodeId}
    {after : γ → List NodeId}
    (h : ∀ b s, Brings (step b) s fun r s' => ∃ ids, Sum.elim before after r = before b ++ ids ∧
      Counts s.positions.length ids s'.positions.length) (n : Nat) (b : β) (s : ParserState) :
    Brings (iterate step n b) s fun c s' => ∃ ids, after c = before b ++ ids ∧
      Counts s.positions.length ids s'.positions.length := by
  induction n generalizing b s with
  | zero => exact brings_throw _ _ _
  | succ n ih =>
    unfold iterate
    refine (h b s).bind ?_
    rintro r s1 ⟨ids, hids, hcounts⟩
    cases r with
    | inl b' =>
      refine (ih b' s1).mono ?_
      rintro c s2 ⟨ids', hids', hcounts'⟩
      have hbefore : before b' = before b ++ ids := hids
      exact ⟨ids ++ ids', by rw [hids', hbefore, List.append_assoc], hcounts.trans hcounts'⟩
    | inr c => exact brings_pure ⟨ids, hids, hcounts⟩

theorem brings_loop {step : β → Parser (β ⊕ γ)} (before : β → List NodeId)
    (after : γ → List NodeId)
    (h : ∀ b s, Brings (step b) s fun r s' => ∃ ids, Sum.elim before after r = before b ++ ids ∧
      Counts s.positions.length ids s'.positions.length) (b : β) (s : ParserState) :
    Brings (loop b step) s fun c s' => ∃ ids, after c = before b ++ ids ∧
      Counts s.positions.length ids s'.positions.length := brings_iterate h _ b s

theorem makes_parseNamesWhile (T : Alternative String) : Makes (parseNamesWhile T) fun _ => [] := by
  intro s
  have hturn : ∀ (names : List String) s, Brings (nextName T names) s fun r s' =>
      ∃ ids, Sum.elim (fun _ => []) (fun _ => []) r = [] ++ ids ∧
        Counts s.positions.length ids s'.positions.length := by
    intro names s
    unfold nextName
    refine (makes_check T s).bind fun b s1 h1 => ?_
    cases b with
    | false => exact brings_pure ⟨[], rfl, h1⟩
    | true =>
      refine (makes_expect T s1).bind fun name s2 h2 => ?_
      exact brings_pure ⟨[], rfl, h1.trans h2⟩
  refine (brings_loop (fun _ => []) (fun _ => []) hturn [] s).mono ?_
  rintro names s' ⟨ids, hids, hcounts⟩
  cases hids
  exact hcounts

/-! ## Expressions -/

theorem makes_expectAnyName (Ts : List (Alternative String)) :
    Makes (expectAnyName Ts) fun _ => [] := by
  induction Ts with
  | nil => exact makes_throwExpected _ _
  | cons T Ts ih =>
    intro s
    unfold expectAnyName
    refine (makes_check T s).bind fun b s1 h1 => ?_
    cases b with
    | true => exact (makes_expect T s1).mono fun name s2 h2 => h1.trans h2
    | false => exact (ih s1).mono fun name s2 h2 => h1.trans h2

theorem makes_parseIntLiteral : Makes parseIntLiteral Expression.made := by
  intro s
  unfold parseIntLiteral
  refine (makes_cursor s).bind fun t s1 h1 => ?_
  refine (makes_allocateNode t.position s1).bind fun id s2 h2 => ?_
  refine (makes_expect IntLiteral s2).bind fun value s3 h3 => ?_
  exact brings_pure ((h1.trans h2).trans h3)

theorem makes_parseVariable : Makes parseVariable Expression.made := by
  intro s
  unfold parseVariable
  refine (makes_cursor s).bind fun t s1 h1 => ?_
  refine (makes_expectAnyName _ s1).bind fun name s2 h2 => ?_
  refine (makes_allocateNode t.position s2).bind fun id s3 h3 => ?_
  exact brings_pure ((h1.trans h2).trans h3)

theorem makes_parsePattern : Makes parsePattern fun p => [p.id] := by
  intro s
  unfold parsePattern
  refine (makes_check LowerVariable s).bind fun b s1 h1 => ?_
  cases b with
  | true =>
    simp only [if_true]
    unfold parseVariablePattern
    refine (makes_cursor s1).bind fun t s2 h2 => ?_
    refine (makes_allocateNode t.position s2).bind fun id s3 h3 => ?_
    refine (makes_expect LowerVariable s3).bind fun name s4 h4 => ?_
    exact brings_pure (((h1.trans h2).trans h3).trans h4)
  | false =>
    refine (makes_check UpperVariable s1).bind fun b s2 h2 => ?_
    cases b with
    | false =>
      exact (makes_throwExpected "pattern" _ s2).mono fun p s3 h3 => (h1.trans h2).trans h3
    | true =>
      simp only [if_true]
      unfold parseConstructorPattern
      refine (makes_cursor s2).bind fun t s3 h3 => ?_
      refine (makes_allocateNode t.position s3).bind fun id s4 h4 => ?_
      refine (makes_expect UpperVariable s4).bind fun name s5 h5 => ?_
      refine (makes_parseNamesWhile LowerVariable s5).bind fun names s6 h6 => ?_
      exact brings_pure (((((h1.trans h2).trans h3).trans h4).trans h5).trans h6)

section

variable {self : Parser Expression} (hself : Makes self Expression.made)

include hself

theorem makes_parseBranch : Makes (parseBranch self) Branch.made := by
  intro s
  unfold parseBranch
  refine (makes_cursor s).bind fun t s1 h1 => ?_
  refine (makes_parsePattern s1).bind fun p s2 h2 => ?_
  refine (makes_expect (Empty .Arrow) s2).bind fun _ s3 h3 => ?_
  refine (makes_expect (Empty .LeftBrace) s3).bind fun _ s4 h4 => ?_
  refine (hself s4).bind fun e s5 h5 => ?_
  refine (makes_expect (Empty .RightBrace) s5).bind fun _ s6 h6 => ?_
  refine (makes_allocateNode t.position s6).bind fun id s7 h7 => ?_
  apply brings_pure
  have h := (((((h1.trans h2).trans h3).trans h4).trans h5).trans h6).trans h7
  simpa [Branch.made] using h

theorem brings_branches (bs : List Branch) (s : ParserState) :
    Brings (loop bs (nextBranch self)) s fun branches s' => ∃ ids,
      madeBranches branches = madeBranches bs ++ ids ∧
      Counts s.positions.length ids s'.positions.length := by
  refine brings_loop madeBranches madeBranches (fun bs s => ?_) bs s
  unfold nextBranch
  refine (makes_check (Empty .RightBrace) s).bind fun b s1 h1 => ?_
  refine (makes_atEnd s1).bind fun b' s2 h2 => ?_
  by_cases hgo : (!b && !b') = true
  · simp only [hgo, if_true]
    refine (makes_parseBranch hself s2).bind fun branch s3 h3 => ?_
    refine brings_pure ⟨branch.made, ?_, (h1.trans h2).trans h3⟩
    show madeBranches (bs ++ [branch]) = _
    rw [madeBranches_append, madeBranches_cons]
    simp
  · simp only [hgo]
    exact brings_pure ⟨[], (List.append_nil _).symm, h1.trans h2⟩

theorem makes_parseCaseExpression : Makes (parseCaseExpression self) Expression.made := by
  intro s
  unfold parseCaseExpression
  refine (makes_cursor s).bind fun t s1 h1 => ?_
  refine (makes_expect (Empty .Case) s1).bind fun _ s2 h2 => ?_
  refine (hself s2).bind fun scrutinee s3 h3 => ?_
  refine (makes_expect (Empty .Of) s3).bind fun _ s4 h4 => ?_
  refine (makes_expect (Empty .LeftBrace) s4).bind fun _ s5 h5 => ?_
  refine (makes_parseBranch hself s5).bind fun first s6 h6 => ?_
  refine (brings_branches hself [first] s6).bind ?_
  rintro branches s7 ⟨ids, hids, h7⟩
  refine (makes_expect (Empty .RightBrace) s7).bind fun _ s8 h8 => ?_
  refine (makes_allocateNode t.position s8).bind fun id s9 h9 => ?_
  apply brings_pure
  rw [madeBranches_cons] at hids
  have h := (((((((h1.trans h2).trans h3).trans h4).trans h5).trans h6).trans h7).trans h8).trans h9
  simpa [hids, List.append_assoc] using h

theorem makes_parsePrimary : Makes (parsePrimary self) Expression.made := by
  intro s
  unfold parsePrimary
  refine (makes_check (Empty .LeftParentheses) s).bind fun b s1 h1 => ?_
  cases b with
  | true =>
    simp only [if_true]
    unfold parseParenthesized
    refine (makes_expect (Empty .LeftParentheses) s1).bind fun _ s2 h2 => ?_
    refine (hself s2).bind fun e s3 h3 => ?_
    refine (makes_expect (Empty .RightParentheses) s3).bind fun _ s4 h4 => ?_
    apply brings_pure
    have h := ((h1.trans h2).trans h3).trans h4
    simpa using h
  | false =>
    refine (makes_check IntLiteral s1).bind fun b s2 h2 => ?_
    cases b with
    | true => exact (makes_parseIntLiteral s2).mono fun e s3 h3 => (h1.trans h2).trans h3
    | false =>
      have hnames : ∀ c ∈ [check LowerVariable, check UpperVariable], Makes c fun _ => [] := by
        intro c hc
        simp only [List.mem_cons, List.not_mem_nil, or_false] at hc
        rcases hc with rfl | rfl <;> exact makes_check _
      refine (makes_checkAny hnames s2).bind fun b s3 h3 => ?_
      cases b with
      | true => exact (makes_parseVariable s3).mono fun e s4 h4 => ((h1.trans h2).trans h3).trans h4
      | false =>
        refine (makes_check (Empty .Case) s3).bind fun b s4 h4 => ?_
        have h := ((h1.trans h2).trans h3).trans h4
        cases b with
        | true => exact (makes_parseCaseExpression hself s4).mono fun e s5 h5 => h.trans h5
        | false => exact (makes_throwExpected "expression" _ s4).mono fun e s5 h5 => h.trans h5

theorem makes_parseApplication : Makes (parseApplication self) Expression.made := by
  intro s
  unfold parseApplication
  refine (makes_parsePrimary hself s).bind fun e s1 h1 => ?_
  have hturn : ∀ f s, Brings (nextArgument self f) s fun r s' => ∃ ids,
      Sum.elim Expression.made Expression.made r = f.made ++ ids ∧
      Counts s.positions.length ids s'.positions.length := by
    intro f s
    unfold nextArgument
    have hstarts : ∀ c ∈ [check IntLiteral, check LowerVariable, check UpperVariable,
        check (Empty .LeftParentheses), check (Empty .Case)], Makes c fun _ => [] := by
      intro c hc
      simp only [List.mem_cons, List.not_mem_nil, or_false] at hc
      rcases hc with rfl | rfl | rfl | rfl | rfl <;> exact makes_check _
    refine (makes_checkAny hstarts s).bind fun b s1 h1 => ?_
    cases b with
    | false => exact brings_pure ⟨[], (List.append_nil _).symm, h1⟩
    | true =>
      refine (makes_cursor s1).bind fun t s2 h2 => ?_
      refine (makes_parsePrimary hself s2).bind fun a s3 h3 => ?_
      refine (makes_allocateNode t.position s3).bind fun id s4 h4 => ?_
      exact brings_pure ⟨a.made ++ [id], rfl, ((h1.trans h2).trans h3).trans h4⟩
  refine (brings_loop Expression.made Expression.made hturn e s1).mono ?_
  rintro e' s2 ⟨ids, hids, h2⟩
  rw [hids]
  exact h1.trans h2

end

/-- The operator makes its node between its operands. -/
def MakesBetween (factory : BinaryOperatorFactory) : Prop :=
  ∀ id l r, (factory id l r).made = l.made ++ id :: r.made

theorem brings_matchBinaryOperator {operators : List (TokenVariant × BinaryOperatorFactory)}
    (h : ∀ x ∈ operators, MakesBetween x.2) (s : ParserState) :
    Brings (matchBinaryOperator operators) s fun r s' =>
      (∀ factory, r = some factory → MakesBetween factory) ∧
        Counts s.positions.length [] s'.positions.length := by
  induction operators generalizing s with
  | nil =>
    refine brings_pure ⟨fun factory hnone => ?_, .refl _⟩
    cases hnone
  | cons x operators ih =>
    obtain ⟨token, factory⟩ := x
    unfold matchBinaryOperator
    refine (makes_matchToken (Empty token) s).bind fun b s1 h1 => ?_
    cases b with
    | true =>
      refine brings_pure ⟨fun factory' hsome => ?_, h1⟩
      cases hsome
      exact h _ List.mem_cons_self
    | false =>
      refine (ih (fun x hx => h x (List.mem_cons_of_mem _ hx)) s1).mono ?_
      rintro r s2 ⟨hr, h2⟩
      exact ⟨hr, h1.trans h2⟩

theorem makes_parseBinaryLevel {operand : Parser Expression}
    {operators : List (TokenVariant × BinaryOperatorFactory)}
    (hoperand : Makes operand Expression.made) (h : ∀ x ∈ operators, MakesBetween x.2) :
    Makes (parseBinaryLevel operand (matchBinaryOperator operators)) Expression.made := by
  intro s
  unfold parseBinaryLevel
  refine (hoperand s).bind fun left s1 h1 => ?_
  have hturn : ∀ l s, Brings (nextOperand operand (matchBinaryOperator operators) l) s fun r s' =>
      ∃ ids, Sum.elim Expression.made Expression.made r = l.made ++ ids ∧
        Counts s.positions.length ids s'.positions.length := by
    intro l s
    unfold nextOperand
    refine (makes_atEnd s).bind fun b s1 h1 => ?_
    cases b with
    | true => exact brings_pure ⟨[], (List.append_nil _).symm, h1⟩
    | false =>
      refine (makes_cursor s1).bind fun t s2 h2 => ?_
      refine (brings_matchBinaryOperator h s2).bind ?_
      rintro r s3 ⟨hr, h3⟩
      cases r with
      | none => exact brings_pure ⟨[], (List.append_nil _).symm, (h1.trans h2).trans h3⟩
      | some factory =>
        refine (makes_allocateNode t.position s3).bind fun id s4 h4 => ?_
        refine (hoperand s4).bind fun r s5 h5 => ?_
        refine brings_pure ⟨id :: r.made, hr factory rfl id l r, ?_⟩
        exact (((h1.trans h2).trans h3).trans h4).trans h5
  refine (brings_loop Expression.made Expression.made hturn left s1).mono ?_
  rintro e s2 ⟨ids, hids, h2⟩
  rw [hids]
  exact h1.trans h2

theorem makes_parseExpressionWithin (n : Nat) :
    Makes (parseExpressionWithin n) Expression.made := by
  induction n with
  | zero =>
    intro s
    exact brings_throw _ _ _
  | succ n ih =>
    have hterm : Makes (parseTerm (parseExpressionWithin n)) Expression.made := by
      refine makes_parseBinaryLevel (makes_parseApplication ih) fun x hx => ?_
      simp only [List.mem_cons, List.not_mem_nil, or_false] at hx
      rcases hx with rfl | rfl <;> exact fun _ _ _ => rfl
    refine makes_parseBinaryLevel hterm fun x hx => ?_
    simp only [List.mem_cons, List.not_mem_nil, or_false] at hx
    rcases hx with rfl | rfl <;> exact fun _ _ _ => rfl

theorem makes_parseExpression : Makes parseExpression Expression.made := by
  intro s e s' h
  unfold parseExpression at h
  exact makes_parseExpressionWithin _ s e s' h

/-! ## Definitions -/

theorem makes_parseConstructor : Makes parseConstructor fun c => [c.id] := by
  intro s
  unfold parseConstructor
  refine (makes_cursor s).bind fun t s1 h1 => ?_
  refine (makes_expect UpperVariable s1).bind fun name s2 h2 => ?_
  refine (makes_parseNamesWhile UpperVariable s2).bind fun fields s3 h3 => ?_
  refine (makes_allocateNode t.position s3).bind fun id s4 h4 => ?_
  exact brings_pure (((h1.trans h2).trans h3).trans h4)

theorem makes_parseFunctionDefinition : Makes parseFunctionDefinition fun fd =>
    fd.body.made ++ [fd.id] := by
  intro s
  unfold parseFunctionDefinition
  refine (makes_cursor s).bind fun t s1 h1 => ?_
  refine (makes_expect (Empty .Function) s1).bind fun _ s2 h2 => ?_
  refine (makes_expect LowerVariable s2).bind fun name s3 h3 => ?_
  refine (makes_parseNamesWhile LowerVariable s3).bind fun parameters s4 h4 => ?_
  refine (makes_expect (Empty .Equal) s4).bind fun _ s5 h5 => ?_
  refine (makes_expect (Empty .LeftBrace) s5).bind fun _ s6 h6 => ?_
  refine (makes_parseExpression s6).bind fun body s7 h7 => ?_
  refine (makes_expect (Empty .RightBrace) s7).bind fun _ s8 h8 => ?_
  refine (makes_allocateNode t.position s8).bind fun id s9 h9 => ?_
  apply brings_pure
  have h := ((((((h1.trans h2).trans h3).trans h4).trans h5).trans h6).trans h7).trans h8
  simpa using h.trans h9

theorem makes_parseDataTypeDefinition : Makes parseDataTypeDefinition fun dt =>
    madeConstructors dt.constructors ++ [dt.id] := by
  intro s
  unfold parseDataTypeDefinition
  refine (makes_cursor s).bind fun t s1 h1 => ?_
  refine (makes_expect (Empty .Data) s1).bind fun _ s2 h2 => ?_
  refine (makes_expect UpperVariable s2).bind fun name s3 h3 => ?_
  refine (makes_expect (Empty .Equal) s3).bind fun _ s4 h4 => ?_
  refine (makes_expect (Empty .LeftBrace) s4).bind fun _ s5 h5 => ?_
  refine (makes_parseConstructor s5).bind fun first s6 h6 => ?_
  have hturn : ∀ cs s, Brings (nextConstructor cs) s fun r s' => ∃ ids,
      Sum.elim madeConstructors madeConstructors r = madeConstructors cs ++ ids ∧
      Counts s.positions.length ids s'.positions.length := by
    intro cs s
    unfold nextConstructor
    refine (makes_matchToken (Empty .Comma) s).bind fun b s1 h1 => ?_
    cases b with
    | false => exact brings_pure ⟨[], (List.append_nil _).symm, h1⟩
    | true =>
      refine (makes_parseConstructor s1).bind fun c s2 h2 => ?_
      exact brings_pure ⟨[c.id], List.map_append, h1.trans h2⟩
  refine (brings_loop madeConstructors madeConstructors hturn [first] s6).bind ?_
  rintro constructors s7 ⟨ids, hids, h7⟩
  refine (makes_expect (Empty .RightBrace) s7).bind fun _ s8 h8 => ?_
  refine (makes_allocateNode t.position s8).bind fun id s9 h9 => ?_
  apply brings_pure
  have hfirst : madeConstructors [first] = [first.id] := rfl
  have h := (((((h1.trans h2).trans h3).trans h4).trans h5).trans h6).trans h7
  simpa [hids, hfirst] using (h.trans h8).trans h9

theorem makes_parseDefinition : Makes parseDefinition Definition.made := by
  intro s
  unfold parseDefinition
  refine (makes_check (Empty .Function) s).bind fun b s1 h1 => ?_
  cases b with
  | true =>
    refine (makes_parseFunctionDefinition s1).bind fun fd s2 h2 => ?_
    exact brings_pure (h1.trans h2)
  | false =>
    refine (makes_check (Empty .Data) s1).bind fun b s2 h2 => ?_
    cases b with
    | true =>
      refine (makes_parseDataTypeDefinition s2).bind fun dt s3 h3 => ?_
      exact brings_pure ((h1.trans h2).trans h3)
    | false => exact (makes_throwExpected _ _ s2).mono fun d s3 h3 => (h1.trans h2).trans h3

theorem makes_parseProgram : Makes parseProgram Program.made := by
  intro s
  unfold parseProgram
  have hturn : ∀ program s, Brings (nextDefinition program) s fun r s' => ∃ ids,
      Sum.elim Program.made Program.made r = program.made ++ ids ∧
      Counts s.positions.length ids s'.positions.length := by
    intro program s
    unfold nextDefinition
    refine (makes_atEnd s).bind fun b s1 h1 => ?_
    cases b with
    | true => exact brings_pure ⟨[], (List.append_nil _).symm, h1⟩
    | false =>
      refine (makes_parseDefinition s1).bind fun d s2 h2 => ?_
      refine brings_pure ⟨d.made, ?_, h1.trans h2⟩
      show madeDefinitions (program.definitions ++ [d]) =
        madeDefinitions program.definitions ++ d.made
      unfold madeDefinitions
      simp
  refine (brings_loop Program.made Program.made hturn ⟨[]⟩ s).mono ?_
  rintro program s' ⟨ids, hids, hcounts⟩
  have hnone : Program.made ⟨[]⟩ = [] := rfl
  rw [hids, hnone]
  exact hcounts

/-! ## The ids of a program -/

variable {tokens tokens' : TokenVector} {p p' : ParsedProgram}

theorem parse_made (h : parse tokens = .ok p) :
    p.ast.made = List.range p.positions.length := by
  unfold parse at h
  cases hrun : parseProgram ⟨tokens.tokens, [], false⟩ with
  | error e s => simp [hrun] at h
  | ok program s =>
    simp only [hrun, Except.ok.injEq] at h
    subst h
    have hcounts := makes_parseProgram _ program s hrun
    have hlength : s.positions.length = program.made.length := by simpa using hcounts.next
    show program.made = List.range s.positions.length
    rw [hlength, List.range_eq_range']
    exact hcounts.range

/-- Programs that are equal but for their ids are equal when they are parsed. -/
theorem ast_eq_of_equal (h : parse tokens = .ok p) (h' : parse tokens' = .ok p')
    (hequal : p'.ast.Equal p.ast) : p'.ast = p.ast ∧ p'.positions.length = p.positions.length := by
  have hmap : p'.ast.definitions.map (·.withoutIds) = p.ast.definitions.map (·.withoutIds) :=
    congrArg Program.definitions hequal
  have hmade := parse_made h
  have hmade' := parse_made h'
  have hlength : p'.ast.made.length = p.ast.made.length := definitions_length_made hmap
  rw [hmade, hmade', List.length_range, List.length_range] at hlength
  have hdefinitions := definitions_eq_of_made hmap (by
    show p'.ast.made = p.ast.made
    rw [hmade, hmade', hlength])
  exact ⟨congrArg Program.mk hdefinitions, hlength⟩

end mf.parsing
