-- Programs that the grammar can write, and that the parser makes only such
-- programs of the scanner's tokens.
import MiniFunctional.Tokenize
import MiniFunctional.ParseGrammar

open mf.util mf.ast mf.tokenization mf.grammar

namespace mf.ast

def Pattern.Writable : Pattern → Prop
  | .VariablePattern _ name => LowerName name
  | .ConstructorPattern _ name arguments => UpperName name ∧ ∀ a ∈ arguments, LowerName a

mutual

def Expression.Writable : Expression → Prop
  | .IntLiteral _ value => 0 ≤ value.toInt
  | .Variable _ name => LowerName name ∨ UpperName name
  | .BinaryOperator _ _ l r => l.Writable ∧ r.Writable
  | .Application _ f a => f.Writable ∧ a.Writable
  | .CaseExpression _ s bs => s.Writable ∧ bs ≠ [] ∧ WritableBranches bs

def WritableBranches : List Branch → Prop
  | [] => True
  | ⟨_, p, e⟩ :: bs => p.Writable ∧ e.Writable ∧ WritableBranches bs

end

def Constructor.Writable (c : Constructor) : Prop := UpperName c.name ∧ ∀ f ∈ c.fields, UpperName f

def Definition.Writable : Definition → Prop
  | .FunctionDefinition fd =>
    LowerName fd.name ∧ (∀ p ∈ fd.parameters, LowerName p) ∧ fd.body.Writable
  | .DataTypeDefinition dt =>
    UpperName dt.name ∧ dt.constructors ≠ [] ∧ ∀ c ∈ dt.constructors, c.Writable

/-- The names stand where the grammar allows their case, nothing that needs
an element is empty, and no literal is negative. -/
def Program.Writable (program : Program) : Prop := ∀ d ∈ program.definitions, d.Writable

theorem writableBranches_iff {bs : List Branch} :
    WritableBranches bs ↔ ∀ b ∈ bs, b.pattern.Writable ∧ b.body.Writable := by
  induction bs with
  | nil => simp [WritableBranches]
  | cons b bs ih =>
    obtain ⟨id, p, e⟩ := b
    simp [WritableBranches, ih, and_assoc]

theorem Pattern.writable_withoutIds {p : Pattern} : p.withoutIds.Writable ↔ p.Writable := by
  cases p <;> rfl

theorem Expression.writable_withoutIds {e : Expression} :
    e.withoutIds.Writable ↔ e.Writable := by
  induction e with
  | IntLiteral id value | Variable id name => rfl
  | BinaryOperator kind id l r ihl ihr =>
    simp only [Expression.withoutIds, Expression.Writable, ihl, ihr]
  | Application id f a ihf iha =>
    simp only [Expression.withoutIds, Expression.Writable, ihf, iha]
  | CaseExpression id s bs ihs ihbs =>
    simp only [Expression.withoutIds, Expression.Writable, withoutIdsBranches_eq,
      writableBranches_iff, ihs, List.forall_mem_map, ne_eq, List.map_eq_nil_iff]
    refine and_congr_right fun _ => and_congr_right fun _ => forall_congr' fun b =>
      forall_congr' fun hb => ?_
    exact and_congr Pattern.writable_withoutIds (ihbs b hb)

theorem Definition.writable_withoutIds {d : Definition} : d.withoutIds.Writable ↔ d.Writable := by
  cases d with
  | FunctionDefinition fd =>
    simp only [Definition.withoutIds, Definition.Writable, Expression.writable_withoutIds]
  | DataTypeDefinition dt =>
    simp only [Definition.withoutIds, Definition.Writable, List.forall_mem_map, ne_eq,
      List.map_eq_nil_iff]
    rfl

theorem Program.writable_withoutIds {p : Program} : p.withoutIds.Writable ↔ p.Writable := by
  simp only [Program.Writable, Program.withoutIds, List.forall_mem_map,
    Definition.writable_withoutIds]

end mf.ast

namespace mf.grammar

/-! ## Derivations of lexed tokens -/

/-- What a tree denotes can be written. -/
def DenotesWritable : (s : Nonterminal) → Denotation s → Prop
  | .Program, ds => ∀ d ∈ ds, Definition.Writable d
  | .Definition, d => Definition.Writable d
  | .Constructor, c => Constructor.Writable c
  | .Constructors, cs => ∀ c ∈ cs, Constructor.Writable c
  | .Sums, operands | .Products, operands => ∀ operand ∈ operands, Expression.Writable operand.2
  | .Arguments, arguments => ∀ a ∈ arguments, Expression.Writable a
  | .Branch, b => b.pattern.Writable ∧ b.body.Writable
  | .Branches, bs => ∀ b ∈ bs, b.pattern.Writable ∧ b.body.Writable
  | .Pattern, p => Pattern.Writable p
  | .Expression, e | .Term, e | .Factor, e | .Application, e | .Primary, e | .CaseExpression, e =>
    Expression.Writable e

theorem chain_writable {left : Expression} {rest : List (BinaryOperatorKind × Expression)}
    (hl : left.Writable) (hrest : ∀ operand ∈ rest, operand.2.Writable) :
    (chain left rest).Writable := by
  induction rest generalizing left with
  | nil => exact hl
  | cons operand rest ih =>
    exact ih ⟨hl, hrest operand (by simp)⟩ fun o ho => hrest o (List.mem_cons_of_mem _ ho)

theorem applyAll_writable {function : Expression} {arguments : List Expression}
    (hf : function.Writable) (hargs : ∀ a ∈ arguments, a.Writable) :
    (applyAll function arguments).Writable := by
  induction arguments generalizing function with
  | nil => exact hf
  | cons a arguments ih =>
    exact ih ⟨hf, hargs a (by simp)⟩ fun b hb => hargs b (List.mem_cons_of_mem _ hb)

theorem Tree.denotesWritable {s : Nonterminal} (d : Tree s) (h : ∀ t ∈ d.yield, t.Lexed) :
    DenotesWritable s d.denote := by
  induction d with
  | programEnd | constructorsEnd | sumsEnd | productsEnd | argumentsEnd | branchesEnd =>
    intro x hx
    cases hx
  | nextDefinition d p ihd ihp =>
    simp only [Tree.yield, List.mem_append] at h
    intro x hx
    rcases List.mem_cons.mp hx with rfl | hx
    · exact ihd fun t ht => h t (.inl ht)
    · exact ihp (fun t ht => h t (.inr ht)) x hx
  | functionDefinition name parameters e ih =>
    simp only [Tree.yield, List.mem_cons, List.mem_append, List.mem_map] at h
    refine ⟨h (.LowerVariable name) (by simp), fun p hp => ?_, ih fun t ht => h t (by simp [ht])⟩
    exact h (.LowerVariable p) (.inr (.inr (.inl ⟨p, hp, rfl⟩)))
  | dataTypeDefinition name c cs ihc ihcs =>
    simp only [Tree.yield, List.mem_cons, List.mem_append] at h
    refine ⟨h (.UpperVariable name) (by simp), by simp, fun x hx => ?_⟩
    rcases List.mem_cons.mp hx with rfl | hx
    · exact ihc fun t ht => h t (by simp [ht])
    · exact ihcs (fun t ht => h t (by simp [ht])) x hx
  | constructor name fields =>
    simp only [Tree.yield, List.mem_cons, List.mem_map] at h
    exact ⟨h (.UpperVariable name) (.inl rfl), fun f hf => h (.UpperVariable f) (.inr ⟨f, hf, rfl⟩)⟩
  | nextConstructor c cs ihc ihcs =>
    simp only [Tree.yield, List.mem_cons, List.mem_append] at h
    intro x hx
    rcases List.mem_cons.mp hx with rfl | hx
    · exact ihc fun t ht => h t (by simp [ht])
    · exact ihcs (fun t ht => h t (by simp [ht])) x hx
  | expression t ts iht ihts =>
    simp only [Tree.yield, List.mem_append] at h
    exact chain_writable (iht fun x hx => h x (.inl hx)) (ihts fun x hx => h x (.inr hx))
  | nextSum op t ts iht ihts =>
    simp only [Tree.yield, List.mem_cons, List.mem_append] at h
    intro x hx
    rcases List.mem_cons.mp hx with rfl | hx
    · exact iht fun t ht => h t (by simp [ht])
    · exact ihts (fun t ht => h t (by simp [ht])) x hx
  | term f fs ihf ihfs =>
    simp only [Tree.yield, List.mem_append] at h
    exact chain_writable (ihf fun x hx => h x (.inl hx)) (ihfs fun x hx => h x (.inr hx))
  | nextProduct op f fs ihf ihfs =>
    simp only [Tree.yield, List.mem_cons, List.mem_append] at h
    intro x hx
    rcases List.mem_cons.mp hx with rfl | hx
    · exact ihf fun t ht => h t (by simp [ht])
    · exact ihfs (fun t ht => h t (by simp [ht])) x hx
  | factor a ih => exact ih h
  | application p ps ihp ihps =>
    simp only [Tree.yield, List.mem_append] at h
    exact applyAll_writable (ihp fun x hx => h x (.inl hx)) (ihps fun x hx => h x (.inr hx))
  | nextArgument p ps ihp ihps =>
    simp only [Tree.yield, List.mem_append] at h
    intro x hx
    rcases List.mem_cons.mp hx with rfl | hx
    · exact ihp fun t ht => h t (by simp [ht])
    · exact ihps (fun t ht => h t (by simp [ht])) x hx
  | num value => exact h (.IntLiteral value) (by simp)
  | lowerVariable name => exact .inl (h (.LowerVariable name) (by simp))
  | upperVariable name => exact .inr (h (.UpperVariable name) (by simp))
  | parenthesized e ih => exact ih fun t ht => h t (by simp [ht])
  | casePrimary c ih => exact ih h
  | caseExpression e b bs ihe ihb ihbs =>
    simp only [Tree.yield, List.mem_cons, List.mem_append] at h
    refine ⟨ihe fun t ht => h t (by simp [ht]), by simp, ?_⟩
    rw [writableBranches_iff]
    intro x hx
    rcases List.mem_cons.mp hx with rfl | hx
    · exact ihb fun t ht => h t (by simp [ht])
    · exact ihbs (fun t ht => h t (by simp [ht])) x hx
  | branch p e ihp ihe =>
    simp only [Tree.yield, List.mem_cons, List.mem_append] at h
    exact ⟨ihp fun t ht => h t (by simp [ht]), ihe fun t ht => h t (by simp [ht])⟩
  | nextBranch b bs ihb ihbs =>
    simp only [Tree.yield, List.mem_append] at h
    intro x hx
    rcases List.mem_cons.mp hx with rfl | hx
    · exact ihb fun t ht => h t (.inl ht)
    · exact ihbs (fun t ht => h t (.inr ht)) x hx
  | variablePattern name => exact h (.LowerVariable name) (by simp)
  | constructorPattern name arguments =>
    simp only [Tree.yield, List.mem_cons, List.mem_map] at h
    exact ⟨h (.UpperVariable name) (.inl rfl), fun a ha => h (.LowerVariable a) (.inr ⟨a, ha, rfl⟩)⟩

end mf.grammar

namespace mf.parsing

/-- The parser makes of the scanner's tokens only what the grammar can write. -/
theorem parse_writable {tokens : TokenVector} (hl : tokens.Lexed) {p : ParsedProgram}
    (h : parse tokens = .ok p) : p.ast.Writable := by
  obtain ⟨d, hd, hv, _⟩ := parse_ok h
  have hlexed : ∀ t ∈ d.yield, t.Lexed := by
    rw [show d.yield = _ from hd]
    intro t ht
    obtain ⟨token, htoken, rfl⟩ := List.mem_map.mp ht
    exact hl token htoken
  rw [← Program.writable_withoutIds, hv]
  exact d.denotesWritable hlexed

end mf.parsing
