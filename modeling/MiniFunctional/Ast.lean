-- The syntax tree of `parsing/ast.hpp`, with the node ids, and the operator
-- traits of `parsing/ast_traits.hpp`.
import MiniFunctional.Token

namespace mf.ast

/-- `ast::NodeId`, a `std::size_t`. -/
abbrev NodeId := Nat

/-- `std::numeric_limits<NodeId>::max()`. -/
def kInvalidNodeId : NodeId := 0xFFFFFFFFFFFFFFFF

inductive BinaryOperatorKind
  | Addition
  | Subtraction
  | Multiplication
  | Division
deriving DecidableEq, Repr

/-- `BinaryOperatorTraits<Op>::symbol`. -/
def symbolOf : BinaryOperatorKind → String
  | .Addition => "+"
  | .Subtraction => "-"
  | .Multiplication => "*"
  | .Division => "/"

inductive Pattern
  | VariablePattern (id : NodeId) (name : String)
  | ConstructorPattern (id : NodeId) (name : String) (arguments : List String)
deriving DecidableEq, Repr

mutual

/-- The four structs of `DECLARE_BINARY_OPERATOR` are one constructor with
the operator's kind. -/
inductive Expression
  | IntLiteral (id : NodeId) (value : Int32)
  | Variable (id : NodeId) (name : String)
  | BinaryOperator (kind : BinaryOperatorKind) (id : NodeId)
      (left_operand right_operand : Expression)
  | Application (id : NodeId) (function argument : Expression)
  | CaseExpression (id : NodeId) (scrutinee : Expression) (branches : List Branch)

structure Branch where
  id : NodeId
  pattern : Pattern
  body : Expression

end

@[match_pattern] abbrev Addition := Expression.BinaryOperator .Addition
@[match_pattern] abbrev Subtraction := Expression.BinaryOperator .Subtraction
@[match_pattern] abbrev Multiplication := Expression.BinaryOperator .Multiplication
@[match_pattern] abbrev Division := Expression.BinaryOperator .Division

structure FunctionDefinition where
  id : NodeId
  name : String
  parameters : List String
  body : Expression

structure Constructor where
  id : NodeId
  name : String
  fields : List String
deriving DecidableEq, Repr

structure DataTypeDefinition where
  id : NodeId
  name : String
  constructors : List Constructor
deriving DecidableEq, Repr

inductive Definition
  | FunctionDefinition (definition : FunctionDefinition)
  | DataTypeDefinition (definition : DataTypeDefinition)

structure Program where
  definitions : List Definition

/-! ## Induction over expressions -/

section

set_option linter.unusedSectionVars false

variable {motive : Expression → Prop}
  (IntLiteral : ∀ id value, motive (.IntLiteral id value))
  (Variable : ∀ id name, motive (.Variable id name))
  (BinaryOperator : ∀ kind id left right, motive left → motive right →
    motive (.BinaryOperator kind id left right))
  (Application : ∀ id function argument, motive function → motive argument →
    motive (.Application id function argument))
  (CaseExpression : ∀ id scrutinee branches, motive scrutinee →
    (∀ b ∈ branches, motive b.body) → motive (.CaseExpression id scrutinee branches))

include IntLiteral Variable BinaryOperator Application CaseExpression

mutual

/-- Induction with one motive: a case expression gets the motive for its
scrutinee and for the body of each branch. -/
@[induction_eliminator]
theorem Expression.induct : (e : Expression) → motive e
  | .IntLiteral id value => IntLiteral id value
  | .Variable id name => Variable id name
  | .BinaryOperator kind id l r =>
    BinaryOperator kind id l r (Expression.induct l) (Expression.induct r)
  | .Application id f a => Application id f a (Expression.induct f) (Expression.induct a)
  | .CaseExpression id s bs =>
    CaseExpression id s bs (Expression.induct s) (Expression.inductBranches bs)

theorem Expression.inductBranches : (bs : List Branch) → ∀ b ∈ bs, motive b.body
  | [], _, h => absurd h (by simp)
  | ⟨id, p, e⟩ :: bs, b, h => by
    rcases List.mem_cons.mp h with rfl | h
    · exact Expression.induct e
    · exact Expression.inductBranches bs b h

end

end

/-! ## Decidable equality -/

mutual

/-- Whether the expressions are equal, ids included. -/
def Expression.same : Expression → Expression → Bool
  | .IntLiteral id value, .IntLiteral id' value' => id == id' && value == value'
  | .Variable id name, .Variable id' name' => id == id' && name == name'
  | .BinaryOperator kind id l r, .BinaryOperator kind' id' l' r' =>
    kind == kind' && id == id' && l.same l' && r.same r'
  | .Application id f a, .Application id' f' a' => id == id' && f.same f' && a.same a'
  | .CaseExpression id s bs, .CaseExpression id' s' bs' =>
    id == id' && s.same s' && sameBranches bs bs'
  | _, _ => false

def sameBranches : List Branch → List Branch → Bool
  | [], [] => true
  | ⟨id, p, e⟩ :: bs, ⟨id', p', e'⟩ :: bs' =>
    id == id' && p == p' && e.same e' && sameBranches bs bs'
  | _, _ => false

end

theorem sameBranches_iff {bs bs' : List Branch}
    (h : ∀ b ∈ bs, ∀ e, b.body.same e = true ↔ b.body = e) :
    sameBranches bs bs' = true ↔ bs = bs' := by
  induction bs generalizing bs' with
  | nil => cases bs' <;> simp [sameBranches]
  | cons b bs ih =>
    obtain ⟨id, p, e⟩ := b
    have he := h _ List.mem_cons_self
    have hbs := fun bs' => @ih bs' fun b hb => h b (List.mem_cons_of_mem _ hb)
    cases bs' with
    | nil => simp [sameBranches]
    | cons b' bs' =>
      obtain ⟨id', p', e'⟩ := b'
      simp [sameBranches, he e', hbs bs', and_assoc]

theorem Expression.same_iff {e e' : Expression} : e.same e' = true ↔ e = e' := by
  induction e generalizing e' with
  | IntLiteral id value => cases e' <;> simp [Expression.same]
  | Variable id name => cases e' <;> simp [Expression.same]
  | BinaryOperator kind id l r ihl ihr =>
    cases e' <;> simp [Expression.same, ihl, ihr, and_assoc]
  | Application id f a ihf iha => cases e' <;> simp [Expression.same, ihf, iha, and_assoc]
  | CaseExpression id s bs ihs ihbs =>
    cases e' <;>
      simp [Expression.same, ihs, sameBranches_iff fun b hb _ => ihbs b hb, and_assoc]

instance : DecidableEq Expression := fun _ _ => decidable_of_iff _ Expression.same_iff

deriving instance DecidableEq for FunctionDefinition, Definition, Program

/-! ## Structural equality

`operator==` of the tree compares every member but the ids. -/

def Pattern.withoutIds : Pattern → Pattern
  | .VariablePattern _ name => .VariablePattern 0 name
  | .ConstructorPattern _ name arguments => .ConstructorPattern 0 name arguments

mutual

def Expression.withoutIds : Expression → Expression
  | .IntLiteral _ value => .IntLiteral 0 value
  | .Variable _ name => .Variable 0 name
  | .BinaryOperator kind _ l r => .BinaryOperator kind 0 l.withoutIds r.withoutIds
  | .Application _ f a => .Application 0 f.withoutIds a.withoutIds
  | .CaseExpression _ s bs => .CaseExpression 0 s.withoutIds (withoutIdsBranches bs)

def withoutIdsBranches : List Branch → List Branch
  | [] => []
  | ⟨_, p, e⟩ :: bs => ⟨0, p.withoutIds, e.withoutIds⟩ :: withoutIdsBranches bs

end

def Branch.withoutIds (b : Branch) : Branch := ⟨0, b.pattern.withoutIds, b.body.withoutIds⟩

def Constructor.withoutIds (c : Constructor) : Constructor := { c with id := 0 }

def Definition.withoutIds : Definition → Definition
  | .FunctionDefinition fd => .FunctionDefinition { fd with id := 0, body := fd.body.withoutIds }
  | .DataTypeDefinition dt =>
    .DataTypeDefinition { dt with id := 0, constructors := dt.constructors.map (·.withoutIds) }

def Program.withoutIds (p : Program) : Program := ⟨p.definitions.map (·.withoutIds)⟩

/-- `operator==` of two programs. -/
def Program.Equal (a b : Program) : Prop := a.withoutIds = b.withoutIds

theorem withoutIdsBranches_eq (bs : List Branch) :
    withoutIdsBranches bs = bs.map (·.withoutIds) := by
  induction bs with
  | nil => rfl
  | cons b bs ih =>
    obtain ⟨id, p, e⟩ := b
    simp [withoutIdsBranches, Branch.withoutIds, ih]

/-! ## The ids of a tree -/

def Pattern.id : Pattern → NodeId
  | .VariablePattern id _ => id
  | .ConstructorPattern id _ _ => id

/-- `expressionId`: the id of the root node. -/
def Expression.id : Expression → NodeId
  | .IntLiteral id _ => id
  | .Variable id _ => id
  | .BinaryOperator _ id _ _ => id
  | .Application id _ _ => id
  | .CaseExpression id _ _ => id

mutual

/-- Every id of the tree, the root first. -/
def Expression.ids : Expression → List NodeId
  | .IntLiteral id _ => [id]
  | .Variable id _ => [id]
  | .BinaryOperator _ id l r => id :: (l.ids ++ r.ids)
  | .Application id f a => id :: (f.ids ++ a.ids)
  | .CaseExpression id s bs => id :: (s.ids ++ idsBranches bs)

def idsBranches : List Branch → List NodeId
  | [] => []
  | ⟨id, p, e⟩ :: bs => id :: p.id :: (e.ids ++ idsBranches bs)

end

theorem ids_of_mem_branches {b : Branch} {bs : List Branch} (h : b ∈ bs) :
    ∀ id ∈ b.id :: b.pattern.id :: b.body.ids, id ∈ idsBranches bs := by
  induction bs with
  | nil => cases h
  | cons b' bs ih =>
    obtain ⟨id', p, e⟩ := b'
    intro id hid
    rcases List.mem_cons.mp h with rfl | h
    · simp only [List.mem_cons] at hid
      simp only [idsBranches, List.mem_cons, List.mem_append]
      tauto
    · have := ih h id hid
      simp only [idsBranches, List.mem_cons, List.mem_append]
      tauto

def Definition.ids : Definition → List NodeId
  | .FunctionDefinition fd => fd.id :: fd.body.ids
  | .DataTypeDefinition dt => dt.id :: dt.constructors.map (·.id)

def Program.ids (p : Program) : List NodeId := p.definitions.flatMap (·.ids)

end mf.ast
