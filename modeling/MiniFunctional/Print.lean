-- The printer of `visitors/print_visitor.cpp`.
import MiniFunctional.Ast

open mf.ast

namespace mf.visitors

variable {α : Type}

/-- One turn of the loop of `joinFormatted`: the separator depends on whether
the text so far is empty. -/
def appendFormatted (separator result text : String) : String :=
  (if result.isEmpty then result else result ++ separator) ++ text

def joinFormatted (range : List α) (separator : String) (formatter : α → String) : String :=
  range.foldl (fun result item => appendFormatted separator result (formatter item)) ""

def asString (value : String) : String := value

def printHeadWithArguments (head : String) (args : List String) : String :=
  let tail := joinFormatted args " " asString
  if tail.isEmpty then head else head ++ " " ++ tail

def printPattern : Pattern → String
  | .VariablePattern _ name => name
  | .ConstructorPattern _ name arguments => printHeadWithArguments name arguments

def printConstructor (ctor : Constructor) : String := printHeadWithArguments ctor.name ctor.fields

mutual

def printExpression : Expression → String
  | .IntLiteral _ value => toString value
  | .Variable _ name => name
  | .BinaryOperator kind _ left right =>
    "(" ++ printExpression left ++ " " ++ symbolOf kind ++ " " ++ printExpression right ++ ")"
  | .Application _ function argument =>
    "(" ++ printExpression function ++ " " ++ printExpression argument ++ ")"
  | .CaseExpression _ scrutinee branches =>
    "case " ++ printExpression scrutinee ++ " of \x7b " ++ printBranches "" branches ++ " \x7d"

/-- `joinFormatted` over the branches, from the text `result` on. -/
def printBranches : String → List Branch → String
  | result, [] => result
  | result, ⟨_, pattern, body⟩ :: branches =>
    printBranches (appendFormatted " " result
      (printPattern pattern ++ " -> \x7b " ++ printExpression body ++ " \x7d")) branches

end

def printDefinition : Definition → String
  | .FunctionDefinition fd =>
    let params := joinFormatted fd.parameters " " asString
    let params := if params.isEmpty then params else " " ++ params
    "defn " ++ fd.name ++ params ++ " = \x7b " ++ printExpression fd.body ++ " \x7d"
  | .DataTypeDefinition dt =>
    "data " ++ dt.name ++ " = \x7b " ++ joinFormatted dt.constructors ", " printConstructor ++
      " \x7d"

def print (program : Program) : String := joinFormatted program.definitions "\n" printDefinition

/-! ## The loop of `joinFormatted` -/

/-- The items after the first, each after its separator. -/
def separated (separator : String) (texts : List String) : String :=
  texts.foldr (fun text rest => separator ++ text ++ rest) ""

theorem foldl_appendFormatted {separator result : String} {texts : List String} (hr : result ≠ "") :
    texts.foldl (appendFormatted separator) result = result ++ separated separator texts := by
  induction texts generalizing result with
  | nil => simp [separated]
  | cons text texts ih =>
    have hstep : appendFormatted separator result text = result ++ separator ++ text := by
      simp [appendFormatted, hr]
    rw [List.foldl_cons, hstep, ih (by simp [hr])]
    simp [separated, String.append_assoc]

/-- Where the first item is not empty, there is a separator before each item
but the first. -/
theorem joinFormatted_cons {item : α} {items : List α} {separator : String}
    {formatter : α → String} (h : formatter item ≠ "") :
    joinFormatted (item :: items) separator formatter =
      formatter item ++ separated separator (items.map formatter) := by
  have hfirst : appendFormatted separator "" (formatter item) = formatter item := by
    simp [appendFormatted]
  unfold joinFormatted
  rw [List.foldl_cons, hfirst, ← foldl_appendFormatted h, List.foldl_map]

def printBranch (b : Branch) : String :=
  printPattern b.pattern ++ " -> \x7b " ++ printExpression b.body ++ " \x7d"

theorem printBranches_eq (branches : List Branch) :
    printBranches "" branches = joinFormatted branches " " printBranch := by
  unfold joinFormatted
  generalize "" = result
  induction branches generalizing result with
  | nil => rfl
  | cons b bs ih =>
    obtain ⟨id, pattern, body⟩ := b
    rw [printBranches, ih]
    rfl

/-! ## Ids are not printed -/

@[simp] theorem printPattern_withoutIds (p : Pattern) :
    printPattern p.withoutIds = printPattern p := by
  cases p <;> rfl

mutual

theorem printExpression_withoutIds : (e : Expression) →
    printExpression e.withoutIds = printExpression e
  | .IntLiteral _ _ => rfl
  | .Variable _ _ => rfl
  | .BinaryOperator _ _ l r => by
    rw [Expression.withoutIds, printExpression, printExpression, printExpression_withoutIds l,
      printExpression_withoutIds r]
  | .Application _ f a => by
    rw [Expression.withoutIds, printExpression, printExpression, printExpression_withoutIds f,
      printExpression_withoutIds a]
  | .CaseExpression _ s bs => by
    rw [Expression.withoutIds, printExpression, printExpression, printExpression_withoutIds s,
      printBranches_withoutIds "" bs]

theorem printBranches_withoutIds : (result : String) → (bs : List Branch) →
    printBranches result (withoutIdsBranches bs) = printBranches result bs
  | _, [] => rfl
  | result, ⟨_, p, e⟩ :: bs => by
    rw [withoutIdsBranches, printBranches, printBranches, printPattern_withoutIds,
      printExpression_withoutIds e, printBranches_withoutIds _ bs]

end

theorem printDefinition_withoutIds (d : Definition) :
    printDefinition d.withoutIds = printDefinition d := by
  cases d with
  | FunctionDefinition fd =>
    simp only [Definition.withoutIds, printDefinition, printExpression_withoutIds]
  | DataTypeDefinition dt =>
    simp only [Definition.withoutIds, printDefinition, joinFormatted, List.foldl_map]
    rfl

theorem print_withoutIds (program : Program) : print program.withoutIds = print program := by
  simp only [print, Program.withoutIds, joinFormatted, List.foldl_map, printDefinition_withoutIds]

theorem print_congr {a b : Program} (h : a.Equal b) : print a = print b := by
  rw [← print_withoutIds a, ← print_withoutIds b]
  exact congrArg print h

end mf.visitors
