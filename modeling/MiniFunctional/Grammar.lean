-- The grammar of `docs/grammar.md`: its derivation trees, the tokens that a
-- tree derives, and the syntax tree that it denotes. A repetition `{ X }` of
-- the EBNF is a nonterminal of its own, whose trees are lists.
import MiniFunctional.Ast

open mf.ast mf.tokenization

namespace mf.grammar

inductive Nonterminal
  | Program
  | Definition
  | Constructor
  /-- `{ ",", Constructor }` -/
  | Constructors
  | Expression
  /-- `{ ("+" | "-"), Term }` -/
  | Sums
  | Term
  /-- `{ ("*" | "/"), Factor }` -/
  | Products
  | Factor
  | Application
  /-- `{ Primary }` -/
  | Arguments
  | Primary
  | CaseExpression
  | Branch
  /-- `{ Branch }` -/
  | Branches
  | Pattern

/-- `"+" | "-"`. -/
inductive SumOperator
  | Plus
  | Minus
deriving DecidableEq

/-- `"*" | "/"`. -/
inductive ProductOperator
  | Star
  | Slash
deriving DecidableEq

def SumOperator.token : SumOperator → TokenVariant
  | .Plus => .Plus
  | .Minus => .Minus

def ProductOperator.token : ProductOperator → TokenVariant
  | .Star => .Star
  | .Slash => .Slash

def SumOperator.kind : SumOperator → BinaryOperatorKind
  | .Plus => .Addition
  | .Minus => .Subtraction

def ProductOperator.kind : ProductOperator → BinaryOperatorKind
  | .Star => .Multiplication
  | .Slash => .Division

/-- The derivation trees, one constructor for each alternative of a rule. -/
inductive Tree : Nonterminal → Type
  -- Program = { Definition }
  | programEnd : Tree .Program
  | nextDefinition : Tree .Definition → Tree .Program → Tree .Program
  -- FunctionDefinition = "defn", lowerVariable, { lowerVariable }, "=", "{", Expression, "}"
  | functionDefinition (name : String) (parameters : List String) :
      Tree .Expression → Tree .Definition
  -- DataTypeDefinition = "data", upperVariable, "=", "{", Constructor, { ",", Constructor }, "}"
  | dataTypeDefinition (name : String) : Tree .Constructor → Tree .Constructors → Tree .Definition
  -- Constructor = upperVariable, { upperVariable }
  | constructor (name : String) (fields : List String) : Tree .Constructor
  | constructorsEnd : Tree .Constructors
  | nextConstructor : Tree .Constructor → Tree .Constructors → Tree .Constructors
  -- Expression = Term, { ("+" | "-"), Term }
  | expression : Tree .Term → Tree .Sums → Tree .Expression
  | sumsEnd : Tree .Sums
  | nextSum (op : SumOperator) : Tree .Term → Tree .Sums → Tree .Sums
  -- Term = Factor, { ("*" | "/"), Factor }
  | term : Tree .Factor → Tree .Products → Tree .Term
  | productsEnd : Tree .Products
  | nextProduct (op : ProductOperator) : Tree .Factor → Tree .Products → Tree .Products
  -- Factor = Application
  | factor : Tree .Application → Tree .Factor
  -- Application = Primary, { Primary }
  | application : Tree .Primary → Tree .Arguments → Tree .Application
  | argumentsEnd : Tree .Arguments
  | nextArgument : Tree .Primary → Tree .Arguments → Tree .Arguments
  -- Primary = num | lowerVariable | upperVariable | "(", Expression, ")" | CaseExpression
  | num (value : Int32) : Tree .Primary
  | lowerVariable (name : String) : Tree .Primary
  | upperVariable (name : String) : Tree .Primary
  | parenthesized : Tree .Expression → Tree .Primary
  | casePrimary : Tree .CaseExpression → Tree .Primary
  -- CaseExpression = "case", Expression, "of", "{", Branch, { Branch }, "}"
  | caseExpression : Tree .Expression → Tree .Branch → Tree .Branches → Tree .CaseExpression
  -- Branch = Pattern, "->", "{", Expression, "}"
  | branch : Tree .Pattern → Tree .Expression → Tree .Branch
  | branchesEnd : Tree .Branches
  | nextBranch : Tree .Branch → Tree .Branches → Tree .Branches
  -- Pattern = lowerVariable | upperVariable, { lowerVariable }
  | variablePattern (name : String) : Tree .Pattern
  | constructorPattern (name : String) (arguments : List String) : Tree .Pattern

/-- The tokens at the leaves of a tree, from left to right. -/
@[simp] def Tree.yield : {s : Nonterminal} → Tree s → List TokenVariant
  | _, .programEnd => []
  | _, .nextDefinition d p => d.yield ++ p.yield
  | _, .functionDefinition name parameters e =>
    .Function :: .LowerVariable name ::
      (parameters.map .LowerVariable ++ .Equal :: .LeftBrace :: (e.yield ++ [.RightBrace]))
  | _, .dataTypeDefinition name c cs =>
    .Data :: .UpperVariable name :: .Equal :: .LeftBrace :: (c.yield ++ (cs.yield ++ [.RightBrace]))
  | _, .constructor name fields => .UpperVariable name :: fields.map .UpperVariable
  | _, .constructorsEnd => []
  | _, .nextConstructor c cs => .Comma :: (c.yield ++ cs.yield)
  | _, .expression t ts => t.yield ++ ts.yield
  | _, .sumsEnd => []
  | _, .nextSum op t ts => op.token :: (t.yield ++ ts.yield)
  | _, .term f fs => f.yield ++ fs.yield
  | _, .productsEnd => []
  | _, .nextProduct op f fs => op.token :: (f.yield ++ fs.yield)
  | _, .factor a => a.yield
  | _, .application p ps => p.yield ++ ps.yield
  | _, .argumentsEnd => []
  | _, .nextArgument p ps => p.yield ++ ps.yield
  | _, .num value => [.IntLiteral value]
  | _, .lowerVariable name => [.LowerVariable name]
  | _, .upperVariable name => [.UpperVariable name]
  | _, .parenthesized e => .LeftParentheses :: (e.yield ++ [.RightParentheses])
  | _, .casePrimary c => c.yield
  | _, .caseExpression e b bs =>
    .Case :: (e.yield ++ .Of :: .LeftBrace :: (b.yield ++ (bs.yield ++ [.RightBrace])))
  | _, .branch p e => p.yield ++ .Arrow :: .LeftBrace :: (e.yield ++ [.RightBrace])
  | _, .branchesEnd => []
  | _, .nextBranch b bs => b.yield ++ bs.yield
  | _, .variablePattern name => [.LowerVariable name]
  | _, .constructorPattern name arguments => .UpperVariable name :: arguments.map .LowerVariable

/-- What the trees of a nonterminal denote; the node ids are all 0. -/
abbrev Denotation : Nonterminal → Type
  | .Program => List Definition
  | .Definition => Definition
  | .Constructor => Constructor
  | .Constructors => List Constructor
  | .Sums | .Products => List (BinaryOperatorKind × Expression)
  | .Arguments => List Expression
  | .Branch => Branch
  | .Branches => List Branch
  | .Pattern => Pattern
  | .Expression | .Term | .Factor | .Application | .Primary | .CaseExpression => Expression

/-- The operators of one level associate to the left. -/
def chain (left : Expression) (rest : List (BinaryOperatorKind × Expression)) : Expression :=
  rest.foldl (fun left operand => .BinaryOperator operand.1 0 left operand.2) left

/-- Application associates to the left. -/
def applyAll (function : Expression) (arguments : List Expression) : Expression :=
  arguments.foldl (fun function argument => .Application 0 function argument) function

@[simp] def Tree.denote : {s : Nonterminal} → Tree s → Denotation s
  | _, .programEnd => ([] : List Definition)
  | _, .nextDefinition d p => List.cons (α := Definition) d.denote p.denote
  | _, .functionDefinition name parameters e =>
    Definition.FunctionDefinition ⟨0, name, parameters, e.denote⟩
  | _, .dataTypeDefinition name c cs =>
    Definition.DataTypeDefinition ⟨0, name, List.cons (α := Constructor) c.denote cs.denote⟩
  | _, .constructor name fields => Constructor.mk 0 name fields
  | _, .constructorsEnd => ([] : List Constructor)
  | _, .nextConstructor c cs => List.cons (α := Constructor) c.denote cs.denote
  | _, .expression t ts => chain t.denote ts.denote
  | _, .sumsEnd => ([] : List (BinaryOperatorKind × Expression))
  | _, .nextSum op t ts =>
    List.cons (α := BinaryOperatorKind × Expression) (op.kind, t.denote) ts.denote
  | _, .term f fs => chain f.denote fs.denote
  | _, .productsEnd => ([] : List (BinaryOperatorKind × Expression))
  | _, .nextProduct op f fs =>
    List.cons (α := BinaryOperatorKind × Expression) (op.kind, f.denote) fs.denote
  | _, .factor a => a.denote
  | _, .application p ps => applyAll p.denote ps.denote
  | _, .argumentsEnd => ([] : List Expression)
  | _, .nextArgument p ps => List.cons (α := Expression) p.denote ps.denote
  | _, .num value => Expression.IntLiteral 0 value
  | _, .lowerVariable name => Expression.Variable 0 name
  | _, .upperVariable name => Expression.Variable 0 name
  -- parentheses leave no node
  | _, .parenthesized e => e.denote
  | _, .casePrimary c => c.denote
  | _, .caseExpression e b bs =>
    Expression.CaseExpression 0 e.denote (List.cons (α := Branch) b.denote bs.denote)
  | _, .branch p e => Branch.mk 0 p.denote e.denote
  | _, .branchesEnd => ([] : List Branch)
  | _, .nextBranch b bs => List.cons (α := Branch) b.denote bs.denote
  | _, .variablePattern name => Pattern.VariablePattern 0 name
  | _, .constructorPattern name arguments => Pattern.ConstructorPattern 0 name arguments

/-- The program that a derivation denotes. -/
def Tree.toProgram (d : Tree .Program) : Program := ⟨d.denote⟩

end mf.grammar
