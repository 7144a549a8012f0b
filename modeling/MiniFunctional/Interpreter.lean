-- The interpreter of `visitors/interpreter.cpp`. What it throws is an
-- exception of `Failure`; so is the undefined behaviour of `int` arithmetic
-- that overflows. The outer `none` is that of `analyzeTypes`.
import MiniFunctional.TypeTable

open mf.util mf.ast mf.parsing mf.semantics

namespace mf.visitors

/-- A value with integers of the type `I`; the interpreter's are `int`. -/
inductive Value (I : Type)
  | int (value : I)
  | ConstructedValue (name : String) (fields : List (Value I))

/-- The exceptions of the evaluator, by their messages. -/
inductive RuntimeError
  | UnexpectedPartialConstructor
  | ExpectedIntegerValue
  | ExpectedConstructorSymbol
  | ConstructorHasNoTypeSignature
  | PatternVariableHasNoSemanticBinding
  | PatternNameIsNotAVariableBinding
  | ConstructorPatternHasNoSemanticBinding
  | ConstructorPatternHasInvalidBindings
  | DivisionByZero
  | UndefinedVariable (name : String)
  | UnboundLocalVariable (name : String)
  | ApplicationOfNonConstructorValue
  | NoMatchingBranch
deriving DecidableEq, Repr

def RuntimeError.what : RuntimeError → String
  | .UnexpectedPartialConstructor => "Unexpected partial constructor in final result"
  | .ExpectedIntegerValue => "Expected integer value"
  | .ExpectedConstructorSymbol => "Expected constructor symbol"
  | .ConstructorHasNoTypeSignature => "Constructor has no type signature"
  | .PatternVariableHasNoSemanticBinding => "Pattern variable has no semantic binding"
  | .PatternNameIsNotAVariableBinding => "Pattern name is not a variable binding"
  | .ConstructorPatternHasNoSemanticBinding => "Constructor pattern has no semantic binding"
  | .ConstructorPatternHasInvalidBindings => "Constructor pattern has invalid bindings"
  | .DivisionByZero => "Division by zero"
  | .UndefinedVariable name => "Undefined variable: " ++ name
  | .UnboundLocalVariable name => "Unbound local variable: " ++ name
  | .ApplicationOfNonConstructorValue => "Application of non-constructor value"
  | .NoMatchingBranch => "No matching branch in case expression"

inductive Failure
  | runtimeError (error : RuntimeError)
  /-- A result that `int` cannot hold. -/
  | intOverflow
deriving DecidableEq, Repr

structure PartialConstructor (I : Type) where
  name : String
  arity : Nat
  applied : List (Value I)

inductive EvalResult (I : Type)
  | Value (value : Value I)
  | PartialConstructor (ctor : PartialConstructor I)

abbrev Environment (I : Type) := AssocMap SymbolId (Value I)

abbrev Evaluation := Except Failure

def fail {α : Type} (error : RuntimeError) : Evaluation α := .error (.runtimeError error)

section

variable {I : Type}

def asValue : EvalResult I → Evaluation (Value I)
  | .Value value => return value
  | .PartialConstructor _ => fail .UnexpectedPartialConstructor

def asInt : Value I → Evaluation I
  | .int n => return n
  | .ConstructedValue _ _ => fail .ExpectedIntegerValue

def constructorArity (symbol : Symbol) (types : TypeTable) : Evaluation Nat :=
  if symbol.kind ≠ .Constructor then fail .ExpectedConstructorSymbol
  else
    match types.getConstructorSignature symbol.id with
    | none => fail .ConstructorHasNoTypeSignature
    | some signature => return signature.fields.length

def findFunctionById (program : Program) (id : NodeId) : Option FunctionDefinition :=
  program.definitions.findSome? fun
    | .FunctionDefinition fd => if fd.id = id then some fd else none
    | .DataTypeDefinition _ => none

/-- The loop over the arguments of a constructor pattern and the fields. -/
def bindFields (scopes : ScopeTree) (scope_id : ScopeId) :
    List String → List (Value I) → Environment I → Evaluation (Environment I)
  | argument :: arguments, field :: fields, env =>
    match (scopes.getLocalSymbol scope_id argument).filter (·.kind = .PatternVariable) with
    | none => fail .ConstructorPatternHasInvalidBindings
    | some binding => bindFields scopes scope_id arguments fields (env.insert binding.id field)
  | _, _, env => return env

def matchVariablePattern (scopes : ScopeTree) (id : NodeId) (name : String) (value : Value I)
    (env : Environment I) : Evaluation (Option (Environment I)) :=
  match (scopes.getScopeId id).bind (scopes.getLocalSymbol · name) with
  | none => fail .PatternVariableHasNoSemanticBinding
  | some symbol =>
    if symbol.kind ≠ .PatternVariable then fail .PatternNameIsNotAVariableBinding
    else return some (env.insert symbol.id value)

def matchConstructorPattern (scopes : ScopeTree) (id : NodeId) (arguments : List String)
    (value : Value I) (env : Environment I) :
    Evaluation (Option (Environment I)) :=
  match (scopes.getResolvedSymbol id).filter (·.kind = .Constructor) with
  | none => fail .ConstructorPatternHasNoSemanticBinding
  | some ctor =>
    match value with
    | .int _ => return none
    | .ConstructedValue name fields =>
      if name ≠ ctor.name then return none
      else if fields.length ≠ arguments.length then return none
      else if fields.isEmpty then return some env
      else
        match scopes.getScopeId id with
        | none => fail .ConstructorPatternHasInvalidBindings
        | some scope_id => some <$> bindFields scopes scope_id arguments fields env

/-- `none` is `false`; the environment of a branch that is not taken is dropped. -/
def matchPattern (scopes : ScopeTree) (pattern : Pattern) (value : Value I)
    (env : Environment I) : Evaluation (Option (Environment I)) :=
  match pattern with
  | .VariablePattern id name => matchVariablePattern scopes id name value env
  | .ConstructorPattern id _ arguments => matchConstructorPattern scopes id arguments value env

/-- The last step of an application: one more argument for a constructor. -/
def applyPartial (function : EvalResult I) (argument : Value I) :
    Evaluation (EvalResult I) :=
  match function with
  | .Value _ => fail .ApplicationOfNonConstructorValue
  | .PartialConstructor ⟨name, arity, applied⟩ =>
    let applied := applied ++ [argument]
    if applied.length = arity then return .Value (.ConstructedValue name applied)
    else return .PartialConstructor ⟨name, arity, applied⟩

end

/-- The result of `int` arithmetic, when `int` can hold it. -/
def intResult (n : Int) : Evaluation Int32 :=
  if Int32.minValue.toInt ≤ n ∧ n ≤ Int32.maxValue.toInt then return Int32.ofInt n
  else .error .intOverflow

def applyBinaryOp (kind : BinaryOperatorKind) (left right : Int32) : Evaluation Int32 :=
  match kind with
  | .Addition => intResult (left.toInt + right.toInt)
  | .Subtraction => intResult (left.toInt - right.toInt)
  | .Multiplication => intResult (left.toInt * right.toInt)
  | .Division =>
    if right = 0 then fail .DivisionByZero else intResult (left.toInt.tdiv right.toInt)

section

variable (scopes : ScopeTree) (types : TypeTable)

def evaluateVariable {I : Type} (id : NodeId) (name : String) (env : Environment I) :
    Evaluation (EvalResult I) :=
  match scopes.getResolvedSymbol id with
  | none => fail (.UndefinedVariable name)
  | some symbol =>
    if symbol.kind = .Constructor then do
      let arity ← constructorArity symbol types
      if arity = 0 then return .Value (.ConstructedValue symbol.name [])
      else return .PartialConstructor ⟨symbol.name, arity, []⟩
    else
      match env.find symbol.id with
      | none => fail (.UnboundLocalVariable name)
      | some value => return .Value value

mutual

@[simp] def evaluate : Expression → Environment Int32 → Evaluation (EvalResult Int32)
  | .IntLiteral _ value, _ => return .Value (.int value)
  | .Variable id name, env => evaluateVariable scopes types id name env
  | .BinaryOperator kind _ left_operand right_operand, env => do
    let left ← asInt (← asValue (← evaluate left_operand env))
    let right ← asInt (← asValue (← evaluate right_operand env))
    return .Value (.int (← applyBinaryOp kind left right))
  | .Application _ function argument, env => do
    let func ← evaluate function env
    let arg ← asValue (← evaluate argument env)
    applyPartial func arg
  | .CaseExpression _ scrutinee branches, env => do
    let value ← asValue (← evaluate scrutinee env)
    evaluateBranches branches value env

/-- The loop over the branches of a case expression. -/
@[simp] def evaluateBranches : List Branch → Value Int32 → Environment Int32 →
    Evaluation (EvalResult Int32)
  | [], _, _ => fail .NoMatchingBranch
  | ⟨_, pattern, body⟩ :: branches, scrutinee, env => do
    match ← matchPattern scopes pattern scrutinee env with
    | some branch_env => evaluate body branch_env
    | none => evaluateBranches branches scrutinee env

end

end

/-! ## Programs -/

/-- What `interpret` throws before it evaluates, and what `evaluate` does. -/
inductive InterpretError
  | Diagnostic (text : String)
  | NoMainFunction
  | MainDeclarationMissing
  | Evaluation (failure : Failure)
deriving DecidableEq, Repr

def InterpretError.what : InterpretError → Option String
  | .Diagnostic text => some text
  | .NoMainFunction => some "No 'main' function defined"
  | .MainDeclarationMissing => some "Main function declaration is missing"
  | .Evaluation (.runtimeError error) => some error.what
  | .Evaluation .intOverflow => none

/-- `asValue` of the body of `main`, in the empty environment. -/
def evaluateMain (parsed : ParsedProgram) (analysis : AnalysisResult) (types : TypeTable) :
    Except InterpretError (Value Int32) :=
  match (analysis.scopes.getLocalSymbol ScopeTree.getRootScopeId "main").filter
      (·.kind = .Function) with
  | none => .error .NoMainFunction
  | some main_symbol =>
    match findFunctionById parsed.ast main_symbol.declaration with
    | none => .error .MainDeclarationMissing
    | some main_fn =>
      (evaluate analysis.scopes types main_fn.body .empty >>= asValue).mapError .Evaluation

def interpretWith (parsed : ParsedProgram) (analysis : AnalysisResult) :
    Option (Except InterpretError (Value Int32)) :=
  match analysis.diagnostics with
  | diagnostic :: _ => some (.error (.Diagnostic (formatDiagnostic parsed diagnostic)))
  | [] => (analyzeTypes parsed analysis).map fun type_analysis =>
    match type_analysis.diagnostics with
    | diagnostic :: _ => .error (.Diagnostic (formatDiagnostic parsed diagnostic))
    | [] => evaluateMain parsed analysis type_analysis.types

def interpret (parsed : ParsedProgram) : Option (Except InterpretError (Value Int32)) :=
  interpretWith parsed (analyze parsed)

end mf.visitors
