-- The recursive descent parser of `parsing/parse.cpp`. The state is the
-- cursor `it_` (the tokens from it to `end_`) and the positions of the nodes
-- made so far. A C++ exception leaves the state as it was when it was thrown.
import MiniFunctional.Ast

open mf.util mf.ast mf.tokenization

namespace mf.parsing

/-- `parsing::ParsedProgram`. -/
structure ParsedProgram where
  ast : Program
  positions : List Position
deriving DecidableEq

inductive ParseError
  | unexpectedEndOfInput
  | unexpectedToken (position : Position)
  | expectedGotEndOfInput (expected : String)
  | expectedAt (expected : String) (position : Position)
  | tooManyNodes
  /-- `std::bad_variant_access`, which `std::get` throws. -/
  | badVariantAccess
  /-- The model's own bound on a loop or a recursion was too small. -/
  | outOfFuel
deriving DecidableEq, Repr

def ParseError.message : ParseError → String
  | .unexpectedEndOfInput => "Unexpected end of input"
  | .unexpectedToken position => "Unexpected token at " ++ position.toText
  | .expectedGotEndOfInput expected => "Expected " ++ expected ++ ", got end of input"
  | .expectedAt expected position => "Expected " ++ expected ++ " at " ++ position.toText
  | .tooManyNodes => "Too many AST nodes"
  | .badVariantAccess => "bad_variant_access"
  | .outOfFuel => ""

structure ParserState where
  /-- The tokens of `[it_, end_)`. -/
  rest : List Token
  positions : List Position
  /-- Some access went through the cursor while `it_ == end_`. -/
  overrun : Bool

abbrev Parser := EStateM ParseError ParserState

/-! ## The cursor -/

def atEnd : Parser Bool := fun s => .ok s.rest.isEmpty s

/-- `*it_`. Past the end, the reference is to no token, and `overrun` keeps
the record of the access: the position read there is never looked at. -/
def cursor : Parser Token := fun s =>
  match s.rest with
  | token :: _ => .ok token s
  | [] => .ok ⟨.Comma, ⟨0, 0, 0, 0⟩⟩ { s with overrun := true }

def allocateNode (position : Position) : Parser NodeId := fun s =>
  if s.positions.length ≥ kInvalidNodeId then .error .tooManyNodes s
  else .ok s.positions.length { s with positions := s.positions ++ [position] }

def advance : Parser Token := do
  let token ← cursor
  modify fun s => { s with rest := s.rest.tail }
  return token

/-- The alternative `T` of `TokenVariant`, as the partial map to its
payload: `std::holds_alternative<T>` asks if there is one, and `std::get<T>`
takes it. -/
abbrev Alternative (α : Type) := TokenVariant → Option α

def IntLiteral : Alternative Int32
  | .IntLiteral value => some value
  | _ => none

def LowerVariable : Alternative String
  | .LowerVariable name => some name
  | _ => none

def UpperVariable : Alternative String
  | .UpperVariable name => some name
  | _ => none

/-- An alternative with an empty struct. -/
def Empty (load : TokenVariant) : Alternative Unit := fun x => if x = load then some () else none

def check {α : Type} (T : Alternative α) : Parser Bool := do
  if ← atEnd then return false
  return (T (← cursor).load).isSome

/-- `checkAny<Ts...>`; the fold over `||` stops at the first that holds. -/
def checkAny : List (Parser Bool) → Parser Bool
  | [] => return false
  | c :: cs => do if ← c then return true else checkAny cs

def getAlternative {α : Type} (T : Alternative α) (load : TokenVariant) : Parser α :=
  match T load with
  | some payload => return payload
  | none => throw .badVariantAccess

def expect {α : Type} (T : Alternative α) : Parser α := do
  if !(← check T) then
    if ← atEnd then throw .unexpectedEndOfInput
    throw (.unexpectedToken (← cursor).position)
  getAlternative T (← advance).load

/-- The source's `match`, a keyword here. -/
def matchToken {α : Type} (T : Alternative α) : Parser Bool := do
  if ← check T then
    let _ ← advance
    return true
  return false

def throwExpected {α : Type} (expected : String) : Parser α := do
  if ← atEnd then throw (.expectedGotEndOfInput expected)
  throw (.expectedAt expected (← cursor).position)

/-- A `while` loop: `step` gives the next value of the loop's variables, or
the value after the loop. -/
def iterate {β γ : Type} (step : β → Parser (β ⊕ γ)) : Nat → β → Parser γ
  | 0, _ => throw .outOfFuel
  | n + 1, b => do
    match ← step b with
    | .inl b' => iterate step n b'
    | .inr c => return c

/-- Each turn of a loop takes a token, so the tokens bound the turns. -/
def loop {β γ : Type} (b : β) (step : β → Parser (β ⊕ γ)) : Parser γ := fun s =>
  iterate step (s.rest.length + 1) b s

def expectName (T : Alternative String) : Parser String := expect T

def expectAnyName : List (Alternative String) → Parser String
  | [] => throwExpected "name"
  | T :: rest => do if ← check T then expectName T else expectAnyName rest

/-- One turn of a loop has its own definition, named after what it adds. -/
def nextName (T : Alternative String) (names : List String) :
    Parser (List String ⊕ List String) := do
  if ← check T then
    return .inl (names ++ [← expectName T])
  return .inr names

def parseNamesWhile (T : Alternative String) : Parser (List String) :=
  loop [] (nextName T)

/-! ## Expressions

`self` is the recursive `parseExpression`. -/

abbrev BinaryOperatorFactory := NodeId → Expression → Expression → Expression

def nextOperand (parseOperand : Parser Expression)
    (matchOperator : Parser (Option BinaryOperatorFactory)) (left : Expression) :
    Parser (Expression ⊕ Expression) := do
  if ← atEnd then return .inr left
  let position := (← cursor).position
  match ← matchOperator with
  | none => return .inr left
  | some factory =>
    let node_id ← allocateNode position
    let right ← parseOperand
    return .inl (factory node_id left right)

def parseBinaryLevel (parseOperand : Parser Expression)
    (matchOperator : Parser (Option BinaryOperatorFactory)) : Parser Expression := do
  let left ← parseOperand
  loop left (nextOperand parseOperand matchOperator)

def matchBinaryOperator :
    List (TokenVariant × BinaryOperatorFactory) → Parser (Option BinaryOperatorFactory)
  | [] => return none
  | (token, factory) :: rest => do
    if ← matchToken (Empty token) then return some factory
    matchBinaryOperator rest

def parseIntLiteral : Parser Expression := do
  let position := (← cursor).position
  let node_id ← allocateNode position
  return .IntLiteral node_id (← expect IntLiteral)

def parseVariable : Parser Expression := do
  let position := (← cursor).position
  let name ← expectAnyName [LowerVariable, UpperVariable]
  return .Variable (← allocateNode position) name

def parseParenthesized (self : Parser Expression) : Parser Expression := do
  expect (Empty .LeftParentheses)
  let expression ← self
  expect (Empty .RightParentheses)
  return expression

def parseVariablePattern : Parser Pattern := do
  let position := (← cursor).position
  let node_id ← allocateNode position
  return .VariablePattern node_id (← expectName LowerVariable)

def parseConstructorPattern : Parser Pattern := do
  let position := (← cursor).position
  let node_id ← allocateNode position
  let name ← expectName UpperVariable
  return .ConstructorPattern node_id name (← parseNamesWhile LowerVariable)

def parsePattern : Parser Pattern := do
  if ← check LowerVariable then
    parseVariablePattern
  else if ← check UpperVariable then
    parseConstructorPattern
  else
    throwExpected "pattern"

def parseBranch (self : Parser Expression) : Parser Branch := do
  let position := (← cursor).position
  let pattern ← parsePattern
  expect (Empty .Arrow)
  expect (Empty .LeftBrace)
  let body ← self
  expect (Empty .RightBrace)
  return ⟨← allocateNode position, pattern, body⟩

def nextBranch (self : Parser Expression) (branches : List Branch) :
    Parser (List Branch ⊕ List Branch) := do
  if !(← check (Empty .RightBrace)) && !(← atEnd) then
    return .inl (branches ++ [← parseBranch self])
  return .inr branches

def parseCaseExpression (self : Parser Expression) : Parser Expression := do
  let position := (← cursor).position
  expect (Empty .Case)
  let scrutinee ← self
  expect (Empty .Of)
  expect (Empty .LeftBrace)
  let first ← parseBranch self
  let branches ← loop [first] (nextBranch self)
  expect (Empty .RightBrace)
  return .CaseExpression (← allocateNode position) scrutinee branches

def parsePrimary (self : Parser Expression) : Parser Expression := do
  if ← check (Empty .LeftParentheses) then
    parseParenthesized self
  else if ← check IntLiteral then
    parseIntLiteral
  else if ← checkAny [check LowerVariable, check UpperVariable] then
    parseVariable
  else if ← check (Empty .Case) then
    parseCaseExpression self
  else
    throwExpected "expression"

def nextArgument (self : Parser Expression) (expression : Expression) :
    Parser (Expression ⊕ Expression) := do
  if ← checkAny [check IntLiteral, check LowerVariable, check UpperVariable,
      check (Empty .LeftParentheses), check (Empty .Case)] then
    let position := (← cursor).position
    let argument ← parsePrimary self
    return .inl (.Application (← allocateNode position) expression argument)
  return .inr expression

def parseApplication (self : Parser Expression) : Parser Expression := do
  let expression ← parsePrimary self
  loop expression (nextArgument self)

def parseFactor (self : Parser Expression) : Parser Expression := parseApplication self

def parseTerm (self : Parser Expression) : Parser Expression :=
  parseBinaryLevel (parseFactor self)
    (matchBinaryOperator [(.Star, Multiplication), (.Slash, Division)])

/-- `parseExpression`, with a bound on the depth of its recursion. -/
def parseExpressionWithin : Nat → Parser Expression
  | 0 => throw .outOfFuel
  | n + 1 =>
    parseBinaryLevel (parseTerm (parseExpressionWithin n))
      (matchBinaryOperator [(.Plus, Addition), (.Minus, Subtraction)])

/-- Each nested expression starts after a token, so the tokens bound the
depth. -/
def parseExpression : Parser Expression := fun s =>
  parseExpressionWithin (s.rest.length + 1) s

/-! ## Definitions -/

def parseConstructor : Parser Constructor := do
  let position := (← cursor).position
  let name ← expectName UpperVariable
  let fields ← parseNamesWhile UpperVariable
  return ⟨← allocateNode position, name, fields⟩

def parseFunctionDefinition : Parser FunctionDefinition := do
  let position := (← cursor).position
  expect (Empty .Function)
  let name ← expectName LowerVariable
  let parameters ← parseNamesWhile LowerVariable
  expect (Empty .Equal)
  expect (Empty .LeftBrace)
  let body ← parseExpression
  expect (Empty .RightBrace)
  return ⟨← allocateNode position, name, parameters, body⟩

def nextConstructor (constructors : List Constructor) :
    Parser (List Constructor ⊕ List Constructor) := do
  if ← matchToken (Empty .Comma) then
    return .inl (constructors ++ [← parseConstructor])
  return .inr constructors

def parseDataTypeDefinition : Parser DataTypeDefinition := do
  let position := (← cursor).position
  expect (Empty .Data)
  let name ← expectName UpperVariable
  expect (Empty .Equal)
  expect (Empty .LeftBrace)
  let first ← parseConstructor
  let constructors ← loop [first] nextConstructor
  expect (Empty .RightBrace)
  return ⟨← allocateNode position, name, constructors⟩

def parseDefinition : Parser Definition := do
  if ← check (Empty .Function) then
    return .FunctionDefinition (← parseFunctionDefinition)
  else if ← check (Empty .Data) then
    return .DataTypeDefinition (← parseDataTypeDefinition)
  else
    throwExpected "'defn' or 'data'"

def nextDefinition (program : Program) : Parser (Program ⊕ Program) := do
  if ← atEnd then return .inr program
  return .inl ⟨program.definitions ++ [← parseDefinition]⟩

/-- `Parser::parse`. -/
def parseProgram : Parser Program := loop ⟨[]⟩ nextDefinition

def parse (tokens : TokenVector) : Except ParseError ParsedProgram :=
  match parseProgram ⟨tokens.tokens, [], false⟩ with
  | .ok program s => .ok ⟨program, s.positions⟩
  | .error e _ => .error e

end mf.parsing
