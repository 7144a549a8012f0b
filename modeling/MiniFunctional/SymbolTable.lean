-- The scopes and symbols of `semantics/symbol_table.cpp` and the analyzer
-- that binds the names of a program to them. `.at` on a vector is a lookup
-- with an `Option`; `std::unordered_map` is an `AssocMap`.
import MiniFunctional.AssocMap
import MiniFunctional.Tokenize
import MiniFunctional.Parse

open mf.util mf.ast mf.parsing

namespace mf.semantics

abbrev ScopeId := Nat

abbrev SymbolId := Nat

inductive SymbolKind
  | BuiltinType
  | DataType
  | Constructor
  | Function
  | Parameter
  | PatternVariable
deriving DecidableEq, Repr

def isTypeSymbol (kind : SymbolKind) : Bool := kind = .BuiltinType || kind = .DataType

structure Symbol where
  id : SymbolId
  name : String
  kind : SymbolKind
  declaration : NodeId
deriving DecidableEq, Repr

structure Scope where
  /-- `none` is `kInvalidScopeId`. -/
  parent : Option ScopeId
  owner : NodeId
  symbols : AssocMap String SymbolId
  children : List ScopeId

structure ScopeTree where
  scopes : List Scope
  symbols : List Symbol
  scope_by_node : AssocMap NodeId ScopeId
  resolved_symbols : AssocMap NodeId SymbolId

structure Diagnostic where
  node_id : NodeId
  message : String
deriving DecidableEq, Repr

def makeDiagnostic (node_id : NodeId) (message : String) : Diagnostic := ⟨node_id, message⟩

structure AnalysisResult where
  scopes : ScopeTree
  diagnostics : List Diagnostic

def AnalysisResult.ok (result : AnalysisResult) : Bool := result.diagnostics.isEmpty

def startsWithUppercase (name : String) : Bool :=
  match name.toList with
  | [] => false
  | first :: _ => tokenization.isUpper first

def toText : SymbolKind → String
  | .BuiltinType => "builtin type"
  | .DataType => "data type"
  | .Constructor => "constructor"
  | .Function => "function"
  | .Parameter => "parameter"
  | .PatternVariable => "pattern variable"

def isValueSymbol (kind : SymbolKind) : Bool :=
  kind = .Constructor || kind = .Function || kind = .Parameter || kind = .PatternVariable

def positionOf (positions : List Position) (node_id : NodeId) : String :=
  if node_id = kInvalidNodeId then "<builtin>"
  else
    match positions[node_id]? with
    | none => "<builtin>"
    | some position => position.toText

def formatDiagnostic (parsed : ParsedProgram) (diagnostic : Diagnostic) : String :=
  diagnostic.message ++ " at " ++ positionOf parsed.positions diagnostic.node_id

/-! ## The scope tree -/

namespace ScopeTree

def initial : ScopeTree :=
  ⟨[⟨none, kInvalidNodeId, .empty, []⟩], [], .empty, .empty⟩

def getRootScopeId : ScopeId := 0

def getScope (t : ScopeTree) (id : ScopeId) : Option Scope := t.scopes[id]?

def getSymbol (t : ScopeTree) (id : SymbolId) : Option Symbol := t.symbols[id]?

def getScopeId (t : ScopeTree) (node_id : NodeId) : Option ScopeId := t.scope_by_node.find node_id

def getLocalSymbolId (t : ScopeTree) (scope_id : ScopeId) (name : String) : Option SymbolId :=
  (t.getScope scope_id).bind (·.symbols.find name)

def getLocalSymbol (t : ScopeTree) (scope_id : ScopeId) (name : String) : Option Symbol :=
  (t.getLocalSymbolId scope_id name).bind t.getSymbol

/-- The loop of `getResolvedSymbolId`. A scope's parent is made before it, so
the scope ids bound the turns. -/
def resolveWithin (t : ScopeTree) (name : String) : Nat → ScopeId → Option SymbolId
  | 0, _ => none
  | n + 1, current =>
    match t.getLocalSymbolId current name with
    | some id => some id
    | none => (t.getScope current).bind fun scope => scope.parent.bind (t.resolveWithin name n)

def getResolvedSymbolId (t : ScopeTree) (scope_id : ScopeId) (name : String) : Option SymbolId :=
  t.resolveWithin name (scope_id + 1) scope_id

def getResolvedSymbol (t : ScopeTree) (node_id : NodeId) : Option Symbol :=
  (t.resolved_symbols.find node_id).bind t.getSymbol

def addChild (child : ScopeId) (scope : Scope) : Scope :=
  { scope with children := scope.children ++ [child] }

/-- The new scope's id is the number of scopes before. -/
def createScope (t : ScopeTree) (parent : ScopeId) (owner : NodeId) : ScopeTree :=
  { t with
    scopes := (t.scopes ++ [Scope.mk (some parent) owner .empty []]).modify parent
      (addChild t.scopes.length) }

def bindNodeToScope (t : ScopeTree) (node_id : NodeId) (scope_id : ScopeId) : ScopeTree :=
  if node_id = kInvalidNodeId then t
  else { t with scope_by_node := t.scope_by_node.insert node_id scope_id }

def bindNodeToSymbol (t : ScopeTree) (node_id : NodeId) (symbol_id : SymbolId) : ScopeTree :=
  if node_id = kInvalidNodeId then t
  else { t with resolved_symbols := t.resolved_symbols.insert node_id symbol_id }

def addName (name : String) (id : SymbolId) (scope : Scope) : Scope :=
  { scope with symbols := scope.symbols.emplace name id }

/-- `none` when the scope has the name. -/
def addLocalSymbol (t : ScopeTree) (scope_id : ScopeId) (name : String) (kind : SymbolKind)
    (declaration : NodeId) : Option ScopeTree :=
  if (t.getLocalSymbolId scope_id name).isSome then none
  else some { t with
    symbols := t.symbols ++ [⟨t.symbols.length, name, kind, declaration⟩]
    scopes := t.scopes.modify scope_id (addName name t.symbols.length) }

end ScopeTree

/-! ## The analyzer

Its methods take the result so far and return the next. -/

open ScopeTree

def addError (result : AnalysisResult) (node_id : NodeId) (message : String) : AnalysisResult :=
  { result with diagnostics := result.diagnostics ++ [makeDiagnostic node_id message] }

def redefinition (positions : List Position) (name : String) (previous : Symbol) : String :=
  "Redefinition of '" ++ name ++ "'; previous " ++ toText previous.kind ++ " declared at " ++
    positionOf positions previous.declaration

def addSymbol (positions : List Position) (scope_id : ScopeId) (name : String) (kind : SymbolKind)
    (declaration : NodeId) (result : AnalysisResult) : AnalysisResult :=
  match result.scopes.addLocalSymbol scope_id name kind declaration with
  | some scopes => { result with scopes }
  | none =>
    match result.scopes.getLocalSymbol scope_id name with
    | some previous => addError result declaration (redefinition positions name previous)
    -- a null dereference; the name is in the scope, so it has a symbol
    | none => result

def bindScope (node_id : NodeId) (scope_id : ScopeId) (result : AnalysisResult) : AnalysisResult :=
  { result with scopes := result.scopes.bindNodeToScope node_id scope_id }

def bindSymbol (node_id : NodeId) (symbol_id : SymbolId) (result : AnalysisResult) :
    AnalysisResult :=
  { result with scopes := result.scopes.bindNodeToSymbol node_id symbol_id }

def registerBuiltins (positions : List Position) (result : AnalysisResult) : AnalysisResult :=
  addSymbol positions getRootScopeId "Int" .BuiltinType kInvalidNodeId result

def registerGlobalDefinition (positions : List Position) (result : AnalysisResult) :
    Definition → AnalysisResult
  | .FunctionDefinition fd => addSymbol positions getRootScopeId fd.name .Function fd.id result
  | .DataTypeDefinition dt =>
    dt.constructors.foldl
      (fun result ctor => addSymbol positions getRootScopeId ctor.name .Constructor ctor.id result)
      (addSymbol positions getRootScopeId dt.name .DataType dt.id result)

def registerGlobalDefinitions (parsed : ParsedProgram) (result : AnalysisResult) :
    AnalysisResult :=
  parsed.ast.definitions.foldl (registerGlobalDefinition parsed.positions) result

def checkGlobalDefinition (result : AnalysisResult) : Definition → AnalysisResult
  | .FunctionDefinition fd => bindScope fd.id getRootScopeId result
  | .DataTypeDefinition dt =>
    dt.constructors.foldl (fun result ctor => bindScope ctor.id getRootScopeId result)
      (bindScope dt.id getRootScopeId result)

def checkGlobalDefinitions (parsed : ParsedProgram) (result : AnalysisResult) : AnalysisResult :=
  parsed.ast.definitions.foldl checkGlobalDefinition result

/-- The message of a symbol that a variable must not name. -/
def variableError (name : String) (kind : SymbolKind) : Option String :=
  if startsWithUppercase name && kind ≠ .Constructor then
    some ("'" ++ name ++ "' is " ++ toText kind ++ ", not constructor")
  else if !startsWithUppercase name && !isValueSymbol kind then
    some ("'" ++ name ++ "' is " ++ toText kind ++ ", not value")
  else none

def bindVariable (id : NodeId) (name : String) (scope_id : ScopeId) (result : AnalysisResult) :
    AnalysisResult :=
  let result := bindScope id scope_id result
  match result.scopes.getResolvedSymbolId scope_id name with
  | none => addError result id ("Undefined symbol '" ++ name ++ "'")
  | some symbol_id =>
    match result.scopes.getSymbol symbol_id with
    -- `.at` throws; every id in a scope has a symbol
    | none => result
    | some symbol =>
      match variableError name symbol.kind with
      | some message => addError result id message
      | none => bindSymbol id symbol_id result

def bindConstructorName (id : NodeId) (name : String) (result : AnalysisResult) : AnalysisResult :=
  match result.scopes.getLocalSymbol getRootScopeId name with
  | none => addError result id ("Undefined constructor '" ++ name ++ "'")
  | some symbol =>
    if symbol.kind ≠ .Constructor then
      addError result id ("Undefined constructor '" ++ name ++ "'")
    else bindSymbol id symbol.id result

def bindConstructorPattern (positions : List Position) (id : NodeId) (name : String)
    (arguments : List String) (scope_id : ScopeId) (result : AnalysisResult) : AnalysisResult :=
  arguments.foldl
    (fun result argument => addSymbol positions scope_id argument .PatternVariable id result)
    (bindConstructorName id name (bindScope id scope_id result))

def bindPattern (positions : List Position) (scope_id : ScopeId) (result : AnalysisResult) :
    Pattern → AnalysisResult
  | .VariablePattern id name =>
    addSymbol positions scope_id name .PatternVariable id (bindScope id scope_id result)
  | .ConstructorPattern id name arguments =>
    bindConstructorPattern positions id name arguments scope_id result

/-- `createScope` and the binding of its owner. -/
def openScope (parent : ScopeId) (owner : NodeId) (result : AnalysisResult) : AnalysisResult :=
  bindScope owner result.scopes.scopes.length
    { result with scopes := result.scopes.createScope parent owner }

mutual

@[simp] def bindExpression (positions : List Position) : Expression → ScopeId → AnalysisResult →
    AnalysisResult
  | .IntLiteral id _, scope_id, result => bindScope id scope_id result
  | .Variable id name, scope_id, result => bindVariable id name scope_id result
  | .BinaryOperator _ id left right, scope_id, result =>
    bindExpression positions right scope_id
      (bindExpression positions left scope_id (bindScope id scope_id result))
  | .Application id function argument, scope_id, result =>
    bindExpression positions argument scope_id
      (bindExpression positions function scope_id (bindScope id scope_id result))
  | .CaseExpression id scrutinee branches, scope_id, result =>
    bindBranches positions branches scope_id
      (bindExpression positions scrutinee scope_id (bindScope id scope_id result))

@[simp] def bindBranches (positions : List Position) : List Branch → ScopeId → AnalysisResult →
    AnalysisResult
  | [], _, result => result
  | ⟨id, pattern, body⟩ :: branches, scope_id, result =>
    let branch_scope := result.scopes.scopes.length
    bindBranches positions branches scope_id
      (bindExpression positions body branch_scope
        (bindPattern positions branch_scope (openScope scope_id id result) pattern))

end

def bindFunction (positions : List Position) (fd : FunctionDefinition) (result : AnalysisResult) :
    AnalysisResult :=
  let function_scope := result.scopes.scopes.length
  let result := openScope getRootScopeId fd.id result
  let result := fd.parameters.foldl
    (fun result parameter => addSymbol positions function_scope parameter .Parameter fd.id result)
    result
  bindExpression positions fd.body function_scope result

def bindFunctionBody (positions : List Position) (result : AnalysisResult) :
    Definition → AnalysisResult
  | .FunctionDefinition fd => bindFunction positions fd result
  | .DataTypeDefinition _ => result

def bindFunctionBodies (parsed : ParsedProgram) (result : AnalysisResult) : AnalysisResult :=
  parsed.ast.definitions.foldl (bindFunctionBody parsed.positions) result

def analyze (parsed : ParsedProgram) : AnalysisResult :=
  bindFunctionBodies parsed
    (checkGlobalDefinitions parsed
      (registerGlobalDefinitions parsed
        (registerBuiltins parsed.positions ⟨ScopeTree.initial, []⟩)))

end mf.semantics
