-- The types of `semantics/type_table.cpp` as the analyzer works on them: a
-- store of type nodes that name each other by index, with variables that get
-- bound, and unification on it. `none` stands for what does not return: a
-- recursion that does not end, or `.at` out of range.
import MiniFunctional.SymbolTable
import MiniFunctional.StateOption

namespace mf.semantics

/-- `Type`, whose `FunctionType` is boxed. -/
inductive TypeVariant
  | IntType
  | DataType (symbol : SymbolId)
  | FunctionType (parameter result : TypeVariant)
deriving DecidableEq, Repr

def intType : TypeVariant := .IntType

def dataType (symbol : SymbolId) : TypeVariant := .DataType symbol

def functionType (parameter result : TypeVariant) : TypeVariant := .FunctionType parameter result

def containsFunctionType : TypeVariant → Bool
  | .FunctionType _ _ => true
  | _ => false

/-- The symbol is that of a data type. -/
def ScopeTree.IsDataType (t : ScopeTree) (symbol : SymbolId) : Prop :=
  ∃ s, t.getSymbol symbol = some s ∧ s.kind = .DataType

/-- The type is made of `Int` and data types of the program. -/
@[simp] def TypeVariant.Concrete (t : ScopeTree) : TypeVariant → Prop
  | .IntType => True
  | .DataType symbol => t.IsDataType symbol
  | .FunctionType parameter result => parameter.Concrete t ∧ result.Concrete t

abbrev TypeId := Nat

inductive InternalType
  | InternalIntType
  | InternalDataType (symbol : SymbolId)
  | InternalFunctionType (parameter result : TypeId)
  | InternalTypeVariable (binding : Option TypeId)
deriving DecidableEq, Repr

/-- `types_`. -/
abbrev TypeStore := List InternalType

namespace TypeStore

abbrev StoreM := StateOption TypeStore

/-- `types_.at(id)`. -/
def getType (id : TypeId) : StoreM InternalType := fun types =>
  types[id]?.map fun t => (t, types, [])

def setType (id : TypeId) (type : InternalType) : StoreM PUnit := modify (·.set id type)

def makeType (type : InternalType) : StoreM TypeId :=
  modifyGet fun types => (types.length, types ++ [type])

/-! ## Bindings -/

def resolveWithin : Nat → TypeId → StoreM TypeId
  | 0, _ => failure
  | n + 1, id => do
    match ← getType id with
    | .InternalTypeVariable (some binding) =>
      let resolved ← resolveWithin n binding
      setType id (.InternalTypeVariable (some resolved))
      return resolved
    | _ => return id

/-- A walk through more nodes than there are never ends. -/
def resolve (id : TypeId) : StoreM TypeId := do
  resolveWithin ((← get).length + 1) id

def peekWithin (types : TypeStore) : Nat → TypeId → Option TypeId
  | 0, _ => none
  | n + 1, id => do
    match ← types[id]? with
    | .InternalTypeVariable (some binding) => peekWithin types n binding
    | _ => return id

def peek (types : TypeStore) (id : TypeId) : Option TypeId := peekWithin types (types.length + 1) id

/-! ## Unification -/

def occursWithin (var : TypeId) : Nat → TypeId → StoreM Bool
  | 0, _ => failure
  | n + 1, type => do
    let type ← resolve type
    if var = type then
      return true
    match ← getType type with
    | .InternalFunctionType parameter result =>
      if ← occursWithin var n parameter then
        return true
      occursWithin var n result
    | _ => return false

def occurs (var type : TypeId) : StoreM Bool := do
  occursWithin var ((← get).length + 1) type

def bindVariable (var type : TypeId) : StoreM Bool := do
  if ← occurs var type then
    return false
  setType var (.InternalTypeVariable (some type))
  return true

def tryUnifyWithin : Nat → TypeId → TypeId → StoreM Bool
  | 0, _, _ => failure
  | n + 1, actual, expected => do
    let actual ← resolve actual
    let expected ← resolve expected
    if actual = expected then
      return true
    match ← getType actual, ← getType expected with
    | .InternalTypeVariable _, _ => bindVariable actual expected
    | _, .InternalTypeVariable _ => bindVariable expected actual
    | .InternalIntType, .InternalIntType => return true
    | .InternalDataType actual_symbol, .InternalDataType expected_symbol =>
      return decide (actual_symbol = expected_symbol)
    | .InternalFunctionType actual_parameter actual_result,
      .InternalFunctionType expected_parameter expected_result =>
      if ← tryUnifyWithin n actual_parameter expected_parameter then
        tryUnifyWithin n actual_result expected_result
      else
        return false
    | _, _ => return false

/-- Each turn binds a variable or goes down in a type of at most as many
levels as there are nodes. -/
def tryUnify (actual expected : TypeId) : StoreM Bool := do
  let length := (← get).length
  tryUnifyWithin ((length + 1) * (length + 1)) actual expected

/-! ## Types read from the store -/

def describeWithin (scopes : ScopeTree) (types : TypeStore) : Nat → TypeId → Option String
  | 0, _ => none
  | n + 1, id => do
    let id ← peek types id
    match ← types[id]? with
    | .InternalIntType => return "Int"
    | .InternalDataType symbol => (scopes.getSymbol symbol).map (·.name)
    | .InternalFunctionType parameter result =>
      let text ← describeWithin scopes types n parameter
      let text :=
        match ← types[← peek types parameter]? with
        | .InternalFunctionType _ _ => "(" ++ text ++ ")"
        | _ => text
      return text ++ " -> " ++ (← describeWithin scopes types n result)
    | .InternalTypeVariable _ => return "'t" ++ toString id

def describe (scopes : ScopeTree) (types : TypeStore) (id : TypeId) : Option String :=
  describeWithin scopes types (types.length + 1) id

def materializeWithin : Nat → TypeId → StoreM (Option TypeVariant)
  | 0, _ => failure
  | n + 1, id => do
    match ← getType (← resolve id) with
    | .InternalIntType => return some intType
    | .InternalDataType symbol => return some (dataType symbol)
    | .InternalFunctionType parameter result =>
      let parameter ← materializeWithin n parameter
      let result ← materializeWithin n result
      match parameter, result with
      | some parameter, some result => return some (functionType parameter result)
      | _, _ => return none
    | .InternalTypeVariable _ => return none

def materialize (id : TypeId) : StoreM (Option TypeVariant) := do
  materializeWithin ((← get).length + 1) id

end TypeStore

end mf.semantics
