-- The type analyzer of `semantics/type_table.cpp`. Its methods are
-- computations on its fields; `none` stands for what does not return. The
-- hash maps are iterated in the order of their entries.
import MiniFunctional.TypeStore

open mf.ast mf.parsing

namespace mf.semantics

structure ConstructorSignature where
  data_type : SymbolId
  fields : List TypeVariant
deriving DecidableEq, Repr

structure FunctionSignature where
  parameters : List TypeVariant
  result : TypeVariant
deriving DecidableEq, Repr

structure InternalConstructorSignature where
  data_type : SymbolId
  fields : List TypeId

structure InternalFunctionSignature where
  parameters : List TypeId
  result : TypeId

structure TypeTable where
  constructor_signatures : AssocMap SymbolId ConstructorSignature
  function_signatures : AssocMap SymbolId FunctionSignature

def TypeTable.getConstructorSignature (table : TypeTable) (symbol_id : SymbolId) :
    Option ConstructorSignature := table.constructor_signatures.find symbol_id

def TypeTable.getFunctionSignature (table : TypeTable) (symbol_id : SymbolId) :
    Option FunctionSignature := table.function_signatures.find symbol_id

structure TypeAnalysisResult where
  types : TypeTable
  diagnostics : List Diagnostic

def TypeAnalysisResult.ok (result : TypeAnalysisResult) : Bool := result.diagnostics.isEmpty

structure TypeAnalyzer where
  types : TypeStore
  symbol_types : AssocMap SymbolId TypeId
  constructor_signatures : AssocMap SymbolId InternalConstructorSignature
  function_signatures : AssocMap SymbolId InternalFunctionSignature
  result : TypeAnalysisResult

def getRootSymbol (scopes : ScopeTree) (name : String) (kind : SymbolKind) : Option Symbol :=
  (scopes.getLocalSymbol ScopeTree.getRootScopeId name).filter (·.kind = kind)

def getSymbolInNodeScope (scopes : ScopeTree) (node_id : NodeId) (name : String)
    (kind : SymbolKind) : Option Symbol :=
  (scopes.getScopeId node_id).bind fun scope_id =>
    (scopes.getLocalSymbol scope_id name).filter (·.kind = kind)

namespace TypeAnalyzer

open TypeStore

def initial : TypeAnalyzer := ⟨[], .empty, .empty, .empty, ⟨⟨.empty, .empty⟩, []⟩⟩

abbrev AnalyzerM := StateOption TypeAnalyzer

def withTypes (st : TypeAnalyzer) (types : TypeStore) : TypeAnalyzer := { st with types }

def onTypes {α : Type} (m : StoreM α) : AnalyzerM α := fun st =>
  (m st.types).map fun (a, types, visited) =>
    (a, st.withTypes types, visited.map st.withTypes)

/-- What is read from the store and changes nothing. -/
def readTypes {α : Type} (read : TypeStore → Option α) : AnalyzerM α := fun st =>
  (read st.types).map fun result => (result, st, [])

def makeVariable : AnalyzerM TypeId := onTypes (makeType (.InternalTypeVariable none))

def makeInt : AnalyzerM TypeId := onTypes (makeType .InternalIntType)

def makeData (symbol : SymbolId) : AnalyzerM TypeId := onTypes (makeType (.InternalDataType symbol))

def makeFunction (parameter result : TypeId) : AnalyzerM TypeId :=
  onTypes (makeType (.InternalFunctionType parameter result))

/-- The overload with a list of parameters, made from the last one on. -/
def makeFunctions : List TypeId → TypeId → AnalyzerM TypeId
  | [], result => pure result
  | parameter :: parameters, result => do
    makeFunction parameter (← makeFunctions parameters result)

/-- `symbol_types_[symbol_id] = type`. -/
def setSymbolType (symbol_id : SymbolId) (type : TypeId) : AnalyzerM PUnit :=
  modify fun st => { st with symbol_types := st.symbol_types.insert symbol_id type }

def addError (node_id : NodeId) (message : String) : AnalyzerM PUnit :=
  modify fun st => { st with
    result := { st.result with
      diagnostics := st.result.diagnostics ++ [makeDiagnostic node_id message] } }

variable (scopes : ScopeTree)

def unify (actual expected : TypeId) (node_id : NodeId) (context : String) :
    AnalyzerM Bool := do
  if ← onTypes (tryUnify actual expected) then
    return true
  let expected_text ← readTypes fun types => describe scopes types expected
  let actual_text ← readTypes fun types => describe scopes types actual
  addError node_id
    ("Type mismatch in " ++ context ++ ": expected " ++ expected_text ++ ", got " ++ actual_text)
  return false

/-! ## Declarations -/

def registerBuiltins : AnalyzerM PUnit := do
  match scopes.getLocalSymbol ScopeTree.getRootScopeId "Int" with
  | some int_symbol => setSymbolType int_symbol.id (← makeInt)
  | none => return ⟨⟩

def typeOfTypeSymbol (symbol : Symbol) : AnalyzerM TypeId :=
  if symbol.kind = .BuiltinType then makeInt else makeData symbol.id

/-- The loop over a constructor's fields; `none` when one names no type. -/
def fieldTypes (constructor_id : NodeId) : List String → AnalyzerM (Option (List TypeId))
  | [] => return some []
  | field :: rest => do
    match (scopes.getLocalSymbol ScopeTree.getRootScopeId field).filter (isTypeSymbol ·.kind) with
    | none =>
      addError constructor_id ("Unknown type '" ++ field ++ "'")
      return none
    | some type_symbol =>
      let type ← typeOfTypeSymbol type_symbol
      match ← fieldTypes constructor_id rest with
      | none => return none
      | some types => return some (type :: types)

def registerConstructor (data_symbol : Symbol) (ctor : Constructor) : AnalyzerM PUnit := do
  match getRootSymbol scopes ctor.name .Constructor with
  | none => return ⟨⟩
  | some constructor_symbol =>
    match ← fieldTypes scopes ctor.id ctor.fields with
    | none => return ⟨⟩
    | some fields =>
      let result ← makeData data_symbol.id
      let callable_type ← makeFunctions fields result
      setSymbolType constructor_symbol.id callable_type
      modify fun st => { st with
        constructor_signatures := st.constructor_signatures.emplace constructor_symbol.id
          ⟨data_symbol.id, fields⟩ }

def registerDataType : Definition → AnalyzerM PUnit
  | .FunctionDefinition _ => return ⟨⟩
  | .DataTypeDefinition dt => do
    match getRootSymbol scopes dt.name .DataType with
    | none => return ⟨⟩
    | some data_symbol =>
      setSymbolType data_symbol.id (← makeData data_symbol.id)
      dt.constructors.forM (registerConstructor scopes data_symbol)

def registerConstructors (program : Program) : AnalyzerM PUnit :=
  program.definitions.forM (registerDataType scopes)

/-- The loop over a function's parameters. -/
def parameterTypes (function_scope : ScopeId) : List String → AnalyzerM (List TypeId)
  | [] => return []
  | parameter :: rest => do
    match scopes.getLocalSymbol function_scope parameter with
    | none => parameterTypes function_scope rest
    | some parameter_symbol =>
      let type ← makeVariable
      setSymbolType parameter_symbol.id type
      return type :: (← parameterTypes function_scope rest)

def prepareFunctionSignature (fd : FunctionDefinition) : AnalyzerM PUnit := do
  match getRootSymbol scopes fd.name .Function, scopes.getScopeId fd.id with
  | some function_symbol, some function_scope =>
    let parameters ← parameterTypes scopes function_scope fd.parameters
    let result ← makeVariable
    let callable_type ← makeFunctions parameters result
    setSymbolType function_symbol.id callable_type
    modify fun st => { st with
      function_signatures := st.function_signatures.emplace function_symbol.id
        ⟨parameters, result⟩ }
  | _, _ => return ⟨⟩

def prepareFunction : Definition → AnalyzerM PUnit
  | .FunctionDefinition fd => prepareFunctionSignature scopes fd
  | .DataTypeDefinition _ => return ⟨⟩

def prepareFunctionSignatures (program : Program) : AnalyzerM PUnit :=
  program.definitions.forM (prepareFunction scopes)

/-! ## Inference -/

def inferVariable (id : NodeId) : AnalyzerM TypeId := do
  match scopes.getResolvedSymbol id with
  | none => makeVariable
  | some symbol =>
    match (← get).symbol_types.find symbol.id with
    | some type => return type
    | none => makeVariable

def inferVariablePattern (id : NodeId) (name : String) (expected : TypeId) : AnalyzerM PUnit :=
  match getSymbolInNodeScope scopes id name .PatternVariable with
  | some symbol => setSymbolType symbol.id expected
  | none => return ⟨⟩

/-- The loop over a pattern's arguments. -/
def bindArguments (pattern_scope : ScopeId) : List String → List TypeId → AnalyzerM PUnit
  | argument :: arguments, field :: fields =>
    match (scopes.getLocalSymbol pattern_scope argument).filter (·.kind = .PatternVariable) with
    | none => return ⟨⟩
    | some binding => do
      setSymbolType binding.id field
      bindArguments pattern_scope arguments fields
  | _, _ => return ⟨⟩

def inferConstructorPattern (id : NodeId) (name : String) (arguments : List String)
    (expected : TypeId) : AnalyzerM PUnit := do
  match scopes.getResolvedSymbol id with
  | none => return ⟨⟩
  | some ctor =>
    match (← get).constructor_signatures.find ctor.id with
    | none => return ⟨⟩
    | some signature =>
      let _ ← unify scopes expected (← makeData signature.data_type) id "constructor pattern"
      if arguments.length ≠ signature.fields.length then
        addError id ("Constructor '" ++ name ++ "' expects " ++ toString signature.fields.length ++
          " arguments, got " ++ toString arguments.length)
      else
        match scopes.getScopeId id with
        | none => return ⟨⟩
        | some pattern_scope => bindArguments scopes pattern_scope arguments signature.fields

def inferPattern (expected : TypeId) : Pattern → AnalyzerM PUnit
  | .VariablePattern id name => inferVariablePattern scopes id name expected
  | .ConstructorPattern id name arguments =>
    inferConstructorPattern scopes id name arguments expected

mutual

@[simp] def inferExpression : Expression → AnalyzerM TypeId
  | .IntLiteral _ _ => makeInt
  | .Variable id _ => inferVariable scopes id
  | .BinaryOperator _ _ left right => do
    let left_type ← inferExpression left
    let right_type ← inferExpression right
    let integer ← makeInt
    let _ ← unify scopes left_type integer left.id "arithmetic left operand"
    let _ ← unify scopes right_type integer right.id "arithmetic right operand"
    makeInt
  | .Application id function argument => do
    let function_type ← inferExpression function
    let argument_type ← inferExpression argument
    let result ← makeVariable
    let expected_function ← makeFunction argument_type result
    let _ ← unify scopes function_type expected_function id "function application"
    return result
  | .CaseExpression _ scrutinee branches => do
    let scrutinee_type ← inferExpression scrutinee
    let result ← makeVariable
    inferBranches branches scrutinee_type result
    return result

/-- The loop over the branches of `inferCaseExpression`. -/
@[simp] def inferBranches : List Branch → TypeId → TypeId → AnalyzerM PUnit
  | [], _, _ => return ⟨⟩
  | ⟨_, pattern, body⟩ :: branches, scrutinee, result => do
    inferPattern scopes scrutinee pattern
    let body_type ← inferExpression body
    let _ ← unify scopes body_type result body.id "case branch result"
    inferBranches branches scrutinee result

end

def inferFunctionBody : Definition → AnalyzerM PUnit
  | .DataTypeDefinition _ => return ⟨⟩
  | .FunctionDefinition fd => do
    match getRootSymbol scopes fd.name .Function with
    | none => return ⟨⟩
    | some function_symbol =>
      match (← get).function_signatures.find function_symbol.id with
      | none => return ⟨⟩
      | some signature =>
        let body_type ← inferExpression scopes fd.body
        let _ ← unify scopes body_type signature.result fd.body.id ("function '" ++ fd.name ++ "'")
        return ⟨⟩

def inferFunctionBodies (program : Program) : AnalyzerM PUnit :=
  program.definitions.forM (inferFunctionBody scopes)

/-! ## The concrete types -/

def finalizeSymbolType (entry : SymbolId × TypeId) : AnalyzerM PUnit := do
  match ← onTypes (materialize entry.2) with
  | some _ => return ⟨⟩
  | none =>
    let symbol ← readTypes fun _ => scopes.getSymbol entry.1
    addError symbol.declaration ("Could not infer concrete type of '" ++ symbol.name ++ "'")

def finalizeSymbolTypes : AnalyzerM PUnit := do
  (← get).symbol_types.entries.forM (finalizeSymbolType scopes)

def materializeAll : List TypeId → AnalyzerM (Option (List TypeVariant))
  | [] => return some []
  | type_id :: type_ids => do
    match ← onTypes (materialize type_id) with
    | none => return none
    | some type =>
      match ← materializeAll type_ids with
      | none => return none
      | some types => return some (type :: types)

def finalizeConstructorSignature (entry : SymbolId × InternalConstructorSignature) :
    AnalyzerM PUnit := do
  match ← materializeAll entry.2.fields with
  | none => return ⟨⟩
  | some fields =>
    modify fun st => { st with
      result.types.constructor_signatures :=
        st.result.types.constructor_signatures.emplace entry.1 ⟨entry.2.data_type, fields⟩ }

def finalizeConstructorSignatures : AnalyzerM PUnit := do
  (← get).constructor_signatures.entries.forM finalizeConstructorSignature

def finalizeFunctionSignature (entry : SymbolId × InternalFunctionSignature) :
    AnalyzerM PUnit := do
  let parameters ← materializeAll entry.2.parameters
  let result ← onTypes (materialize entry.2.result)
  match parameters, result with
  | some parameters, some result =>
    modify fun st => { st with
      result.types.function_signatures :=
        st.result.types.function_signatures.emplace entry.1 ⟨parameters, result⟩ }
  | _, _ => return ⟨⟩

def finalizeFunctionSignatures : AnalyzerM PUnit := do
  (← get).function_signatures.entries.forM finalizeFunctionSignature

def finalizeTypes : AnalyzerM PUnit := do
  finalizeSymbolTypes scopes
  finalizeConstructorSignatures
  finalizeFunctionSignatures

/-! ## Restrictions -/

def addErrorIf (condition : Prop) [Decidable condition] (node_id : NodeId) (message : String) :
    AnalyzerM PUnit :=
  if condition then addError node_id message else return ⟨⟩

def checkParameter (symbol : Symbol) (parameter : TypeVariant) : AnalyzerM PUnit :=
  addErrorIf (containsFunctionType parameter) symbol.declaration ("Function '" ++ symbol.name ++
    "' has function-typed parameter; higher-order functions are not supported")

def checkFunctionRestriction (entry : SymbolId × FunctionSignature) : AnalyzerM PUnit := do
  let symbol ← readTypes fun _ => scopes.getSymbol entry.1
  addErrorIf (symbol.name = "main" ∧ entry.2.parameters ≠ []) symbol.declaration
    "Function 'main' must not have parameters"
  entry.2.parameters.forM (checkParameter symbol)
  addErrorIf (containsFunctionType entry.2.result) symbol.declaration ("Function '" ++
    symbol.name ++ "' returns a function; partial application is not supported")

def checkFunctionRestrictions : AnalyzerM PUnit := do
  (← get).result.types.function_signatures.entries.forM (checkFunctionRestriction scopes)

def analyze (program : Program) : AnalyzerM PUnit := do
  registerBuiltins scopes
  registerConstructors scopes program
  prepareFunctionSignatures scopes program
  inferFunctionBodies scopes program
  finalizeTypes scopes
  checkFunctionRestrictions scopes

end TypeAnalyzer

def analyzeTypes (parsed : ParsedProgram) (analysis : AnalysisResult) :
    Option TypeAnalysisResult :=
  if analysis.ok then
    (TypeAnalyzer.analyze analysis.scopes parsed.ast .initial).map (·.2.1.result)
  else
    some { TypeAnalyzer.initial.result with diagnostics := analysis.diagnostics }

end mf.semantics
