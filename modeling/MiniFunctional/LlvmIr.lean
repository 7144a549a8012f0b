-- The code generator of `visitors/llvm_ir.cpp`. The names of blocks and
-- values are left out, and so are optimization and printing; `verifyModule`
-- of LLVM is a parameter.
import MiniFunctional.Interpreter
import MiniFunctional.IrBuilder

open mf.util mf.ast mf.parsing mf.semantics llvm

namespace mf.visitors

def kNodeBytes : Nat := 24

def kPackedFieldBytes : Nat := 8

structure TypedValue where
  value : Operand
  type : TypeVariant

structure ConstructorLayout where
  data_type : SymbolId
  tag : Nat
  fields : List TypeVariant

/-- What the generator throws, by its messages. -/
inductive GenerateError
  | Diagnostic (text : String)
  | HigherOrderLowering
  | FunctionHasNoSemanticScope (name : String)
  | ParameterHasNoSemanticBinding (name : String)
  | NoMainFunction
  | NoDeclarationForMain
  | InvalidMainSignature
  | CannotPrintFunction
  | VariableHasNoSemanticBinding (name : String)
  | ConstructorHasNoLayout (name : String)
  | ConstructorNeedsArguments (name : String)
  | FunctionCannotBeUsedAsValue (name : String)
  | LocalHasNoValue (name : String)
  | OnlyNamedAreCallable
  | CallableHasNoSemanticBinding (name : String)
  | NotCallable (name : String)
  | FunctionHasNoDeclaration (name : String)
  | InvalidArity (name : String)
  | ConstructorExpectsArguments (name : String) (expected got : Nat)
  | CannotStoreFunctionField
  | CannotLoadFunctionField
  | CaseHasNoBranches
  | PatternHasNoConstructorBinding (name : String)
  | PatternHasNoSemanticBinding (name : String)
  | PatternHasInvalidBindings (name : String)
  | InvalidLlvmIr (message : String)
  /-- `std::length_error`, of a vector that cannot be so long. -/
  | lengthError
  /-- `std::out_of_range`, of `.at`. -/
  | outOfRange
  /-- `std::bad_variant_access`, of `std::get`. -/
  | badVariantAccess
deriving DecidableEq, Repr

/-- The message, of those that the generator gives itself. -/
def GenerateError.what : GenerateError → Option String
  | .Diagnostic text => some text
  | .HigherOrderLowering => some "Higher-order LLVM lowering is not supported"
  | .FunctionHasNoSemanticScope name => some ("Function '" ++ name ++ "' has no semantic scope")
  | .ParameterHasNoSemanticBinding name =>
    some ("Parameter '" ++ name ++ "' has no semantic binding")
  | .NoMainFunction => some "No 'main' function defined"
  | .NoDeclarationForMain => some "No LLVM declaration for 'main'"
  | .InvalidMainSignature => some "Invalid MF main signature"
  | .CannotPrintFunction => some "Cannot print function value"
  | .VariableHasNoSemanticBinding name =>
    some ("Variable '" ++ name ++ "' has no semantic binding")
  | .ConstructorHasNoLayout name => some ("Constructor '" ++ name ++ "' has no layout")
  | .ConstructorNeedsArguments name => some ("Constructor '" ++ name ++ "' needs arguments")
  | .FunctionCannotBeUsedAsValue name =>
    some ("Function '" ++ name ++ "' cannot be used as a value")
  | .LocalHasNoValue name => some ("Local '" ++ name ++ "' has no LLVM value")
  | .OnlyNamedAreCallable => some "Only named functions and constructors are callable"
  | .CallableHasNoSemanticBinding name =>
    some ("Callable '" ++ name ++ "' has no semantic binding")
  | .NotCallable name => some ("'" ++ name ++ "' is not callable")
  | .FunctionHasNoDeclaration name => some ("Function '" ++ name ++ "' has no LLVM declaration")
  | .InvalidArity name => some ("Function '" ++ name ++ "' called with invalid arity")
  | .ConstructorExpectsArguments name expected got =>
    some ("Constructor '" ++ name ++ "' expects " ++ toString expected ++ " arguments, got " ++
      toString got)
  | .CannotStoreFunctionField => some "Cannot store function field"
  | .CannotLoadFunctionField => some "Cannot load function field"
  | .CaseHasNoBranches => some "Case expression has no branches"
  | .PatternHasNoConstructorBinding name =>
    some ("Pattern '" ++ name ++ "' has no constructor binding")
  | .PatternHasNoSemanticBinding name => some ("Pattern '" ++ name ++ "' has no semantic binding")
  | .PatternHasInvalidBindings name => some ("Pattern '" ++ name ++ "' has invalid bindings")
  | .InvalidLlvmIr message => some ("Invalid LLVM IR: " ++ message)
  | .lengthError => none
  | .outOfRange => none
  | .badVariantAccess => none

/-- The module so far, the builder of the function that is being defined, and
the values of its local symbols. -/
structure GeneratorState where
  functions : List llvm.Function
  builder : Builder
  locals_ : AssocMap SymbolId TypedValue

abbrev Gen := StateT GeneratorState (Except GenerateError)

/-! ## The builder -/

def withBuilder {α : Type} (f : Builder → α × Builder) : Gen α := fun g =>
  .ok ((f g.builder).1, { g with builder := (f g.builder).2 })

def createBlock : Gen BlockId := withBuilder Builder.createBlock

def setInsertPoint (block : BlockId) : Gen Unit :=
  withBuilder fun b => ((), b.setInsertPoint block)

def getInsertBlock : Gen BlockId := withBuilder fun b => (b.insertBlock, b)

def hasTerminator : Gen Bool := withBuilder fun b => (b.terminated, b)

def createInstruction (i : Instruction) : Gen Operand := withBuilder (Builder.insert i)

def createTerminator (t : Terminator) : Gen Unit := withBuilder fun b => ((), b.terminate t)

def createStore (value pointer : Operand) : Gen Unit := do
  let _ ← createInstruction (.store value pointer)

def getLocals : Gen (AssocMap SymbolId TypedValue) := fun g => .ok (g.locals_, g)

def setLocals (locals_ : AssocMap SymbolId TypedValue) : Gen Unit := fun g =>
  .ok ((), { g with locals_ })

/-- `locals_[id] = value`. -/
def setLocal (id : SymbolId) (value : TypedValue) : Gen Unit := fun g =>
  .ok ((), { g with locals_ := g.locals_.insert id value })

def i64 (value : Nat) : Operand := .int (BitVec.ofNat 64 value)

def llvmType : TypeVariant → Except GenerateError Ty
  | .IntType => .ok .i64
  | .DataType _ => .ok .ptr
  | .FunctionType _ _ => .error .HigherOrderLowering

/-- `std::vector::reserve`, for elements of `bytes` bytes. -/
def reserve (count bytes : Nat) : Gen Unit :=
  if count > 0x7FFFFFFFFFFFFFFF / bytes then throw .lengthError else return ()

/-! ## Constructed values -/

/-- The body of `mf.node`: the tag, the arity and the fields. -/
def nodeType : List Ty := [.i64, .i64, .ptr]

def createStructGEP (node : Operand) (field : Nat) : Gen Operand :=
  createInstruction (.structGEP nodeType node field)

def createInBoundsGEP (fields : Operand) (index : Nat) : Gen Operand :=
  createInstruction (.gep fields (i64 index))

def packValue (value : Operand) : TypeVariant → Gen Operand
  | .IntType => return value
  | .DataType _ => createInstruction (.ptrtoint value)
  | .FunctionType _ _ => throw .CannotStoreFunctionField

def unpackValue (value : Operand) : TypeVariant → Gen Operand
  | .IntType => return value
  | .DataType _ => createInstruction (.inttoptr value)
  | .FunctionType _ _ => throw .CannotLoadFunctionField

def loadTag (node : Operand) : Gen Operand := do
  let tag_ptr ← createStructGEP node 0
  createInstruction (.load .i64 tag_ptr)

def loadField (node : Operand) (index : Nat) (type : TypeVariant) : Gen Operand := do
  let fields_ptr ← createStructGEP node 2
  let fields ← createInstruction (.load .ptr fields_ptr)
  let field_ptr ← createInBoundsGEP fields index
  let packed ← createInstruction (.load .i64 field_ptr)
  unpackValue packed type

/-- The loop over the arguments of a constructed value. -/
def storeFields (fields : Operand) : Nat → List TypedValue → List TypeVariant → Gen Unit
  | _, [], _ => return ()
  | _, _ :: _, [] => throw .outOfRange
  | index, argument :: arguments, type :: types => do
    let slot ← createInBoundsGEP fields index
    let packed ← packValue argument.value type
    createStore packed slot
    storeFields fields (index + 1) arguments types

/-- The fields of a node; a constructor without arguments has none. The number
of bytes is the product of two constants. -/
def emitFields (layout : ConstructorLayout) (arguments : List TypedValue) : Gen Operand := do
  if arguments.isEmpty then return .null
  let bytes ← withBuilder (Builder.createBinary .mul (i64 arguments.length) (i64 kPackedFieldBytes))
  let fields ← createInstruction (.call .malloc [bytes])
  storeFields fields 0 arguments layout.fields
  return fields

def emitConstructedValue (layout : ConstructorLayout) (arguments : List TypedValue) :
    Gen TypedValue := do
  let node ← createInstruction (.call .malloc [i64 kNodeBytes])
  createStore (i64 layout.tag) (← createStructGEP node 0)
  createStore (i64 arguments.length) (← createStructGEP node 1)
  let fields ← emitFields layout arguments
  createStore fields (← createStructGEP node 2)
  return ⟨node, dataType layout.data_type⟩

/-! ## Expressions -/

def opcode : BinaryOperatorKind → BinaryOp
  | .Addition => .add
  | .Subtraction => .sub
  | .Multiplication => .mul
  | .Division => .sdiv

/-- The arguments of a call, each emitted after the one before it. -/
def emitArguments : List (Gen TypedValue) → Gen (List TypedValue)
  | [] => return []
  | argument :: arguments => do
    let value ← argument
    let values ← emitArguments arguments
    return value :: values

def emitTrap : Gen Unit := do
  let _ ← createInstruction (.call .trap [])
  createTerminator .unreachable

/-- The phi of a case expression; the incoming values are in the order of the
branches. -/
def finishCaseExpression (merge_block : BlockId) (incoming : List (TypedValue × BlockId)) :
    Gen TypedValue := do
  match incoming with
  | [] => throw .CaseHasNoBranches
  | (result, _) :: _ =>
    setInsertPoint merge_block
    let type ← llvmType result.type
    let phi ← createInstruction
      (.phi type (incoming.map fun entry => (entry.1.value, entry.2)))
    return ⟨phi, result.type⟩

def emitBranchBody (emitBody : Gen TypedValue) (merge_block : BlockId)
    (incoming : List (TypedValue × BlockId)) : Gen (List (TypedValue × BlockId)) := do
  let body ← emitBody
  let incoming_block ← getInsertBlock
  if ← hasTerminator then return incoming ++ [(body, incoming_block)]
  createTerminator (.br merge_block)
  return incoming ++ [(body, incoming_block)]

section

variable (scopes : ScopeTree) (types : TypeTable) (functions_ : AssocMap SymbolId Nat)
  (constructors_ : AssocMap SymbolId ConstructorLayout)

def getLayout (constructor : Symbol) : Gen ConstructorLayout :=
  match constructors_.find constructor.id with
  | none => throw (.ConstructorHasNoLayout constructor.name)
  | some layout => return layout

def emitVariable (id : NodeId) (name : String) : Gen TypedValue := do
  match scopes.getResolvedSymbol id with
  | none => throw (.VariableHasNoSemanticBinding name)
  | some symbol =>
    match symbol.kind with
    | .Constructor => do
      let layout ← getLayout constructors_ symbol
      if layout.fields.isEmpty then emitConstructedValue layout []
      else throw (.ConstructorNeedsArguments symbol.name)
    | .Function => throw (.FunctionCannotBeUsedAsValue symbol.name)
    | _ => do
      match (← getLocals).find symbol.id with
      | none => throw (.LocalHasNoValue symbol.name)
      | some value => return value

def emitFunctionCall (symbol : Symbol) (arguments : List (Gen TypedValue)) : Gen TypedValue :=
  match functions_.find symbol.id with
  | none => throw (.FunctionHasNoDeclaration symbol.name)
  | some function =>
    match (types.getFunctionSignature symbol.id).filter
        (·.parameters.length = arguments.length) with
    | none => throw (.InvalidArity symbol.name)
    | some signature => do
      reserve arguments.length 8
      let values ← emitArguments arguments
      let value ← createInstruction (.call (.defined function) (values.map (·.value)))
      return ⟨value, signature.result⟩

def emitConstructorCall (symbol : Symbol) (arguments : List (Gen TypedValue)) : Gen TypedValue := do
  let layout ← getLayout constructors_ symbol
  if layout.fields.length = arguments.length then do
    reserve arguments.length 24
    let values ← emitArguments arguments
    emitConstructedValue layout values
  else
    throw (.ConstructorExpectsArguments symbol.name layout.fields.length arguments.length)

/-- `emitApplication`, past `collectApplication`, for a callee that is a
variable. -/
def emitCall (id : NodeId) (name : String) (arguments : List (Gen TypedValue)) :
    Gen TypedValue :=
  match scopes.getResolvedSymbol id with
  | none => throw (.CallableHasNoSemanticBinding name)
  | some symbol =>
    match symbol.kind with
    | .Function => emitFunctionCall types functions_ symbol arguments
    | .Constructor => emitConstructorCall constructors_ symbol arguments
    | _ => throw (.NotCallable symbol.name)

/-- The loop of `canUseSwitchCase`, with the constructors seen so far. -/
def canUseSwitchCase (constructor_ids : List SymbolId) : List Branch → Bool
  | [] => true
  | ⟨_, .VariablePattern _ _, _⟩ :: _ => false
  | ⟨_, .ConstructorPattern id _ _, _⟩ :: branches =>
    match scopes.getResolvedSymbol id with
    | none => false
    | some constructor =>
      if constructor.id ∈ constructor_ids then false
      else canUseSwitchCase (constructor.id :: constructor_ids) branches

def emitVariablePattern (id : NodeId) (name : String) (scrutinee : TypedValue) : Gen Unit :=
  match getSymbolInNodeScope scopes id name .PatternVariable with
  | none => throw (.PatternHasNoSemanticBinding name)
  | some symbol => setLocal symbol.id scrutinee

/-- The loop over the arguments of a constructor pattern. -/
def bindPatternFields (name : String) (scope_id : ScopeId) (scrutinee : Operand) :
    Nat → List String → List TypeVariant → Gen Unit
  | _, [], _ => return ()
  | _, _ :: _, [] => throw .outOfRange
  | index, argument :: arguments, type :: types =>
    match (scopes.getLocalSymbol scope_id argument).filter (·.kind = .PatternVariable) with
    | none => throw (.PatternHasInvalidBindings name)
    | some binding => do
      let field ← loadField scrutinee index type
      setLocal binding.id ⟨field, type⟩
      bindPatternFields name scope_id scrutinee (index + 1) arguments types

def emitConstructorPattern (id : NodeId) (name : String) (arguments : List String)
    (scrutinee : Operand) (layout : ConstructorLayout) : Gen Unit :=
  if arguments.length ≠ layout.fields.length then throw (.PatternHasInvalidBindings name)
  else
    match scopes.getScopeId id with
    | none => throw (.PatternHasInvalidBindings name)
    | some scope_id => bindPatternFields scopes name scope_id scrutinee 0 arguments layout.fields

def patternConstructor (id : NodeId) (name : String) : Gen Symbol :=
  match scopes.getResolvedSymbol id with
  | none => throw (.PatternHasNoConstructorBinding name)
  | some constructor => return constructor

/-- One turn of the loop of `emitSwitchCaseExpression`. -/
def emitSwitchBranch (id : NodeId) (name : String) (arguments : List String)
    (emitBody : Gen TypedValue) (scrutinee : TypedValue) (switch_block merge_block : BlockId)
    (incoming : List (TypedValue × BlockId)) : Gen (List (TypedValue × BlockId)) := do
  let constructor ← patternConstructor scopes id name
  let layout ← getLayout constructors_ constructor
  let branch_block ← createBlock
  withBuilder fun b => ((), b.addCase switch_block (BitVec.ofNat 64 layout.tag) branch_block)
  setInsertPoint branch_block
  let saved_locals ← getLocals
  emitConstructorPattern scopes id name arguments scrutinee.value layout
  let incoming ← emitBranchBody emitBody merge_block incoming
  setLocals saved_locals
  return incoming

def emitConstructorCaseBranch (id : NodeId) (name : String) (arguments : List String)
    (emitBody : Gen TypedValue) (scrutinee : TypedValue) (merge_block : BlockId)
    (incoming : List (TypedValue × BlockId)) : Gen (List (TypedValue × BlockId)) := do
  let constructor ← patternConstructor scopes id name
  let layout ← getLayout constructors_ constructor
  let matched_block ← createBlock
  let next_block ← createBlock
  let tag ← loadTag scrutinee.value
  let matched ← createInstruction (.icmpEq tag (i64 layout.tag))
  createTerminator (.condBr matched matched_block next_block)
  setInsertPoint matched_block
  let saved_locals ← getLocals
  emitConstructorPattern scopes id name arguments scrutinee.value layout
  let incoming ← emitBranchBody emitBody merge_block incoming
  setLocals saved_locals
  setInsertPoint next_block
  return incoming

/-- `emitSwitchCaseExpression`, around its loop. -/
def emitSwitchCaseExpression
    (emitBranches : BlockId → BlockId → Gen (List (TypedValue × BlockId)))
    (scrutinee : TypedValue) : Gen TypedValue := do
  let default_block ← createBlock
  let merge_block ← createBlock
  let tag ← loadTag scrutinee.value
  let switch_block ← getInsertBlock
  createTerminator (.switch tag default_block [])
  let incoming ← emitBranches switch_block merge_block
  setInsertPoint default_block
  emitTrap
  finishCaseExpression merge_block incoming

/-- The rest of `emitCaseExpression`, around its loop, which says whether the
last branch falls through. -/
def emitSequentialCaseExpression
    (emitBranches : BlockId → Gen (List (TypedValue × BlockId) × Bool)) : Gen TypedValue := do
  let merge_block ← createBlock
  let (incoming, has_fallthrough) ← emitBranches merge_block
  if has_fallthrough then emitTrap
  finishCaseExpression merge_block incoming

mutual

@[simp] def emitExpression : Expression → Gen TypedValue
  | .IntLiteral _ value => return ⟨.int (value.toBitVec.signExtend 64), intType⟩
  | .Variable id name => emitVariable scopes constructors_ id name
  | .BinaryOperator kind _ left_operand right_operand => do
    let left ← emitExpression left_operand
    let right ← emitExpression right_operand
    let value ← withBuilder (Builder.createBinary (opcode kind) left.value right.value)
    return ⟨value, intType⟩
  | .Application _ function argument => emitApplication function [emitExpression argument]
  | .CaseExpression _ scrutinee branches => do
    let scrutinee ← emitExpression scrutinee
    if canUseSwitchCase scopes [] branches then
      emitSwitchCaseExpression
        (fun switch_block merge_block =>
          emitSwitchBranches branches scrutinee switch_block merge_block [])
        scrutinee
    else
      emitSequentialCaseExpression fun merge_block =>
        emitSequentialBranches branches scrutinee merge_block []

/-- `emitApplication`: what `collectApplication` has still to go through, and
the arguments that it has. -/
@[simp] def emitApplication : Expression → List (Gen TypedValue) → Gen TypedValue
  | .Application _ function argument, arguments =>
    emitApplication function (emitExpression argument :: arguments)
  | .Variable id name, arguments => emitCall scopes types functions_ constructors_ id name arguments
  | .IntLiteral _ _, _ => throw .OnlyNamedAreCallable
  | .BinaryOperator _ _ _ _, _ => throw .OnlyNamedAreCallable
  | .CaseExpression _ _ _, _ => throw .OnlyNamedAreCallable

@[simp] def emitSwitchBranches : List Branch → TypedValue → BlockId → BlockId →
    List (TypedValue × BlockId) → Gen (List (TypedValue × BlockId))
  | [], _, _, _, incoming => return incoming
  | ⟨_, pattern, body⟩ :: branches, scrutinee, switch_block, merge_block, incoming =>
    match pattern with
    | .VariablePattern _ _ => throw .badVariantAccess
    | .ConstructorPattern id name arguments => do
      let incoming ← emitSwitchBranch scopes constructors_ id name arguments (emitExpression body)
        scrutinee switch_block merge_block incoming
      emitSwitchBranches branches scrutinee switch_block merge_block incoming

/-- `emitSequentialCaseBranch` for each branch, up to one that does not fall
through. -/
@[simp] def emitSequentialBranches : List Branch → TypedValue → BlockId →
    List (TypedValue × BlockId) → Gen (List (TypedValue × BlockId) × Bool)
  | [], _, _, incoming => return (incoming, true)
  | ⟨_, pattern, body⟩ :: branches, scrutinee, merge_block, incoming =>
    match pattern with
    | .VariablePattern id name => do
      emitVariablePattern scopes id name scrutinee
      let incoming ← emitBranchBody (emitExpression body) merge_block incoming
      return (incoming, false)
    | .ConstructorPattern id name arguments => do
      let incoming ← emitConstructorCaseBranch scopes constructors_ id name arguments
        (emitExpression body) scrutinee merge_block incoming
      emitSequentialBranches branches scrutinee merge_block incoming

end

/-! ## Definitions -/

/-- `std::format("mf.{}.{}", ...)`. -/
def mangle (symbol : Symbol) : String := "mf." ++ toString symbol.id ++ "." ++ symbol.name

def registerConstructor (data_symbol : Symbol)
    (s : Nat × AssocMap SymbolId ConstructorLayout) (constructor : Constructor) :
    Nat × AssocMap SymbolId ConstructorLayout :=
  match getRootSymbol scopes constructor.name .Constructor with
  | none => s
  | some constructor_symbol =>
    match types.getConstructorSignature constructor_symbol.id with
    | none => s
    | some signature =>
      (s.1 + 1, s.2.emplace constructor_symbol.id ⟨data_symbol.id, s.1, signature.fields⟩)

def registerDataType (s : Nat × AssocMap SymbolId ConstructorLayout) :
    Definition → Nat × AssocMap SymbolId ConstructorLayout
  | .FunctionDefinition _ => s
  | .DataTypeDefinition dt =>
    match getRootSymbol scopes dt.name .DataType with
    | none => s
    | some data_symbol => dt.constructors.foldl (registerConstructor scopes types data_symbol) s

def registerConstructors (program : Program) : AssocMap SymbolId ConstructorLayout :=
  (program.definitions.foldl (registerDataType scopes types) (0, .empty)).2

/-- The functions of the module so far, and where those of the program are. -/
def declareFunction (s : List llvm.Function × AssocMap SymbolId Nat) :
    Definition → Except GenerateError (List llvm.Function × AssocMap SymbolId Nat)
  | .DataTypeDefinition _ => return s
  | .FunctionDefinition fd =>
    match getRootSymbol scopes fd.name .Function with
    | none => return s
    | some symbol =>
      match types.getFunctionSignature symbol.id with
      | none => return s
      | some signature => do
        let parameters ← signature.parameters.mapM llvmType
        let result ← llvmType signature.result
        return (s.1 ++ [⟨mangle symbol, result, parameters, []⟩],
          s.2.emplace symbol.id s.1.length)

def declareFunctions (program : Program) :
    Except GenerateError (List llvm.Function × AssocMap SymbolId Nat) :=
  program.definitions.foldlM (declareFunction scopes types) ([], .empty)

/-- The loop over the parameters of a function. -/
def bindParameters (scope_id : ScopeId) : Nat → List String → List TypeVariant → Gen Unit
  | _, [], _ => return ()
  | _, _ :: _, [] => throw .outOfRange
  | index, parameter :: parameters, type :: types =>
    match scopes.getLocalSymbol scope_id parameter with
    | none => throw (.ParameterHasNoSemanticBinding parameter)
    | some symbol => do
      setLocal symbol.id ⟨.argument index, type⟩
      bindParameters scope_id (index + 1) parameters types

/-- The builder starts on a new function. -/
def startFunction : Gen Unit := fun g => .ok ((), { g with builder := .entry })

/-- The blocks of the builder are those of the function. -/
def finishFunction (function : Nat) : Gen Unit := fun g =>
  .ok ((), { g with
    functions := g.functions.modify function fun f => { f with blocks := g.builder.blocks } })

def emitFunctionBody (fd : FunctionDefinition) (signature : FunctionSignature) (scope_id : ScopeId)
    (function : Nat) : Gen Unit := do
  startFunction
  bindParameters scopes scope_id 0 fd.parameters signature.parameters
  let body ← emitExpression scopes types functions_ constructors_ fd.body
  createTerminator (.ret body.value)
  finishFunction function

def defineFunction (fd : FunctionDefinition) : Gen Unit :=
  match getRootSymbol scopes fd.name .Function with
  | none => return ()
  | some symbol =>
    match functions_.find symbol.id with
    | none => return ()
    | some function =>
      match types.getFunctionSignature symbol.id with
      | none => return ()
      | some signature => do
        setLocals .empty
        match scopes.getScopeId fd.id with
        | none => throw (.FunctionHasNoSemanticScope fd.name)
        | some scope_id =>
          emitFunctionBody scopes types functions_ constructors_ fd signature scope_id function

def defineFunctions : List Definition → Gen Unit
  | [] => return ()
  | .FunctionDefinition fd :: definitions => do
    defineFunction scopes types functions_ constructors_ fd
    defineFunctions definitions
  | .DataTypeDefinition _ :: definitions => defineFunctions definitions

def emitPrint (value : Operand) : TypeVariant → Gen Unit
  | .IntType => do
    let _ ← createInstruction (.call .printf [.globalString "%ld\n", value])
  | .DataType _ => do
    let tag ← loadTag value
    let _ ← createInstruction (.call .printf [.globalString "%ld\n", tag])
  | .FunctionType _ _ => throw .CannotPrintFunction

/-- The function `main` is put at the end of the module. -/
def createMain : Gen Nat := fun g =>
  .ok (g.functions.length, { g with functions := g.functions ++ [⟨"main", .i32, [], []⟩] })

def defineMain : Gen Unit :=
  match getRootSymbol scopes "main" .Function with
  | none => throw .NoMainFunction
  | some main_symbol =>
    match functions_.find main_symbol.id with
    | none => throw .NoDeclarationForMain
    | some function =>
      match (types.getFunctionSignature main_symbol.id).filter (·.parameters.isEmpty) with
      | none => throw .InvalidMainSignature
      | some signature => do
        let main_function ← createMain
        startFunction
        let result ← createInstruction (.call (.defined function) [])
        emitPrint result signature.result
        createTerminator (.ret (.int32 0))
        finishFunction main_function

end

/-- `generateModule`, before `verify`. -/
def generateModule (program : Program) (scopes : ScopeTree) (types : TypeTable) :
    Except GenerateError Module := do
  let constructors_ := registerConstructors scopes types program
  let (functions, functions_) ← declareFunctions scopes types program
  let (_, g) ← (do
    defineFunctions scopes types functions_ constructors_ program.definitions
    defineMain scopes types functions_ : Gen Unit).run ⟨functions, .entry, .empty⟩
  return ⟨g.functions⟩

section

-- `llvm::verifyModule`: the message, of a module that is broken.
variable (verifyModule : Module → Option String)

def verify (module : Module) : Except GenerateError Module :=
  match verifyModule module with
  | some message => throw (.InvalidLlvmIr message)
  | none => return module

/-- `LlvmIrGenerator::generate`, up to `printModule`. -/
def generateCheckedLlvmIr (parsed : ParsedProgram) (analysis : AnalysisResult)
    (type_analysis : TypeAnalysisResult) : Except GenerateError Module := do
  verify verifyModule (← generateModule parsed.ast analysis.scopes type_analysis.types)

/-- `generateLlvmIr`, with `analyzeOrThrow`; `none` is that of `analyzeTypes`. -/
def generateLlvmIr (parsed : ParsedProgram) : Option (Except GenerateError Module) :=
  let analysis := analyze parsed
  match analysis.diagnostics with
  | diagnostic :: _ => some (throw (.Diagnostic (formatDiagnostic parsed diagnostic)))
  | [] => (analyzeTypes parsed analysis).map fun type_analysis =>
    match type_analysis.diagnostics with
    | diagnostic :: _ => throw (.Diagnostic (formatDiagnostic parsed diagnostic))
    | [] => generateCheckedLlvmIr verifyModule parsed analysis type_analysis

end

end mf.visitors
