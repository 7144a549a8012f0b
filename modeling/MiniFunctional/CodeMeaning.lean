-- What the generated code of an expression does, by recursion on the
-- expression: a behaviour of the values of its locals, given what calls of
-- functions do.
import MiniFunctional.Behaviours
import MiniFunctional.LlvmIr

open mf.util mf.ast mf.semantics llvm

namespace mf.visitors

/-- A value, and whether the builder has it as a constant. -/
structure Cell where
  value : Val
  constant : Bool

/-- The values of the locals. -/
abbrev Cells := SymbolId → Option Cell

def Cells.insert (cells : Cells) (id : SymbolId) (cell : Cell) : Cells := fun s =>
  if s = id then some cell else cells s

namespace Meaning

open Behaviour

/-! ## Constructed values -/

def packValue (value : Val) : TypeVariant → Behaviour Val
  | .IntType => pure value
  | .DataType _ => ptrtoint value
  | .FunctionType _ _ => undefined

def unpackValue (value : Val) : TypeVariant → Behaviour Val
  | .IntType => pure value
  | .DataType _ => inttoptr value
  | .FunctionType _ _ => undefined

def loadTag (node : Val) : Behaviour Val := do
  let tag_ptr ← structGEP node 0
  load .i64 tag_ptr

def loadField (node : Val) (index : Nat) (type : TypeVariant) : Behaviour Val := do
  let fields_ptr ← structGEP node 2
  let fields ← load .ptr fields_ptr
  let field_ptr ← gep fields (.int (BitVec.ofNat 64 index))
  let packed ← load .i64 field_ptr
  unpackValue packed type

def storeFields (fields : Val) : Nat → List Val → List TypeVariant → Behaviour Unit
  | _, [], _ => pure ()
  | _, _ :: _, [] => undefined
  | index, argument :: arguments, type :: types => do
    let slot ← gep fields (.int (BitVec.ofNat 64 index))
    let packed ← packValue argument type
    let _ ← store packed slot
    storeFields fields (index + 1) arguments types

def allocateFields (arguments : List Val) (types : List TypeVariant) : Behaviour Val :=
  if arguments.isEmpty then pure .null
  else do
    let fields ← malloc
      (.int (BitVec.ofNat 64 arguments.length * BitVec.ofNat 64 kPackedFieldBytes))
    storeFields fields 0 arguments types
    pure fields

/-- A word of a node. -/
def storeWord (node : Val) (field : Nat) (value : Val) : Behaviour Val := do
  let p ← structGEP node field
  store value p

def constructedValue (layout : ConstructorLayout) (arguments : List Val) : Behaviour Val := do
  let node ← malloc (.int (BitVec.ofNat 64 kNodeBytes))
  let _ ← storeWord node 0 (.int (BitVec.ofNat 64 layout.tag))
  let _ ← storeWord node 1 (.int (BitVec.ofNat 64 arguments.length))
  let fields ← allocateFields arguments layout.fields
  let _ ← storeWord node 2 fields
  pure node

/-! ## Expressions -/

/-- A constant operation has been done by the builder. -/
def binaryOperator (op : BinaryOp) (left right : Cell) : Behaviour Cell :=
  if left.constant && right.constant then
    match left.value, right.value with
    | .int a, .int b => pure ⟨(op.apply a b).elim .poison .int, true⟩
    | _, _ => pure ⟨.poison, true⟩
  else do
    let value ← binary op left.value right.value
    pure ⟨value, false⟩

/-- The arguments of a call, each after the one before it. -/
def evaluateArguments : List (Behaviour Cell) → Behaviour (List Val)
  | [] => pure []
  | argument :: arguments => do
    let cell ← argument
    let values ← evaluateArguments arguments
    pure (cell.value :: values)

section

variable (calls : Nat → List Val → Behaviour Val) (scopes : ScopeTree)
  (functions_ : AssocMap SymbolId Nat)
  (constructors_ : AssocMap SymbolId ConstructorLayout)

/-- The layout of the constructor that a pattern names. -/
def patternLayout (id : NodeId) : Option ConstructorLayout :=
  (scopes.getResolvedSymbol id).bind fun constructor => constructors_.find constructor.id

def constructorCall (symbol : Symbol) (arguments : List (Behaviour Cell)) : Behaviour Cell :=
  match constructors_.find symbol.id with
  | none => undefined
  | some layout => do
    let values ← evaluateArguments arguments
    let node ← constructedValue layout values
    pure ⟨node, false⟩

def functionCall (symbol : Symbol) (arguments : List (Behaviour Cell)) : Behaviour Cell :=
  match functions_.find symbol.id with
  | none => undefined
  | some function => do
    let values ← evaluateArguments arguments
    let value ← calls function values
    pure ⟨value, false⟩

/-- A local, or a constructor without arguments. -/
def localOrConstructor (id : NodeId) (cells : Cells) : Behaviour Cell :=
  match scopes.getResolvedSymbol id with
  | none => undefined
  | some symbol =>
    match symbol.kind with
    | .Constructor => constructorCall constructors_ symbol []
    | .Function => undefined
    | _ =>
      match cells symbol.id with
      | none => undefined
      | some cell => pure cell

def call (id : NodeId) (arguments : List (Behaviour Cell)) : Behaviour Cell :=
  match scopes.getResolvedSymbol id with
  | none => undefined
  | some symbol =>
    match symbol.kind with
    | .Function => functionCall calls functions_ symbol arguments
    | .Constructor => constructorCall constructors_ symbol arguments
    | _ => undefined

/-- The pattern's variable gets the scrutinee. -/
def variablePattern (id : NodeId) (name : String) (scrutinee : Cell) (cells : Cells) :
    Option Cells :=
  (getSymbolInNodeScope scopes id name .PatternVariable).map fun symbol =>
    cells.insert symbol.id scrutinee

def patternFields (scope_id : ScopeId) (scrutinee : Val) :
    Nat → List String → List TypeVariant → Cells → Behaviour Cells
  | _, [], _, cells => pure cells
  | _, _ :: _, [], _ => undefined
  | index, argument :: arguments, type :: types, cells =>
    match (scopes.getLocalSymbol scope_id argument).filter (·.kind = .PatternVariable) with
    | none => undefined
    | some binding => do
      let field ← loadField scrutinee index type
      patternFields scope_id scrutinee (index + 1) arguments types
        (cells.insert binding.id ⟨field, false⟩)

/-- The pattern's variables get the fields of the scrutinee. -/
def constructorPattern (id : NodeId) (arguments : List String) (scrutinee : Val)
    (layout : ConstructorLayout) (cells : Cells) : Behaviour Cells :=
  match scopes.getScopeId id with
  | none => undefined
  | some scope_id => patternFields scopes scope_id scrutinee 0 arguments layout.fields cells

mutual

@[simp] def expression : Expression → Cells → Behaviour Cell
  | .IntLiteral _ value, _ => pure ⟨.int (value.toBitVec.signExtend 64), true⟩
  | .Variable id _, cells => localOrConstructor scopes constructors_ id cells
  | .BinaryOperator kind _ left_operand right_operand, cells => do
    let left ← expression left_operand cells
    let right ← expression right_operand cells
    binaryOperator (opcode kind) left right
  | .Application _ function argument, cells =>
    application function [expression argument cells] cells
  | .CaseExpression _ scrutinee branches, cells => do
    let scrutinee ← expression scrutinee cells
    let value ←
      if canUseSwitchCase scopes [] branches then do
        let tag ← loadTag scrutinee.value
        dispatch tag fun n => switchBranches branches n scrutinee.value cells
      else sequentialBranches branches scrutinee cells
    pure ⟨value, false⟩

@[simp] def application : Expression → List (Behaviour Cell) → Cells → Behaviour Cell
  | .Application _ function argument, arguments, cells =>
    application function (expression argument cells :: arguments) cells
  | .Variable id _, arguments, _ => call calls scopes functions_ constructors_ id arguments
  | .IntLiteral _ _, _, _ => undefined
  | .BinaryOperator _ _ _ _, _, _ => undefined
  | .CaseExpression _ _ _, _, _ => undefined

/-- The first branch whose constructor has the tag. -/
@[simp] def switchBranches : List Branch → BitVec 64 → Val → Cells → Behaviour Val
  | [], _, _, _ => trap
  | ⟨_, .VariablePattern _ _, _⟩ :: _, _, _, _ => undefined
  | ⟨_, .ConstructorPattern id _ arguments, body⟩ :: branches, tag, scrutinee, cells =>
    match patternLayout scopes constructors_ id with
    | none => undefined
    | some layout =>
      if tag = BitVec.ofNat 64 layout.tag then do
        let cells ← constructorPattern scopes id arguments scrutinee layout cells
        let cell ← expression body cells
        pure cell.value
      else switchBranches branches tag scrutinee cells

/-- The first branch that matches; each constructor pattern loads the tag. -/
@[simp] def sequentialBranches : List Branch → Cell → Cells → Behaviour Val
  | [], _, _ => trap
  | ⟨_, .VariablePattern id name, body⟩ :: _, scrutinee, cells =>
    match variablePattern scopes id name scrutinee cells with
    | none => undefined
    | some cells => do
      let cell ← expression body cells
      pure cell.value
  | ⟨_, .ConstructorPattern id _ arguments, body⟩ :: branches, scrutinee, cells =>
    match patternLayout scopes constructors_ id with
    | none => undefined
    | some layout => do
      let tag ← loadTag scrutinee.value
      let matched ← icmpEq tag (.int (BitVec.ofNat 64 layout.tag))
      choose matched
        (do
          let cells ← constructorPattern scopes id arguments scrutinee.value layout cells
          let cell ← expression body cells
          pure cell.value)
        (sequentialBranches branches scrutinee cells)

end

/-! ## Functions -/

/-- The parameters get the arguments of the call. -/
def bindParameters (scope_id : ScopeId) (arguments : List Val) :
    Nat → List String → Cells → Cells
  | _, [], cells => cells
  | index, parameter :: parameters, cells =>
    match scopes.getLocalSymbol scope_id parameter with
    | none => bindParameters scope_id arguments (index + 1) parameters cells
    | some symbol =>
      bindParameters scope_id arguments (index + 1) parameters
        (cells.insert symbol.id ⟨(arguments[index]?).getD .poison, false⟩)

def functionBody (fd : FunctionDefinition) (scope_id : ScopeId) (arguments : List Val) :
    Behaviour Val := do
  let cell ← expression calls scopes functions_ constructors_ fd.body
    (bindParameters scopes scope_id arguments 0 fd.parameters fun _ => none)
  pure cell.value

end

/-- `printf` of a number on a line. -/
def print (value : Val) (type : TypeVariant) : Behaviour Val :=
  match type with
  | .IntType => printf value
  | .DataType _ => loadTag value >>= printf
  | .FunctionType _ _ => undefined

end Meaning

end mf.visitors
