-- A part of LLVM IR and the machine that runs it: 64-bit integers and opaque
-- pointers, basic blocks with phi nodes, calls, and a heap that only grows.
-- A step that has no result is undefined behaviour.
import Mathlib.Logic.Relation

namespace llvm

/-! ## Modules -/

inductive Ty
  | i32
  | i64
  | ptr
deriving DecidableEq, Repr

inductive BinaryOp
  | add
  | sub
  | mul
  | sdiv
deriving DecidableEq, Repr

/-- What an instruction names: a constant, an argument of the function, or the
result of another instruction. -/
inductive Operand
  | int (n : BitVec 64)
  | int32 (n : BitVec 32)
  | poison
  | null
  | globalString (text : String)
  | argument (index : Nat)
  | result (id : Nat)
deriving DecidableEq, Repr

inductive Callee
  | defined (function : Nat)
  | malloc
  | printf
  | trap
deriving DecidableEq, Repr

abbrev BlockId := Nat

inductive Instruction
  | binary (op : BinaryOp) (left right : Operand)
  | icmpEq (left right : Operand)
  | structGEP (fields : List Ty) (pointer : Operand) (field : Nat)
  /-- `getelementptr inbounds i64`. -/
  | gep (pointer index : Operand)
  | load (type : Ty) (pointer : Operand)
  | store (value pointer : Operand)
  | ptrtoint (value : Operand)
  | inttoptr (value : Operand)
  | call (callee : Callee) (arguments : List Operand)
  | phi (type : Ty) (incoming : List (Operand × BlockId))
deriving DecidableEq, Repr

inductive Terminator
  | ret (value : Operand)
  | br (target : BlockId)
  | condBr (condition : Operand) (ifTrue ifFalse : BlockId)
  | switch (value : Operand) (default : BlockId) (cases : List (BitVec 64 × BlockId))
  | unreachable
deriving DecidableEq, Repr

/-- Each instruction is with the id of its result. -/
structure BasicBlock where
  instructions : List (Nat × Instruction)
  terminator : Option Terminator
deriving DecidableEq, Repr

def BasicBlock.empty : BasicBlock := ⟨[], none⟩

structure Function where
  name : String
  result : Ty
  parameters : List Ty
  blocks : List BasicBlock
deriving DecidableEq, Repr

structure Module where
  functions : List Function
deriving DecidableEq, Repr

/-! ## Values and memory -/

structure Pointer where
  block : Nat
  offset : Nat
deriving DecidableEq, Repr

/-- `address` is the 64-bit integer that `ptrtoint` makes of a pointer. -/
inductive Val
  | int (n : BitVec 64)
  | int32 (n : BitVec 32)
  | bool (b : Bool)
  | ptr (p : Pointer)
  | address (p : Pointer)
  | null
  | string (text : String)
  | poison
deriving DecidableEq, Repr

/-- The allocated blocks, each a list of cells of eight bytes. -/
abbrev Memory := List (List Val)

namespace Memory

def read (m : Memory) (p : Pointer) : Option Val :=
  if p.offset % 8 = 0 then m[p.block]?.bind (·[p.offset / 8]?) else none

def write (m : Memory) (p : Pointer) (v : Val) : Option Memory :=
  if (m.read p).isSome then some (m.modify p.block (·.set (p.offset / 8) v)) else none

def allocate (m : Memory) (size : Nat) : Pointer × Memory :=
  (⟨m.length, 0⟩, m ++ [List.replicate (size / 8) .poison])

end Memory

def Ty.holds : Ty → Val → Bool
  | .i32, .int32 _ => true
  | .i32, .poison => true
  | .i64, .int _ => true
  | .i64, .address _ => true
  | .i64, .poison => true
  | .ptr, .ptr _ => true
  | .ptr, .null => true
  | .ptr, .poison => true
  | _, _ => false

/-- `none` is undefined behaviour. -/
def BinaryOp.apply : BinaryOp → BitVec 64 → BitVec 64 → Option (BitVec 64)
  | .add, a, b => some (a + b)
  | .sub, a, b => some (a - b)
  | .mul, a, b => some (a * b)
  | .sdiv, a, b =>
    if b = 0 ∨ (a = BitVec.intMin 64 ∧ b = -1) then none else some (a.sdiv b)

def BinaryOp.applyVal (op : BinaryOp) : Val → Val → Option Val
  | .int a, .int b => (op.apply a b).map .int
  | .poison, .int b => if op = .sdiv ∧ b = 0 then none else some .poison
  | .int _, .poison => if op = .sdiv then none else some .poison
  | .poison, .poison => if op = .sdiv then none else some .poison
  | _, _ => none

def icmpEqVal : Val → Val → Option Val
  | .int a, .int b => some (.bool (a = b))
  | .poison, .int _ => some .poison
  | .int _, .poison => some .poison
  | .poison, .poison => some .poison
  | _, _ => none

/-- `getelementptr inbounds`, by a number of bytes. -/
def gepVal (m : Memory) (bytes : Nat) : Val → Option Val
  | .ptr p =>
    if ∃ cells ∈ m[p.block]?, p.offset + bytes ≤ 8 * cells.length then
      some (.ptr ⟨p.block, p.offset + bytes⟩)
    else some .poison
  | .poison => some .poison
  | _ => none

def ptrtointVal : Val → Option Val
  | .ptr p => some (.address p)
  | .null => some (.int 0)
  | .poison => some .poison
  | _ => none

def inttoptrVal : Val → Option Val
  | .address p => some (.ptr p)
  | .int n => if n = 0 then some .null else none
  | .poison => some .poison
  | _ => none

/-! ## The machine -/

abbrev Registers := Nat → Val

def Registers.set (registers : Registers) (id : Nat) (v : Val) : Registers :=
  fun i => if i = id then v else registers i

/-- An activation of a function: the next instruction, the block that control
came from, and the values. -/
structure Frame where
  function : Nat
  block : BlockId
  index : Nat
  previous : BlockId
  registers : Registers
  arguments : List Val

def Frame.eval (frame : Frame) : Operand → Val
  | .int n => .int n
  | .int32 n => .int32 n
  | .poison => .poison
  | .null => .null
  | .globalString text => .string text
  | .argument index => (frame.arguments[index]?).getD .poison
  | .result id => frame.registers id

/-- The instruction `id` has the value `v`. -/
def Frame.next (frame : Frame) (id : Nat) (v : Val) : Frame :=
  { frame with index := frame.index + 1, registers := frame.registers.set id v }

def Frame.jump (frame : Frame) (target : BlockId) : Frame :=
  { frame with block := target, index := 0, previous := frame.block }

def Frame.enter (function : Nat) (arguments : List Val) : Frame :=
  ⟨function, 0, 0, 0, fun _ => .poison, arguments⟩

inductive State
  | running (frame : Frame) (callers : List Frame) (memory : Memory) (output : String)
  | finished (value : Val) (memory : Memory) (output : String)
  | trapped (output : String)

/-- The instructions that neither call nor print. -/
def execute (frame : Frame) (m : Memory) : Instruction → Option (Val × Memory)
  | .binary op left right => (op.applyVal (frame.eval left) (frame.eval right)).map (·, m)
  | .icmpEq left right => (icmpEqVal (frame.eval left) (frame.eval right)).map (·, m)
  | .structGEP _ pointer field => (gepVal m (8 * field) (frame.eval pointer)).map (·, m)
  | .gep pointer index =>
    match frame.eval index with
    | .int n => if n.msb then none else (gepVal m (8 * n.toNat) (frame.eval pointer)).map (·, m)
    | _ => none
  | .load type pointer =>
    match frame.eval pointer with
    | .ptr p => ((m.read p).filter type.holds).map (·, m)
    | _ => none
  | .store value pointer =>
    match frame.eval pointer with
    | .ptr p => (m.write p (frame.eval value)).map (.poison, ·)
    | _ => none
  | .ptrtoint value => (ptrtointVal (frame.eval value)).map (·, m)
  | .inttoptr value => (inttoptrVal (frame.eval value)).map (·, m)
  | .call .malloc [size] =>
    match frame.eval size with
    | .int n =>
      let (p, m) := m.allocate n.toNat
      some (.ptr p, m)
    | _ => none
  | .call _ _ => none
  | .phi _ incoming =>
    (incoming.find? (·.2 = frame.previous)).map fun entry => (frame.eval entry.1, m)

/-- What `printf` prints, for the format of a number on a line. -/
def format (text : String) (v : Val) : Option String :=
  match v with
  | .int n => if text = "%ld\n" then some (toString n.toInt ++ "\n") else none
  | _ => none

def stepInstruction (M : Module) (frame : Frame) (callers : List Frame) (m : Memory)
    (output : String) (id : Nat) : Instruction → Option State
  | .call (.defined function) arguments =>
    (M.functions[function]?).bind fun callee =>
      if callee.parameters.length = arguments.length then
        some (.running (.enter function (arguments.map frame.eval)) (frame :: callers) m output)
      else none
  | .call .printf [text, value] =>
    match frame.eval text with
    | .string s => (format s (frame.eval value)).map fun line =>
      .running (frame.next id (.int32 (BitVec.ofNat 32 line.length))) callers m (output ++ line)
    | _ => none
  | .call .trap [] => some (.trapped output)
  | instruction => (execute frame m instruction).map fun result =>
    .running (frame.next id result.1) callers result.2 output

/-- The value of the instruction at which the caller waits. -/
def returnTo (M : Module) (callers : List Frame) (v : Val) (m : Memory) (output : String) :
    Option State :=
  match callers with
  | [] => some (.finished v m output)
  | caller :: callers => do
    let function ← M.functions[caller.function]?
    let block ← function.blocks[caller.block]?
    let (id, _) ← block.instructions[caller.index]?
    return .running (caller.next id v) callers m output

def stepTerminator (M : Module) (frame : Frame) (callers : List Frame) (m : Memory)
    (output : String) : Terminator → Option State
  | .ret value => returnTo M callers (frame.eval value) m output
  | .br target => some (.running (frame.jump target) callers m output)
  | .condBr condition ifTrue ifFalse =>
    match frame.eval condition with
    | .bool b => some (.running (frame.jump (if b then ifTrue else ifFalse)) callers m output)
    | _ => none
  | .switch value default cases =>
    match frame.eval value with
    | .int n =>
      let target := ((cases.find? (·.1 = n)).map (·.2)).getD default
      some (.running (frame.jump target) callers m output)
    | _ => none
  | .unreachable => none

def step (M : Module) : State → Option State
  | .running frame callers m output => do
    let function ← M.functions[frame.function]?
    let block ← function.blocks[frame.block]?
    match block.instructions[frame.index]? with
    | some (id, instruction) => stepInstruction M frame callers m output id instruction
    | none => block.terminator.bind (stepTerminator M frame callers m output)
  | .finished _ _ _ => none
  | .trapped _ => none

/-- Any number of steps. -/
def Steps (M : Module) : State → State → Prop :=
  Relation.ReflTransGen fun s s' => step M s = some s'

/-- The call of the function runs to its end. -/
def Runs (M : Module) (function : Nat) (arguments : List Val) (m : Memory) (v : Val)
    (m' : Memory) (output : String) : Prop :=
  Steps M (.running (.enter function arguments) [] m "") (.finished v m' output)

end llvm
