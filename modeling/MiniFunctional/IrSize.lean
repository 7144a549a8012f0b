-- The size of a module: its functions, parameters, blocks, instructions and
-- terminators, and the entries of those that hold a list.
import MiniFunctional.IrBuilder

namespace llvm

/-- The sizes of the elements, added up. -/
def total {α : Type} (size : α → Nat) : List α → Nat
  | [] => 0
  | a :: l => size a + total size l

theorem total_cons {α : Type} (size : α → Nat) (a : α) (l : List α) :
    total size (a :: l) = size a + total size l := rfl

theorem total_append {α : Type} (size : α → Nat) (l l' : List α) :
    total size (l ++ l') = total size l + total size l' := by
  induction l with
  | nil => simp [total]
  | cons a l ih =>
    rw [List.cons_append, total_cons, total_cons, ih]
    omega

/-- One element is changed, and gets no more than `n` larger. -/
theorem total_modify {α : Type} {size : α → Nat} {f : α → α} {n : Nat}
    (hf : ∀ a, size (f a) ≤ size a + n) (l : List α) (i : Nat) :
    total size (l.modify i f) ≤ total size l + n := by
  induction l generalizing i with
  | nil => simp [total]
  | cons a l ih =>
    cases i with
    | zero =>
      have := hf a
      rw [List.modify_zero_cons, total_cons, total_cons]
      omega
    | succ i =>
      have := ih i
      rw [List.modify_succ_cons, total_cons, total_cons]
      omega

def Instruction.size : Instruction → Nat
  | .call _ arguments => arguments.length + 1
  | .phi _ incoming => incoming.length + 1
  | _ => 1

def Terminator.size : Terminator → Nat
  | .switch _ _ cases => cases.length + 1
  | _ => 1

def BasicBlock.size (block : BasicBlock) : Nat :=
  total (fun entry => entry.2.size) block.instructions + block.terminator.elim 0 Terminator.size + 1

def Function.size (F : Function) : Nat :=
  F.parameters.length + total BasicBlock.size F.blocks + 1

def Module.size (M : Module) : Nat := total Function.size M.functions

/-! ## The builder -/

/-- The size of the blocks that are built. -/
def Builder.size (b : Builder) : Nat := total BasicBlock.size b.blocks

theorem BasicBlock.size_push (id : Nat) (i : Instruction) (block : BasicBlock) :
    (block.push id i).size = block.size + i.size := by
  unfold BasicBlock.size BasicBlock.push
  rw [total_append]
  simp only [total]
  omega

theorem BasicBlock.size_close (t : Terminator) (block : BasicBlock) :
    (block.close t).size ≤ block.size + t.size := by
  unfold BasicBlock.size BasicBlock.close
  cases block.terminator with
  | none =>
    simp only [Option.none_or, Option.elim]
    omega
  | some t' =>
    simp only [Option.some_or, Option.elim]
    omega

theorem Terminator.size_addCase (value : BitVec 64) (target : BlockId) (t : Terminator) :
    (t.addCase value target).size ≤ t.size + 1 := by
  cases t with
  | switch v default cases => simp [Terminator.addCase, Terminator.size]
  | _ => exact Nat.le_succ _

theorem BasicBlock.size_addCase (value : BitVec 64) (target : BlockId) (block : BasicBlock) :
    (block.addCase value target).size ≤ block.size + 1 := by
  unfold BasicBlock.size BasicBlock.addCase
  cases block.terminator with
  | none =>
    simp only [Option.map_none, Option.elim]
    omega
  | some t =>
    have := t.size_addCase value target
    simp only [Option.map_some, Option.elim]
    omega

theorem Builder.size_entry : Builder.entry.size = 1 := rfl

theorem Builder.size_createBlock (b : Builder) : b.createBlock.2.size = b.size + 1 := by
  unfold Builder.size Builder.createBlock
  exact total_append _ _ _

theorem Builder.size_insert (i : Instruction) (b : Builder) :
    (b.insert i).2.size ≤ b.size + i.size :=
  total_modify (fun block => Nat.le_of_eq (block.size_push b.next i)) _ _

theorem Builder.size_terminate (t : Terminator) (b : Builder) :
    (b.terminate t).size ≤ b.size + t.size :=
  total_modify (fun block => block.size_close t) _ _

theorem Builder.size_caseAdded (block : BlockId) (value : BitVec 64) (target : BlockId)
    (b : Builder) : (b.addCase block value target).size ≤ b.size + 1 :=
  total_modify (fun block => block.size_addCase value target) _ _

theorem Builder.size_createBinary (op : BinaryOp) (left right : Operand) (b : Builder) :
    (b.createBinary op left right).2.size ≤ b.size + 1 := by
  unfold Builder.createBinary
  cases foldBinary op left right with
  | some value => exact Nat.le_succ _
  | none => exact b.size_insert _

end llvm
