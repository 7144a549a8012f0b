-- `IRBuilder<>`: code goes to the end of the insertion block. A value that
-- `ConstantFolder` can compute is a constant and no instruction.
import MiniFunctional.LlvmRuns

namespace llvm

/-! ## Blocks -/

def BasicBlock.push (id : Nat) (i : Instruction) (block : BasicBlock) : BasicBlock :=
  { block with instructions := block.instructions ++ [(id, i)] }

/-- A block keeps the terminator it has. -/
def BasicBlock.close (t : Terminator) (block : BasicBlock) : BasicBlock :=
  { block with terminator := block.terminator.or (some t) }

def Terminator.addCase (value : BitVec 64) (target : BlockId) : Terminator → Terminator
  | .switch v default cases => .switch v default (cases ++ [(value, target)])
  | t => t

def BasicBlock.addCase (value : BitVec 64) (target : BlockId) (block : BasicBlock) : BasicBlock :=
  { block with terminator := block.terminator.map (.addCase value target) }

/-- An open block may get more instructions and a terminator; one that has its
terminator stays as it is. -/
def BasicBlock.Le (block block' : BasicBlock) : Prop :=
  block.instructions <+: block'.instructions ∧ (block.terminator ≠ none → block' = block)

theorem BasicBlock.Le.refl (block : BasicBlock) : block.Le block :=
  ⟨List.prefix_refl _, fun _ => rfl⟩

theorem BasicBlock.Le.trans {a b c : BasicBlock} (h : a.Le b) (h' : b.Le c) : a.Le c := by
  refine ⟨h.1.trans h'.1, fun hclosed => ?_⟩
  have hb := h.2 hclosed
  subst hb
  exact h'.2 hclosed

theorem BasicBlock.le_push {block : BasicBlock} (h : block.terminator = none) (id : Nat)
    (i : Instruction) : block.Le (block.push id i) :=
  ⟨List.prefix_append _ _, fun hclosed => absurd h hclosed⟩

/-! ## The builder -/

/-- The blocks are those of the function that is being built. -/
structure Builder where
  blocks : List BasicBlock
  insertBlock : BlockId
  /-- The id of the next instruction. -/
  next : Nat
  /-- Something was put after a terminator. -/
  malformed : Bool

namespace Builder

/-- A function with the block `entry`. -/
def entry : Builder := ⟨[.empty], 0, 0, false⟩

/-- `GetInsertBlock()->getTerminator() != nullptr`. -/
def terminated (b : Builder) : Bool := (b.blocks[b.insertBlock]?.bind (·.terminator)).isSome

def createBlock (b : Builder) : BlockId × Builder :=
  (b.blocks.length, { b with blocks := b.blocks ++ [.empty] })

def setInsertPoint (block : BlockId) (b : Builder) : Builder := { b with insertBlock := block }

def insert (i : Instruction) (b : Builder) : Operand × Builder :=
  (.result b.next, { b with
    blocks := b.blocks.modify b.insertBlock (.push b.next i)
    next := b.next + 1
    malformed := b.malformed || b.terminated })

def terminate (t : Terminator) (b : Builder) : Builder :=
  { b with
    blocks := b.blocks.modify b.insertBlock (.close t)
    malformed := b.malformed || b.terminated }

def addCase (block : BlockId) (value : BitVec 64) (target : BlockId) (b : Builder) : Builder :=
  { b with blocks := b.blocks.modify block (.addCase value target) }

end Builder

/-- `ConstantFoldBinaryInstruction`: undefined behaviour folds to `poison`. -/
def foldBinary (op : BinaryOp) : Operand → Operand → Option Operand
  | .int a, .int b => some ((op.apply a b).elim .poison .int)
  | .int _, .poison => some .poison
  | .poison, .int _ => some .poison
  | .poison, .poison => some .poison
  | _, _ => none

/-- `ConstantFolder` knows the value. -/
def Operand.isConstant : Operand → Bool
  | .int _ => true
  | .poison => true
  | _ => false

theorem foldBinary_eq_none {op : BinaryOp} {left right : Operand}
    (h : (left.isConstant && right.isConstant) = false) : foldBinary op left right = none := by
  cases left with
  | int a =>
    cases right with
    | int b => cases h
    | poison => cases h
    | _ => rfl
  | poison =>
    cases right with
    | int b => cases h
    | poison => cases h
    | _ => rfl
  | _ => rfl

def Builder.createBinary (op : BinaryOp) (left right : Operand) (b : Builder) :
    Operand × Builder :=
  match foldBinary op left right with
  | some value => (value, b)
  | none => b.insert (.binary op left right)

/-! ## What emission changes -/

/-- The insertion block takes code. -/
def Builder.Open (b : Builder) : Prop :=
  ∃ block, b.blocks[b.insertBlock]? = some block ∧ block.terminator = none

theorem Builder.Open.lt {b : Builder} (h : b.Open) : b.insertBlock < b.blocks.length := by
  obtain ⟨block, hb, _⟩ := h
  exact (List.getElem?_eq_some_iff.mp hb).1

theorem Builder.Open.not_terminated {b : Builder} (h : b.Open) : b.terminated = false := by
  obtain ⟨block, hb, hopen⟩ := h
  simp [Builder.terminated, hb, hopen]

/-- From `b` to `b'`, code was put at the end of the insertion block and in new
blocks; the other blocks are as they were. -/
structure Changes (b b' : Builder) : Prop where
  grows : b.blocks.length ≤ b'.blocks.length
  kept : ∀ id, id < b.blocks.length → id ≠ b.insertBlock → b'.blocks[id]? = b.blocks[id]?
  extended : ∀ block, b.blocks[b.insertBlock]? = some block →
    ∃ block', b'.blocks[b.insertBlock]? = some block' ∧ block.Le block'
  next : b.next ≤ b'.next
  malformed : b'.malformed = b.malformed

/-- Code was emitted, and the insertion block takes more. -/
structure Emits (b b' : Builder) : Prop extends Changes b b' where
  insertBlock : b'.insertBlock = b.insertBlock ∨ b.blocks.length ≤ b'.insertBlock
  opened : b'.Open

theorem Changes.refl (b : Builder) : Changes b b :=
  ⟨Nat.le_refl _, fun _ _ _ => rfl, fun block h => ⟨block, h, .refl block⟩, Nat.le_refl _, rfl⟩

theorem Emits.refl {b : Builder} (h : b.Open) : Emits b b := ⟨Changes.refl b, .inl rfl, h⟩

/-- Emission goes on in the insertion block or in a new block. -/
theorem Changes.trans {b b1 b2 : Builder} (h : Changes b b1)
    (hb : b1.insertBlock = b.insertBlock ∨ b.blocks.length ≤ b1.insertBlock)
    (h' : Changes b1 b2) : Changes b b2 := by
  refine ⟨Nat.le_trans h.grows h'.grows, fun id hid hne => ?_, fun block hblock => ?_,
    Nat.le_trans h.next h'.next, h'.malformed.trans h.malformed⟩
  · have hlt := Nat.lt_of_lt_of_le hid h.grows
    have hne' : id ≠ b1.insertBlock := by
      rcases hb with heq | hge
      · rw [heq]
        exact hne
      · omega
    rw [h'.kept id hlt hne', h.kept id hid hne]
  · obtain ⟨block1, hblock1, hle1⟩ := h.extended block hblock
    rcases hb with heq | hge
    · obtain ⟨block2, hblock2, hle2⟩ := h'.extended block1 (heq ▸ hblock1)
      exact ⟨block2, heq ▸ hblock2, hle1.trans hle2⟩
    · have hlt := (List.getElem?_eq_some_iff.mp hblock).1
      refine ⟨block1, ?_, hle1⟩
      rw [h'.kept _ (Nat.lt_of_lt_of_le hlt h.grows) (by omega)]
      exact hblock1

theorem Emits.changes {b b1 b2 : Builder} (h : Emits b b1) (h' : Changes b1 b2) :
    Changes b b2 :=
  h.toChanges.trans h.insertBlock h'

theorem Emits.trans {b b1 b2 : Builder} (h : Emits b b1) (h' : Emits b1 b2) : Emits b b2 := by
  refine ⟨h.changes h'.toChanges, ?_, h'.opened⟩
  have hgrows := h.grows
  rcases h'.insertBlock with heq | hge
  · rw [heq]
    exact h.insertBlock
  · exact .inr (Nat.le_trans hgrows hge)

/-- The blocks of which `P` holds only get more code. -/
def Grows (P : BlockId → Prop) (b b' : Builder) : Prop :=
  ∀ id, P id → ∀ block, b.blocks[id]? = some block →
    ∃ block', b'.blocks[id]? = some block' ∧ block.Le block'

theorem Grows.refl (P : BlockId → Prop) (b : Builder) : Grows P b b :=
  fun _ _ block h => ⟨block, h, .refl block⟩

theorem Grows.trans {P : BlockId → Prop} {b b1 b2 : Builder} (h : Grows P b b1)
    (h' : Grows P b1 b2) : Grows P b b2 := by
  intro id hP block hblock
  obtain ⟨block1, hblock1, hle1⟩ := h id hP block hblock
  obtain ⟨block2, hblock2, hle2⟩ := h' id hP block1 hblock1
  exact ⟨block2, hblock2, hle1.trans hle2⟩

theorem Changes.grows_blocks {b b' : Builder} (h : Changes b b') (P : BlockId → Prop) :
    Grows P b b' := by
  intro id _ block hblock
  have hlt := (List.getElem?_eq_some_iff.mp hblock).1
  by_cases heq : id = b.insertBlock
  · subst heq
    exact h.extended block hblock
  · exact ⟨block, by rw [h.kept id hlt heq]; exact hblock, .refl block⟩

/-! ## The code is in the finished function -/

/-- The blocks that emission from `b` works on. -/
def Builder.Works (b : Builder) (id : BlockId) : Prop := id = b.insertBlock ∨ b.blocks.length ≤ id

/-- The blocks of `b'` that the emission from `b` worked on are blocks of the
function, with what was put in them later. -/
def Within (b b' : Builder) (blocks : List BasicBlock) : Prop :=
  ∀ id, b.Works id → ∀ block, b'.blocks[id]? = some block →
    ∃ final, blocks[id]? = some final ∧ block.Le final

/-- A part of the emission. -/
theorem Within.part {b b' b1 b2 : Builder} {blocks : List BasicBlock} {P : BlockId → Prop}
    (hw : Within b b' blocks) (hgrows : Grows P b2 b')
    (hworks : ∀ id, b1.Works id → b.Works id ∧ P id) : Within b1 b2 blocks := by
  intro id hid block hblock
  obtain ⟨hwork, hP⟩ := hworks id hid
  obtain ⟨block', hblock', hle⟩ := hgrows id hP block hblock
  obtain ⟨final, hfinal, hle'⟩ := hw id hwork block' hblock'
  exact ⟨final, hfinal, hle.trans hle'⟩

theorem Emits.works {b b1 : Builder} (h : Emits b b1) {id : BlockId} (hid : b1.Works id) :
    b.Works id := by
  rcases hid with rfl | hge
  · exact h.insertBlock
  · exact .inr (Nat.le_trans h.grows hge)

theorem Within.right {b b1 b2 : Builder} {blocks : List BasicBlock} (h : Emits b b1)
    (hw : Within b b2 blocks) : Within b1 b2 blocks :=
  hw.part (Grows.refl (fun _ => True) b2) fun _ hid => ⟨h.works hid, trivial⟩

theorem Within.left {b b1 b2 : Builder} {blocks : List BasicBlock} (h' : Changes b1 b2)
    (hw : Within b b2 blocks) : Within b b1 blocks :=
  hw.part (h'.grows_blocks fun _ => True) fun _ hid => ⟨hid, trivial⟩

/-! ## The instructions of the builder -/

theorem emits_insert {b : Builder} (h : b.Open) (i : Instruction) : Emits b (b.insert i).2 := by
  obtain ⟨block, hb, hopen⟩ := h
  have hnew : (b.insert i).2.blocks[b.insertBlock]? = some (block.push b.next i) := by
    simp [Builder.insert, hb]
  have hterm := Builder.Open.not_terminated ⟨block, hb, hopen⟩
  refine ⟨⟨by simp [Builder.insert], fun id _ hne => ?_, fun block' hb' => ?_,
    by simp [Builder.insert], by simp [Builder.insert, hterm]⟩, .inl rfl, ?_⟩
  · have hne' : ¬ b.insertBlock = id := fun h => hne h.symm
    simp [Builder.insert, hne']
  · rw [hb] at hb'
    cases hb'
    exact ⟨_, hnew, BasicBlock.le_push hopen _ _⟩
  · exact ⟨_, hnew, hopen⟩

theorem changes_terminate {b : Builder} (h : b.Open) (t : Terminator) :
    Changes b (b.terminate t) ∧ ∃ block, b.blocks[b.insertBlock]? = some block ∧
      (b.terminate t).blocks[b.insertBlock]? = some ⟨block.instructions, some t⟩ := by
  obtain ⟨block, hb, hopen⟩ := h
  have hterm := Builder.Open.not_terminated ⟨block, hb, hopen⟩
  have hnew : (b.terminate t).blocks[b.insertBlock]? = some ⟨block.instructions, some t⟩ := by
    simp [Builder.terminate, hb, BasicBlock.close, hopen]
  refine ⟨⟨by simp [Builder.terminate], fun id _ hne => ?_, fun block' hb' => ?_,
    by simp [Builder.terminate], by simp [Builder.terminate, hterm]⟩, block, hb, hnew⟩
  · have hne' : ¬ b.insertBlock = id := fun h => hne h.symm
    simp [Builder.terminate, hne']
  · rw [hb] at hb'
    cases hb'
    refine ⟨_, hnew, List.prefix_refl _, fun hclosed => absurd hopen hclosed⟩

theorem emits_createBlock (b : Builder) (h : b.Open) : Emits b b.createBlock.2 := by
  have hlt := h.lt
  have hsame : ∀ id, id < b.blocks.length → b.createBlock.2.blocks[id]? = b.blocks[id]? :=
    fun id hid => List.getElem?_append_left hid
  refine ⟨⟨by simp [Builder.createBlock], fun id hid _ => hsame id hid, fun block hb => ?_,
    Nat.le_refl _, rfl⟩, .inl rfl, ?_⟩
  · exact ⟨block, by rw [hsame _ hlt]; exact hb, .refl block⟩
  · obtain ⟨block, hb, hopen⟩ := h
    exact ⟨block, (hsame _ hlt).trans hb, hopen⟩

/-- Code that is emitted after two blocks were made leaves them empty. -/
theorem Emits.twoBlocks {b b1 : Builder} (hopen : b.Open)
    (h : Emits b.createBlock.2.createBlock.2 b1) :
    (b1.blocks[b.createBlock.1]? = some .empty ∧
      b1.blocks[b.createBlock.2.createBlock.1]? = some .empty) ∧
    (b.createBlock.1 ≠ b1.insertBlock ∧ b.createBlock.2.createBlock.1 ≠ b1.insertBlock) ∧
    (b.blocks.length ≤ b.createBlock.1 ∧ b.blocks.length ≤ b.createBlock.2.createBlock.1 ∧
      b.createBlock.2.createBlock.1 ≠ b.createBlock.1) := by
  have hlt := hopen.lt
  have hinsert := h.insertBlock
  simp only [Builder.createBlock, List.length_append, List.length_singleton] at hinsert ⊢
  refine ⟨⟨?_, ?_⟩, ⟨?_, ?_⟩, Nat.le_refl _, Nat.le_succ _, Nat.succ_ne_self _⟩
  · rw [h.kept _ (by simp [Builder.createBlock]) (Nat.ne_of_gt hlt)]
    simp [Builder.createBlock]
  · rw [h.kept _ (by simp [Builder.createBlock]) (Nat.ne_of_gt (Nat.lt_succ_of_lt hlt))]
    simp [Builder.createBlock]
  · rcases hinsert with heq | hge
    · rw [heq]
      exact Nat.ne_of_gt hlt
    · exact Nat.ne_of_lt (Nat.le_of_succ_le hge)
  · rcases hinsert with heq | hge
    · rw [heq]
      exact Nat.ne_of_gt (Nat.lt_succ_of_lt hlt)
    · exact Nat.ne_of_lt hge

end llvm
