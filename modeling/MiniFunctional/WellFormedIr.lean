-- Well formed modules: definitions dominate their uses, a phi has one entry for
-- each predecessor of its block, operands have the types that are needed. What
-- is known at the beginning of each block certifies the dominance.
import MiniFunctional.IrBuilder
import Mathlib.Data.List.Nodup

namespace llvm

/-! ## Control flow -/

/-- Where control goes; a block may be named twice. -/
def Terminator.targets : Terminator → List BlockId
  | .ret _ => []
  | .br target => [target]
  | .condBr _ ifTrue ifFalse => [ifTrue, ifFalse]
  | .switch _ default cases => default :: cases.map (·.2)
  | .unreachable => []

def BasicBlock.targets (block : BasicBlock) : List BlockId :=
  (block.terminator.map Terminator.targets).getD []

def targetsOf (blocks : List BasicBlock) (p : BlockId) : List BlockId :=
  (blocks[p]?.map BasicBlock.targets).getD []

/-- A way from the entry to the block that does not go through `d`. -/
inductive Avoids (blocks : List BasicBlock) (d : BlockId) : BlockId → Prop
  | entry : 0 ≠ d → Avoids blocks d 0
  | edge {p c : BlockId} : Avoids blocks d p → c ∈ targetsOf blocks p → c ≠ d → Avoids blocks d c

/-- Every way from the entry to the block `b` goes through `d`. -/
def Dominates (blocks : List BasicBlock) (d b : BlockId) : Prop := ¬ Avoids blocks d b

theorem Avoids.ne {blocks : List BasicBlock} {d b : BlockId} (h : Avoids blocks d b) : b ≠ d := by
  cases h with
  | entry hne => exact hne
  | edge _ _ hne => exact hne

/-! ## Types -/

/-- `i1`, or a type of the module. -/
inductive ValueTy
  | i1
  | of (type : Ty)
deriving DecidableEq, Repr

/-- `none` is `void`. -/
def Instruction.resultTy (M : Module) : Instruction → Option ValueTy
  | .binary _ _ _ => some (.of .i64)
  | .icmpEq _ _ => some .i1
  | .structGEP _ _ _ => some (.of .ptr)
  | .gep _ _ => some (.of .ptr)
  | .load type _ => some (.of type)
  | .store _ _ => none
  | .ptrtoint _ => some (.of .i64)
  | .inttoptr _ => some (.of .ptr)
  | .call (.defined function) _ => (M.functions[function]?).map fun callee => .of callee.result
  | .call .malloc _ => some (.of .ptr)
  | .call .printf _ => some (.of .i32)
  | .call .trap _ => none
  | .phi type _ => some (.of type)

/-- The instruction `k` of the block `p` is `i`, with the register `id`. -/
def At (blocks : List BasicBlock) (id : Nat) (p : BlockId) (k : Nat) (i : Instruction) : Prop :=
  ∃ block, blocks[p]? = some block ∧ block.instructions[k]? = some (id, i)

/-- The operand has the type; it is no register but one of `K`. -/
def Operand.Is (M : Module) (parameters : List Ty) (blocks : List BasicBlock) (K : Nat → Prop) :
    Operand → ValueTy → Prop
  | .int _, T => T = .of .i64
  | .int32 _, T => T = .of .i32
  | .poison, T => T = .of .i64
  | .null, T => T = .of .ptr
  | .globalString _, T => T = .of .ptr
  | .argument index, T => (parameters[index]?).map .of = some T
  | .result id, T => K id ∧ ∃ p k i, At blocks id p k i ∧ i.resultTy M = some T

section

variable (M : Module) (U : Operand → ValueTy → Prop)

/-- The operands have the types that the instruction requires, or the function
that it calls. -/
def Instruction.Typed : Instruction → Prop
  | .binary _ left right => U left (.of .i64) ∧ U right (.of .i64)
  | .icmpEq left right => U left (.of .i64) ∧ U right (.of .i64)
  | .structGEP fields pointer field => U pointer (.of .ptr) ∧ field < fields.length
  | .gep pointer index => U pointer (.of .ptr) ∧ U index (.of .i64)
  | .load _ pointer => U pointer (.of .ptr)
  | .store value pointer => (∃ type, U value (.of type)) ∧ U pointer (.of .ptr)
  | .ptrtoint value => U value (.of .ptr)
  | .inttoptr value => U value (.of .i64)
  | .call (.defined function) arguments => ∃ callee, M.functions[function]? = some callee ∧
    List.Forall₂ (fun a type => U a (.of type)) arguments callee.parameters
  | .call .malloc arguments => ∃ size, arguments = [size] ∧ U size (.of .i64)
  | .call .printf arguments => ∃ text values, arguments = text :: values ∧ U text (.of .ptr) ∧
    ∀ v ∈ values, ∃ type, U v (.of type)
  | .call .trap arguments => arguments = []
  | .phi _ _ => True

def Terminator.Typed (result : Ty) : Terminator → Prop
  | .ret value => U value (.of result)
  | .br _ => True
  | .condBr condition _ _ => U condition .i1
  | .switch value _ cases => U value (.of .i64) ∧ (cases.map (·.1)).Nodup
  | .unreachable => True

end

/-! ## Well formed functions -/

section

variable (M : Module) (parameters : List Ty) (result : Ty) (blocks : List BasicBlock)

/-- A phi of the block `p`, where `E q` are the registers that may be used at the end
of the block `q`: it is the first instruction, and has one entry for each edge
to the block, no two from one block. -/
structure PhiChecked (E : BlockId → Nat → Prop) (p : BlockId) (k : Nat) (type : Ty)
    (incoming : List (Operand × BlockId)) : Prop where
  first : k = 0
  nonempty : incoming ≠ []
  nodup : (incoming.map (·.2)).Nodup
  predecessors : ∀ q, (incoming.map (·.2)).count q = (targetsOf blocks q).count p
  values : ∀ op q, (op, q) ∈ incoming → op.Is M parameters blocks (E q) (.of type)

/-- The code, where `K p k` are the registers that may be used in the block `p` before
the instruction `k`. -/
structure CodeChecked (K : BlockId → Nat → Nat → Prop) : Prop where
  unique : ∀ id p k i p' k' i', At blocks id p k i → At blocks id p' k' i' → p = p' ∧ k = k'
  targets : ∀ p, ∀ c ∈ targetsOf blocks p, 0 < c ∧ c < blocks.length
  instructions : ∀ id p k i, At blocks id p k i →
    i.Typed M (Operand.Is M parameters blocks (K p k))
  phis : ∀ id p k type incoming, At blocks id p k (.phi type incoming) →
    PhiChecked M parameters blocks
      (fun q id => ∃ block, blocks[q]? = some block ∧ K q block.instructions.length id) p k type
      incoming
  terminators : ∀ (p : BlockId) (block : BasicBlock) (t : Terminator), blocks[p]? = some block →
    block.terminator = some t →
    t.Typed (Operand.Is M parameters blocks (K p block.instructions.length)) result

end

/-- The definition of the register dominates the place before the instruction `k`
of the block `p`. -/
def DominatedAt (blocks : List BasicBlock) (p : BlockId) (k id : Nat) : Prop :=
  ∃ p' k' i, At blocks id p' k' i ∧ ((p' = p ∧ k' < k) ∨ (p' ≠ p ∧ Dominates blocks p' p))

/-- Every block ends in a terminator, nothing jumps to the entry, and registers are
used where their definitions dominate. -/
structure Function.WellFormed (M : Module) (F : Function) : Prop where
  entry : F.blocks ≠ []
  closed : ∀ block ∈ F.blocks, block.terminator ≠ none
  code : CodeChecked M F.parameters F.result F.blocks (DominatedAt F.blocks)

def Module.WellFormed (M : Module) : Prop := ∀ F ∈ M.functions, F.WellFormed M

/-- Each function has a name of its own, which is none of the declarations and not
one that is reserved for intrinsics. -/
structure Module.NamedApart (M : Module) (declarations : List String) : Prop where
  distinct : (M.functions.map (·.name)).Nodup
  declared : ∀ F ∈ M.functions, F.name ∉ declarations
  intrinsic : ∀ F ∈ M.functions, ¬ "llvm.".toList <+: F.name.toList

/-! ## Certificates -/

/-- The registers that are known at the beginning of each block. -/
abbrev Known := BlockId → Nat → Prop

/-- Known before the instruction `k` of the block. -/
def Before (blocks : List BasicBlock) (known : Known) (p : BlockId) (k id : Nat) : Prop :=
  known p id ∨ ∃ k' i, k' < k ∧ At blocks id p k' i

/-- Known at the end of the block. -/
def KnownIn (blocks : List BasicBlock) (known : Known) (p : BlockId) (id : Nat) : Prop :=
  known p id ∨ ∃ k i, At blocks id p k i

/-- The code of the builder is checked with what is known, which is known at the
end of every block from which control comes. -/
structure Certified (M : Module) (parameters : List Ty) (result : Ty) (b : Builder)
    (known : Known) : Prop where
  code : CodeChecked M parameters result b.blocks (Before b.blocks known)
  ids : ∀ id p k i, At b.blocks id p k i → id < b.next
  start : ∀ id, ¬ known 0 id
  fresh : ∀ p id, known p id → id < b.next
  apart : ∀ p id k i, known p id → ¬ At b.blocks id p k i
  flows : ∀ p c id, c ∈ targetsOf b.blocks p → known c id → KnownIn b.blocks known p id
  distinct : ∀ p, (targetsOf b.blocks p).Nodup

variable {M : Module} {parameters : List Ty} {result : Ty} {b : Builder} {known : Known}
  {blocks blocks' : List BasicBlock} {K K' : Nat → Prop}

/-- More code, and more that is known. -/
theorem Operand.Is.mono {op : Operand} {T : ValueTy} (h : op.Is M parameters blocks K T)
    (hcode : ∀ id p k i, At blocks id p k i → At blocks' id p k i)
    (hK : ∀ id p k i, At blocks id p k i → K id → K' id) : op.Is M parameters blocks' K' T := by
  cases op with
  | result id =>
    obtain ⟨hid, p, k, i, hat, hT⟩ := h
    exact ⟨hK id p k i hat hid, p, k, i, hcode id p k i hat, hT⟩
  | _ => exact h

theorem Instruction.Typed.mono {i : Instruction} {U U' : Operand → ValueTy → Prop}
    (h : i.Typed M U) (hU : ∀ op T, U op T → U' op T) : i.Typed M U' := by
  cases i with
  | binary op left right => exact ⟨hU _ _ h.1, hU _ _ h.2⟩
  | icmpEq left right => exact ⟨hU _ _ h.1, hU _ _ h.2⟩
  | structGEP fields pointer field => exact ⟨hU _ _ h.1, h.2⟩
  | gep pointer index => exact ⟨hU _ _ h.1, hU _ _ h.2⟩
  | load type pointer => exact hU _ _ h
  | store value pointer =>
    obtain ⟨⟨type, hvalue⟩, hpointer⟩ := h
    exact ⟨⟨type, hU _ _ hvalue⟩, hU _ _ hpointer⟩
  | ptrtoint value => exact hU _ _ h
  | inttoptr value => exact hU _ _ h
  | phi type incoming => trivial
  | call callee arguments =>
    cases callee with
    | defined function =>
      obtain ⟨F, hF, harguments⟩ := h
      exact ⟨F, hF, harguments.imp fun _ _ => hU _ _⟩
    | malloc =>
      obtain ⟨size, harguments, hsize⟩ := h
      exact ⟨size, harguments, hU _ _ hsize⟩
    | printf =>
      obtain ⟨text, values, harguments, htext, hvalues⟩ := h
      refine ⟨text, values, harguments, hU _ _ htext, fun v hv => ?_⟩
      obtain ⟨type, htype⟩ := hvalues v hv
      exact ⟨type, hU _ _ htype⟩
    | trap => exact h

theorem Terminator.Typed.mono {t : Terminator} {U U' : Operand → ValueTy → Prop}
    (h : t.Typed U result) (hU : ∀ op T, U op T → U' op T) : t.Typed U' result := by
  cases t with
  | ret value => exact hU _ _ h
  | br target => trivial
  | condBr condition ifTrue ifFalse => exact hU _ _ h
  | switch value default cases => exact ⟨hU _ _ h.1, h.2⟩
  | unreachable => trivial

theorem PhiChecked.mono {E E' : BlockId → Nat → Prop} {p : BlockId} {k : Nat} {type : Ty}
    {incoming : List (Operand × BlockId)}
    (h : PhiChecked M parameters blocks E p k type incoming)
    (htargets : ∀ q, (targetsOf blocks' q).count p = (targetsOf blocks q).count p)
    (hcode : ∀ id p k i, At blocks id p k i → At blocks' id p k i)
    (hE : ∀ q id, E q id → E' q id) : PhiChecked M parameters blocks' E' p k type incoming := by
  refine ⟨h.first, h.nonempty, h.nodup, fun q => ?_, fun op q hedge => ?_⟩
  · rw [htargets, h.predecessors]
  · exact (h.values op q hedge).mono hcode fun id _ _ _ _ => hE q id

/-- What is known in a block and defined elsewhere is defined in a block that
dominates it. -/
theorem Certified.dominates (h : Certified M parameters result b known) {id d k : Nat}
    {i : Instruction} (hat : At b.blocks id d k i) {p : BlockId} (hknown : known p id) :
    Dominates b.blocks d p := by
  intro havoids
  induction havoids with
  | entry => exact h.start id hknown
  | @edge p c hp hc _ ih =>
    rcases h.flows p c id hc hknown with hp' | ⟨k', i', hat'⟩
    · exact ih hp'
    · exact hp.ne (h.code.unique id p k' i' d k i hat' hat).1

theorem Certified.dominated (h : Certified M parameters result b known) {id d j p k : Nat}
    {i : Instruction} (hat : At b.blocks id d j i) (hbefore : Before b.blocks known p k id) :
    DominatedAt b.blocks p k id := by
  rcases hbefore with hknown | ⟨k', i', hlt, hat'⟩
  · refine ⟨d, j, i, hat, .inr ⟨fun heq => ?_, h.dominates hat hknown⟩⟩
    subst heq
    exact h.apart d id j i hknown hat
  · exact ⟨p, k', i', hat', .inl ⟨rfl, hlt⟩⟩

theorem Certified.checked (h : Certified M parameters result b known) :
    CodeChecked M parameters result b.blocks (DominatedAt b.blocks) := by
  have hmono : ∀ (p k : Nat) (op : Operand) (T : ValueTy),
      op.Is M parameters b.blocks (Before b.blocks known p k) T →
      op.Is M parameters b.blocks (DominatedAt b.blocks p k) T :=
    fun p k op T hop => hop.mono (fun _ _ _ _ hat => hat)
      fun id d j i hat hbefore => h.dominated hat hbefore
  refine ⟨h.code.unique, h.code.targets, fun id p k i hat => ?_, fun id p k T incoming hat => ?_,
    fun p block t hblock ht => ?_⟩
  · exact (h.code.instructions id p k i hat).mono (hmono p k)
  · have hphi := h.code.phis id p k T incoming hat
    refine ⟨hphi.first, hphi.nonempty, hphi.nodup, hphi.predecessors, fun op q hedge => ?_⟩
    refine (hphi.values op q hedge).mono (fun _ _ _ _ hat => hat) fun id d j i hat hend => ?_
    obtain ⟨block, hblock, hbefore⟩ := hend
    exact ⟨block, hblock, h.dominated hat hbefore⟩
  · exact (h.code.terminators p block t hblock ht).mono (hmono p _)

end llvm
