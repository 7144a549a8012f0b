-- The code between two states of the builder and what it does, wherever the
-- finished function puts it: `Codes` is a rule for each instruction of the
-- builder and composes as emission does.
import MiniFunctional.IrBuilder

namespace llvm

variable {M : Module} {α β : Type}

/-! ## Frames -/

/-- All code of the insertion block has run. -/
def AtEnd (b : Builder) (frame : Frame) : Prop :=
  frame.block = b.insertBlock ∧
    ∃ block, b.blocks[b.insertBlock]? = some block ∧ frame.index = block.instructions.length

/-- The activation is the same, and the first `n` registers are as they were. -/
structure Kept (n : Nat) (frame frame' : Frame) : Prop where
  function : frame'.function = frame.function
  arguments : frame'.arguments = frame.arguments
  registers : ∀ id, id < n → frame'.registers id = frame.registers id

theorem Kept.refl (n : Nat) (frame : Frame) : Kept n frame frame := ⟨rfl, rfl, fun _ _ => rfl⟩

theorem Kept.trans {n n' : Nat} {frame frame1 frame2 : Frame} (h : Kept n frame frame1)
    (h' : Kept n' frame1 frame2) (hn : n ≤ n') : Kept n frame frame2 := by
  refine ⟨h'.function.trans h.function, h'.arguments.trans h.arguments, fun id hid => ?_⟩
  rw [h'.registers id (by omega), h.registers id hid]

theorem Kept.next (frame : Frame) (id : Nat) (v : Val) : Kept id frame (frame.next id v) := by
  refine ⟨rfl, rfl, fun i hi => ?_⟩
  have hne : i ≠ id := by omega
  simp [Frame.next, Registers.set, hne]

theorem Kept.jump (n : Nat) (frame : Frame) (target : BlockId) : Kept n frame (frame.jump target) :=
  ⟨rfl, rfl, fun _ _ => rfl⟩

/-- The operand is known before the instruction `n`. -/
def Operand.Below (n : Nat) : Operand → Prop
  | .result id => id < n
  | _ => True

theorem Operand.Below.mono {n n' : Nat} {op : Operand} (h : op.Below n) (hn : n ≤ n') :
    op.Below n' := by
  cases op with
  | result id => exact Nat.lt_of_lt_of_le h hn
  | _ => trivial

theorem Kept.eval {n : Nat} {frame frame' : Frame} (h : Kept n frame frame') {op : Operand}
    (hop : op.Below n) : frame'.eval op = frame.eval op := by
  cases op with
  | result id => exact h.registers id hop
  | argument index => simp [Frame.eval, h.arguments]
  | _ => rfl

@[simp] theorem eval_next (frame : Frame) (id : Nat) (v : Val) :
    (frame.next id v).eval (.result id) = v := by
  simp [Frame.eval, Frame.next, Registers.set]

/-! ## Steps of emitted code -/

theorem step_instruction {frame : Frame} {callers : List Frame} {m : Memory} {output : String}
    {F : Function} {block : BasicBlock} {id : Nat} {i : Instruction}
    (hF : M.functions[frame.function]? = some F) (hb : F.blocks[frame.block]? = some block)
    (hi : block.instructions[frame.index]? = some (id, i)) :
    step M (.running frame callers m output) = stepInstruction M frame callers m output id i := by
  simp [step, hF, hb, hi]

theorem step_terminator {frame : Frame} {callers : List Frame} {m : Memory} {output : String}
    {F : Function} {block : BasicBlock} {t : Terminator}
    (hF : M.functions[frame.function]? = some F) (hb : F.blocks[frame.block]? = some block)
    (hi : block.instructions.length ≤ frame.index) (ht : block.terminator = some t) :
    step M (.running frame callers m output) = stepTerminator M frame callers m output t := by
  simp [step, hF, hb, List.getElem?_eq_none hi, ht]

/-- The instruction that was put at the end is the next one. -/
theorem step_insert {b : Builder} (i : Instruction) {frame : Frame}
    {callers : List Frame} {m : Memory} {output : String} {F : Function}
    (hF : M.functions[frame.function]? = some F) (hw : Within b (b.insert i).2 F.blocks)
    (hat : AtEnd b frame) :
    step M (.running frame callers m output) =
      stepInstruction M frame callers m output b.next i ∧
    ∃ block, F.blocks[frame.block]? = some block ∧
      block.instructions[frame.index]? = some (b.next, i) := by
  obtain ⟨hblock, block, hb, hindex⟩ := hat
  have hnew : (b.insert i).2.blocks[b.insertBlock]? = some (block.push b.next i) := by
    simp [Builder.insert, hb]
  obtain ⟨final, hfinal, hle⟩ := hw _ (.inl rfl) _ hnew
  have hi : final.instructions[frame.index]? = some (b.next, i) := by
    obtain ⟨more, hmore⟩ := hle.1
    rw [← hmore, hindex]
    simp [BasicBlock.push]
  rw [← hblock] at hfinal
  exact ⟨step_instruction hF hfinal hi, final, hfinal, hi⟩

theorem atEnd_insert {b : Builder} (i : Instruction) {frame : Frame} (hat : AtEnd b frame)
    (v : Val) : AtEnd (b.insert i).2 (frame.next b.next v) := by
  obtain ⟨hblock, block, hb, hindex⟩ := hat
  refine ⟨hblock, block.push b.next i, by simp [Builder.insert, hb], ?_⟩
  simp [Frame.next, BasicBlock.push, hindex]

/-- The terminator of a closed block is the next step. -/
theorem step_terminate {b : Builder} (h : b.Open) (t : Terminator) {frame : Frame}
    {callers : List Frame} {m : Memory} {output : String} {F : Function}
    (hF : M.functions[frame.function]? = some F) (hw : Within b (b.terminate t) F.blocks)
    (hat : AtEnd b frame) :
    step M (.running frame callers m output) = stepTerminator M frame callers m output t := by
  obtain ⟨hblock, block, hb, hindex⟩ := hat
  obtain ⟨_, block', hb', hnew⟩ := changes_terminate h t
  rw [hb] at hb'
  cases hb'
  obtain ⟨final, hfinal, hle⟩ := hw _ (.inl rfl) _ hnew
  have heq := hle.2 (by simp)
  rw [← hblock] at hfinal
  exact step_terminator hF hfinal (Nat.le_of_eq (by rw [heq, hindex])) (by rw [heq])

/-- An empty block that control jumps to. -/
theorem atEnd_jump {b : Builder} {frame : Frame} {target : BlockId} (hb : b.insertBlock = target)
    (hempty : b.blocks[target]? = some .empty) : AtEnd b (frame.jump target) := by
  refine ⟨hb.symm, .empty, by rw [hb]; exact hempty, rfl⟩

/-! ## Codes -/

/-- From `b` to `b'`, code was emitted that behaves as `B` says of the frame in
which it starts; when it returns `a`, it is at its end, in a frame of which
`Q a` holds. -/
structure Codes (M : Module) (b b' : Builder) (B : Frame → Behaviour α)
    (Q : α → Frame → Prop) : Prop where
  emits : Emits b b'
  runs : ∀ frame callers m output F, M.functions[frame.function]? = some F →
    Within b b' F.blocks → AtEnd b frame →
    Realises M callers frame m output
      (fun a frame' => AtEnd b' frame' ∧ Kept b.next frame frame' ∧ Q a frame') (B frame m output)

theorem Codes.pure {b : Builder} (h : b.Open) (a : Frame → α) {Q : α → Frame → Prop}
    (hQ : ∀ frame, Q (a frame) frame) :
    Codes M b b (fun frame => Pure.pure (a frame)) Q := by
  refine ⟨Emits.refl h, fun frame callers m output F _ _ hat => ?_⟩
  exact ⟨frame, ⟨hat, Kept.refl _ _, hQ frame⟩, .refl⟩

theorem Codes.mono {b b' : Builder} {B : Frame → Behaviour α} {Q Q' : α → Frame → Prop}
    (h : Codes M b b' B Q) (hQ : ∀ a frame, Q a frame → Q' a frame) : Codes M b b' B Q' := by
  refine ⟨h.emits, fun frame callers m output F hF hw hat => ?_⟩
  exact (h.runs frame callers m output F hF hw hat).mono fun a frame' ha =>
    ⟨ha.1, ha.2.1, hQ a frame' ha.2.2⟩

theorem Codes.congr {b b' : Builder} {B B' : Frame → Behaviour α} {Q : α → Frame → Prop}
    (h : Codes M b b' B Q) (hB : ∀ frame, B' frame = B frame) : Codes M b b' B' Q := by
  refine ⟨h.emits, fun frame callers m output F hF hw hat => ?_⟩
  rw [hB]
  exact h.runs frame callers m output F hF hw hat

/-- Code after code. What the second does may be said of the first frame and
the value of the first. -/
theorem Codes.bind {b b1 b2 : Builder} {B : Frame → Behaviour α} {B' : Frame → Behaviour β}
    {G : Frame → α → Behaviour β} {Q : α → Frame → Prop} {Q' : β → Frame → Prop}
    (h : Codes M b b1 B Q) (h' : Codes M b1 b2 B' Q')
    (hG : ∀ frame frame1 a, Kept b.next frame frame1 → Q a frame1 → B' frame1 = G frame a) :
    Codes M b b2 (fun frame => B frame >>= G frame) Q' := by
  refine ⟨h.emits.trans h'.emits, fun frame callers m output F hF hw hat => ?_⟩
  have hfirst := h.runs frame callers m output F hF (hw.left h'.emits.toChanges) hat
  refine hfirst.bind fun a frame1 m1 output1 ⟨hat1, hkept, hq⟩ => ?_
  have hF1 : M.functions[frame1.function]? = some F := by rw [hkept.function]; exact hF
  have hsecond := h'.runs frame1 callers m1 output1 F hF1 (hw.right h.emits) hat1
  rw [hG frame frame1 a hkept hq] at hsecond
  exact hsecond.mono fun c frame2 hc => ⟨hc.1, hkept.trans hc.2.1 h.emits.next, hc.2.2⟩

/-- What an instruction does that neither calls nor prints. -/
def executeBehaviour (frame : Frame) (i : Instruction) : Behaviour Val := fun m output =>
  match execute frame m i with
  | some (v, m') => .returns v m' output
  | none => .dead

/-- The machine executes the instruction by `execute`. -/
def Instruction.Plain (i : Instruction) : Prop :=
  ∀ (M : Module) frame callers m output id, stepInstruction M frame callers m output id i =
    (execute frame m i).map fun result =>
      .running (frame.next id result.1) callers result.2 output

theorem codes_insert {b : Builder} (h : b.Open) {i : Instruction} (hi : i.Plain) :
    Codes M b (b.insert i).2 (fun frame => executeBehaviour frame i)
      (fun v frame => frame.eval (.result b.next) = v) := by
  refine ⟨emits_insert h i, fun frame callers m output F hF hw hat => ?_⟩
  obtain ⟨hstep, -⟩ := step_insert i hF hw hat
  rw [hi] at hstep
  unfold executeBehaviour
  cases hexecute : execute frame m i with
  | none =>
    rw [hexecute] at hstep
    exact Dead.of_stuck (by simp) hstep
  | some result =>
    rw [hexecute] at hstep
    exact ⟨frame.next b.next result.1, ⟨atEnd_insert i hat _, Kept.next _ _ _, by simp⟩,
      .single hstep⟩

theorem codes_trap {b : Builder} (h : b.Open) {Q : α → Frame → Prop} :
    Codes M b (b.insert (.call .trap [])).2 (fun _ => Behaviour.trap) Q := by
  refine ⟨emits_insert h _, fun frame callers m output F hF hw hat => ?_⟩
  obtain ⟨hstep, -⟩ := step_insert _ hF hw hat
  exact .single hstep

/-- A call waits for the callee and takes its value. -/
theorem codes_call {b : Builder} (h : b.Open) {function : Nat} {arguments : List Operand}
    {callee : Function} (hf : M.functions[function]? = some callee)
    (hlen : callee.parameters.length = arguments.length) :
    Codes M b (b.insert (.call (.defined function) arguments)).2
      (fun frame => callBehaviour M function (arguments.map frame.eval))
      (fun v frame => frame.eval (.result b.next) = v) := by
  refine ⟨emits_insert h _, fun frame callers m output F hF hw hat => ?_⟩
  obtain ⟨hstep, block, hblock, hindex⟩ :=
    step_insert _ hF hw hat
  simp only [stepInstruction, hf, Option.bind_some, hlen, if_true] at hstep
  have hreturn : ∀ v m' output', returnTo M (frame :: callers) v m' output' =
      some (.running (frame.next b.next v) callers m' output') := by
    intro v m' output'
    simp [returnTo, hF, hblock, hindex]
  cases hcall : callBehaviour M function (arguments.map frame.eval) m output with
  | returns v m' output' =>
    have hrun := steps_under (by simp) (callBehaviour_returns_iff.mp hcall) (frame :: callers)
      (hreturn v m' output')
    exact ⟨frame.next b.next v, ⟨atEnd_insert _ hat _, Kept.next _ _ _, by simp⟩, .head hstep hrun⟩
  | traps output' =>
    exact .head hstep
      (steps_under (by simp) (callBehaviour_traps_iff.mp hcall) (frame :: callers) rfl)
  | dead =>
    refine Dead.of_steps (.single hstep) fun state hhalted hrun => ?_
    have hcallee : Steps M (.running (.enter function (arguments.map frame.eval))
      ([] ++ frame :: callers) m output) state := hrun
    obtain ⟨state', hhalted', hrun'⟩ := halts_alone hhalted hcallee
    exact callBehaviour_dead hcall state' hhalted' hrun'

end llvm
