-- Code that ends in a jump: the branches between a split of the control flow
-- and the block in which they meet, and the phi of that block.
import MiniFunctional.Behaviours
import Mathlib.Data.List.Nodup

namespace llvm

variable {M : Module} {α β : Type}

/-! ## Arriving at a block -/

/-- Control has come to `merge` with the value, along one of the edges. -/
structure ArrivesAt (merge : BlockId) (edges : List (Operand × BlockId)) (v : Val)
    (frame : Frame) : Prop where
  block : frame.block = merge
  index : frame.index = 0
  edge : ∃ op, (op, frame.previous) ∈ edges ∧ frame.eval op = v

theorem ArrivesAt.mono {merge : BlockId} {edges edges' : List (Operand × BlockId)} {v : Val}
    {frame : Frame} (h : ArrivesAt merge edges v frame)
    (hsub : ∀ edge ∈ edges, edge ∈ edges') : ArrivesAt merge edges' v frame := by
  obtain ⟨op, hop, heval⟩ := h.edge
  exact ⟨h.block, h.index, op, hsub _ hop, heval⟩

/-- Each edge leaves a closed block of its own, which emission from `b` made or
went on with. -/
structure Edges (b b' : Builder) (edges : List (Operand × BlockId)) : Prop where
  works : ∀ edge ∈ edges, b.Works edge.2
  closed : ∀ edge ∈ edges, ∃ block, b'.blocks[edge.2]? = some block ∧ block.terminator ≠ none
  nodup : (edges.map (·.2)).Nodup

theorem Edges.lt {b b' : Builder} {edges : List (Operand × BlockId)} (h : Edges b b' edges)
    {edge : Operand × BlockId} (he : edge ∈ edges) : edge.2 < b'.blocks.length := by
  obtain ⟨block, hblock, _⟩ := h.closed edge he
  exact (List.getElem?_eq_some_iff.mp hblock).1

/-- Edges of two parts of the code, of which the second works on other blocks. -/
theorem Edges.append {b b' b1 b2 : Builder} {edges edges' : List (Operand × BlockId)}
    {P : BlockId → Prop} (h : Edges b b1 edges) (h' : Edges b2 b' edges')
    (hgrows : Grows P b1 b') (hP : ∀ id, b.Works id → P id)
    (hworks : ∀ id, b2.Works id → b.Works id)
    (hapart : ∀ edge ∈ edges, ¬ b2.Works edge.2) : Edges b b' (edges ++ edges') := by
  refine ⟨fun edge he => ?_, fun edge he => ?_, ?_⟩
  · rcases List.mem_append.mp he with he | he
    · exact h.works edge he
    · exact hworks _ (h'.works edge he)
  · rcases List.mem_append.mp he with he | he
    · obtain ⟨block, hblock, hclosed⟩ := h.closed edge he
      obtain ⟨block', hblock', hle⟩ := hgrows _ (hP _ (h.works edge he)) block hblock
      exact ⟨block', hblock', by rw [hle.2 hclosed]; exact hclosed⟩
    · exact h'.closed edge he
  · rw [List.map_append, List.nodup_append']
    refine ⟨h.nodup, h'.nodup, fun id hid hid' => ?_⟩
    obtain ⟨edge, he, rfl⟩ := List.mem_map.mp hid
    obtain ⟨edge', he', heq⟩ := List.mem_map.mp hid'
    exact hapart edge he (heq ▸ h'.works edge' he')

/-- From `b` to `b'`, code was emitted that behaves as `B` says and brings its
value to `merge`. -/
structure Jumps (M : Module) (b b' : Builder) (merge : BlockId)
    (edges : List (Operand × BlockId)) (B : Frame → Behaviour Val) : Prop where
  changes : Changes b b'
  ends : Edges b b' edges
  runs : ∀ frame callers m output F, M.functions[frame.function]? = some F →
    Within b b' F.blocks → AtEnd b frame →
    Realises M callers frame m output
      (fun v frame' => ArrivesAt merge edges v frame' ∧ Kept b.next frame frame')
      (B frame m output)

/-- After the code, the frame takes steps that leave the memory and the output. -/
theorem Realises.andThen {callers : List Frame} {frame : Frame} {m : Memory} {output : String}
    {Q Q' : α → Frame → Prop} {o : Outcome α} (h : Realises M callers frame m output Q o)
    (hsteps : ∀ a frame' m' output', Q a frame' → ∃ frame'', Q' a frame'' ∧
      Steps M (.running frame' callers m' output') (.running frame'' callers m' output')) :
    Realises M callers frame m output Q' o := by
  cases o with
  | returns a m' output' =>
    obtain ⟨frame', hq, hrun⟩ := h
    obtain ⟨frame'', hq', hrun'⟩ := hsteps a frame' m' output' hq
    exact ⟨frame'', hq', hrun.trans hrun'⟩
  | traps output' => exact h
  | dead => exact h

/-! ## Rules -/

theorem Jumps.congr {b b' : Builder} {merge : BlockId} {edges : List (Operand × BlockId)}
    {B B' : Frame → Behaviour Val} (h : Jumps M b b' merge edges B)
    (hB : ∀ frame, B' frame = B frame) : Jumps M b b' merge edges B' := by
  refine ⟨h.changes, h.ends, fun frame callers m output F hF hw hat => ?_⟩
  rw [hB]
  exact h.runs frame callers m output F hF hw hat

theorem atEnd_createBlock {b : Builder} {frame : Frame} (h : AtEnd b frame) :
    AtEnd b.createBlock.2 frame := by
  obtain ⟨hblock, block, hb, hindex⟩ := h
  have hlt := (List.getElem?_eq_some_iff.mp hb).1
  exact ⟨hblock, block, (List.getElem?_append_left hlt).trans hb, hindex⟩

/-- A new block may be made before the code. -/
theorem Codes.createBlock {b b' : Builder} {B : Frame → Behaviour α} {Q : α → Frame → Prop}
    (hopen : b.Open) (h : Codes M b.createBlock.2 b' B Q) : Codes M b b' B Q := by
  have hb := emits_createBlock b hopen
  refine ⟨hb.trans h.emits, fun frame callers m output F hF hw hat => ?_⟩
  exact h.runs frame callers m output F hF (hw.right hb) (atEnd_createBlock hat)

theorem Jumps.createBlock {b b' : Builder} {merge : BlockId} {edges : List (Operand × BlockId)}
    {B : Frame → Behaviour Val} (hopen : b.Open) (h : Jumps M b.createBlock.2 b' merge edges B) :
    Jumps M b b' merge edges B := by
  have hb := emits_createBlock b hopen
  refine ⟨hb.changes h.changes, ⟨fun edge he => hb.works (h.ends.works edge he), h.ends.closed,
    h.ends.nodup⟩, fun frame callers m output F hF hw hat => ?_⟩
  exact h.runs frame callers m output F hF (hw.right hb) (atEnd_createBlock hat)

/-- Code before a jump. -/
theorem Codes.jumps {b b1 b2 : Builder} {merge : BlockId} {edges : List (Operand × BlockId)}
    {B : Frame → Behaviour α} {B' : Frame → Behaviour Val} {G : Frame → α → Behaviour Val}
    {Q : α → Frame → Prop} (h : Codes M b b1 B Q) (h' : Jumps M b1 b2 merge edges B')
    (hG : ∀ frame frame1 a, Kept b.next frame frame1 → Q a frame1 → B' frame1 = G frame a) :
    Jumps M b b2 merge edges (fun frame => B frame >>= G frame) := by
  refine ⟨h.emits.changes h'.changes, ⟨fun edge he => h.emits.works (h'.ends.works edge he),
    h'.ends.closed, h'.ends.nodup⟩, fun frame callers m output F hF hw hat => ?_⟩
  have hfirst := h.runs frame callers m output F hF (hw.left h'.changes) hat
  refine hfirst.bind fun a frame1 m1 output1 ⟨hat1, hkept, hq⟩ => ?_
  have hF1 : M.functions[frame1.function]? = some F := by rw [hkept.function]; exact hF
  have hsecond := h'.runs frame1 callers m1 output1 F hF1 (hw.right h.emits) hat1
  rw [hG frame frame1 a hkept hq] at hsecond
  exact hsecond.mono fun v frame2 hv => ⟨hv.1, hkept.trans hv.2 h.emits.next⟩

/-- Code that computes the value, and the jump. -/
theorem jumps_br {b b1 : Builder} {B : Frame → Behaviour Val} {op : Operand}
    (h : Codes M b b1 B fun v frame => frame.eval op = v) (merge : BlockId) :
    Jumps M b (b1.terminate (.br merge)) merge [(op, b1.insertBlock)] B := by
  obtain ⟨hchanges, block, _, hclosed⟩ := changes_terminate h.emits.opened (.br merge)
  refine ⟨h.emits.changes hchanges, ⟨?_, ?_, by simp⟩, fun frame callers m output F hF hw hat => ?_⟩
  · simpa [Builder.Works] using h.emits.insertBlock
  · intro edge he
    rw [List.mem_singleton.mp he]
    exact ⟨_, hclosed, by simp⟩
  · have hfirst := h.runs frame callers m output F hF (hw.left hchanges) hat
    refine hfirst.andThen fun v frame1 m1 output1 ⟨hat1, hkept, heval⟩ => ?_
    have hF1 : M.functions[frame1.function]? = some F := by rw [hkept.function]; exact hF
    have hstep : step M (.running frame1 callers m1 output1) =
        stepTerminator M frame1 callers m1 output1 (.br merge) :=
      step_terminate h.emits.opened _ hF1 (hw.right h.emits) hat1
    refine ⟨frame1.jump merge, ⟨⟨rfl, rfl, op, ?_, heval⟩, ?_⟩, .single hstep⟩
    · simp [Frame.jump, hat1.1]
    · exact hkept.trans (Kept.jump b.next frame1 merge) (Nat.le_refl _)

theorem jumps_trap {b : Builder} (h : b.Open) (merge : BlockId) :
    Jumps M b ((b.insert (.call .trap [])).2.terminate .unreachable) merge []
      (fun _ => Behaviour.trap) := by
  have htrap := codes_trap (M := M) h (Q := fun (_ : Val) _ => False)
  obtain ⟨hchanges, _⟩ := changes_terminate htrap.emits.opened .unreachable
  refine ⟨htrap.emits.changes hchanges, ⟨by simp, by simp, by simp⟩,
    fun frame callers m output F hF hw hat => ?_⟩
  have hrun := htrap.runs frame callers m output F hF (hw.left hchanges) hat
  exact hrun.mono fun _ _ hv => absurd hv.2.2 id

/-! ## Splits -/

theorem terminate_length (b : Builder) (t : Terminator) :
    (b.terminate t).blocks.length = b.blocks.length := by
  simp [Builder.terminate]

theorem terminate_other {b : Builder} (h : b.Open) (t : Terminator) {id : BlockId}
    (hid : id ≠ b.insertBlock) : (b.terminate t).blocks[id]? = b.blocks[id]? := by
  by_cases hlt : id < b.blocks.length
  · exact (changes_terminate h t).1.kept id hlt hid
  · have hge := Nat.le_of_not_lt hlt
    rw [List.getElem?_eq_none hge, List.getElem?_eq_none (terminate_length b t ▸ hge)]

theorem Changes.setInsertPoint {b b' : Builder} (h : Changes b b') (block : BlockId) :
    Changes b (b'.setInsertPoint block) :=
  ⟨h.grows, h.kept, h.extended, h.next, h.malformed⟩

theorem Grows.setInsertPoint {P : BlockId → Prop} {b b' : Builder} {block : BlockId}
    (h : Grows P (b.setInsertPoint block) b') : Grows P b b' := h

/-- A new block is none that emission from `b` was in. -/
theorem Builder.Works.setInsertPoint {b b' : Builder} {block : BlockId}
    (hgrows : b.blocks.length ≤ b'.blocks.length) (hblock : b.blocks.length ≤ block)
    {id : BlockId} (h : (b'.setInsertPoint block).Works id) : b.Works id := by
  rcases h with rfl | hge
  · exact .inr hblock
  · exact .inr (Nat.le_trans hgrows hge)

/-- A conditional branch to two new blocks, each of which brings a value to
`merge`. -/
theorem jumps_condBr {b b1 b3 b5 : Builder} {B : Frame → Behaviour Val} {condition : Operand}
    {matched next merge : BlockId} {edges edges' : List (Operand × BlockId)}
    {B1 B2 C1 C2 : Frame → Behaviour Val}
    (h : Codes M b b1 B fun v frame => frame.eval condition = v)
    (hmatched : b1.blocks[matched]? = some .empty) (hnext : b1.blocks[next]? = some .empty)
    (hm : b.blocks.length ≤ matched) (hn : b.blocks.length ≤ next) (hne : next ≠ matched)
    (hmi : matched ≠ b1.insertBlock) (hni : next ≠ b1.insertBlock)
    (h3 : Jumps M ((b1.terminate (.condBr condition matched next)).setInsertPoint matched) b3
      merge edges B1)
    (h5 : Jumps M (b3.setInsertPoint next) b5 merge edges' B2)
    (hB1 : ∀ frame frame', Kept b.next frame frame' → B1 frame' = C1 frame)
    (hB2 : ∀ frame frame', Kept b.next frame frame' → B2 frame' = C2 frame) :
    Jumps M b b5 merge (edges ++ edges') fun frame =>
      B frame >>= fun v => Behaviour.choose v (C1 frame) (C2 frame) := by
  have hchanges := (changes_terminate h.emits.opened (.condBr condition matched next)).1
  have hlen := terminate_length b1 (.condBr condition matched next)
  have hnlt := (List.getElem?_eq_some_iff.mp hnext).1
  -- the blocks that the parts of the code work on
  have hworks1 : ∀ id, ((b1.terminate (.condBr condition matched next)).setInsertPoint
      matched).Works id → b.Works id :=
    fun id => Builder.Works.setInsertPoint (by rw [hlen]; exact h.emits.grows) hm
  have hgrows1 : b.blocks.length ≤ b3.blocks.length :=
    Nat.le_trans h.emits.grows (Nat.le_trans (Nat.le_of_eq hlen.symm) h3.changes.grows)
  have hworks2 : ∀ id, (b3.setInsertPoint next).Works id → b.Works id :=
    fun id => Builder.Works.setInsertPoint hgrows1 hn
  have hnext3 : b3.blocks[next]? = some .empty := by
    rw [h3.changes.kept next (by rw [Builder.setInsertPoint, hlen]; exact hnlt) hne]
    exact (terminate_other h.emits.opened _ hni).trans hnext
  have hgrows3 : Grows (fun _ => True) b3 b5 := (h5.changes.grows_blocks _).setInsertPoint
  have hgrows2 : Grows (fun _ => True) (b1.terminate (.condBr condition matched next)) b5 :=
    Grows.trans (h3.changes.grows_blocks _).setInsertPoint hgrows3
  have hchanges2 : Changes b ((b1.terminate (.condBr condition matched next)).setInsertPoint
      matched) := (h.emits.changes hchanges).setInsertPoint matched
  have hchanges3 : Changes b b3 := hchanges2.trans (.inr hm) h3.changes
  refine ⟨(hchanges3.setInsertPoint next).trans (.inr hn) h5.changes, ?_,
    fun frame callers m output F hF hw hat => ?_⟩
  · have hends : Edges b b3 edges :=
      ⟨fun edge he => hworks1 _ (h3.ends.works edge he), h3.ends.closed, h3.ends.nodup⟩
    refine hends.append h5.ends hgrows3 (fun _ _ => trivial) hworks2 fun edge he hwork => ?_
    rcases hwork with heq | hge
    · obtain ⟨block', hblock', hclosed'⟩ := h3.ends.closed edge he
      rw [heq] at hblock'
      have : b3.blocks[next]? = some block' := hblock'
      rw [hnext3] at this
      cases this
      exact hclosed' rfl
    · exact absurd (h3.ends.lt he) (Nat.not_lt.mpr hge)
  · have hw1 : Within b b1 F.blocks := hw.part ((hchanges.grows_blocks _).trans hgrows2)
      fun id hid => ⟨hid, trivial⟩
    refine (h.runs frame callers m output F hF hw1 hat).bind fun v frame1 m1 output1 h1 => ?_
    obtain ⟨hat1, hkept, heval⟩ := h1
    have hF1 : M.functions[frame1.function]? = some F := by rw [hkept.function]; exact hF
    have hstep : step M (.running frame1 callers m1 output1) =
        stepTerminator M frame1 callers m1 output1 (.condBr condition matched next) :=
      step_terminate h.emits.opened _ hF1
        (hw.part hgrows2 fun id hid => ⟨h.emits.works hid, trivial⟩) hat1
    simp only [stepTerminator, heval] at hstep
    have hkept' : ∀ target, Kept b.next frame (frame1.jump target) := fun target =>
      hkept.trans (Kept.jump b.next frame1 target) (Nat.le_refl _)
    have hle : b.next ≤ b3.next := hchanges3.next
    cases v with
    | bool c =>
      refine Realises.of_steps (.single hstep) ?_
      cases c with
      | true =>
        have hat2 : AtEnd ((b1.terminate (.condBr condition matched next)).setInsertPoint
            matched) (frame1.jump matched) :=
              atEnd_jump rfl ((terminate_other h.emits.opened _ hmi).trans hmatched)
        have hrun := h3.runs (frame1.jump matched) callers m1 output1 F hF1
          (hw.part hgrows3 fun id hid => ⟨hworks1 id hid, trivial⟩) hat2
        rw [hB1 frame _ (hkept' matched)] at hrun
        refine hrun.mono fun v' frame2 h2 => ⟨h2.1.mono ?_, ?_⟩
        · exact fun edge he => List.mem_append_left _ he
        · exact (hkept' matched).trans h2.2 h.emits.next
      | false =>
        have hat2 : AtEnd (b3.setInsertPoint next) (frame1.jump next) := atEnd_jump rfl hnext3
        have hrun := h5.runs (frame1.jump next) callers m1 output1 F hF1
          (hw.part (Grows.refl (fun _ => True) b5) fun id hid => ⟨hworks2 id hid, trivial⟩) hat2
        rw [hB2 frame _ (hkept' next)] at hrun
        refine hrun.mono fun v' frame2 h2 => ⟨h2.1.mono ?_, ?_⟩
        · exact fun edge he => List.mem_append_right _ he
        · exact (hkept' next).trans h2.2 hle
    | _ => exact Dead.of_stuck id hstep

/-! ## The phi -/

theorem find_edge {edges : List (Operand × BlockId)} (h : (edges.map (·.2)).Nodup) {op : Operand}
    {block : BlockId} (he : (op, block) ∈ edges) :
    edges.find? (·.2 = block) = some (op, block) := by
  induction edges with
  | nil => simp at he
  | cons edge edges ih =>
    rw [List.map_cons, List.nodup_cons] at h
    rcases List.mem_cons.mp he with rfl | he
    · simp
    · have hne : edge.2 ≠ block := fun heq => h.1 (heq ▸ List.mem_map.mpr ⟨_, he, rfl⟩)
      rw [List.find?_cons_of_neg (by simpa using hne)]
      exact ih h.2 he

/-- The branches meet in an empty block, whose phi takes the value. -/
theorem Jumps.finish {b b1 : Builder} {merge : BlockId} {edges : List (Operand × BlockId)}
    {B : Frame → Behaviour Val} (h : Jumps M b b1 merge edges B)
    (hmerge : b1.blocks[merge]? = some .empty) (hm : b.blocks.length ≤ merge) (type : Ty) :
    Codes M b ((b1.setInsertPoint merge).insert (.phi type edges)).2 B
      fun v frame => frame.eval (.result b1.next) = v := by
  have hopen : (b1.setInsertPoint merge).Open := ⟨.empty, hmerge, rfl⟩
  have hphi := emits_insert hopen (.phi type edges)
  have hworks : ∀ id, (b1.setInsertPoint merge).Works id → b.Works id :=
    fun id => Builder.Works.setInsertPoint h.changes.grows hm
  refine ⟨⟨(h.changes.setInsertPoint merge).trans (.inr hm) hphi.toChanges, .inr hm, hphi.opened⟩,
    fun frame callers m output F hF hw hat => ?_⟩
  have hw1 : Within b b1 F.blocks := hw.part
    ((hphi.toChanges.grows_blocks fun _ => True).setInsertPoint) fun id hid => ⟨hid, trivial⟩
  refine (h.runs frame callers m output F hF hw1 hat).andThen
    fun v frame1 m1 output1 ⟨harrives, hkept⟩ => ?_
  have hat1 : AtEnd (b1.setInsertPoint merge) frame1 :=
    ⟨harrives.block, .empty, hmerge, harrives.index⟩
  obtain ⟨op, hedge, heval⟩ := harrives.edge
  have hF1 : M.functions[frame1.function]? = some F := by rw [hkept.function]; exact hF
  have hstep : step M (.running frame1 callers m1 output1) =
      stepInstruction M frame1 callers m1 output1 b1.next (.phi type edges) :=
    (step_insert (.phi type edges) hF1 (hw.part (Grows.refl (fun _ => True) _)
      fun id hid => ⟨hworks id hid, trivial⟩) hat1).1
  simp only [stepInstruction, execute, find_edge h.ends.nodup hedge, Option.map_some,
    heval] at hstep
  refine ⟨frame1.next b1.next v, ⟨atEnd_insert _ hat1 v, ?_, eval_next _ _ _⟩, .single hstep⟩
  exact hkept.trans (Kept.next frame1 b1.next v) h.changes.next

/-! ## Switches -/

/-- Control that jumps to the block behaves as `B` says and brings its value to
`merge`; the code is in the blocks that are new since `b`. -/
def Enters (M : Module) (b b' : Builder) (block merge : BlockId)
    (edges : List (Operand × BlockId)) (B : Frame → Behaviour Val) : Prop :=
  ∀ frame callers m output F, M.functions[frame.function]? = some F →
    (∀ id, b.blocks.length ≤ id → ∀ block, b'.blocks[id]? = some block →
      ∃ final, F.blocks[id]? = some final ∧ block.Le final) →
    frame.block = block → frame.index = 0 →
    Realises M callers frame m output
      (fun v frame' => ArrivesAt merge edges v frame' ∧ Kept b.next frame frame')
      (B frame m output)

def BasicBlock.addCases (cases : List (BitVec 64 × BlockId)) (block : BasicBlock) : BasicBlock :=
  cases.foldl (fun block entry => block.addCase entry.1 entry.2) block

/-- From `b` to `b'`, the cases were added to the switch of the block `s`. For
the value `n` the code behaves as `D n` says; it traps where there is no case. -/
structure Dispatches (M : Module) (s : BlockId) (b b' : Builder) (merge : BlockId)
    (cases : List (BitVec 64 × BlockId)) (edges : List (Operand × BlockId))
    (D : BitVec 64 → Frame → Behaviour Val) : Prop where
  grows : b.blocks.length ≤ b'.blocks.length
  kept : ∀ id, id < b.blocks.length → id ≠ s → b'.blocks[id]? = b.blocks[id]?
  added : b'.blocks[s]? = b.blocks[s]?.map (.addCases cases)
  next : b.next ≤ b'.next
  malformed : b'.malformed = b.malformed
  works : ∀ edge ∈ edges, b.blocks.length ≤ edge.2
  closed : ∀ edge ∈ edges, ∃ block, b'.blocks[edge.2]? = some block ∧ block.terminator ≠ none
  nodup : (edges.map (·.2)).Nodup
  enters : ∀ n entry, cases.find? (·.1 = n) = some entry →
    Enters M b b' entry.2 merge edges (D n)
  default : ∀ n, cases.find? (·.1 = n) = none → ∀ frame, D n frame = Behaviour.trap

theorem Dispatches.nil (s : BlockId) (b : Builder) (merge : BlockId) :
    Dispatches M s b b merge [] [] fun _ _ => Behaviour.trap := by
  refine ⟨Nat.le_refl _, fun _ _ _ => rfl, ?_, Nat.le_refl _, rfl, by simp, by simp, by simp,
    by simp, fun _ _ _ => rfl⟩
  cases b.blocks[s]? with
  | none => rfl
  | some block => rfl

theorem Dispatches.congr {s : BlockId} {b b' : Builder} {merge : BlockId}
    {cases : List (BitVec 64 × BlockId)} {edges : List (Operand × BlockId)}
    {D D' : BitVec 64 → Frame → Behaviour Val} (h : Dispatches M s b b' merge cases edges D)
    (hD : ∀ n frame, D' n frame = D n frame) : Dispatches M s b b' merge cases edges D' := by
  have heq : D' = D := funext fun n => funext fun frame => hD n frame
  rw [heq]
  exact h

theorem Dispatches.grows_blocks {s : BlockId} {b b' : Builder} {merge : BlockId}
    {cases : List (BitVec 64 × BlockId)} {edges : List (Operand × BlockId)}
    {D : BitVec 64 → Frame → Behaviour Val} (h : Dispatches M s b b' merge cases edges D) :
    Grows (· ≠ s) b b' := by
  intro id hid block hblock
  have hlt := (List.getElem?_eq_some_iff.mp hblock).1
  exact ⟨block, (h.kept id hlt hid).trans hblock, .refl block⟩

/-- Another case before the others. -/
theorem Dispatches.cons {s : BlockId} {b b1 b' : Builder} {merge : BlockId} {tag : BitVec 64}
    {cases : List (BitVec 64 × BlockId)} {edges edges' : List (Operand × BlockId)}
    {B : Frame → Behaviour Val} {D : BitVec 64 → Frame → Behaviour Val}
    (hs : s < b.blocks.length)
    (h : Jumps M ((b.createBlock.2.addCase s tag b.blocks.length).setInsertPoint b.blocks.length)
      b1 merge edges B)
    (h' : Dispatches M s b1 b' merge cases edges' D) :
    Dispatches M s b b' merge ((tag, b.blocks.length) :: cases) (edges ++ edges')
      fun n frame => if n = tag then B frame else D n frame := by
  have hlen : (b.createBlock.2.addCase s tag b.blocks.length).blocks.length =
      b.blocks.length + 1 := by
    simp [Builder.addCase, Builder.createBlock]
  have hother : ∀ id, id ≠ s →
      (b.createBlock.2.addCase s tag b.blocks.length).blocks[id]? =
        (b.blocks ++ [.empty])[id]? := by
    intro id hid
    have hid' : ¬ s = id := fun heq => hid heq.symm
    simp [Builder.addCase, Builder.createBlock, hid']
  have hnew : b.blocks.length ≠ s := Nat.ne_of_gt hs
  have hempty : (b.createBlock.2.addCase s tag b.blocks.length).blocks[b.blocks.length]? =
      some .empty := by
    rw [hother _ hnew]
    simp
  have hgrows : b.blocks.length + 1 ≤ b1.blocks.length := hlen ▸ h.changes.grows
  have hworks : ∀ edge ∈ edges, b.blocks.length ≤ edge.2 := by
    intro edge he
    rcases h.ends.works edge he with heq | hge
    · exact Nat.le_of_eq heq.symm
    · exact Nat.le_of_succ_le (Nat.le_trans (Nat.le_of_eq hlen.symm) hge)
  refine ⟨Nat.le_trans (Nat.le_of_succ_le hgrows) h'.grows, fun id hid hne => ?_, ?_,
    Nat.le_trans h.changes.next h'.next, h'.malformed.trans h.changes.malformed,
    fun edge he => ?_, fun edge he => ?_, ?_, fun n entry hfind => ?_, fun n hfind frame => ?_⟩
  · rw [h'.kept id (Nat.lt_of_lt_of_le hid (Nat.le_of_succ_le hgrows)) hne]
    refine (h.changes.kept id ?_ (Nat.ne_of_lt hid)).trans ?_
    · exact Nat.lt_of_lt_of_le hid
        (Nat.le_of_lt (Nat.lt_of_lt_of_eq (Nat.lt_succ_self _) hlen.symm))
    · exact (hother id hne).trans (List.getElem?_append_left hid)
  · rw [h'.added]
    have hs1 : b1.blocks[s]? = b.blocks[s]?.map (.addCase tag b.blocks.length) := by
      refine (h.changes.kept s ?_ (Nat.ne_of_lt hs)).trans ?_
      · exact Nat.lt_of_lt_of_eq (Nat.lt_succ_of_lt hs) hlen.symm
      · simp [Builder.setInsertPoint, Builder.addCase, Builder.createBlock,
          List.getElem?_append_left hs]
    rw [hs1, Option.map_map]
    rfl
  · rcases List.mem_append.mp he with he | he
    · exact hworks edge he
    · exact Nat.le_trans (Nat.le_of_succ_le hgrows) (h'.works edge he)
  · rcases List.mem_append.mp he with he | he
    · obtain ⟨block, hblock, hclosed⟩ := h.ends.closed edge he
      have hne : edge.2 ≠ s := Nat.ne_of_gt (Nat.lt_of_lt_of_le hs (hworks edge he))
      obtain ⟨block', hblock', hle⟩ := h'.grows_blocks edge.2 hne block hblock
      exact ⟨block', hblock', by rw [hle.2 hclosed]; exact hclosed⟩
    · exact h'.closed edge he
  · rw [List.map_append, List.nodup_append']
    refine ⟨h.ends.nodup, h'.nodup, fun id hid hid' => ?_⟩
    obtain ⟨edge, he, rfl⟩ := List.mem_map.mp hid
    obtain ⟨edge', he', heq⟩ := List.mem_map.mp hid'
    have hlt := h.ends.lt he
    rw [← heq] at hlt
    exact absurd hlt (Nat.not_lt.mpr (h'.works edge' he'))
  · intro frame callers m output F hF hw hblock hindex
    by_cases htag : n = tag
    · subst htag
      rw [List.find?_cons_of_pos (by simp)] at hfind
      cases hfind
      have hat : AtEnd ((b.createBlock.2.addCase s n b.blocks.length).setInsertPoint
          b.blocks.length) frame := ⟨hblock, .empty, hempty, hindex⟩
      have hrun := h.runs frame callers m output F hF (fun id hid block hb => ?_) hat
      · simp only
        exact hrun.mono fun v frame' h1 =>
          ⟨h1.1.mono fun edge he => List.mem_append_left _ he, h1.2⟩
      · have hge : b.blocks.length ≤ id := by
          rcases hid with heq | hge
          · exact Nat.le_of_eq heq.symm
          · exact Nat.le_of_succ_le (Nat.le_trans (Nat.le_of_eq hlen.symm) hge)
        obtain ⟨block', hblock', hle⟩ :=
          h'.grows_blocks id (Nat.ne_of_gt (Nat.lt_of_lt_of_le hs hge)) block hb
        obtain ⟨final, hfinal, hle'⟩ := hw id hge block' hblock'
        exact ⟨final, hfinal, hle.trans hle'⟩
    · rw [List.find?_cons_of_neg (by simpa using fun heq => htag heq.symm)] at hfind
      have hrun := h'.enters n entry hfind frame callers m output F hF
        (fun id hid => hw id (Nat.le_trans (Nat.le_of_succ_le hgrows) hid)) hblock hindex
      have hD : (if n = tag then B frame else D n frame) = D n frame := if_neg htag
      simp only [hD]
      exact hrun.mono fun v frame' h1 =>
        ⟨h1.1.mono fun edge he => List.mem_append_right _ he,
          (Kept.refl b.next frame).trans h1.2 h.changes.next⟩
  · by_cases htag : n = tag
    · subst htag
      rw [List.find?_cons_of_pos (by simp)] at hfind
      cases hfind
    · rw [List.find?_cons_of_neg (by simpa using fun heq => htag heq.symm)] at hfind
      rw [if_neg htag]
      exact h'.default n hfind frame

theorem addCases_switch (instructions : List (Nat × Instruction)) (value : Operand)
    (default : BlockId) (old cases : List (BitVec 64 × BlockId)) :
    BasicBlock.addCases cases ⟨instructions, some (.switch value default old)⟩ =
      ⟨instructions, some (.switch value default (old ++ cases))⟩ := by
  induction cases generalizing old with
  | nil => simp [BasicBlock.addCases]
  | cons entry cases ih =>
    have := ih (old ++ [entry])
    simpa [BasicBlock.addCases, BasicBlock.addCase, Terminator.addCase] using this

/-- A switch to new blocks, each of which brings a value to `merge`; the
default traps. -/
theorem jumps_switch {b b1 b3 : Builder} {B : Frame → Behaviour Val} {tag : Operand}
    {default merge : BlockId} {cases : List (BitVec 64 × BlockId)}
    {edges : List (Operand × BlockId)} {D C : BitVec 64 → Frame → Behaviour Val}
    (h : Codes M b b1 B fun v frame => frame.eval tag = v)
    (hdefault : b1.blocks[default]? = some .empty) (hd : b.blocks.length ≤ default)
    (hdi : default ≠ b1.insertBlock)
    (h3 : Dispatches M b1.insertBlock (b1.terminate (.switch tag default [])) b3 merge cases edges
      D)
    (hD : ∀ n frame frame', Kept b.next frame frame' → D n frame' = C n frame) :
    Jumps M b (((b3.setInsertPoint default).insert (.call .trap [])).2.terminate .unreachable)
      merge edges fun frame => B frame >>= fun v => Behaviour.dispatch v fun n => C n frame := by
  obtain ⟨hchanges, block, hblock, hclosed⟩ :=
    changes_terminate h.emits.opened (.switch tag default [])
  obtain ⟨block', hblock', hopened⟩ := h.emits.opened
  rw [hblock] at hblock'
  cases hblock'
  have hlen := terminate_length b1 (.switch tag default [])
  have hswitch : b3.blocks[b1.insertBlock]? =
      some ⟨block.instructions, some (.switch tag default cases)⟩ := by
    rw [h3.added, hclosed, Option.map_some, addCases_switch, List.nil_append]
  have hother : ∀ id, id < b1.blocks.length → id ≠ b1.insertBlock →
      b3.blocks[id]? = b1.blocks[id]? := by
    intro id hlt hid
    rw [h3.kept id (by rw [hlen]; exact hlt) hid, terminate_other h.emits.opened _ hid]
  have hgrowsLen : b1.blocks.length ≤ b3.blocks.length :=
    Nat.le_trans (Nat.le_of_eq hlen.symm) h3.grows
  have hchanges3 : Changes b1 b3 := by
    refine ⟨hgrowsLen, hother, fun block' hblock' => ⟨_, hswitch, ?_⟩,
      Nat.le_trans hchanges.next h3.next, h3.malformed.trans hchanges.malformed⟩
    rw [hblock] at hblock'
    cases hblock'
    exact ⟨List.prefix_refl _, fun hne => absurd hopened hne⟩
  have hdlt := (List.getElem?_eq_some_iff.mp hdefault).1
  have hdefault3 : b3.blocks[default]? = some .empty := (hother default hdlt hdi).trans hdefault
  have hopen3 : (b3.setInsertPoint default).Open := ⟨.empty, hdefault3, rfl⟩
  have htrap := jumps_trap (M := M) hopen3 merge
  have hgrows3 := (htrap.changes.grows_blocks fun _ => True).setInsertPoint
  have hworks3 : ∀ id, (b3.setInsertPoint default).Works id → b.Works id :=
    fun id => Builder.Works.setInsertPoint (Nat.le_trans h.emits.grows hgrowsLen) hd
  refine ⟨((h.emits.changes hchanges3).setInsertPoint default).trans (.inr hd) htrap.changes,
    ⟨fun edge he => ?_, fun edge he => ?_, h3.nodup⟩, fun frame callers m output F hF hw hat => ?_⟩
  · exact .inr (Nat.le_trans h.emits.grows (hlen ▸ h3.works edge he))
  · obtain ⟨block', hblock', hclosed'⟩ := h3.closed edge he
    obtain ⟨block'', hblock'', hle⟩ := hgrows3 edge.2 trivial block' hblock'
    exact ⟨block'', hblock'', by rw [hle.2 hclosed']; exact hclosed'⟩
  · have hw1 : Within b b1 F.blocks := hw.part ((hchanges3.grows_blocks _).trans hgrows3)
      fun id hid => ⟨hid, trivial⟩
    refine (h.runs frame callers m output F hF hw1 hat).bind fun v frame1 m1 output1 h1 => ?_
    obtain ⟨hat1, hkept, heval⟩ := h1
    have hF1 : M.functions[frame1.function]? = some F := by rw [hkept.function]; exact hF
    -- the switch in the finished function has all its cases
    obtain ⟨switched, hswitched, hle⟩ := hgrows3 b1.insertBlock trivial _ hswitch
    rw [hle.2 (by simp)] at hswitched
    obtain ⟨final, hfinal, hle'⟩ := hw b1.insertBlock h.emits.insertBlock _ hswitched
    rw [hle'.2 (by simp)] at hfinal
    obtain ⟨hblock1, block1, hb1, hindex⟩ := hat1
    rw [hblock] at hb1
    cases hb1
    rw [← hblock1] at hfinal
    have hstep : step M (.running frame1 callers m1 output1) =
        stepTerminator M frame1 callers m1 output1 (.switch tag default cases) :=
      step_terminator hF1 hfinal (Nat.le_of_eq hindex.symm) rfl
    simp only [stepTerminator, heval] at hstep
    have hkept' : ∀ target, Kept b.next frame (frame1.jump target) := fun target =>
      hkept.trans (Kept.jump b.next frame1 target) (Nat.le_refl _)
    cases v with
    | int n =>
      simp only [Behaviour.dispatch]
      refine Realises.of_steps (.single hstep) ?_
      cases hfind : cases.find? (·.1 = n) with
      | some entry =>
        have hrun := h3.enters n entry hfind (frame1.jump entry.2) callers m1 output1 F hF1
          (fun id hid block' hb' => ?_) rfl rfl
        · rw [hD n frame _ (hkept' entry.2)] at hrun
          simp only [Option.map_some, Option.getD_some]
          exact hrun.mono fun v' frame2 h2 => ⟨h2.1,
            (hkept' entry.2).trans h2.2 (Nat.le_trans h.emits.next hchanges.next)⟩
        · obtain ⟨block'', hb'', hle2⟩ := hgrows3 id trivial block' hb'
          obtain ⟨final', hfinal', hle3⟩ :=
            hw id (.inr (Nat.le_trans h.emits.grows (hlen ▸ hid))) block'' hb''
          exact ⟨final', hfinal', hle2.trans hle3⟩
      | none =>
        simp only [Option.map_none, Option.getD_none]
        have hat2 : AtEnd (b3.setInsertPoint default) (frame1.jump default) :=
          atEnd_jump rfl hdefault3
        have hrun := htrap.runs (frame1.jump default) callers m1 output1 F hF1
          (hw.part (Grows.refl (fun _ => True) _) fun id hid => ⟨hworks3 id hid, trivial⟩) hat2
        rw [← hD n frame frame ⟨rfl, rfl, fun _ _ => rfl⟩, h3.default n hfind]
        refine hrun.mono fun v' frame2 h2 => ?_
        obtain ⟨op, hop, _⟩ := h2.1.edge
        simp at hop
    | _ => exact Dead.of_stuck id hstep

end llvm
