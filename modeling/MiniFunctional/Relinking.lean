-- Functions whose calls go to other places. Where a module has copies of the
-- functions of another, for each depth of calls or for all, the copies do step
-- by step what the functions do.
import MiniFunctional.LlvmRuns

namespace llvm

/-! ## Code that calls functions at other places -/

def Callee.relink (σ : Nat → Nat) : Callee → Callee
  | .defined function => .defined (σ function)
  | .malloc => .malloc
  | .printf => .printf
  | .trap => .trap

def Instruction.relink (σ : Nat → Nat) : Instruction → Instruction
  | .call callee arguments => .call (callee.relink σ) arguments
  | instruction => instruction

def BasicBlock.relink (σ : Nat → Nat) (block : BasicBlock) : BasicBlock :=
  { block with instructions := block.instructions.map fun entry => (entry.1, entry.2.relink σ) }

def Function.relink (σ : Nat → Nat) (F : Function) : Function :=
  { F with blocks := F.blocks.map (·.relink σ) }

/-- The function has a call of the function `n`. -/
def Function.Calls (F : Function) (n : Nat) : Prop :=
  ∃ block ∈ F.blocks, ∃ id arguments, (id, .call (.defined n) arguments) ∈ block.instructions

/-- All functions that are called are there. -/
def Module.Closed (M : Module) : Prop :=
  ∀ F ∈ M.functions, ∀ n, F.Calls n → n < M.functions.length

variable {σ σ' : Nat → Nat}

theorem Instruction.relink_congr {i : Instruction}
    (h : ∀ n arguments, i = .call (.defined n) arguments → σ n = σ' n) :
    i.relink σ = i.relink σ' := by
  cases i with
  | call callee arguments =>
    cases callee with
    | defined n =>
      show Instruction.call (.defined (σ n)) arguments = .call (.defined (σ' n)) arguments
      rw [h n arguments rfl]
    | _ => rfl
  | _ => rfl

theorem Instruction.relink_relink (i : Instruction) :
    (i.relink σ).relink σ' = i.relink (σ' ∘ σ) := by
  cases i with
  | call callee arguments =>
    cases callee with
    | _ => rfl
  | _ => rfl

theorem Instruction.relink_id (i : Instruction) : i.relink id = i := by
  cases i with
  | call callee arguments =>
    cases callee with
    | _ => rfl
  | _ => rfl

theorem Function.relink_congr {F : Function} (h : ∀ n, F.Calls n → σ n = σ' n) :
    F.relink σ = F.relink σ' := by
  unfold relink
  congr 1
  apply List.map_congr_left
  intro block hblock
  unfold BasicBlock.relink
  congr 1
  apply List.map_congr_left
  intro entry hentry
  congr 1
  apply Instruction.relink_congr
  intro n arguments hi
  exact h n ⟨block, hblock, entry.1, arguments, hi ▸ hentry⟩

theorem Function.relink_relink (F : Function) : (F.relink σ).relink σ' = F.relink (σ' ∘ σ) := by
  unfold relink BasicBlock.relink
  simp only [List.map_map]
  congr 1
  apply List.map_congr_left
  intro block _
  simp only [Function.comp, List.map_map]
  congr 1
  apply List.map_congr_left
  intro entry _
  exact congrArg (Prod.mk entry.1) entry.2.relink_relink

theorem Function.calls_relink {F : Function} {n : Nat} (h : (F.relink σ).Calls n) :
    ∃ n', F.Calls n' ∧ n = σ n' := by
  obtain ⟨relinked, hrelinked, k, arguments, hentry⟩ := h
  obtain ⟨block, hblock, rfl⟩ := List.mem_map.mp hrelinked
  obtain ⟨⟨k', i⟩, hentry', heq⟩ := List.mem_map.mp hentry
  cases i with
  | call callee arguments' =>
    cases callee with
    | defined n' =>
      cases heq
      exact ⟨n', ⟨block, hblock, _, _, hentry'⟩, rfl⟩
    | _ => cases heq
  | _ => cases heq

theorem Function.relink_id (F : Function) : F.relink id = F := by
  unfold relink BasicBlock.relink
  simp [Instruction.relink_id]

/-! ## Runs of a number of steps -/

/-- The state after so many steps, if there are so many. -/
def stepsFrom (M : Module) : Nat → State → Option State
  | 0, S => some S
  | n + 1, S => (step M S).bind (stepsFrom M n)

variable {M V V' : Module} {S S' F : State}

theorem steps_iff_stepsFrom : Steps M S S' ↔ ∃ n, stepsFrom M n S = some S' := by
  constructor
  · intro h
    induction h using Relation.ReflTransGen.head_induction_on with
    | refl => exact ⟨0, rfl⟩
    | head hstep _ ih =>
      obtain ⟨n, hn⟩ := ih
      refine ⟨n + 1, ?_⟩
      unfold stepsFrom
      rw [hstep]
      exact hn
  · intro h
    obtain ⟨n, hn⟩ := h
    induction n generalizing S with
    | zero =>
      cases hn
      exact .refl
    | succ n ih =>
      unfold stepsFrom at hn
      obtain ⟨S1, hstep, hrest⟩ := Option.bind_eq_some_iff.mp hn
      exact .head hstep (ih hrest)

/-! ## States of the copies -/

/-- The number of calls that are open below the running function. -/
def State.depth : State → Nat
  | .running _ callers _ _ => callers.length
  | .finished _ _ _ => 0
  | .trapped _ => 0

/-- All functions that run are in the module. -/
def State.Inside (M : Module) : State → Prop
  | .running frame callers _ _ => ∀ f ∈ frame :: callers, f.function < M.functions.length
  | .finished _ _ _ => True
  | .trapped _ => True

theorem startInside {n : Nat} (hn : n < M.functions.length) (arguments : List Val) (m : Memory)
    (output : String) : (State.running (.enter n arguments) [] m output).Inside M := by
  intro f hf
  rw [List.mem_singleton.mp hf]
  exact hn

def Frame.move (σ : Nat → Nat) (frame : Frame) : Frame :=
  { frame with function := σ frame.function }

@[simp] theorem Frame.move_function (frame : Frame) :
    (frame.move σ).function = σ frame.function := rfl

@[simp] theorem Frame.move_block (frame : Frame) : (frame.move σ).block = frame.block := rfl

@[simp] theorem Frame.move_index (frame : Frame) : (frame.move σ).index = frame.index := rfl

/-- What a step leads to: it goes on in the function, it calls one of the module, it
returns to the caller, or it halts. -/
inductive Leads (M : Module) (frame : Frame) (callers : List Frame) : State → Prop
  | stays {frame' : Frame} (m : Memory) (output : String) :
    frame'.function = frame.function → Leads M frame callers (.running frame' callers m output)
  | calls {n : Nat} (arguments : List Val) (m : Memory) (output : String) :
    n < M.functions.length →
    Leads M frame callers (.running (.enter n arguments) (frame :: callers) m output)
  | returns {caller caller' : Frame} {below : List Frame} (m : Memory) (output : String) :
    callers = caller :: below → caller'.function = caller.function →
    Leads M frame callers (.running caller' below m output)
  | halts {S : State} : S.Halted → Leads M frame callers S

theorem stepInstruction_leads {frame : Frame} {callers : List Frame} {m : Memory}
    {output : String} {id : Nat} {i : Instruction}
    (h : stepInstruction M frame callers m output id i = some S) : Leads M frame callers S := by
  unfold stepInstruction at h
  split at h
  · rename_i n arguments
    obtain ⟨callee, hcallee, h⟩ := Option.bind_eq_some_iff.mp h
    by_cases hlength : callee.parameters.length = arguments.length
    · rw [if_pos hlength] at h
      cases h
      exact .calls _ m output (List.getElem?_eq_some_iff.mp hcallee).1
    · rw [if_neg hlength] at h
      cases h
  · rename_i text value
    cases htext : frame.eval text with
    | string s =>
      simp only [htext] at h
      obtain ⟨line, _, rfl⟩ := Option.map_eq_some_iff.mp h
      exact .stays m _ rfl
    | _ =>
      simp only [htext] at h
      cases h
  · cases h
    exact .halts trivial
  · obtain ⟨result, _, rfl⟩ := Option.map_eq_some_iff.mp h
    exact .stays result.2 output rfl

theorem stepTerminator_leads {frame : Frame} {callers : List Frame} {m : Memory}
    {output : String} {t : Terminator}
    (h : stepTerminator M frame callers m output t = some S) : Leads M frame callers S := by
  cases t with
  | ret value =>
    simp only [stepTerminator] at h
    cases callers with
    | nil =>
      cases h
      exact .halts trivial
    | cons caller callers =>
      unfold returnTo at h
      obtain ⟨F, _, h⟩ := Option.bind_eq_some_iff.mp h
      obtain ⟨block, _, h⟩ := Option.bind_eq_some_iff.mp h
      obtain ⟨entry, _, h⟩ := Option.bind_eq_some_iff.mp h
      cases h
      exact .returns m output rfl rfl
  | br target =>
    cases h
    exact .stays m output rfl
  | condBr condition ifTrue ifFalse =>
    simp only [stepTerminator] at h
    cases hcondition : frame.eval condition with
    | bool b =>
      simp only [hcondition] at h
      cases h
      exact .stays m output rfl
    | _ =>
      simp only [hcondition] at h
      cases h
  | switch value default cases =>
    simp only [stepTerminator] at h
    cases hvalue : frame.eval value with
    | int n =>
      simp only [hvalue] at h
      cases h
      exact .stays m output rfl
    | _ =>
      simp only [hvalue] at h
      cases h
  | unreachable => cases h

theorem step_leads {frame : Frame} {callers : List Frame} {m : Memory} {output : String}
    (h : step M (.running frame callers m output) = some S) : Leads M frame callers S := by
  unfold step at h
  obtain ⟨F, _, h⟩ := Option.bind_eq_some_iff.mp h
  obtain ⟨block, _, h⟩ := Option.bind_eq_some_iff.mp h
  cases hentry : block.instructions[frame.index]? with
  | none =>
    simp only [hentry] at h
    obtain ⟨t, _, h⟩ := Option.bind_eq_some_iff.mp h
    exact stepTerminator_leads h
  | some entry =>
    simp only [hentry] at h
    exact stepInstruction_leads h

/-- A step opens one call at most, of a function of the module. -/
theorem step_inside (h : step M S = some S') (hinside : S.Inside M) :
    S'.Inside M ∧ S'.depth ≤ S.depth + 1 := by
  cases S with
  | finished v m output => cases h
  | trapped output => cases h
  | running frame callers m output =>
    cases step_leads h with
    | stays m output hfunction =>
      constructor
      · intro f hf
        rcases List.mem_cons.mp hf with rfl | hf
        · rw [hfunction]
          exact hinside frame List.mem_cons_self
        · exact hinside f (List.mem_cons_of_mem frame hf)
      · exact Nat.le_succ _
    | calls arguments m output hn =>
      constructor
      · intro f hf
        rcases List.mem_cons.mp hf with rfl | hf
        · exact hn
        · exact hinside f hf
      · exact Nat.le_refl _
    | @returns caller caller' below m output hcallers hfunction =>
      subst hcallers
      constructor
      · intro f hf
        rcases List.mem_cons.mp hf with rfl | hf
        · rw [hfunction]
          exact hinside caller (by simp)
        · exact hinside f (by simp [hf])
      · show below.length ≤ (caller :: below).length + 1
        rw [List.length_cons]
        omega
    | halts hhalted =>
      cases S' with
      | running => exact absurd hhalted id
      | finished => exact ⟨trivial, Nat.zero_le _⟩
      | trapped => exact ⟨trivial, Nat.zero_le _⟩

theorem stepsFrom_inside {n : Nat} (h : stepsFrom M n S = some S') (hinside : S.Inside M) :
    S'.Inside M ∧ S'.depth ≤ S.depth + n := by
  induction n generalizing S with
  | zero =>
    cases h
    exact ⟨hinside, Nat.le_refl _⟩
  | succ n ih =>
    unfold stepsFrom at h
    obtain ⟨S1, hstep, hrest⟩ := Option.bind_eq_some_iff.mp h
    obtain ⟨hinside1, hdepth⟩ := step_inside hstep hinside
    obtain ⟨hinside', hdepth'⟩ := ih hrest hinside1
    exact ⟨hinside', by omega⟩

/-- A frame with `d` callers below runs the copy for the depth `d`. -/
def moveFrames (place : Nat → Nat → Nat) : List Frame → List Frame
  | [] => []
  | frame :: callers => frame.move (place callers.length) :: moveFrames place callers

def State.move (place : Nat → Nat → Nat) : State → State
  | .running frame callers m output =>
    .running (frame.move (place callers.length)) (moveFrames place callers) m output
  | .finished v m output => .finished v m output
  | .trapped output => .trapped output

@[simp] theorem Frame.eval_move (frame : Frame) : (frame.move σ).eval = frame.eval := by
  funext op
  cases op with
  | _ => rfl

theorem State.move_halted (place : Nat → Nat → Nat) (h : S.Halted) : S.move place = S := by
  cases S with
  | running => exact absurd h id
  | finished => rfl
  | trapped => rfl

theorem State.halted_of_move {place : Nat → Nat → Nat} (h : (S.move place).Halted) : S.Halted := by
  cases S with
  | running => exact absurd h id
  | finished => exact h
  | trapped => exact h

/-- `V'` has the functions of `V` for each depth below `k`, and functions with the
same parameters for the depth `k`. -/
structure Copies (V V' : Module) (place : Nat → Nat → Nat) (k : Nat) : Prop where
  code : ∀ d < k, ∀ n F, V.functions[n]? = some F →
    V'.functions[place d n]? = some (F.relink (place (d + 1)))
  parameters : ∀ d ≤ k, ∀ n F, V.functions[n]? = some F →
    ∃ F', V'.functions[place d n]? = some F' ∧ F'.parameters = F.parameters

section

variable {place : Nat → Nat → Nat} {k : Nat}

theorem execute_move (frame : Frame) (m : Memory) (i : Instruction) :
    execute (frame.move σ) m i = execute frame m i := by
  unfold execute
  split
  all_goals simp only [Frame.eval_move]
  rfl

theorem Function.relink_block (F : Function) (b : BlockId) :
    (F.relink σ).blocks[b]? = F.blocks[b]?.map (·.relink σ) :=
  List.getElem?_map

theorem BasicBlock.relink_instruction (block : BasicBlock) (index : Nat) :
    (block.relink σ).instructions[index]? =
      block.instructions[index]?.map fun entry => (entry.1, entry.2.relink σ) :=
  List.getElem?_map

theorem stepInstruction_moved (frame : Frame) (callers : List Frame) (m : Memory)
    (output : String) (id : Nat) {i : Instruction}
    (hi : ∀ n arguments, i ≠ .call (.defined n) arguments) :
    stepInstruction V' (frame.move (place callers.length)) (moveFrames place callers) m output id
      i = (stepInstruction V frame callers m output id i).map (State.move place) := by
  unfold stepInstruction
  split
  · exact absurd rfl (hi _ _)
  · rename_i text value
    simp only [Frame.eval_move]
    cases frame.eval text with
    | string s =>
      cases hline : format s (frame.eval value) with
      | none => simp [hline]
      | some line =>
        simp only [hline]
        rfl
    | _ => rfl
  · rfl
  · rw [execute_move]
    cases execute frame m i with
    | none => rfl
    | some result => rfl

variable (hcopies : Copies V V' place k)

include hcopies

theorem returnTo_move {callers : List Frame} (hk : callers.length ≤ k)
    (hinside : ∀ f ∈ callers, f.function < V.functions.length) (v : Val) (m : Memory)
    (output : String) : returnTo V' (moveFrames place callers) v m output =
      (returnTo V callers v m output).map (State.move place) := by
  cases callers with
  | nil => rfl
  | cons caller callers =>
    obtain ⟨F, hF⟩ : ∃ F, V.functions[caller.function]? = some F :=
      ⟨_, List.getElem?_eq_getElem (hinside caller List.mem_cons_self)⟩
    have hcode := hcopies.code callers.length hk caller.function F hF
    unfold moveFrames returnTo Frame.move
    simp only [hF, hcode, Function.relink_block, Option.bind_eq_bind, Option.bind_some]
    cases hblock : F.blocks[caller.block]? with
    | none => simp
    | some block =>
      simp only [Option.map_some, Option.bind_some, BasicBlock.relink_instruction]
      cases hentry : block.instructions[caller.index]? with
      | none => simp
      | some entry => simp [State.move, Frame.move, Frame.next]

/-- A call goes one level deeper. -/
theorem stepInstruction_move {frame : Frame} {callers : List Frame} (hk : callers.length < k)
    {i : Instruction}
    (hclosed : ∀ n arguments, i = .call (.defined n) arguments → n < V.functions.length)
    (m : Memory) (output : String) (id : Nat) :
    stepInstruction V' (frame.move (place callers.length)) (moveFrames place callers) m output id
      (i.relink (place (callers.length + 1))) =
      (stepInstruction V frame callers m output id i).map (State.move place) := by
  cases i with
  | call callee arguments =>
    cases callee with
    | defined n =>
      obtain ⟨F, hF⟩ : ∃ F, V.functions[n]? = some F :=
        ⟨_, List.getElem?_eq_getElem (hclosed n arguments rfl)⟩
      obtain ⟨F', hF', hparameters⟩ := hcopies.parameters (callers.length + 1) hk n F hF
      simp only [Instruction.relink, Callee.relink, stepInstruction, hF, hF', Option.bind_some,
        hparameters]
      by_cases hlength : F.parameters.length = arguments.length
      · rw [if_pos hlength, if_pos hlength]
        simp only [Frame.eval_move]
        rfl
      · rw [if_neg hlength, if_neg hlength]
        rfl
    | _ =>
      exact stepInstruction_moved frame callers m output id
        (by simp [Instruction.relink, Callee.relink])
  | _ => exact stepInstruction_moved frame callers m output id (by simp [Instruction.relink])

theorem stepTerminator_move {frame : Frame} {callers : List Frame} (hk : callers.length ≤ k)
    (hinside : ∀ f ∈ callers, f.function < V.functions.length) (m : Memory) (output : String)
    (t : Terminator) :
    stepTerminator V' (frame.move (place callers.length)) (moveFrames place callers) m output t =
      (stepTerminator V frame callers m output t).map (State.move place) := by
  cases t with
  | ret value =>
    simp only [stepTerminator, Frame.eval_move]
    exact returnTo_move hcopies hk hinside _ m output
  | br target => rfl
  | condBr condition ifTrue ifFalse =>
    simp only [stepTerminator, Frame.eval_move]
    cases frame.eval condition with
    | bool b => rfl
    | _ => rfl
  | switch value default cases =>
    simp only [stepTerminator, Frame.eval_move]
    cases frame.eval value with
    | int n => rfl
    | _ => rfl
  | unreachable => rfl

/-- As long as calls are not too deep, the copies do what the functions do. -/
theorem step_move (hclosed : V.Closed) (hk : S.depth < k) (hinside : S.Inside V) :
    step V' (S.move place) = (step V S).map (State.move place) := by
  cases S with
  | finished v m output => rfl
  | trapped output => rfl
  | running frame callers m output =>
    obtain ⟨F, hF⟩ : ∃ F, V.functions[frame.function]? = some F :=
      ⟨_, List.getElem?_eq_getElem (hinside frame List.mem_cons_self)⟩
    have hcode := hcopies.code callers.length hk frame.function F hF
    simp only [State.move, step, Frame.move_function, Frame.move_block, Frame.move_index, hcode, hF,
      Option.bind_eq_bind, Option.bind_some, Function.relink_block]
    cases hblock : F.blocks[frame.block]? with
    | none => rfl
    | some block =>
      simp only [Option.map_some, Option.bind_some, BasicBlock.relink_instruction]
      cases hentry : block.instructions[frame.index]? with
      | none =>
        show block.terminator.bind _ = (block.terminator.bind _).map _
        cases block.terminator with
        | none => rfl
        | some t =>
          exact stepTerminator_move hcopies (Nat.le_of_lt hk)
            (fun f hf => hinside f (List.mem_cons_of_mem frame hf)) m output t
      | some entry =>
        apply stepInstruction_move hcopies hk
        intro n arguments hi
        apply hclosed F (List.mem_of_getElem? hF)
        exact ⟨block, List.mem_of_getElem? hblock, entry.1, arguments,
          hi ▸ List.mem_of_getElem? hentry⟩

theorem stepsFrom_move (hclosed : V.Closed) {n : Nat} (hk : S.depth + n ≤ k)
    (hinside : S.Inside V) :
    stepsFrom V' n (S.move place) = (stepsFrom V n S).map (State.move place) := by
  induction n generalizing S with
  | zero => rfl
  | succ n ih =>
    unfold stepsFrom
    rw [step_move hcopies hclosed (by omega) hinside]
    cases hstep : step V S with
    | none => rfl
    | some S1 =>
      obtain ⟨hinside1, hdepth⟩ := step_inside hstep hinside
      exact ih (by omega) hinside1

end

/-! ## Modules in modules -/

/-- `V'` has the functions of `V`, at the places that `σ` says. -/
def Embeds (V V' : Module) (σ : Nat → Nat) : Prop :=
  ∀ n F, V.functions[n]? = some F → V'.functions[σ n]? = some (F.relink σ)

theorem Embeds.copies (h : Embeds V V' σ) (k : Nat) : Copies V V' (fun _ => σ) k := by
  constructor
  · exact fun _ _ n F hF => h n F hF
  · exact fun _ _ n F hF => ⟨F.relink σ, h n F hF, rfl⟩

/-- The functions of a module do in another what they do in it. -/
theorem Embeds.callBehaviour (h : Embeds V V' σ) (hclosed : V.Closed) {n : Nat}
    (hn : n < V.functions.length) (arguments : List Val) :
    callBehaviour V' (σ n) arguments = callBehaviour V n arguments := by
  funext m output
  have hinside := startInside hn arguments m output
  have hruns : ∀ k, stepsFrom V' k (.running (.enter (σ n) arguments) [] m output) =
      (stepsFrom V k (.running (.enter n arguments) [] m output)).map (State.move fun _ => σ) :=
    fun k => stepsFrom_move (h.copies k) hclosed (by simp [State.depth]) hinside
  by_cases hhalts : ∃ F, F.Halted ∧ Steps V (.running (.enter n arguments) [] m output) F
  · obtain ⟨F, hF, hrun⟩ := hhalts
    obtain ⟨k, hk⟩ := steps_iff_stepsFrom.mp hrun
    rw [callBehaviour_of_halts hF hrun]
    apply callBehaviour_of_halts hF
    apply steps_iff_stepsFrom.mpr
    refine ⟨k, ?_⟩
    rw [hruns, hk, Option.map_some, State.move_halted _ hF]
  · have hdead : Dead V (.running (.enter n arguments) [] m output) :=
      fun F hF hrun => hhalts ⟨F, hF, hrun⟩
    rw [callBehaviour_of_dead hdead]
    apply callBehaviour_of_dead
    intro F hF hrun
    obtain ⟨k, hk⟩ := steps_iff_stepsFrom.mp hrun
    rw [hruns] at hk
    obtain ⟨S, hS, rfl⟩ := Option.map_eq_some_iff.mp hk
    exact hdead S (State.halted_of_move hF) (steps_iff_stepsFrom.mpr ⟨k, hS⟩)

end llvm
