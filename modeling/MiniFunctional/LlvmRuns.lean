-- Runs of the machine. They are deterministic, a callee runs as it would
-- alone, and a piece of code has one of three outcomes: it returns a value,
-- it traps, or the run never halts (it goes on forever or is undefined).
import MiniFunctional.Llvm

namespace llvm

variable {M : Module}

/-! ## Halting -/

@[simp] def State.Halted : State → Prop
  | .running _ _ _ _ => False
  | .finished _ _ _ => True
  | .trapped _ => True

theorem step_halted {S : State} (h : S.Halted) : step M S = none := by
  cases S with
  | running => exact absurd h id
  | finished => rfl
  | trapped => rfl

theorem Steps.trans {S S1 S2 : State} (h : Steps M S S1) (h' : Steps M S1 S2) : Steps M S S2 :=
  Relation.ReflTransGen.trans h h'

/-- Every state of a run is on the way to the state in which it halts. -/
theorem Steps.through {S S' F : State} (hF : F.Halted) (h : Steps M S F) (h' : Steps M S S') :
    Steps M S' F := by
  induction h' using Relation.ReflTransGen.head_induction_on with
  | refl => exact h
  | head hstep _ ih =>
    refine ih ?_
    rcases Relation.ReflTransGen.cases_head h with heq | ⟨S1, hstep', hrest⟩
    · subst heq
      rw [step_halted hF] at hstep
      cases hstep
    · rw [hstep] at hstep'
      cases hstep'
      exact hrest

theorem Steps.halted_unique {S F F' : State} (hF : F.Halted) (hF' : F'.Halted) (h : Steps M S F)
    (h' : Steps M S F') : F = F' := by
  have hrest := h.through hF h'
  rcases Relation.ReflTransGen.cases_head hrest with heq | ⟨S1, hstep, _⟩
  · exact heq.symm
  · rw [step_halted hF'] at hstep
    cases hstep

/-- The run from here never halts. -/
def Dead (M : Module) (S : State) : Prop := ∀ F, F.Halted → ¬ Steps M S F

theorem Dead.of_steps {S S' : State} (h : Steps M S S') (hd : Dead M S') : Dead M S :=
  fun F hF hrun => hd F hF (hrun.through hF h)

theorem Dead.of_stuck {S : State} (hrunning : ¬ S.Halted) (h : step M S = none) : Dead M S := by
  intro F hF hrun
  rcases Relation.ReflTransGen.cases_head hrun with heq | ⟨S1, hstep, _⟩
  · exact hrunning (heq ▸ hF)
  · rw [h] at hstep
    cases hstep

/-! ## Callees -/

/-- The state of a callee, as the machine has it with the callers below. -/
def State.under (M : Module) (callers : List Frame) : State → Option State
  | .running frame cs m output => some (.running frame (cs ++ callers) m output)
  | .finished v m output => returnTo M callers v m output
  | .trapped output => some (.trapped output)

theorem stepInstruction_append (frame : Frame) (cs callers : List Frame) (m : Memory)
    (output : String) (id : Nat) (i : Instruction) :
    stepInstruction M frame (cs ++ callers) m output id i =
      (stepInstruction M frame cs m output id i).bind (State.under M callers) := by
  unfold stepInstruction
  split
  · rename_i function arguments
    cases M.functions[function]? with
    | none => rfl
    | some callee =>
      simp only [Option.bind_some]
      split
      · rfl
      · rfl
  · rename_i text value
    split
    · rename_i s _
      cases format s (frame.eval value) with
      | none => rfl
      | some line => rfl
    · rfl
  · rfl
  · cases execute frame m i with
    | none => rfl
    | some result => rfl

theorem stepTerminator_append (frame : Frame) (cs callers : List Frame) (m : Memory)
    (output : String) (t : Terminator) :
    stepTerminator M frame (cs ++ callers) m output t =
      (stepTerminator M frame cs m output t).bind (State.under M callers) := by
  cases t with
  | ret value =>
    cases cs with
    | nil => rfl
    | cons caller cs =>
      simp only [stepTerminator, List.cons_append, returnTo]
      cases M.functions[caller.function]? with
      | none => rfl
      | some function =>
        cases hb : function.blocks[caller.block]? with
        | none => simp [hb]
        | some block =>
          cases hi : block.instructions[caller.index]? with
          | none => simp [hb, hi]
          | some entry => simp [hb, hi, State.under]
  | br target => rfl
  | condBr condition ifTrue ifFalse =>
    simp only [stepTerminator]
    split
    · rfl
    · rfl
  | switch value default cases =>
    simp only [stepTerminator]
    split
    · rfl
    · rfl
  | unreachable => rfl

theorem step_append (frame : Frame) (cs callers : List Frame) (m : Memory) (output : String) :
    step M (.running frame (cs ++ callers) m output) =
      (step M (.running frame cs m output)).bind (State.under M callers) := by
  simp only [step]
  cases M.functions[frame.function]? with
  | none => rfl
  | some function =>
    cases hb : function.blocks[frame.block]? with
    | none => simp [hb]
    | some block =>
      simp only [Option.bind_eq_bind, Option.bind_some, hb]
      cases block.instructions[frame.index]? with
      | none =>
        cases block.terminator with
        | none => rfl
        | some t => exact stepTerminator_append frame cs callers m output t
      | some entry => exact stepInstruction_append frame cs callers m output entry.1 entry.2

/-- A callee that halts takes the machine with it to where it halts. -/
theorem steps_under {frame : Frame} {cs : List Frame} {m : Memory} {output : String} {F S : State}
    (hF : F.Halted) (h : Steps M (.running frame cs m output) F) (callers : List Frame)
    (hS : F.under M callers = some S) : Steps M (.running frame (cs ++ callers) m output) S := by
  generalize hstart : State.running frame cs m output = start at h
  induction h using Relation.ReflTransGen.head_induction_on generalizing frame cs m output with
  | refl =>
    subst hstart
    exact absurd hF id
  | @head S0 S1 hstep hrest ih =>
    subst hstart
    have hnext := step_append (M := M) frame cs callers m output
    rw [hstep, Option.bind_some] at hnext
    cases S1 with
    | running frame1 cs1 m1 output1 => exact .head hnext (ih rfl)
    | finished v m1 output1 =>
      rcases Relation.ReflTransGen.cases_head hrest with heq | ⟨S2, hstep2, _⟩
      · rw [heq] at hnext
        exact .single (hnext.trans hS)
      · cases hstep2
    | trapped output1 =>
      rcases Relation.ReflTransGen.cases_head hrest with heq | ⟨S2, hstep2, _⟩
      · rw [heq] at hnext
        exact .single (hnext.trans hS)
      · cases hstep2

/-- A run that halts has seen every callee in it halt. -/
theorem halts_alone {frame : Frame} {cs callers : List Frame} {m : Memory} {output : String}
    {F : State} (hF : F.Halted) (h : Steps M (.running frame (cs ++ callers) m output) F) :
    ∃ F', F'.Halted ∧ Steps M (.running frame cs m output) F' := by
  generalize hstart : State.running frame (cs ++ callers) m output = start at h
  induction h using Relation.ReflTransGen.head_induction_on generalizing frame cs m output with
  | refl =>
    subst hstart
    exact absurd hF id
  | @head S0 S1 hstep hrest ih =>
    subst hstart
    rw [step_append] at hstep
    obtain ⟨S', hstep', hunder⟩ := Option.bind_eq_some_iff.mp hstep
    cases S' with
    | running frame1 cs1 m1 output1 =>
      cases hunder
      obtain ⟨F', hF', hrun⟩ := ih rfl
      exact ⟨F', hF', .head hstep' hrun⟩
    | finished v m1 output1 => exact ⟨_, by simp, .single hstep'⟩
    | trapped output1 => exact ⟨_, by simp, .single hstep'⟩

/-! ## Outcomes -/

inductive Outcome (α : Type)
  | returns (value : α) (memory : Memory) (output : String)
  | traps (output : String)
  | dead

/-- What code does, from the memory and the output before it. -/
def Behaviour (α : Type) := Memory → String → Outcome α

namespace Behaviour

variable {α β : Type}

protected def pure (a : α) : Behaviour α := fun m output => .returns a m output

protected def bind (x : Behaviour α) (f : α → Behaviour β) : Behaviour β := fun m output =>
  match x m output with
  | .returns a m output => f a m output
  | .traps output => .traps output
  | .dead => .dead

instance : Monad Behaviour where
  pure := Behaviour.pure
  bind := Behaviour.bind

/-- Undefined behaviour. -/
def undefined : Behaviour α := fun _ _ => .dead

def trap : Behaviour α := fun _ output => .traps output

@[simp] theorem pure_run (a : α) (m : Memory) (output : String) :
    (pure a : Behaviour α) m output = .returns a m output := rfl

theorem bind_run (x : Behaviour α) (f : α → Behaviour β) (m : Memory) (output : String) :
    (x >>= f) m output = match x m output with
      | .returns a m output => f a m output
      | .traps output => .traps output
      | .dead => .dead := rfl

theorem bind_returns {x : Behaviour α} {m m' : Memory} {output output' : String} {a : α}
    (h : x m output = .returns a m' output') (f : α → Behaviour β) :
    (x >>= f) m output = f a m' output' := by
  rw [bind_run, h]

theorem bind_traps {x : Behaviour α} {m : Memory} {output output' : String}
    (h : x m output = .traps output') (f : α → Behaviour β) :
    (x >>= f) m output = .traps output' := by
  rw [bind_run, h]

instance : LawfulMonad Behaviour := LawfulMonad.mk' _
  (fun x => by
    funext m output
    change (x >>= fun a => pure a) m output = _
    rw [bind_run]
    cases x m output <;> rfl)
  (fun _ _ => rfl)
  (fun x f g => by
    funext m output
    rw [bind_run, bind_run, bind_run]
    cases x m output <;> rfl)

end Behaviour

def State.outcome : State → Outcome Val
  | .running _ _ _ _ => .dead
  | .finished v m output => .returns v m output
  | .trapped output => .traps output

open Classical in
/-- What a call of the function does. -/
noncomputable def callBehaviour (M : Module) (function : Nat) (arguments : List Val) :
    Behaviour Val := fun m output =>
  if h : ∃ F, F.Halted ∧ Steps M (.running (.enter function arguments) [] m output) F then
    h.choose.outcome
  else .dead

theorem callBehaviour_of_halts {function : Nat} {arguments : List Val} {m : Memory}
    {output : String} {F : State} (hF : F.Halted)
    (h : Steps M (.running (.enter function arguments) [] m output) F) :
    callBehaviour M function arguments m output = F.outcome := by
  have hex : ∃ F, F.Halted ∧ Steps M (.running (.enter function arguments) [] m output) F :=
    ⟨F, hF, h⟩
  unfold callBehaviour
  rw [dif_pos hex, Steps.halted_unique hex.choose_spec.1 hF hex.choose_spec.2 h]

/-- A call whose outcome is not `dead` halts with it. -/
theorem callBehaviour_halts {function : Nat} {arguments : List Val} {m : Memory}
    {output : String} (h : callBehaviour M function arguments m output ≠ .dead) :
    ∃ F, F.Halted ∧ Steps M (.running (.enter function arguments) [] m output) F ∧
      callBehaviour M function arguments m output = F.outcome := by
  by_cases hex : ∃ F, F.Halted ∧ Steps M (.running (.enter function arguments) [] m output) F
  · obtain ⟨F, hF, hrun⟩ := hex
    exact ⟨F, hF, hrun, callBehaviour_of_halts hF hrun⟩
  · exact absurd (by unfold callBehaviour; rw [dif_neg hex]) h

theorem callBehaviour_returns_iff {function : Nat} {arguments : List Val} {m m' : Memory}
    {output output' : String} {v : Val} :
    callBehaviour M function arguments m output = .returns v m' output' ↔
      Steps M (.running (.enter function arguments) [] m output) (.finished v m' output') := by
  constructor
  · intro h
    obtain ⟨F, hF, hrun, heq⟩ := callBehaviour_halts (by rw [h]; simp)
    rw [h] at heq
    cases F with
    | running => exact absurd hF id
    | finished v' m'' output'' =>
      cases heq
      exact hrun
    | trapped output'' => cases heq
  · intro h
    exact callBehaviour_of_halts (by simp) h

theorem callBehaviour_traps_iff {function : Nat} {arguments : List Val} {m : Memory}
    {output output' : String} :
    callBehaviour M function arguments m output = .traps output' ↔
      Steps M (.running (.enter function arguments) [] m output) (.trapped output') := by
  constructor
  · intro h
    obtain ⟨F, hF, hrun, heq⟩ := callBehaviour_halts (by rw [h]; simp)
    rw [h] at heq
    cases F with
    | running => exact absurd hF id
    | finished v' m'' output'' => cases heq
    | trapped output'' =>
      cases heq
      exact hrun
  · intro h
    exact callBehaviour_of_halts (by simp) h

theorem callBehaviour_dead {function : Nat} {arguments : List Val} {m : Memory} {output : String}
    (h : callBehaviour M function arguments m output = .dead) :
    Dead M (.running (.enter function arguments) [] m output) := by
  intro F hF hrun
  rw [callBehaviour_of_halts hF hrun] at h
  cases F with
  | running => exact hF
  | finished v m' output' => cases h
  | trapped output' => cases h

theorem callBehaviour_of_dead {function : Nat} {arguments : List Val} {m : Memory}
    {output : String} (h : Dead M (.running (.enter function arguments) [] m output)) :
    callBehaviour M function arguments m output = .dead := by
  unfold callBehaviour
  rw [dif_neg fun ⟨F, hF, hrun⟩ => h F hF hrun]

/-! ## Code that behaves so -/

section

variable {α β : Type} {callers : List Frame}

/-- The machine, where `frame` is, has the outcome; where the code returns, `Q`
holds of the frame that is reached. -/
def Realises (M : Module) (callers : List Frame) (frame : Frame) (m : Memory) (output : String)
    (Q : α → Frame → Prop) : Outcome α → Prop
  | .returns a m' output' => ∃ frame', Q a frame' ∧
    Steps M (.running frame callers m output) (.running frame' callers m' output')
  | .traps output' => Steps M (.running frame callers m output) (.trapped output')
  | .dead => Dead M (.running frame callers m output)

theorem Realises.mono {frame : Frame} {m : Memory} {output : String} {Q Q' : α → Frame → Prop}
    {o : Outcome α} (h : Realises M callers frame m output Q o)
    (hQ : ∀ a frame', Q a frame' → Q' a frame') : Realises M callers frame m output Q' o := by
  cases o with
  | returns a m' output' =>
    obtain ⟨frame', hq, hrun⟩ := h
    exact ⟨frame', hQ a frame' hq, hrun⟩
  | traps output' => exact h
  | dead => exact h

theorem Realises.of_steps {frame frame' : Frame} {m m' : Memory} {output output' : String}
    {Q : α → Frame → Prop} {o : Outcome α}
    (h : Steps M (.running frame callers m output) (.running frame' callers m' output'))
    (ho : Realises M callers frame' m' output' Q o) : Realises M callers frame m output Q o := by
  cases o with
  | returns a m'' output'' =>
    obtain ⟨frame'', hq, hrun⟩ := ho
    exact ⟨frame'', hq, h.trans hrun⟩
  | traps output'' => exact h.trans ho
  | dead => exact Dead.of_steps h ho

/-- Code after code. -/
theorem Realises.bind {frame : Frame} {m : Memory} {output : String} {x : Behaviour α}
    {f : α → Behaviour β} {Q : α → Frame → Prop} {Q' : β → Frame → Prop}
    (h : Realises M callers frame m output Q (x m output))
    (hf : ∀ a frame' m' output', Q a frame' →
      Realises M callers frame' m' output' Q' (f a m' output')) :
    Realises M callers frame m output Q' ((x >>= f) m output) := by
  rw [Behaviour.bind_run]
  cases hx : x m output with
  | returns a m' output' =>
    rw [hx] at h
    obtain ⟨frame', hq, hrun⟩ := h
    exact (hf a frame' m' output' hq).of_steps hrun
  | traps output' =>
    rw [hx] at h
    exact h
  | dead =>
    rw [hx] at h
    exact h

end

end llvm
