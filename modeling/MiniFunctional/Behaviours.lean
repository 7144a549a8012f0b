-- What single instructions do, as behaviours of the values of their operands.
import MiniFunctional.EmittedCode

namespace llvm

namespace Behaviour

variable {α : Type}

/-- No result is undefined behaviour. -/
def ofOption : Option α → Behaviour α
  | some a => pure a
  | none => undefined

def binary (op : BinaryOp) (left right : Val) : Behaviour Val := ofOption (op.applyVal left right)

def icmpEq (left right : Val) : Behaviour Val := ofOption (icmpEqVal left right)

def structGEP (pointer : Val) (field : Nat) : Behaviour Val := fun m =>
  ofOption (gepVal m (8 * field) pointer) m

def gep (pointer index : Val) : Behaviour Val := fun m =>
  match index with
  | .int n => if n.msb then undefined m else ofOption (gepVal m (8 * n.toNat) pointer) m
  | _ => undefined m

def load (type : Ty) (pointer : Val) : Behaviour Val := fun m =>
  match pointer with
  | .ptr p => ofOption ((m.read p).filter type.holds) m
  | _ => undefined m

def store (value pointer : Val) : Behaviour Val := fun m output =>
  match pointer with
  | .ptr p =>
    match m.write p value with
    | some m' => .returns .poison m' output
    | none => .dead
  | _ => .dead

def ptrtoint (value : Val) : Behaviour Val := ofOption (ptrtointVal value)

def inttoptr (value : Val) : Behaviour Val := ofOption (inttoptrVal value)

def malloc (size : Val) : Behaviour Val := fun m output =>
  match size with
  | .int n => .returns (.ptr (m.allocate n.toNat).1) (m.allocate n.toNat).2 output
  | _ => .dead

/-- `printf("%ld\n", value)`. -/
def printf (value : Val) : Behaviour Val := fun m output =>
  match format "%ld\n" value with
  | some line => .returns (.int32 (BitVec.ofNat 32 line.length)) m (output ++ line)
  | none => .dead

/-- `br i1`. -/
def choose (condition : Val) (ifTrue ifFalse : Behaviour α) : Behaviour α :=
  match condition with
  | .bool b => if b then ifTrue else ifFalse
  | _ => undefined

/-- `switch i64`. -/
def dispatch (value : Val) (cases : BitVec 64 → Behaviour α) : Behaviour α :=
  match value with
  | .int n => cases n
  | _ => undefined

end Behaviour

/-! ## The instructions -/

section

variable (frame : Frame)

/-- An instruction that leaves the memory. -/
theorem execute_map {i : Instruction} {o : Memory → Option Val}
    (h : ∀ m, execute frame m i = (o m).map (·, m)) :
    executeBehaviour frame i = fun m => Behaviour.ofOption (o m) m := by
  funext m output
  unfold executeBehaviour
  rw [h]
  cases o m with
  | none => rfl
  | some v => rfl

theorem execute_binary (op : BinaryOp) (left right : Operand) :
    executeBehaviour frame (.binary op left right) =
      Behaviour.binary op (frame.eval left) (frame.eval right) :=
  execute_map frame fun _ => rfl

theorem execute_icmpEq (left right : Operand) :
    executeBehaviour frame (.icmpEq left right) =
      Behaviour.icmpEq (frame.eval left) (frame.eval right) :=
  execute_map frame fun _ => rfl

theorem execute_structGEP (fields : List Ty) (pointer : Operand) (field : Nat) :
    executeBehaviour frame (.structGEP fields pointer field) =
      Behaviour.structGEP (frame.eval pointer) field :=
  execute_map frame fun _ => rfl

theorem execute_gep (pointer index : Operand) :
    executeBehaviour frame (.gep pointer index) =
      Behaviour.gep (frame.eval pointer) (frame.eval index) := by
  funext m output
  unfold executeBehaviour Behaviour.gep
  simp only [execute]
  cases frame.eval index with
  | int n =>
    by_cases hn : n.msb
    · simp [hn, Behaviour.undefined]
    · simp only [hn, Bool.false_eq_true, if_false]
      cases gepVal m (8 * n.toNat) (frame.eval pointer) with
      | none => rfl
      | some v => rfl
  | _ => rfl

theorem execute_load (type : Ty) (pointer : Operand) :
    executeBehaviour frame (.load type pointer) = Behaviour.load type (frame.eval pointer) := by
  funext m output
  unfold executeBehaviour Behaviour.load
  simp only [execute]
  cases frame.eval pointer with
  | ptr p =>
    simp only
    cases (m.read p).filter type.holds with
    | none => rfl
    | some v => rfl
  | _ => rfl

theorem execute_store (value pointer : Operand) :
    executeBehaviour frame (.store value pointer) =
      Behaviour.store (frame.eval value) (frame.eval pointer) := by
  funext m output
  unfold executeBehaviour Behaviour.store
  simp only [execute]
  cases frame.eval pointer with
  | ptr p =>
    simp only
    cases m.write p (frame.eval value) with
    | none => rfl
    | some m' => rfl
  | _ => rfl

theorem execute_ptrtoint (value : Operand) :
    executeBehaviour frame (.ptrtoint value) = Behaviour.ptrtoint (frame.eval value) :=
  execute_map frame fun _ => rfl

theorem execute_inttoptr (value : Operand) :
    executeBehaviour frame (.inttoptr value) = Behaviour.inttoptr (frame.eval value) :=
  execute_map frame fun _ => rfl

theorem execute_malloc (size : Operand) :
    executeBehaviour frame (.call .malloc [size]) = Behaviour.malloc (frame.eval size) := by
  funext m output
  unfold executeBehaviour Behaviour.malloc
  simp only [execute]
  cases frame.eval size with
  | int n => rfl
  | _ => rfl

end

theorem codes_printf {M : Module} {b : Builder} (h : b.Open) (value : Operand) :
    Codes M b (b.insert (.call .printf [.globalString "%ld\n", value])).2
      (fun frame => Behaviour.printf (frame.eval value))
      (fun v frame => frame.eval (.result b.next) = v) := by
  refine ⟨emits_insert h _, fun frame callers m output F hF hw hat => ?_⟩
  obtain ⟨hstep, -⟩ := step_insert _ hF hw hat
  simp only [stepInstruction] at hstep
  unfold Behaviour.printf
  cases hline : format "%ld\n" (frame.eval value) with
  | none =>
    simp only [Frame.eval] at hline hstep
    rw [hline] at hstep
    exact Dead.of_stuck (by simp) hstep
  | some line =>
    have hnext : step M (.running frame callers m output) = some (.running
        (frame.next b.next (.int32 (BitVec.ofNat 32 line.length))) callers m
        (output ++ line)) := by
      rw [hstep]
      exact congrArg (Option.map _) hline
    exact ⟨_, ⟨atEnd_insert _ hat _, Kept.next _ _ _, eval_next _ _ _⟩, .single hnext⟩

/-- The function whose only code is emitted from its entry to a return. -/
theorem Codes.call {M : Module} {b : Builder} {n : Nat} {F : Function} {op : Operand}
    {B : Frame → Behaviour Val} (h : Codes M .entry b B fun v frame => frame.eval op = v)
    (hF : M.functions[n]? = some F) (hblocks : F.blocks = (b.terminate (.ret op)).blocks)
    (arguments : List Val) : callBehaviour M n arguments = B (.enter n arguments) := by
  funext m output
  have hgrows := (changes_terminate h.emits.opened (.ret op)).1.grows_blocks fun _ => True
  have hat : AtEnd .entry (Frame.enter n arguments) := ⟨rfl, .empty, rfl, rfl⟩
  have hw : Within .entry b F.blocks := fun id _ block hblock => by
    rw [hblocks]
    exact hgrows id trivial block hblock
  have hrun := h.runs (.enter n arguments) [] m output F hF hw hat
  cases ho : B (.enter n arguments) m output with
  | returns v m' output' =>
    rw [ho] at hrun
    obtain ⟨frame', ⟨hat', hkept, hv⟩, hsteps⟩ := hrun
    have hF' : M.functions[frame'.function]? = some F := by
      rw [hkept.function]
      exact hF
    have hstep : step M (.running frame' [] m' output') =
        stepTerminator M frame' [] m' output' (.ret op) :=
      step_terminate h.emits.opened (.ret op) hF'
        (fun id _ block hblock => ⟨block, by rw [hblocks]; exact hblock, .refl block⟩) hat'
    rw [callBehaviour_returns_iff, ← hv]
    exact hsteps.trans (.single hstep)
  | traps output' =>
    rw [ho] at hrun
    exact callBehaviour_traps_iff.mpr hrun
  | dead =>
    rw [ho] at hrun
    exact callBehaviour_of_dead hrun

end llvm
