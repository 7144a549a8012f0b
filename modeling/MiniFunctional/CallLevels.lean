-- A module that has its functions once for each depth of calls: a call goes to
-- the copy for the next depth, and the copies after the last depth are stubs.
-- A run that opens no more calls than there are levels is a run of the copies.
import MiniFunctional.Relinking

namespace llvm

/-! ## Levels -/

/-- The functions without their code. -/
def stubs (M : Module) (body : List BasicBlock) : Module :=
  ⟨M.functions.map fun F => { F with blocks := body }⟩

/-- The functions, whose calls are of those of `rest`, and then those. -/
def stack (M rest : Module) : Module :=
  ⟨(M.functions ++ rest.functions).map (·.relink (· + M.functions.length))⟩

/-- `k` levels of the functions, and the stubs. -/
def levels (M : Module) (body : List BasicBlock) : Nat → Module
  | 0 => stubs M body
  | k + 1 => stack M (levels M body k)

/-- `rest`, and functions that call it. -/
def onTop (M rest : Module) : Module := ⟨rest.functions ++ M.functions⟩

/-- Where `stack` has the functions of `onTop`. -/
def overPlace (M rest : Module) (n : Nat) : Nat :=
  if n < rest.functions.length then n + M.functions.length else n - rest.functions.length

variable {body : List BasicBlock} {M rest : Module} {S : State}

theorem stack_rest (M rest : Module) : Embeds rest (stack M rest) (· + M.functions.length) := by
  intro n F hF
  show ((M.functions ++ rest.functions).map _)[n + M.functions.length]? = _
  rw [List.getElem?_map, List.getElem?_append_right (by omega), Nat.add_sub_cancel, hF]
  rfl

theorem over_rest (M rest : Module) : Embeds rest (onTop M rest) id := by
  intro n F hF
  rw [Function.relink_id]
  show (rest.functions ++ M.functions)[n]? = _
  rw [List.getElem?_append_left (List.getElem?_eq_some_iff.mp hF).1, hF]

theorem over_old (hrest : rest.Closed) {n : Nat} (hn : n < rest.functions.length)
    (arguments : List Val) :
    callBehaviour (onTop M rest) n arguments = callBehaviour rest n arguments :=
  (over_rest M rest).callBehaviour hrest hn arguments

section

variable (hclosed : M.Closed) (hrest : rest.Closed)
  (hlength : M.functions.length ≤ rest.functions.length)

include hclosed hrest hlength

theorem over_calls {F : Function} (hF : F ∈ (onTop M rest).functions) {n : Nat} (hn : F.Calls n) :
    n < rest.functions.length := by
  rcases List.mem_append.mp hF with hF | hF
  · exact hrest F hF n hn
  · exact Nat.lt_of_lt_of_le (hclosed F hF n hn) hlength

theorem over_closed : (onTop M rest).Closed := by
  intro F hF n hn
  have hlt := over_calls hclosed hrest hlength hF hn
  show n < (rest.functions ++ M.functions).length
  rw [List.length_append]
  omega

theorem stack_over : Embeds (onTop M rest) (stack M rest) (overPlace M rest) := by
  intro n F hF
  have hrelink : F.relink (overPlace M rest) = F.relink (· + M.functions.length) := by
    apply Function.relink_congr
    intro n' hn'
    unfold overPlace
    rw [if_pos (over_calls hclosed hrest hlength (List.mem_of_getElem? hF) hn')]
  rw [hrelink]
  by_cases hlt : n < rest.functions.length
  · have hF' : rest.functions[n]? = some F := by
      rw [← hF]
      exact (List.getElem?_append_left hlt).symm
    unfold overPlace
    rw [if_pos hlt]
    exact stack_rest M rest n F hF'
  · have hF' : M.functions[n - rest.functions.length]? = some F := by
      rw [← hF]
      exact (List.getElem?_append_right (Nat.le_of_not_lt hlt)).symm
    unfold overPlace
    rw [if_neg hlt]
    show ((M.functions ++ rest.functions).map _)[n - rest.functions.length]? = _
    rw [List.getElem?_map, List.getElem?_append_left (List.getElem?_eq_some_iff.mp hF').1, hF']
    rfl

/-- What is put over the rest does there what it does on the top of the stack. -/
theorem over_top {n : Nat} (hn : n < M.functions.length) (arguments : List Val) :
    callBehaviour (stack M rest) n arguments =
      callBehaviour (onTop M rest) (rest.functions.length + n) arguments := by
  have hlt : rest.functions.length + n < (onTop M rest).functions.length := by
    show _ < (rest.functions ++ M.functions).length
    rw [List.length_append]
    omega
  have hplace : overPlace M rest (rest.functions.length + n) = n := by
    unfold overPlace
    rw [if_neg (by omega), Nat.add_sub_cancel_left]
  have hsame := (stack_over hclosed hrest hlength).callBehaviour
    (over_closed hclosed hrest hlength) hlt arguments
  rw [hplace] at hsame
  exact hsame

theorem stack_closed : (stack M rest).Closed := by
  intro F hF n hn
  obtain ⟨F', hF', rfl⟩ := List.mem_map.mp hF
  obtain ⟨n', hn', rfl⟩ := Function.calls_relink hn
  have hover : F' ∈ (onTop M rest).functions :=
    List.mem_append.mpr (List.mem_append.mp hF').symm
  have hlt := over_calls hclosed hrest hlength hover hn'
  show n' + M.functions.length < ((M.functions ++ rest.functions).map _).length
  rw [List.length_map, List.length_append]
  omega

end

theorem levels_closed (hclosed : M.Closed)
    (hbody : ∀ F : Function, F.blocks = body → ∀ n, ¬ F.Calls n) (k : Nat) :
    (levels M body k).Closed ∧
      M.functions.length ≤ (levels M body k).functions.length := by
  induction k with
  | zero =>
    constructor
    · intro F hF n hn
      obtain ⟨F', _, rfl⟩ := List.mem_map.mp hF
      exact absurd hn (hbody _ rfl n)
    · exact Nat.le_of_eq (List.length_map _).symm
  | succ k ih =>
    constructor
    · exact stack_closed hclosed ih.1 ih.2
    · show _ ≤ ((M.functions ++ (levels M body k).functions).map _).length
      rw [List.length_map, List.length_append]
      omega

/-- Where the function `n` is for the depth `d`. -/
def levelPlace (M : Module) (d n : Nat) : Nat := n + M.functions.length * d

theorem levelPlace_succ (M : Module) (d : Nat) :
    (· + M.functions.length) ∘ levelPlace M d = levelPlace M (d + 1) := by
  funext n
  unfold levelPlace
  rw [Nat.mul_add, Nat.mul_one, ← Nat.add_assoc]
  rfl

theorem levels_copies (M : Module) (body : List BasicBlock) (k : Nat) :
    Copies M (levels M body k) (levelPlace M) k := by
  have hfirst : levelPlace M 0 = id := by
    funext n
    unfold levelPlace
    rfl
  induction k with
  | zero =>
    constructor
    · exact fun d hd => absurd hd (Nat.not_lt_zero d)
    · intro d hd n F hF
      rw [Nat.le_zero.mp hd, hfirst]
      refine ⟨{ F with blocks := body }, ?_, rfl⟩
      show (M.functions.map _)[n]? = _
      rw [List.getElem?_map, hF]
      rfl
  | succ k ih =>
    have htop : ∀ n F, M.functions[n]? = some F →
        (levels M body (k + 1)).functions[levelPlace M 0 n]? =
          some (F.relink (levelPlace M 1)) := by
      intro n F hF
      rw [← levelPlace_succ, hfirst]
      show ((M.functions ++ (levels M body k).functions).map _)[n]? = _
      rw [List.getElem?_map, List.getElem?_append_left (List.getElem?_eq_some_iff.mp hF).1, hF]
      rfl
    constructor
    · intro d hd n F hF
      cases d with
      | zero => exact htop n F hF
      | succ d =>
        have hcode := stack_rest M _ _ _ (ih.code d (Nat.lt_of_succ_lt_succ hd) n F hF)
        rw [Function.relink_relink, levelPlace_succ] at hcode
        rw [← levelPlace_succ]
        exact hcode
    · intro d hd n F hF
      cases d with
      | zero => exact ⟨_, htop n F hF, rfl⟩
      | succ d =>
        obtain ⟨F', hF', hparameters⟩ := ih.parameters d (Nat.le_of_succ_le_succ hd) n F hF
        rw [← levelPlace_succ]
        exact ⟨_, stack_rest M _ _ _ hF', hparameters⟩

/-! ## What calls do on each level -/

section

variable (hclosed : M.Closed) {n : Nat} (hn : n < M.functions.length) {k l : Nat}
  {arguments : List Val} {m : Memory} {output : String}
  (hrun : stepsFrom M l (.running (.enter n arguments) [] m output) = some S)

include hclosed hn hrun

/-- A run that is no longer than there are levels is a run of the copies. -/
theorem levels_run (body : List BasicBlock) (hl : l ≤ k) :
    stepsFrom (levels M body k) l (.running (.enter n arguments) [] m output) =
      some (S.move (levelPlace M)) := by
  have hinside := startInside hn arguments m output
  have hdepth : (State.running (.enter n arguments) [] m output).depth + l ≤ k := by
    show 0 + l ≤ k
    omega
  have hmove := stepsFrom_move (levels_copies M body k) hclosed hdepth hinside
  rw [hrun] at hmove
  exact hmove

theorem levels_halts (body : List BasicBlock) (hl : l ≤ k) (hS : S.Halted) :
    callBehaviour (levels M body k) n arguments m output = S.outcome := by
  apply callBehaviour_of_halts hS
  apply steps_iff_stepsFrom.mpr
  have hlevels := levels_run hclosed hn hrun body hl
  rw [State.move_halted _ hS] at hlevels
  exact ⟨l, hlevels⟩

theorem levels_stuck (body : List BasicBlock) (hl : l < k) (hS : ¬ S.Halted)
    (hstuck : step M S = none) :
    callBehaviour (levels M body k) n arguments m output = .dead := by
  obtain ⟨hinside, hdepth⟩ := stepsFrom_inside hrun (startInside hn arguments m output)
  have hnext := step_move (levels_copies M body k) hclosed
    (Nat.lt_of_le_of_lt hdepth (show 0 + l < k by omega)) hinside
  rw [hstuck] at hnext
  have hlevels := levels_run hclosed hn hrun body (Nat.le_of_lt hl)
  apply callBehaviour_of_dead
  apply Dead.of_steps (steps_iff_stepsFrom.mpr ⟨l, hlevels⟩)
  exact .of_stuck (fun hhalted => hS (State.halted_of_move hhalted)) hnext

end

/-! ## Stubs -/

/-- The stub traps. -/
def trapBody : List BasicBlock := [⟨[(0, .call .trap [])], some .unreachable⟩]

/-- The stub runs forever. -/
def loopBody : List BasicBlock := [⟨[], some (.br 0)⟩]

theorem stubs_getElem {n : Nat} (hn : n < M.functions.length) (body : List BasicBlock) :
    ∃ F, (stubs M body).functions[n]? = some F ∧ F.blocks = body := by
  refine ⟨{ M.functions[n] with blocks := body }, ?_, rfl⟩
  show (M.functions.map _)[n]? = _
  rw [List.getElem?_map, List.getElem?_eq_getElem hn]
  rfl

theorem trapStub_traps {n : Nat} (hn : n < M.functions.length) (arguments : List Val) (m : Memory)
    (output : String) : callBehaviour (stubs M trapBody) n arguments m output = .traps output := by
  obtain ⟨F, hF, hblocks⟩ := stubs_getElem hn trapBody
  apply callBehaviour_traps_iff.mpr
  apply Relation.ReflTransGen.single
  unfold step Frame.enter
  simp only [hF, Option.bind_eq_bind, Option.bind_some, hblocks]
  rfl

theorem loopStub_dead {n : Nat} (hn : n < M.functions.length) (arguments : List Val) (m : Memory)
    (output : String) : callBehaviour (stubs M loopBody) n arguments m output = .dead := by
  obtain ⟨F, hF, hblocks⟩ := stubs_getElem hn loopBody
  apply callBehaviour_of_dead
  intro S hS hrun
  have hback : step (stubs M loopBody) (.running (.enter n arguments) [] m output) =
      some (.running (.enter n arguments) [] m output) := by
    unfold step Frame.enter
    simp only [hF, Option.bind_eq_bind, Option.bind_some, hblocks]
    rfl
  generalize hstart : State.running (.enter n arguments) [] m output = start at hrun hback
  induction hrun using Relation.ReflTransGen.head_induction_on with
  | refl =>
    rw [← hstart] at hS
    exact hS
  | head hstep _ ih =>
    rw [hback] at hstep
    cases hstep
    exact ih hstart hback

theorem trapBody_calls (F : Function) (hF : F.blocks = trapBody) (n : Nat) : ¬ F.Calls n := by
  intro h
  obtain ⟨block, hblock, id, arguments, hentry⟩ := h
  rw [hF] at hblock
  simp [trapBody] at hblock
  subst hblock
  simp at hentry

theorem loopBody_calls (F : Function) (hF : F.blocks = loopBody) (n : Nat) : ¬ F.Calls n := by
  intro h
  obtain ⟨block, hblock, id, arguments, hentry⟩ := h
  rw [hF] at hblock
  simp [loopBody] at hblock
  subst hblock
  simp at hentry

end llvm
