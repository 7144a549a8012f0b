-- Code that writes each cell of the heap once. The instructions of a block have
-- assertions between them; a store is to a cell that holds nothing yet. In every
-- run of a module with such blocks, what a cell holds it keeps.
import MiniFunctional.HeapCells

namespace llvm

/-! ## Memory -/

namespace Memory

variable {m m1 m2 m' : Memory}

/-- The blocks stay, with their sizes, and the cells that hold something keep it. -/
def Keeps (m m' : Memory) : Prop :=
  ∀ (b : Nat) (cells : List Val), m[b]? = some cells → ∃ cells' : List Val,
    m'[b]? = some cells' ∧ cells'.length = cells.length ∧
      ∀ (i : Nat) (v : Val), cells[i]? = some v → v ≠ .poison → cells'[i]? = some v

theorem Keeps.refl (m : Memory) : m.Keeps m := fun _ cells h => ⟨cells, h, rfl, fun _ _ hv _ => hv⟩

theorem Keeps.trans (h : m.Keeps m1) (h' : m1.Keeps m2) : m.Keeps m2 := by
  intro b cells hb
  obtain ⟨cells1, hb1, hlength1, hkept1⟩ := h b cells hb
  obtain ⟨cells2, hb2, hlength2, hkept2⟩ := h' b cells1 hb1
  exact ⟨cells2, hb2, hlength2.trans hlength1, fun i v hv hne => hkept2 i v (hkept1 i v hv hne) hne⟩

theorem keeps_allocate (m : Memory) (size : Nat) : m.Keeps (m.allocate size).2 := by
  intro b cells hb
  refine ⟨cells, ?_, rfl, fun _ _ hv _ => hv⟩
  unfold allocate
  rw [List.getElem?_append_left (List.getElem?_eq_some_iff.mp hb).1]
  exact hb

/-- A write to a cell that holds nothing. -/
theorem keeps_set {b i : Nat} {cells : List Val} (hb : m[b]? = some cells)
    (hempty : cells[i]? = some .poison) (v : Val) : m.Keeps (m.set b (cells.set i v)) := by
  intro b' cells' hb'
  by_cases hsame : b = b'
  · subst hsame
    rw [hb] at hb'
    cases hb'
    refine ⟨cells.set i v, ?_, List.length_set, fun j w hw hne => ?_⟩
    · rw [List.getElem?_set_self (List.getElem?_eq_some_iff.mp hb).1]
    · by_cases hij : i = j
      · subst hij
        rw [hempty] at hw
        cases hw
        exact absurd rfl hne
      · rw [List.getElem?_set_ne hij]
        exact hw
  · exact ⟨cells', by rw [List.getElem?_set_ne hsame]; exact hb', rfl, fun _ _ hw _ => hw⟩

end Memory

/-! ## Assertions -/

abbrev Assertion := Frame → Memory → Prop

/-- Nothing is known. -/
def Anywhere : Assertion := fun _ _ => True

/-- From `A`, the instruction `id` leads to `B`. Of a function that is called
nothing is known. -/
def Instruction.Takes (A : Assertion) (id : Nat) (B : Assertion) : Instruction → Prop
  | .call (.defined _) _ => ∀ frame m, A frame m → ∀ v m', B (frame.next id v) m'
  | .call .printf _ => ∀ frame m, A frame m → ∀ v, B (frame.next id v) m
  | i => ∀ frame m, A frame m → ∀ v m', execute frame m i = some (v, m') →
    m.Keeps m' ∧ B (frame.next id v) m'

/-- From `A` to `B`, with assertions between the instructions. -/
def Annotated (A : Assertion) : List (Nat × Instruction) → Assertion → Prop
  | [], B => ∀ frame m, A frame m → B frame m
  | (id, i) :: l, B => ∃ A', i.Takes A id A' ∧ Annotated A' l B

theorem Annotated.weaken {A B B' : Assertion} {l : List (Nat × Instruction)}
    (h : Annotated A l B) (hB : ∀ frame m, B frame m → B' frame m) : Annotated A l B' := by
  induction l generalizing A with
  | nil => exact fun frame m hA => hB frame m (h frame m hA)
  | cons entry l ih =>
    obtain ⟨A', htakes, hrest⟩ := h
    exact ⟨A', htakes, ih hrest⟩

theorem Instruction.Takes.strengthen {A A' B : Assertion} {id : Nat} {i : Instruction}
    (h : i.Takes A' id B) (hA : ∀ frame m, A frame m → A' frame m) : i.Takes A id B := by
  cases i with
  | call callee arguments =>
    cases callee with
    | defined function => exact fun frame m hm => h frame m (hA frame m hm)
    | malloc => exact fun frame m hm => h frame m (hA frame m hm)
    | printf => exact fun frame m hm => h frame m (hA frame m hm)
    | trap => exact fun frame m hm => h frame m (hA frame m hm)
  | _ => exact fun frame m hm => h frame m (hA frame m hm)

theorem Annotated.snoc {A B C : Assertion} {l : List (Nat × Instruction)} {id : Nat}
    {i : Instruction} (h : Annotated A l B) (hi : i.Takes B id C) :
    Annotated A (l ++ [(id, i)]) C := by
  induction l generalizing A with
  | nil => exact ⟨C, hi.strengthen h, fun _ _ hC => hC⟩
  | cons entry l ih =>
    obtain ⟨A', htakes, hrest⟩ := h
    exact ⟨A', htakes, ih hrest⟩

/-- Every block of the function is annotated. -/
def Function.WritesOnce (F : Function) : Prop :=
  ∀ block ∈ F.blocks, Annotated Anywhere block.instructions Anywhere

def Module.WritesOnce (M : Module) : Prop := ∀ F ∈ M.functions, F.WritesOnce

/-! ## States -/

variable {M : Module}

/-- What is left of the block is annotated from an assertion that holds. -/
def Frame.Holds (M : Module) (frame : Frame) (m : Memory) : Prop :=
  ∃ A : Assertion, A frame m ∧ ∀ F block, M.functions[frame.function]? = some F →
    F.blocks[frame.block]? = some block →
    Annotated A (block.instructions.drop frame.index) Anywhere

/-- The same of a caller, for whatever the callee returns. -/
def Frame.Waits (M : Module) (frame : Frame) : Prop :=
  ∀ F block id i, M.functions[frame.function]? = some F → F.blocks[frame.block]? = some block →
    block.instructions[frame.index]? = some (id, i) →
    ∃ A : Assertion, (∀ v m, A (frame.next id v) m) ∧
      Annotated A (block.instructions.drop (frame.index + 1)) Anywhere

def State.Holds (M : Module) : State → Prop
  | .running frame callers m _ => frame.Holds M m ∧ ∀ caller ∈ callers, caller.Waits M
  | .finished _ _ _ => True
  | .trapped _ => True

def State.memory : State → Option Memory
  | .running _ _ m _ => some m
  | .finished _ m _ => some m
  | .trapped _ => none

/-- What the memory of `S` holds that of `S'` holds, where it has one. -/
def State.Keeps (S S' : State) : Prop :=
  ∀ m', S'.memory = some m' → ∃ m, S.memory = some m ∧ m.Keeps m'

theorem State.Keeps.refl (S : State) : S.Keeps S := fun m h => ⟨m, h, .refl m⟩

theorem State.Keeps.trans {S S1 S2 : State} (h : S.Keeps S1) (h' : S1.Keeps S2) :
    S.Keeps S2 := by
  intro m2 hm2
  obtain ⟨m1, hm1, hkept1⟩ := h' m2 hm2
  obtain ⟨m, hm, hkept⟩ := h m1 hm1
  exact ⟨m, hm, hkept.trans hkept1⟩

/-- At the beginning of a block nothing needs to be known. -/
theorem Frame.Holds.start (hM : M.WritesOnce) {frame : Frame} (h : frame.index = 0) (m : Memory) :
    frame.Holds M m := by
  refine ⟨Anywhere, trivial, fun F block hF hblock => ?_⟩
  rw [h, List.drop_zero]
  exact hM F (List.mem_of_getElem? hF) block (List.mem_of_getElem? hblock)

theorem holds_enter (hM : M.WritesOnce) (function : Nat) (arguments : List Val) (m : Memory)
    (output : String) : (State.running (.enter function arguments) [] m output).Holds M :=
  ⟨.start hM rfl m, by simp⟩

/-! ## Steps -/

theorem drop_of_getElem? {α : Type} {l : List α} {i : Nat} {a : α} (h : l[i]? = some a) :
    l.drop i = a :: l.drop (i + 1) := by
  obtain ⟨hlt, rfl⟩ := List.getElem?_eq_some_iff.mp h
  exact List.drop_eq_getElem_cons hlt

/-- The instruction, from the assertion that holds, leads to one that holds. -/
theorem holds_instruction (hM : M.WritesOnce) {frame : Frame} {callers : List Frame} {m : Memory}
    {output : String} {F : Function} {block : BasicBlock} {id : Nat} {i : Instruction} {S' : State}
    (hF : M.functions[frame.function]? = some F) (hblock : F.blocks[frame.block]? = some block)
    (hi : block.instructions[frame.index]? = some (id, i)) (hholds : frame.Holds M m)
    (hcallers : ∀ caller ∈ callers, caller.Waits M)
    (h : stepInstruction M frame callers m output id i = some S') :
    S'.Holds M ∧ (State.running frame callers m output).Keeps S' := by
  obtain ⟨A, hA, hannotated⟩ := hholds
  have hrest := hannotated F block hF hblock
  rw [drop_of_getElem? hi] at hrest
  obtain ⟨A', htakes, hrest⟩ := hrest
  have hnext : ∀ v m', A' (frame.next id v) m' → (frame.next id v).Holds M m' := by
    intro v m' hA'
    refine ⟨A', hA', fun F' block' hF' hblock' => ?_⟩
    rw [show (frame.next id v).function = frame.function from rfl, hF] at hF'
    cases hF'
    rw [show (frame.next id v).block = frame.block from rfl, hblock] at hblock'
    cases hblock'
    exact hrest
  -- the instructions of `execute`
  have hplain : (∀ v m', execute frame m i = some (v, m') →
      m.Keeps m' ∧ A' (frame.next id v) m') → (execute frame m i).map (fun result =>
        State.running (frame.next id result.1) callers result.2 output) = some S' →
      S'.Holds M ∧ (State.running frame callers m output).Keeps S' := by
    intro hexecute hmap
    obtain ⟨⟨v, m'⟩, hresult, rfl⟩ := Option.map_eq_some_iff.mp hmap
    obtain ⟨hkeeps, hA'⟩ := hexecute v m' hresult
    refine ⟨⟨hnext v m' hA', hcallers⟩, fun m2 hm2 => ?_⟩
    cases hm2
    exact ⟨m, rfl, hkeeps⟩
  unfold stepInstruction at h
  split at h
  · -- a call: the caller waits
    obtain ⟨callee, hcallee, h⟩ := Option.bind_eq_some_iff.mp h
    split at h
    · cases h
      refine ⟨⟨.start hM rfl m, ?_⟩, .refl _⟩
      intro caller hcaller
      rcases List.mem_cons.mp hcaller with rfl | hcaller
      · intro F' block' id' i' hF' hblock' hi'
        rw [hF] at hF'
        cases hF'
        rw [hblock] at hblock'
        cases hblock'
        rw [hi] at hi'
        cases hi'
        exact ⟨A', fun v m' => htakes _ m hA v m', hrest⟩
      · exact hcallers caller hcaller
    · cases h
  · split at h
    · obtain ⟨line, hline, rfl⟩ := Option.map_eq_some_iff.mp h
      exact ⟨⟨hnext _ m (htakes frame m hA _), hcallers⟩, fun m2 hm2 => ⟨m2, hm2, .refl m2⟩⟩
    · cases h
  · cases h
    exact ⟨trivial, fun m2 hm2 => by cases hm2⟩
  · rename_i hdefined hprintf htrap
    refine hplain ?_ h
    intro v m' hexecute
    unfold Instruction.Takes at htakes
    split at htakes
    · cases hexecute
    · cases hexecute
    · exact htakes frame m hA v m' hexecute

theorem holds_return {callers : List Frame} {v : Val} {m : Memory} {output : String} {S' : State}
    (hcallers : ∀ caller ∈ callers, caller.Waits M) (h : returnTo M callers v m output = some S') :
    S'.Holds M ∧ S'.memory = some m := by
  cases callers with
  | nil =>
    cases h
    exact ⟨trivial, rfl⟩
  | cons caller callers =>
    simp only [returnTo, Option.bind_eq_bind, Option.bind_eq_some_iff] at h
    obtain ⟨F, hF, block, hblock, ⟨id, i⟩, hi, h⟩ := h
    cases h
    obtain ⟨A, hA, hrest⟩ := hcallers caller List.mem_cons_self F block id i hF hblock hi
    refine ⟨⟨⟨A, hA v m, fun F' block' hF' hblock' => ?_⟩, fun c hc =>
      hcallers c (List.mem_cons_of_mem _ hc)⟩, rfl⟩
    rw [show (caller.next id v).function = caller.function from rfl, hF] at hF'
    cases hF'
    rw [show (caller.next id v).block = caller.block from rfl, hblock] at hblock'
    cases hblock'
    exact hrest

theorem holds_terminator (hM : M.WritesOnce) {frame : Frame} {callers : List Frame} {m : Memory}
    {output : String} {t : Terminator} {S' : State} (hcallers : ∀ caller ∈ callers, caller.Waits M)
    (h : stepTerminator M frame callers m output t = some S') :
    S'.Holds M ∧ S'.memory = some m := by
  have hjump : ∀ target, (State.running (frame.jump target) callers m output).Holds M :=
    fun target => ⟨.start hM rfl m, hcallers⟩
  cases t with
  | ret value => exact holds_return hcallers h
  | br target =>
    cases h
    exact ⟨hjump target, rfl⟩
  | condBr condition ifTrue ifFalse =>
    simp only [stepTerminator] at h
    split at h
    · cases h
      exact ⟨hjump _, rfl⟩
    · cases h
  | switch value default cases =>
    simp only [stepTerminator] at h
    split at h
    · cases h
      exact ⟨hjump _, rfl⟩
    · cases h
  | unreachable => cases h

/-- One step. -/
theorem step_keeps (hM : M.WritesOnce) {S S' : State} (hS : S.Holds M) (h : step M S = some S') :
    S'.Holds M ∧ S.Keeps S' := by
  cases S with
  | finished => cases h
  | trapped => cases h
  | running frame callers m output =>
    obtain ⟨hholds, hcallers⟩ := hS
    simp only [step, Option.bind_eq_bind, Option.bind_eq_some_iff] at h
    obtain ⟨F, hF, block, hblock, h⟩ := h
    cases hi : block.instructions[frame.index]? with
    | some entry =>
      rw [hi] at h
      exact holds_instruction hM hF hblock hi hholds hcallers h
    | none =>
      rw [hi] at h
      obtain ⟨t, _, h⟩ := Option.bind_eq_some_iff.mp h
      obtain ⟨hS', hmemory⟩ := holds_terminator hM hcallers h
      refine ⟨hS', fun m' hm' => ⟨m, rfl, ?_⟩⟩
      rw [hmemory] at hm'
      cases hm'
      exact .refl m

/-- Any number of steps. -/
theorem steps_keep (hM : M.WritesOnce) {S S' : State} (hS : S.Holds M) (h : Steps M S S') :
    S'.Holds M ∧ S.Keeps S' := by
  induction h with
  | refl => exact ⟨hS, .refl S⟩
  | tail _ hstep ih =>
    obtain ⟨hS1, hkeeps⟩ := ih
    obtain ⟨hS2, hkeeps'⟩ := step_keeps hM hS1 hstep
    exact ⟨hS2, hkeeps.trans hkeeps'⟩

/-! ## Filling a block -/

/-- The assertion is about the registers below `n` only. -/
def Assertion.Below (A : Assertion) (n : Nat) : Prop :=
  ∀ frame frame' m, (∀ id, id < n → frame'.registers id = frame.registers id) →
    A frame m → A frame' m

theorem Assertion.Below.mono {A : Assertion} {n n' : Nat} (h : A.Below n) (hn : n ≤ n') :
    A.Below n' :=
  fun frame frame' m hsame => h frame frame' m fun id hid => hsame id (Nat.lt_of_lt_of_le hid hn)

/-- An instruction that is no call and leaves the memory. -/
structure Instruction.Reads (i : Instruction) : Prop where
  plain : ∀ callee arguments, i ≠ .call callee arguments
  leaves : ∀ frame m v m', execute frame m i = some (v, m') → m' = m

theorem reads_of_map {i : Instruction} (hi : ∀ callee arguments, i ≠ .call callee arguments)
    (h : ∀ frame m, ∃ o : Option Val, execute frame m i = o.map (·, m)) : i.Reads := by
  refine ⟨hi, fun frame m v m' hexecute => ?_⟩
  obtain ⟨o, ho⟩ := h frame m
  rw [ho] at hexecute
  obtain ⟨w, _, hpair⟩ := Option.map_eq_some_iff.mp hexecute
  cases hpair
  rfl

theorem reads_binary (op : BinaryOp) (left right : Operand) :
    (Instruction.binary op left right).Reads :=
  reads_of_map (by simp) fun _ _ => ⟨_, rfl⟩

theorem reads_icmpEq (left right : Operand) : (Instruction.icmpEq left right).Reads :=
  reads_of_map (by simp) fun _ _ => ⟨_, rfl⟩

theorem reads_structGEP (fields : List Ty) (pointer : Operand) (field : Nat) :
    (Instruction.structGEP fields pointer field).Reads :=
  reads_of_map (by simp) fun _ _ => ⟨_, rfl⟩

theorem reads_gep (pointer index : Operand) : (Instruction.gep pointer index).Reads := by
  refine reads_of_map (by simp) fun frame m => ?_
  simp only [execute]
  cases frame.eval index with
  | int n =>
    by_cases hn : n.msb = true
    · exact ⟨none, by simp [hn]⟩
    · exact ⟨gepVal m (8 * n.toNat) (frame.eval pointer), by simp [hn]⟩
  | _ => exact ⟨none, rfl⟩

theorem reads_load (type : Ty) (pointer : Operand) : (Instruction.load type pointer).Reads := by
  refine reads_of_map (by simp) fun frame m => ?_
  simp only [execute]
  cases frame.eval pointer with
  | ptr p => exact ⟨_, rfl⟩
  | _ => exact ⟨none, rfl⟩

theorem reads_ptrtoint (value : Operand) : (Instruction.ptrtoint value).Reads :=
  reads_of_map (by simp) fun _ _ => ⟨_, rfl⟩

theorem reads_inttoptr (value : Operand) : (Instruction.inttoptr value).Reads :=
  reads_of_map (by simp) fun _ _ => ⟨_, rfl⟩

theorem reads_phi (type : Ty) (incoming : List (Operand × BlockId)) :
    (Instruction.phi type incoming).Reads :=
  reads_of_map (by simp) fun frame m =>
    ⟨(incoming.find? (·.2 = frame.previous)).map fun entry => frame.eval entry.1, by
      simp only [execute, Option.map_map]
      rfl⟩

theorem takes_of_plain {A B : Assertion} {id : Nat} {i : Instruction}
    (hi : ∀ callee arguments, i ≠ .call callee arguments)
    (h : ∀ frame m, A frame m → ∀ v m', execute frame m i = some (v, m') →
      m.Keeps m' ∧ B (frame.next id v) m') : i.Takes A id B := by
  cases i with
  | call callee arguments => exact absurd rfl (hi callee arguments)
  | _ => exact h

theorem Assertion.Below.next {A : Assertion} {id : Nat} (hA : A.Below id) {frame : Frame}
    {m : Memory} (h : A frame m) (v : Val) : A (frame.next id v) m := by
  refine hA frame _ m (fun j hj => ?_) h
  have hne : j ≠ id := Nat.ne_of_lt hj
  simp [Frame.next, Registers.set, hne]

/-- What is known stays known. -/
theorem takes_reads {A B : Assertion} {id : Nat} {i : Instruction} (hA : A.Below id)
    (hreads : i.Reads) (h : ∀ frame m v, A frame m → execute frame m i = some (v, m) →
      A (frame.next id v) m → B (frame.next id v) m) : i.Takes A id B := by
  refine takes_of_plain hreads.plain fun frame m hm v m' hexecute => ?_
  obtain rfl := hreads.leaves frame m v m' hexecute
  exact ⟨.refl _, h frame _ v hm hexecute (hA.next hm v)⟩

/-- The operand points to the block `b`, where nothing is stored from the cell
`done` on. -/
def Unwritten (base : Operand) (b done : Nat) : Assertion := fun frame m =>
  frame.eval base = .ptr ⟨b, 0⟩ ∧ ∃ cells, m[b]? = some cells ∧
    ∀ i, done ≤ i → i < cells.length → cells[i]? = some .poison

/-- A block is filled up to the cell `done`; `R` holds besides of it. -/
def Filling (base : Operand) (R : Nat → Assertion) (done : Nat) : Assertion := fun frame m =>
  ∃ b, Unwritten base b done frame m ∧ R b frame m

/-- The operand points to the next cell to be filled. -/
def NextSlot (base : Operand) (R : Nat → Assertion) (done : Nat) (slot : Operand) : Assertion :=
  fun frame m => ∃ b, (Unwritten base b done frame m ∧ R b frame m) ∧
    (frame.eval slot = .ptr ⟨b, 8 * done⟩ ∨ frame.eval slot = .poison)

/-- What holds besides is about registers below `n` and other blocks. -/
structure Besides (R : Nat → Assertion) (n : Nat) : Prop where
  below : ∀ b, (R b).Below n
  elsewhere : ∀ b frame m cells, R b frame m → R b frame (m.set b cells)

theorem Besides.mono {R : Nat → Assertion} {n n' : Nat} (h : Besides R n) (hn : n ≤ n') :
    Besides R n' :=
  ⟨fun b => (h.below b).mono hn, h.elsewhere⟩

theorem eval_same {n : Nat} {frame frame' : Frame} {id : Nat}
    (h : ∀ id, id < n → frame'.registers id = frame.registers id) (hid : id < n) :
    frame'.eval (.result id) = frame.eval (.result id) := h id hid

theorem unwritten_below {base b done n : Nat} (h : base < n) :
    Assertion.Below (Unwritten (.result base) b done) n := by
  intro frame frame' m hsame hm
  refine ⟨?_, hm.2⟩
  rw [eval_same hsame h]
  exact hm.1

theorem filling_below {base done n : Nat} {R : Nat → Assertion} (h : base < n) (hR : Besides R n) :
    Assertion.Below (Filling (.result base) R done) n := by
  intro frame frame' m hsame hm
  obtain ⟨b, hunwritten, hrest⟩ := hm
  exact ⟨b, unwritten_below h frame frame' m hsame hunwritten,
    hR.below b frame frame' m hsame hrest⟩

theorem nextSlot_below {base done slot n : Nat} {R : Nat → Assertion} (h : base < n)
    (hslot : slot < n) (hR : Besides R n) :
    Assertion.Below (NextSlot (.result base) R done (.result slot)) n := by
  intro frame frame' m hsame hm
  obtain ⟨b, ⟨hunwritten, hrest⟩, hpointer⟩ := hm
  refine ⟨b, ⟨unwritten_below h frame frame' m hsame hunwritten,
    hR.below b frame frame' m hsame hrest⟩, ?_⟩
  rw [eval_same hsame hslot]
  exact hpointer

/-- The address of the next cell. -/
theorem gepVal_unwritten {base : Operand} {b done : Nat} {frame : Frame} {m : Memory} {v : Val}
    (h : Unwritten base b done frame m) (hv : gepVal m (8 * done) (frame.eval base) = some v) :
    v = .ptr ⟨b, 8 * done⟩ ∨ v = .poison := by
  rw [h.1] at hv
  unfold gepVal at hv
  simp only [Nat.zero_add] at hv
  split at hv
  · cases hv
    exact .inl rfl
  · cases hv
    exact .inr rfl

theorem takes_structGEP {base done id : Nat} {R : Nat → Assertion} (fields : List Ty)
    (h : base < id) (hR : Besides R id) :
    (Instruction.structGEP fields (.result base) done).Takes (Filling (.result base) R done) id
      (NextSlot (.result base) R done (.result id)) := by
  refine takes_reads (filling_below h hR) (reads_structGEP _ _ _)
    fun frame m v ⟨b, hunwritten, hrest⟩ hexecute _ => ?_
  obtain ⟨w, hw, hpair⟩ := Option.map_eq_some_iff.mp hexecute
  cases hpair
  refine ⟨b, ⟨(unwritten_below h).next hunwritten _, (hR.below b).next hrest _⟩, ?_⟩
  rw [eval_next]
  exact gepVal_unwritten hunwritten hw

theorem takes_gep {base done id : Nat} {R : Nat → Assertion} (h : base < id) (hR : Besides R id)
    (hdone : done < 0x8000000000000000) :
    (Instruction.gep (.result base) (.int (BitVec.ofNat 64 done))).Takes
      (Filling (.result base) R done) id (NextSlot (.result base) R done (.result id)) := by
  refine takes_reads (filling_below h hR) (reads_gep _ _)
    fun frame m v ⟨b, hunwritten, hrest⟩ hexecute _ => ?_
  have hnat : (BitVec.ofNat 64 done).toNat = done := by
    rw [BitVec.toNat_ofNat]
    omega
  simp only [execute, Frame.eval] at hexecute
  split at hexecute
  · cases hexecute
  · rw [hnat] at hexecute
    obtain ⟨w, hw, hpair⟩ := Option.map_eq_some_iff.mp hexecute
    cases hpair
    refine ⟨b, ⟨(unwritten_below h).next hunwritten _, (hR.below b).next hrest _⟩, ?_⟩
    rw [eval_next]
    exact gepVal_unwritten hunwritten hw

/-- The store to the next cell. -/
theorem takes_store {base done slot id : Nat} {R : Nat → Assertion} (value : Operand)
    (h : base < id) (hR : Besides R id) :
    (Instruction.store value (.result slot)).Takes (NextSlot (.result base) R done (.result slot))
      id (Filling (.result base) R (done + 1)) := by
  refine takes_of_plain (by simp) fun frame m ⟨b, ⟨hunwritten, hrest⟩, hpointer⟩ v m' hexecute => ?_
  simp only [execute] at hexecute
  rcases hpointer with hpointer | hpointer
  · rw [hpointer] at hexecute
    obtain ⟨m1, hwrite, hpair⟩ := Option.map_eq_some_iff.mp hexecute
    cases hpair
    obtain ⟨hbase, cells, hb, hempty⟩ := hunwritten
    by_cases hdone : done < cells.length
    · rw [Memory.write_cell hb hdone] at hwrite
      cases hwrite
      refine ⟨Memory.keeps_set hb (hempty done (Nat.le_refl _) hdone) _, b, ?_, ?_⟩
      · refine (unwritten_below h).next ⟨hbase, cells.set done (frame.eval value), ?_, ?_⟩ _
        · rw [List.getElem?_set_self (List.getElem?_eq_some_iff.mp hb).1]
        · intro i hi hlt
          rw [List.length_set] at hlt
          rw [List.getElem?_set_ne (by omega)]
          exact hempty i (by omega) hlt
      · exact (hR.below b).next (hR.elsewhere b frame m _ hrest) _
    · unfold Memory.write at hwrite
      rw [Memory.read_cell hb, List.getElem?_eq_none (Nat.not_lt.mp hdone)] at hwrite
      cases hwrite
  · rw [hpointer] at hexecute
    cases hexecute

/-- A new block. -/
theorem takes_malloc {A : Assertion} {R : Nat → Assertion} {size : Operand} {id : Nat}
    (h : ∀ frame m v cells, A frame m → R m.length (frame.next id v) (m ++ [cells])) :
    (Instruction.call .malloc [size]).Takes A id (Filling (.result id) R 0) := by
  intro frame m hA v m' hexecute
  simp only [execute] at hexecute
  split at hexecute
  · rename_i n _
    cases hexecute
    refine ⟨Memory.keeps_allocate m n.toNat, m.length, ⟨eval_next frame id _, ?_⟩,
      h frame m _ _ hA⟩
    refine ⟨List.replicate (n.toNat / 8) .poison, by simp [Memory.allocate], fun i _ hi => ?_⟩
    rw [List.getElem?_eq_getElem hi, List.getElem_replicate]
  · cases hexecute

end llvm
