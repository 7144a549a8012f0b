-- What the builder does to the certificate of its code: instructions at the end
-- of the insertion block, new blocks, terminators and the cases of a switch.
import MiniFunctional.WellFormedIr

namespace llvm

variable {M : Module} {parameters : List Ty} {result : Ty} {b b' : Builder}
  {known known' : Known} {blocks blocks' : List BasicBlock}

/-! ## What is known -/

theorem At.lt {id k : Nat} {p : BlockId} {i : Instruction} (h : At blocks id p k i) :
    p < blocks.length := by
  obtain ⟨block, hblock, _⟩ := h
  exact (List.getElem?_eq_some_iff.mp hblock).1

theorem targetsOf_lt {p c : BlockId} (h : c ∈ targetsOf blocks p) : p < blocks.length := by
  by_cases hp : p < blocks.length
  · exact hp
  · unfold targetsOf at h
    rw [List.getElem?_eq_none (Nat.not_lt.mp hp)] at h
    cases h

/-- At the end of a block all of it is known. -/
theorem knownIn_iff {p : BlockId} {block : BasicBlock} (hblock : blocks[p]? = some block)
    (id : Nat) :
    KnownIn blocks known p id ↔ Before blocks known p block.instructions.length id := by
  constructor
  · intro h
    rcases h with h | ⟨k, i, hat⟩
    · exact .inl h
    · obtain ⟨block', hblock', hk⟩ := hat
      rw [hblock] at hblock'
      cases hblock'
      exact .inr ⟨k, i, (List.getElem?_eq_some_iff.mp hk).1, block, hblock, hk⟩
  · intro h
    rcases h with h | ⟨k, i, _, hat⟩
    · exact .inl h
    · exact .inr ⟨k, i, hat⟩

/-- What is known where code is inserted. -/
abbrev Builder.Here (b : Builder) (known : Known) (id : Nat) : Prop :=
  KnownIn b.blocks known b.insertBlock id

/-- The operand may be used where code is inserted. -/
abbrev Builder.Usable (M : Module) (parameters : List Ty) (b : Builder) (known : Known)
    (op : Operand) (T : ValueTy) : Prop :=
  op.Is M parameters b.blocks (b.Here known) T

/-- All that is known is defined. -/
theorem Certified.here_lt (h : Certified M parameters result b known) {id : Nat}
    (hid : b.Here known id) : id < b.next := by
  rcases hid with hid | ⟨k, i, hat⟩
  · exact h.fresh _ id hid
  · exact h.ids id _ k i hat

/-- What is known in blocks that there are not yet is of no matter. -/
theorem Certified.congr (h : Certified M parameters result b known) (hpos : 0 < b.blocks.length)
    (hknown : ∀ p, p < b.blocks.length → known' p = known p)
    (hfresh : ∀ p id, known' p id → id < b.next) :
    Certified M parameters result b known' := by
  have hbefore : ∀ p k id, p < b.blocks.length → Before b.blocks known p k id →
      Before b.blocks known' p k id := by
    intro p k id hp hid
    unfold Before
    rw [hknown p hp]
    exact hid
  have his : ∀ (p k : Nat) (op : Operand) (T : ValueTy), p < b.blocks.length →
      op.Is M parameters b.blocks (Before b.blocks known p k) T →
      op.Is M parameters b.blocks (Before b.blocks known' p k) T :=
    fun p k op T hp hop => hop.mono (fun _ _ _ _ hat => hat) fun id _ _ _ _ => hbefore p k id hp
  refine ⟨⟨h.code.unique, h.code.targets,
    fun id p k i hat => ?_, fun id p k type incoming hat => ?_,
    fun p block t hblock ht => ?_⟩, h.ids, fun id hid => ?_, hfresh,
    fun p id k i hid hat => ?_, fun p c id hc hid => ?_, h.distinct⟩
  · exact (h.code.instructions id p k i hat).mono fun op T => his p k op T hat.lt
  · refine (h.code.phis id p k type incoming hat).mono (fun _ => rfl) (fun _ _ _ _ hat => hat) ?_
    intro q id hend
    obtain ⟨block, hblock, hid⟩ := hend
    exact ⟨block, hblock, hbefore q _ id (List.getElem?_eq_some_iff.mp hblock).1 hid⟩
  · exact (h.code.terminators p block t hblock ht).mono fun op T =>
      his p _ op T (List.getElem?_eq_some_iff.mp hblock).1
  · rw [hknown 0 hpos] at hid
    exact h.start id hid
  · rw [hknown p hat.lt] at hid
    exact h.apart p id k i hid hat
  · rw [hknown c (h.code.targets p c hc).2] at hid
    unfold KnownIn
    rw [hknown p (targetsOf_lt hc)]
    exact h.flows p c id hc hid

/-! ## Terminators and new blocks -/

/-- The blocks have the same instructions, and new blocks have none. -/
structure SameCode (blocks blocks' : List BasicBlock) : Prop where
  kept : ∀ (p : BlockId) (block : BasicBlock), blocks[p]? = some block →
    ∃ block', blocks'[p]? = some block' ∧ block'.instructions = block.instructions
  more : ∀ (p : BlockId) (block' : BasicBlock), blocks'[p]? = some block' →
    (∃ block, blocks[p]? = some block ∧ block'.instructions = block.instructions) ∨
      block'.instructions = []

theorem SameCode.at_iff (h : SameCode blocks blocks') {id k : Nat} {p : BlockId}
    {i : Instruction} : At blocks' id p k i ↔ At blocks id p k i := by
  constructor
  · intro hat
    obtain ⟨block', hblock', hk⟩ := hat
    rcases h.more p block' hblock' with ⟨block, hblock, hsame⟩ | hnone
    · exact ⟨block, hblock, hsame ▸ hk⟩
    · rw [hnone] at hk
      cases hk
  · intro hat
    obtain ⟨block, hblock, hk⟩ := hat
    obtain ⟨block', hblock', hsame⟩ := h.kept p block hblock
    exact ⟨block', hblock', hsame.symm ▸ hk⟩

theorem SameCode.length_le (h : SameCode blocks blocks') : blocks.length ≤ blocks'.length := by
  by_cases hle : blocks.length ≤ blocks'.length
  · exact hle
  · have hlt : blocks'.length < blocks.length := Nat.not_le.mp hle
    obtain ⟨block', hblock', _⟩ := h.kept blocks'.length _ (List.getElem?_eq_getElem hlt)
    exact absurd (List.getElem?_eq_some_iff.mp hblock').1 (Nat.lt_irrefl _)

theorem SameCode.before (h : SameCode blocks blocks') {p : BlockId} {k id : Nat} :
    Before blocks' known p k id ↔ Before blocks known p k id := by
  unfold Before
  simp only [h.at_iff]

theorem SameCode.knownIn (h : SameCode blocks blocks') {p : BlockId} {id : Nat} :
    KnownIn blocks' known p id ↔ KnownIn blocks known p id := by
  unfold KnownIn
  simp only [h.at_iff]

/-- New edges are to blocks without code, where nothing is known but what is known at
the end of the block from which they come. -/
theorem Certified.retarget (h : Certified M parameters result b known)
    (hcode : SameCode b.blocks b'.blocks) (hnext : b'.next = b.next)
    (htargets : ∀ p, ∀ c ∈ targetsOf b'.blocks p, c ∈ targetsOf b.blocks p ∨
      (0 < c ∧ c < b'.blocks.length ∧ ∀ id, known c id → KnownIn b.blocks known p id))
    (hphis : ∀ q c, (∃ id k i, At b.blocks id c k i) →
      (targetsOf b'.blocks q).count c = (targetsOf b.blocks q).count c)
    (hdistinct : ∀ p, (targetsOf b'.blocks p).Nodup)
    (hterminators : ∀ (p : BlockId) (block' : BasicBlock) (t : Terminator),
      b'.blocks[p]? = some block' → block'.terminator = some t →
      (∃ block, b.blocks[p]? = some block ∧ block.terminator = some t) ∨
        t.Typed (Operand.Is M parameters b.blocks (KnownIn b.blocks known p)) result) :
    Certified M parameters result b' known := by
  have his : ∀ {K K' : Nat → Prop} {op : Operand} {T : ValueTy}, (∀ id, K id → K' id) →
      op.Is M parameters b.blocks K T → op.Is M parameters b'.blocks K' T :=
    fun hK hop => hop.mono (fun _ _ _ _ => hcode.at_iff.mpr) fun id _ _ _ _ => hK id
  refine ⟨⟨fun id p k i p' k' i' hat hat' => ?_, fun p c hc => ?_, fun id p k i hat => ?_,
    fun id p k type incoming hat => ?_, fun p block' t hblock' ht => ?_⟩, fun id p k i hat => ?_,
    h.start, fun p id hid => ?_, fun p id k i hid hat => ?_, fun p c id hc hid => ?_, hdistinct⟩
  · exact h.code.unique id p k i p' k' i' (hcode.at_iff.mp hat) (hcode.at_iff.mp hat')
  · rcases htargets p c hc with hold | ⟨hpos, hlt, _⟩
    · have := h.code.targets p c hold
      exact ⟨this.1, Nat.lt_of_lt_of_le this.2 hcode.length_le⟩
    · exact ⟨hpos, hlt⟩
  · exact (h.code.instructions id p k i (hcode.at_iff.mp hat)).mono fun op T =>
      his fun _ => hcode.before.mpr
  · have hold := hcode.at_iff.mp hat
    refine (h.code.phis id p k type incoming hold).mono (fun q => hphis q p ⟨id, k, _, hold⟩)
      (fun _ _ _ _ => hcode.at_iff.mpr) fun q id hend => ?_
    obtain ⟨block, hblock, hid⟩ := hend
    obtain ⟨block', hblock', hsame⟩ := hcode.kept q block hblock
    exact ⟨block', hblock', by rw [hsame]; exact hcode.before.mpr hid⟩
  · have hlast : ∀ id, KnownIn b.blocks known p id →
        Before b'.blocks known p block'.instructions.length id :=
      fun id hid => (knownIn_iff hblock' id).mp (hcode.knownIn.mpr hid)
    rcases hterminators p block' t hblock' ht with ⟨block, hblock, hold⟩ | htyped
    · exact (h.code.terminators p block t hblock hold).mono fun op T =>
        his fun id hid => hlast id ((knownIn_iff hblock id).mpr hid)
    · exact htyped.mono fun op T => his hlast
  · rw [hnext]
    exact h.ids id p k i (hcode.at_iff.mp hat)
  · rw [hnext]
    exact h.fresh p id hid
  · exact h.apart p id k i hid (hcode.at_iff.mp hat)
  · rw [hcode.knownIn]
    rcases htargets p c hc with hold | ⟨_, _, hflows⟩
    · exact h.flows p c id hold hid
    · exact hflows id hid

theorem sameCode_createBlock (b : Builder) : SameCode b.blocks b.createBlock.2.blocks := by
  constructor
  · intro p block hblock
    have hlt := (List.getElem?_eq_some_iff.mp hblock).1
    exact ⟨block, (List.getElem?_append_left hlt).trans hblock, rfl⟩
  · intro p block' hblock'
    by_cases hp : p < b.blocks.length
    · rw [show b.createBlock.2.blocks = b.blocks ++ [.empty] from rfl,
        List.getElem?_append_left hp] at hblock'
      exact .inl ⟨block', hblock', rfl⟩
    · rw [show b.createBlock.2.blocks = b.blocks ++ [.empty] from rfl,
        List.getElem?_append_right (Nat.not_lt.mp hp)] at hblock'
      rw [List.mem_singleton.mp (List.mem_of_getElem? hblock')]
      exact .inr rfl

theorem targetsOf_createBlock (b : Builder) (p : BlockId) :
    targetsOf b.createBlock.2.blocks p = targetsOf b.blocks p := by
  unfold targetsOf
  rw [show b.createBlock.2.blocks = b.blocks ++ [.empty] from rfl]
  by_cases hp : p < b.blocks.length
  · rw [List.getElem?_append_left hp]
  · rw [List.getElem?_append_right (Nat.not_lt.mp hp), List.getElem?_eq_none (Nat.not_lt.mp hp)]
    cases p - b.blocks.length with
    | zero => rfl
    | succ n => rfl

theorem certified_createBlock (h : Certified M parameters result b known) :
    Certified M parameters result b.createBlock.2 known := by
  refine h.retarget (sameCode_createBlock b) rfl (fun p c hc => ?_) (fun q c _ => ?_)
    (fun p => ?_) fun p block' t hblock' ht => ?_
  · rw [targetsOf_createBlock] at hc
    exact .inl hc
  · rw [targetsOf_createBlock]
  · rw [targetsOf_createBlock]
    exact h.distinct p
  · rw [show b.createBlock.2.blocks = b.blocks ++ [.empty] from rfl] at hblock'
    by_cases hp : p < b.blocks.length
    · rw [List.getElem?_append_left hp] at hblock'
      exact .inl ⟨block', hblock', ht⟩
    · rw [List.getElem?_append_right (Nat.not_lt.mp hp)] at hblock'
      rw [List.mem_singleton.mp (List.mem_of_getElem? hblock')] at ht
      cases ht

/-- Control leaves no block that is open. -/
theorem Builder.Open.targetsOf (h : b.Open) : targetsOf b.blocks b.insertBlock = [] := by
  obtain ⟨block, hblock, hopen⟩ := h
  simp [llvm.targetsOf, hblock, BasicBlock.targets, hopen]

/-- The instructions of a block that is modified so. -/
theorem sameCode_modify {q : BlockId} {f : BasicBlock → BasicBlock}
    (hf : ∀ block, (f block).instructions = block.instructions) :
    SameCode blocks (blocks.modify q f) := by
  constructor
  · intro p block hblock
    by_cases hp : q = p
    · subst hp
      exact ⟨f block, by rw [List.getElem?_modify_eq, hblock]; rfl, hf block⟩
    · exact ⟨block, by rw [List.getElem?_modify_ne _ _ hp]; exact hblock, rfl⟩
  · intro p block' hblock'
    by_cases hp : q = p
    · subst hp
      rw [List.getElem?_modify_eq] at hblock'
      obtain ⟨block, hblock, rfl⟩ := Option.map_eq_some_iff.mp hblock'
      exact .inl ⟨block, hblock, hf block⟩
    · rw [List.getElem?_modify_ne _ _ hp] at hblock'
      exact .inl ⟨block', hblock', rfl⟩

theorem targetsOf_modify_ne {q : BlockId} {f : BasicBlock → BasicBlock} {p : BlockId}
    (hp : q ≠ p) : targetsOf (blocks.modify q f) p = targetsOf blocks p := by
  unfold targetsOf
  rw [List.getElem?_modify_ne _ _ hp]

theorem targetsOf_terminate (h : b.Open) (t : Terminator) :
    targetsOf (b.terminate t).blocks b.insertBlock = t.targets := by
  obtain ⟨_, block, _, hnew⟩ := changes_terminate h t
  simp [targetsOf, hnew, BasicBlock.targets]

/-- A block that takes no code yet. -/
structure Builder.Fresh (b : Builder) (c : BlockId) : Prop where
  pos : 0 < c
  empty : b.blocks[c]? = some .empty

theorem Builder.Fresh.lt {c : BlockId} (h : b.Fresh c) : c < b.blocks.length :=
  (List.getElem?_eq_some_iff.mp h.empty).1

theorem Builder.Fresh.no_code {c : BlockId} (h : b.Fresh c) {id k : Nat} {i : Instruction} :
    ¬ At b.blocks id c k i := by
  intro hat
  obtain ⟨block, hblock, hk⟩ := hat
  rw [h.empty] at hblock
  cases hblock
  cases hk

theorem certified_terminate (h : Certified M parameters result b known) (hopen : b.Open)
    {t : Terminator} (htyped : t.Typed (b.Usable M parameters known) result)
    (htargets : ∀ c ∈ t.targets, b.Fresh c ∧
      ∀ id, known c id → b.Here known id)
    (hnodup : t.targets.Nodup) : Certified M parameters result (b.terminate t) known := by
  have hnew := targetsOf_terminate hopen t
  have hold : ∀ p, b.insertBlock ≠ p →
      targetsOf (b.terminate t).blocks p = targetsOf b.blocks p :=
    fun p hp => targetsOf_modify_ne hp
  have hcode : SameCode b.blocks (b.terminate t).blocks := sameCode_modify fun _ => rfl
  apply h.retarget hcode rfl
  · intro p c hc
    by_cases hp : b.insertBlock = p
    · subst hp
      rw [hnew] at hc
      obtain ⟨hfresh, hknows⟩ := htargets c hc
      exact .inr ⟨hfresh.pos, by simpa [Builder.terminate] using hfresh.lt, hknows⟩
    · rw [hold p hp] at hc
      exact .inl hc
  · intro q c hin
    obtain ⟨id, k, i, hat⟩ := hin
    by_cases hq : b.insertBlock = q
    · subst hq
      rw [hnew, hopen.targetsOf, List.count_nil, List.count_eq_zero]
      exact fun hc => (htargets c hc).1.no_code hat
    · rw [hold q hq]
  · intro p
    by_cases hp : b.insertBlock = p
    · subst hp
      rw [hnew]
      exact hnodup
    · rw [hold p hp]
      exact h.distinct p
  · intro p block' t' hblock' ht'
    by_cases hp : b.insertBlock = p
    · subst hp
      obtain ⟨_, block, _, hlast⟩ := changes_terminate hopen t
      rw [hlast] at hblock'
      cases hblock'
      cases ht'
      exact .inr htyped
    · rw [Builder.terminate, List.getElem?_modify_ne _ _ hp] at hblock'
      exact .inl ⟨block', hblock', ht'⟩

/-- The block ends in a switch with the cases. -/
def Builder.Switches (b : Builder) (s default : BlockId) (cases : List (BitVec 64 × BlockId)) :
    Prop :=
  ∃ block v, b.blocks[s]? = some block ∧ block.terminator = some (.switch v default cases)

theorem targetsOf_switch {s default : BlockId} {cases : List (BitVec 64 × BlockId)}
    (h : b.Switches s default cases) : targetsOf b.blocks s = default :: cases.map (·.2) := by
  obtain ⟨block, v, hblock, ht⟩ := h
  simp [targetsOf, hblock, BasicBlock.targets, ht, Terminator.targets]

theorem switches_addCase {s default : BlockId} {cases : List (BitVec 64 × BlockId)}
    (h : b.Switches s default cases) (value : BitVec 64) (target : BlockId) :
    (b.addCase s value target).Switches s default (cases ++ [(value, target)]) := by
  obtain ⟨block, v, hblock, ht⟩ := h
  refine ⟨block.addCase value target, v, ?_, ?_⟩
  · rw [Builder.addCase, List.getElem?_modify_eq, hblock]
    rfl
  · rw [BasicBlock.addCase, ht]
    rfl

theorem targetsOf_addCase {s default : BlockId} {cases : List (BitVec 64 × BlockId)}
    (h : b.Switches s default cases) (value : BitVec 64) (target : BlockId) :
    targetsOf (b.addCase s value target).blocks s = targetsOf b.blocks s ++ [target] := by
  rw [targetsOf_switch h, targetsOf_switch (switches_addCase h value target)]
  simp

theorem certified_addCase (h : Certified M parameters result b known) {s default : BlockId}
    {cases : List (BitVec 64 × BlockId)} (hswitch : b.Switches s default cases)
    {value : BitVec 64} (hvalue : value ∉ cases.map (·.1)) {target : BlockId}
    (htarget : target ∉ default :: cases.map (·.2))
    (hfresh : b.Fresh target) (hknows : ∀ id, known target id → KnownIn b.blocks known s id) :
    Certified M parameters result (b.addCase s value target) known := by
  have hcode : SameCode b.blocks (b.addCase s value target).blocks := sameCode_modify fun _ => rfl
  have hnew := targetsOf_addCase hswitch value target
  have hold : ∀ p, s ≠ p → targetsOf (b.addCase s value target).blocks p = targetsOf b.blocks p :=
    fun p hp => targetsOf_modify_ne hp
  apply h.retarget hcode rfl
  · intro p c hc
    by_cases hp : s = p
    · subst hp
      rw [hnew, List.mem_append, List.mem_singleton] at hc
      rcases hc with hc | rfl
      · exact .inl hc
      · exact .inr ⟨hfresh.pos, by simpa [Builder.addCase] using hfresh.lt, hknows⟩
    · rw [hold p hp] at hc
      exact .inl hc
  · intro q c hin
    obtain ⟨id, k, i, hat⟩ := hin
    by_cases hq : s = q
    · subst hq
      have hne : target ≠ c := by
        intro heq
        subst heq
        exact hfresh.no_code hat
      rw [hnew, List.count_append, List.count_singleton, beq_false_of_ne hne]
      rfl
    · rw [hold q hq]
  · intro p
    by_cases hp : s = p
    · subst hp
      rw [← targetsOf_switch hswitch] at htarget
      rw [hnew]
      exact (h.distinct s).append (List.nodup_singleton target) (by simpa using htarget)
    · rw [hold p hp]
      exact h.distinct p
  · intro p block' t' hblock' ht'
    by_cases hp : s = p
    · subst hp
      obtain ⟨block, v, hblock, ht⟩ := hswitch
      rw [Builder.addCase, List.getElem?_modify_eq, hblock] at hblock'
      cases hblock'
      rw [BasicBlock.addCase, ht] at ht'
      cases ht'
      obtain ⟨hv, hvalues⟩ := h.code.terminators s block _ hblock ht
      refine .inr ⟨hv.mono (fun _ _ _ _ hat => hat) fun id _ _ _ _ hid =>
        (knownIn_iff hblock id).mpr hid, ?_⟩
      rw [List.map_append]
      exact hvalues.append (List.nodup_singleton value) (by simpa using hvalue)
    · rw [Builder.addCase, List.getElem?_modify_ne _ _ hp] at hblock'
      exact .inl ⟨block', hblock', ht'⟩

/-! ## Instructions -/

/-- The code after an instruction was put at the end of the insertion block. -/
theorem at_insert {block : BasicBlock} (hblock : b.blocks[b.insertBlock]? = some block)
    (i : Instruction) (id : Nat) (p : BlockId) (k : Nat) (i' : Instruction) :
    At (b.insert i).2.blocks id p k i' ↔ At b.blocks id p k i' ∨
      (id = b.next ∧ p = b.insertBlock ∧ k = block.instructions.length ∧ i' = i) := by
  unfold At Builder.insert
  by_cases hp : b.insertBlock = p
  · subst hp
    simp only [List.getElem?_modify_eq, hblock, Option.map_eq_map, Option.map_some,
      Option.some.injEq, exists_eq_left', BasicBlock.push, true_and]
    by_cases hk : k < block.instructions.length
    · rw [List.getElem?_append_left hk]
      exact ⟨.inl, fun h => h.resolve_right fun h' => absurd h'.2.1 (Nat.ne_of_lt hk)⟩
    · rw [List.getElem?_append_right (Nat.not_lt.mp hk), List.getElem?_eq_none (Nat.not_lt.mp hk)]
      constructor
      · intro h
        obtain ⟨hlt, heq⟩ := List.getElem?_eq_some_iff.mp h
        rw [List.length_singleton] at hlt
        rw [List.getElem_singleton] at heq
        cases heq
        exact .inr ⟨rfl, by omega, rfl⟩
      · intro h
        obtain ⟨rfl, rfl, rfl⟩ := h.resolve_left fun h => by cases h
        simp
  · rw [List.getElem?_modify_ne _ _ hp]
    refine ⟨.inl, fun h => h.resolve_right fun h' => hp h'.2.1.symm⟩

theorem targetsOf_insert (i : Instruction) (p : BlockId) :
    targetsOf (b.insert i).2.blocks p = targetsOf b.blocks p := by
  by_cases hp : b.insertBlock = p
  · subst hp
    unfold targetsOf Builder.insert
    rw [List.getElem?_modify_eq]
    cases b.blocks[b.insertBlock]? with
    | none => rfl
    | some block => rfl
  · exact targetsOf_modify_ne hp

/-- The operands of the instruction have the types that it requires; a phi is the
first instruction and has an entry for each edge to the block. -/
theorem certified_insert (h : Certified M parameters result b known) (hopen : b.Open)
    {i : Instruction} (htyped : i.Typed M (b.Usable M parameters known))
    (hphi : ∀ block type incoming, b.blocks[b.insertBlock]? = some block →
      i = .phi type incoming → PhiChecked M parameters b.blocks (KnownIn b.blocks known)
        b.insertBlock block.instructions.length type incoming) :
    Certified M parameters result (b.insert i).2 known := by
  obtain ⟨last, hlast, hnone⟩ := hopen
  have hat := at_insert hlast i
  have hmore : ∀ id p k i', At b.blocks id p k i' → At (b.insert i).2.blocks id p k i' :=
    fun id p k i' hold => (hat id p k i').mpr (.inl hold)
  have hbefore : ∀ p k k' id, k ≤ k' → Before b.blocks known p k id →
      Before (b.insert i).2.blocks known p k' id := by
    intro p k k' id hk hid
    rcases hid with hid | ⟨j, i', hj, hold⟩
    · exact .inl hid
    · exact .inr ⟨j, i', Nat.lt_of_lt_of_le hj hk, hmore id p j i' hold⟩
  have his : ∀ {p k k' : Nat} {op : Operand} {T : ValueTy}, k ≤ k' →
      op.Is M parameters b.blocks (Before b.blocks known p k) T →
      op.Is M parameters (b.insert i).2.blocks (Before (b.insert i).2.blocks known p k') T :=
    fun hk hop => hop.mono hmore fun id _ _ _ _ => hbefore _ _ _ id hk
  -- what is known at the end of a block
  have hend : ∀ q id, KnownIn b.blocks known q id → q < b.blocks.length →
      ∃ block, (b.insert i).2.blocks[q]? = some block ∧
        Before (b.insert i).2.blocks known q block.instructions.length id := by
    intro q id hid hq
    have hlt : q < (b.insert i).2.blocks.length := by simpa [Builder.insert] using hq
    refine ⟨_, List.getElem?_eq_getElem hlt, (knownIn_iff (List.getElem?_eq_getElem hlt) id).mp ?_⟩
    rcases hid with hid | ⟨k, i', hold⟩
    · exact .inl hid
    · exact .inr ⟨k, i', hmore id q k i' hold⟩
  refine ⟨⟨fun id p k i1 p' k' i2 h1 h2 => ?_, fun p c hc => ?_, fun id p k i' h1 => ?_,
    fun id p k type incoming h1 => ?_, fun p block t hblock ht => ?_⟩, fun id p k i' h1 => ?_,
    h.start, fun p id hid => Nat.lt_succ_of_lt (h.fresh p id hid), fun p id k i' hid h1 => ?_,
    fun p c id hc hid => ?_, fun p => ?_⟩
  · -- the register is new
    rcases (hat id p k i1).mp h1 with hold1 | ⟨rfl, rfl, rfl, rfl⟩
    · rcases (hat id p' k' i2).mp h2 with hold2 | ⟨rfl, _, _, _⟩
      · exact h.code.unique id p k i1 p' k' i2 hold1 hold2
      · exact absurd (h.ids _ p k i1 hold1) (Nat.lt_irrefl _)
    · rcases (hat _ p' k' i2).mp h2 with hold2 | ⟨_, rfl, rfl, _⟩
      · exact absurd (h.ids _ p' k' i2 hold2) (Nat.lt_irrefl _)
      · exact ⟨rfl, rfl⟩
  · rw [targetsOf_insert] at hc
    have := h.code.targets p c hc
    exact ⟨this.1, by simpa [Builder.insert] using this.2⟩
  · rcases (hat id p k i').mp h1 with hold | ⟨rfl, rfl, rfl, rfl⟩
    · exact (h.code.instructions id p k i' hold).mono fun op T => his (Nat.le_refl k)
    · refine htyped.mono fun op T hop => hop.mono hmore fun id _ _ _ _ hid => ?_
      exact hbefore _ _ _ id (Nat.le_refl _) ((knownIn_iff hlast id).mp hid)
  · have hsame : ∀ q, (targetsOf (b.insert i).2.blocks q).count p =
        (targetsOf b.blocks q).count p := fun q => by rw [targetsOf_insert]
    rcases (hat id p k _).mp h1 with hold | ⟨rfl, rfl, rfl, heq⟩
    · refine (h.code.phis id p k type incoming hold).mono hsame hmore fun q id hq => ?_
      obtain ⟨block, hblock, hid⟩ := hq
      exact hend q id ((knownIn_iff hblock id).mpr hid) (List.getElem?_eq_some_iff.mp hblock).1
    · have hnew := hphi last type incoming hlast heq.symm
      refine ⟨hnew.first, hnew.nonempty, hnew.nodup, fun q => ?_, fun op q hedge => ?_⟩
      · rw [hsame, hnew.predecessors]
      · refine (hnew.values op q hedge).mono hmore fun id _ _ _ _ hid => hend q id hid ?_
        -- control comes from the block
        have hpos : 0 < (incoming.map (·.2)).count q :=
          List.count_pos_iff.mpr (List.mem_map.mpr ⟨_, hedge, rfl⟩)
        rw [hnew.predecessors, List.count_pos_iff] at hpos
        exact targetsOf_lt hpos
  · by_cases hp : b.insertBlock = p
    · subst hp
      rw [Builder.insert, List.getElem?_modify_eq, hlast] at hblock
      cases hblock
      rw [BasicBlock.push, hnone] at ht
      cases ht
    · have hold := hblock
      rw [Builder.insert, List.getElem?_modify_ne _ _ hp] at hold
      exact (h.code.terminators p block t hold ht).mono fun op T => his (Nat.le_refl _)
  · rcases (hat id p k i').mp h1 with hold | ⟨rfl, _, _, _⟩
    · exact Nat.lt_succ_of_lt (h.ids id p k i' hold)
    · exact Nat.lt_succ_self _
  · rcases (hat id p k i').mp h1 with hold | ⟨rfl, _, _, _⟩
    · exact h.apart p id k i' hid hold
    · exact absurd (h.fresh p _ hid) (Nat.lt_irrefl _)
  · rw [targetsOf_insert] at hc
    rcases h.flows p c id hc hid with hid | ⟨k, i', hold⟩
    · exact .inl hid
    · exact .inr ⟨k, i', hmore id p k i' hold⟩
  · rw [targetsOf_insert]
    exact h.distinct p

end llvm
