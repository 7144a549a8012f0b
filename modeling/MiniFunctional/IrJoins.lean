-- A function splits and comes together again: from one block the emission goes
-- to many, and each of them that has a value jumps to the block of the phi.
import MiniFunctional.IrRegions

namespace llvm

variable {M : Module} {parameters : List Ty} {result : Ty} {b b1 b2 : Builder}
  {known known1 known2 : Known} {c : BlockId} {K : Nat → Prop} {type : Ty}
  {incoming : List (Operand × BlockId)} {pending pending' : BlockId → Prop}

/-! ## The block of the phi is left alone -/

theorem aside_createBlock (hlt : c < b.blocks.length) (K : Nat → Prop) :
    Aside c b known b.createBlock.2 (Function.update known b.blocks.length K) := by
  refine ⟨fun id p k i hat => (sameCode_createBlock b).at_iff.mpr hat, fun p hp => ?_,
    List.getElem?_append_left hlt, fun p => by rw [targetsOf_createBlock]⟩
  exact Function.update_of_ne (Nat.ne_of_lt hp) _ _

theorem aside_terminate (hopen : b.Open) {t : Terminator} (hne : c ≠ b.insertBlock)
    (hc : c ∉ t.targets) : Aside c b known (b.terminate t) known := by
  have hcode : SameCode b.blocks (b.terminate t).blocks := sameCode_modify fun _ => rfl
  refine ⟨fun id p k i hat => hcode.at_iff.mpr hat, fun _ _ => rfl,
    List.getElem?_modify_ne _ _ hne.symm, fun p => ?_⟩
  by_cases hp : b.insertBlock = p
  · subst hp
    rw [targetsOf_terminate hopen, hopen.targetsOf, List.count_nil, List.count_eq_zero]
    exact hc
  · rw [Builder.terminate, targetsOf_modify_ne hp]

theorem aside_addCase {s default : BlockId} {cases : List (BitVec 64 × BlockId)}
    (hswitch : b.Switches s default cases) (value : BitVec 64) {target : BlockId}
    (hs : c ≠ s) (hc : c ≠ target) : Aside c b known (b.addCase s value target) known := by
  have hcode : SameCode b.blocks (b.addCase s value target).blocks := sameCode_modify fun _ => rfl
  refine ⟨fun id p k i hat => hcode.at_iff.mpr hat, fun _ _ => rfl,
    List.getElem?_modify_ne _ _ hs.symm, fun p => ?_⟩
  by_cases hp : s = p
  · subst hp
    rw [targetsOf_addCase hswitch, List.count_append, List.count_singleton,
      beq_false_of_ne hc.symm]
    rfl
  · rw [Builder.addCase, targetsOf_modify_ne hp]

theorem aside_setInsertPoint (q : BlockId) : Aside c b known (b.setInsertPoint q) known :=
  ⟨fun _ _ _ _ hat => hat, fun _ _ => rfl, rfl, fun _ => rfl⟩

/-! ## Coming together -/

/-- From `b`, the emission is on its way to the new block `c`, with the values that are
`incoming`; the blocks that are open yet are among `pending`. -/
structure Converges (M : Module) (parameters : List Ty) (result : Ty) (b : Builder) (known : Known)
    (b1 : Builder) (known1 : Known) (c : BlockId) (type : Ty)
    (incoming : List (Operand × BlockId)) (pending : BlockId → Prop) : Prop where
  start : b.Open
  region : Region M parameters result b known b1 known1 pending
  new : b.blocks.length ≤ c
  joins : Joins M parameters b1 known1 c (b.Here known) type incoming

/-- Code is inserted in an open block, where no less is known than at `b`. -/
structure Branching (M : Module) (parameters : List Ty) (result : Ty) (b : Builder)
    (known : Known) (b1 : Builder) (known1 : Known) (c : BlockId) (type : Ty)
    (incoming : List (Operand × BlockId)) (pending : BlockId → Prop) : Prop
    extends Converges M parameters result b known b1 known1 c type incoming
      fun p => p = b1.insertBlock ∨ pending p where
  works : b.Works b1.insertBlock
  opened : b1.Open
  apart : c ≠ b1.insertBlock
  keeps : ∀ id, b.Here known id → b1.Here known1 id

theorem Converges.mono (h : Converges M parameters result b known b1 known1 c type incoming pending)
    (hpending : ∀ p, pending p → pending' p) :
    Converges M parameters result b known b1 known1 c type incoming pending' :=
  ⟨h.start, h.region.mono hpending, h.new, h.joins⟩

/-- What is known at `b` is defined. -/
theorem Converges.here_lt
    (h : Converges M parameters result b known b1 known1 c type incoming pending)
    {id : Nat} (hid : b.Here known id) : id < b1.next := by
  rw [← h.joins.knows] at hid
  exact h.region.certified.fresh c id hid

/-- A new block, where what is known at `b` is known. -/
theorem Converges.createBlock
    (h : Converges M parameters result b known b1 known1 c type incoming pending) :
    Converges M parameters result b known b1.createBlock.2
      (Function.update known1 b1.blocks.length (b.Here known)) c type incoming
      fun p => pending p ∨ p = b1.blocks.length :=
  ⟨h.start, h.region.createBlock h.start fun _ hid => h.here_lt hid, h.new,
    h.joins.aside (aside_createBlock h.joins.fresh.lt _)⟩

theorem Branching.createBlock
    (h : Branching M parameters result b known b1 known1 c type incoming pending) :
    Branching M parameters result b known b1.createBlock.2
      (Function.update known1 b1.blocks.length (b.Here known)) c type incoming
      fun p => pending p ∨ p = b1.blocks.length := by
  refine ⟨h.toConverges.createBlock.mono fun p hp => or_assoc.mp hp, h.works,
    (emits_createBlock b1 h.opened).opened, h.apart, fun id hid => (h.keeps id hid).later ?_ ?_⟩
  · exact fun id p k i hat => (sameCode_createBlock b1).at_iff.mpr hat
  · exact Function.update_of_ne (Nat.ne_of_lt h.opened.lt) _ _

/-- A new block that takes no code yet, other than that of the phi. -/
structure Awaits (b : Builder) (known : Known) (b1 : Builder) (known1 : Known) (c q : BlockId) :
    Prop where
  fresh : b1.Fresh q
  new : b.blocks.length ≤ q
  apart : c ≠ q
  knows : known1 q = b.Here known

theorem Awaits.keep {q : BlockId} (h : Awaits b known b1 known1 c q)
    (hblock : b2.blocks[q]? = b1.blocks[q]?) (hknown : known2 q = known1 q) :
    Awaits b known b2 known2 c q :=
  ⟨h.fresh.of_eq hblock, h.new, h.apart, hknown.trans h.knows⟩

/-- From `b` on, code was put at the end of the insertion block and in new blocks;
of the other blocks the same is known. -/
structure Advances (b : Builder) (known : Known) (b' : Builder) (known' : Known) : Prop
    extends Changes b b' where
  agrees : ∀ p, p < b.blocks.length → known' p = known p

theorem Proceeds.advances (h : Proceeds M parameters result b known b1 known1) :
    Advances b known b1 known1 := ⟨h.toChanges, h.agrees⟩

theorem advances_terminate (hopen : b.Open) (t : Terminator) :
    Advances b known (b.terminate t) known := ⟨(changes_terminate hopen t).1, fun _ _ => rfl⟩

theorem Proceeds.andAdvances (h : Proceeds M parameters result b known b1 known1)
    (h' : Advances b1 known1 b2 known2) : Advances b known b2 known2 := by
  refine ⟨h.toChanges.trans h.works h'.toChanges, fun p hp => ?_⟩
  rw [h'.agrees p (Nat.lt_of_lt_of_le hp h.grows), h.agrees p hp]

theorem Awaits.advances {q : BlockId} (h : Awaits b known b1 known1 c q)
    (he : Advances b1 known1 b2 known2) (hne : q ≠ b1.insertBlock) :
    Awaits b known b2 known2 c q :=
  h.keep (he.kept q h.fresh.lt hne) (he.agrees q h.fresh.lt)

theorem Awaits.createBlock {q : BlockId} (h : Awaits b known b1 known1 c q) (K : Nat → Prop) :
    Awaits b known b1.createBlock.2 (Function.update known1 b1.blocks.length K) c q :=
  h.keep (List.getElem?_append_left h.fresh.lt)
    (Function.update_of_ne (Nat.ne_of_lt h.fresh.lt) _ _)

theorem Converges.awaits
    (h : Converges M parameters result b known b1 known1 c type incoming pending) :
    Awaits b known b1.createBlock.2 (Function.update known1 b1.blocks.length (b.Here known)) c
      b1.blocks.length := by
  have hlt := h.joins.fresh.lt
  refine ⟨⟨Nat.lt_of_le_of_lt (Nat.zero_le c) hlt, ?_⟩, h.region.grows, Nat.ne_of_lt hlt,
    Function.update_self _ _ _⟩
  simp [Builder.createBlock]

/-- The block of the phi is made. -/
theorem branching_start {rest : BlockId → Prop}
    (h : Region M parameters result b known b1 known1 fun p => p = b1.insertBlock ∨ rest p)
    (hstart : b.Open) (hopen : b1.Open) (hworks : b.Works b1.insertBlock)
    (hkeeps : ∀ id, b.Here known id → b1.Here known1 id) (type : Ty) :
    Branching M parameters result b known b1.createBlock.2
      (Function.update known1 b1.blocks.length (b.Here known)) b1.blocks.length type []
      fun p => rest p ∨ p = b1.blocks.length := by
  have hregion := h.createBlock hstart fun id hid => h.certified.here_lt (hkeeps id hid)
  have hpos := Nat.lt_of_le_of_lt (Nat.zero_le _) hopen.lt
  refine ⟨⟨hstart, hregion.mono fun p hp => or_assoc.mp hp, h.grows, ⟨⟨hpos, ?_⟩,
    Function.update_self _ _ _, fun p => ?_, ?_⟩⟩, hworks, (emits_createBlock b1 hopen).opened,
    Nat.ne_of_gt hopen.lt, fun id hid => (hkeeps id hid).later ?_ ?_⟩
  · simp [Builder.createBlock]
  · rw [targetsOf_createBlock, List.map_nil, List.count_nil, List.count_eq_zero]
    exact fun hin => absurd (h.certified.code.targets p _ hin).2 (Nat.lt_irrefl _)
  · exact fun op q hentry => absurd hentry List.not_mem_nil
  · exact fun id p k i hat => (sameCode_createBlock b1).at_iff.mpr hat
  · exact Function.update_of_ne (Nat.ne_of_lt hopen.lt) _ _

/-- Code is emitted that leads to one block. -/
theorem Branching.proceeds
    (h : Branching M parameters result b known b1 known1 c type incoming pending)
    (h' : Proceeds M parameters result b1 known1 b2 known2) :
    Branching M parameters result b known b2 known2 c type incoming pending := by
  have hlt := h.joins.fresh.lt
  refine ⟨⟨h.start, (h.region.trans h.works h'.toRegion).mono fun p hp => ?_, h.new,
    h.joins.aside (h'.toRegion.aside h.region.certified h.opened hlt h.apart)⟩,
    h.region.works h.works h'.works, h'.opened, ?_, fun id hid => h'.keeps id (h.keeps id hid)⟩
  · rcases hp with hp | ⟨hp | hp, hnot⟩
    · exact .inl hp
    · exact absurd (.inl hp) hnot
    · exact .inr hp
  · rcases h'.works with heq | hge
    · rw [heq]
      exact h.apart
    · exact Nat.ne_of_lt (Nat.lt_of_lt_of_le hlt hge)

/-- The block ends; control goes to new blocks, and not to that of the phi. -/
theorem Branching.split
    (h : Branching M parameters result b known b1 known1 c type incoming pending) {t : Terminator}
    (htyped : t.Typed (b1.Usable M parameters known1) result)
    (htargets : ∀ q ∈ t.targets, Awaits b known b1 known1 c q) (hnodup : t.targets.Nodup) :
    Converges M parameters result b known (b1.terminate t) known1 c type incoming pending := by
  have hc : c ∉ t.targets := fun hin => (htargets c hin).apart rfl
  refine ⟨h.start, ?_, h.new, h.joins.aside (aside_terminate h.opened h.apart hc)⟩
  refine (h.region.terminate h.works h.opened htyped (fun q hq => ?_) hnodup).mono
    fun p hp => hp.1.resolve_left hp.2
  have hawaits := htargets q hq
  refine ⟨hawaits.new, hawaits.fresh, fun id hid => h.keeps id ?_⟩
  rw [hawaits.knows] at hid
  exact hid

/-- The block ends with a jump to that of the phi. -/
theorem Branching.jump
    (h : Branching M parameters result b known b1 known1 c type incoming pending) {op : Operand}
    (hop : b1.Usable M parameters known1 op (.of type)) :
    Converges M parameters result b known (b1.terminate (.br c)) known1 c type
      (incoming ++ [(op, b1.insertBlock)]) pending := by
  have hcode : SameCode b1.blocks (b1.terminate (.br c)).blocks := sameCode_modify fun _ => rfl
  have htyped : (Terminator.br c).Typed (b1.Usable M parameters known1) result := trivial
  refine ⟨h.start, ?_, h.new, h.joins.fresh.of_eq ?_, h.joins.knows, fun p => ?_,
    fun op' q hentry => ?_⟩
  · refine (h.region.terminate h.works h.opened htyped (fun c' hc' => ?_)
      (List.nodup_singleton c)).mono fun p hp => hp.1.resolve_left hp.2
    rw [List.mem_singleton.mp hc']
    refine ⟨h.new, h.joins.fresh, fun id hid => h.keeps id ?_⟩
    rw [h.joins.knows] at hid
    exact hid
  · exact List.getElem?_modify_ne _ _ h.apart.symm
  · rw [List.map_append, List.count_append, ← h.joins.edges]
    by_cases hp : b1.insertBlock = p
    · subst hp
      rw [targetsOf_terminate h.opened, h.opened.targetsOf]
      simp [Terminator.targets]
    · rw [Builder.terminate, targetsOf_modify_ne hp]
      simp [hp]
  · have hmore : op'.Is M parameters b1.blocks (KnownIn b1.blocks known1 q) (.of type) := by
      rcases List.mem_append.mp hentry with hold | hnew
      · exact h.joins.values op' q hold
      · cases List.mem_singleton.mp hnew
        exact hop
    exact hmore.mono (fun _ _ _ _ hat => hcode.at_iff.mpr hat)
      fun id _ _ _ _ hid => hcode.knownIn.mpr hid

/-- A switch gets one more case. -/
theorem Converges.addCase
    (h : Converges M parameters result b known b1 known1 c type incoming pending)
    {s default : BlockId} (hs : b.Works s) (hcs : c ≠ s)
    (hknows : ∀ id, b.Here known id → KnownIn b1.blocks known1 s id)
    {cases : List (BitVec 64 × BlockId)} (hswitch : b1.Switches s default cases)
    {value : BitVec 64} (hvalue : value ∉ cases.map (·.1)) {target : BlockId}
    (htarget : target ∉ default :: cases.map (·.2)) (hawaits : Awaits b known b1 known1 c target) :
    Converges M parameters result b known (b1.addCase s value target) known1 c type incoming
      pending := by
  refine ⟨h.start, h.region.addCase h.start hs hswitch hvalue htarget hawaits.new hawaits.fresh
    fun id hid => hknows id ?_, h.new,
    h.joins.aside (aside_addCase hswitch value hcs hawaits.apart)⟩
  rw [hawaits.knows] at hid
  exact hid

/-- Code goes on in a new block. -/
theorem Converges.enter
    (h : Converges M parameters result b known b1 known1 c type incoming pending)
    {q : BlockId} (hawaits : Awaits b known b1 known1 c q)
    (hpending : ∀ p, pending p → p = q ∨ pending' p) :
    Branching M parameters result b known (b1.setInsertPoint q) known1 c type incoming
      pending' := by
  refine ⟨⟨h.start, (h.region.setInsertPoint q).mono hpending, h.new,
    h.joins.aside (aside_setInsertPoint q)⟩, .inr hawaits.new, ⟨.empty, hawaits.fresh.empty, rfl⟩,
    hawaits.apart, fun id hid => .inl ?_⟩
  show known1 q id
  rw [hawaits.knows]
  exact hid

/-- All other blocks have ended; code goes on with the phi. -/
theorem Converges.finish
    (h : Converges M parameters result b known b1 known1 c type incoming pending)
    (hpending : ∀ p, pending p → p = c) (hne : incoming ≠ []) :
    Proceeds M parameters result b known
      ((b1.setInsertPoint c).insert (.phi type incoming)).2 known1 ∧
    ((b1.setInsertPoint c).insert (.phi type incoming)).2.Usable M parameters known1
      (.result b1.next) (.of type) := by
  have hregion := (h.region.setInsertPoint c).mono hpending
  have hopen : (b1.setInsertPoint c).Open := ⟨.empty, h.joins.fresh.empty, rfl⟩
  have hphi := proceeds_insert (i := .phi type incoming) hregion.certified hopen trivial
    fun block type' incoming' hblock heq => by
      rw [show (b1.setInsertPoint c).blocks[(b1.setInsertPoint c).insertBlock]? = b1.blocks[c]?
        from rfl, h.joins.fresh.empty] at hblock
      cases hblock
      cases heq
      exact h.joins.phi hne h.region.certified.distinct
  have hworks : b.Works (b1.setInsertPoint c).insertBlock := .inr h.new
  refine ⟨⟨(hregion.trans hworks hphi.toRegion).mono fun p hp => ?_,
    hregion.works hworks hphi.works, hphi.opened, fun id hid => hphi.keeps id (.inl ?_)⟩,
    usable_insert hopen rfl⟩
  · exact hp.resolve_right fun hold => hold.2 (.inl hold.1)
  · show known1 c id
    rw [h.joins.knows]
    exact hid

/-! ## Tests and switches -/

/-- What may be used at `b` may be used in every branch. -/
theorem Branching.usable
    (h : Branching M parameters result b known b1 known1 c type incoming pending) {op : Operand}
    {T : ValueTy} (hop : b.Usable M parameters known op T) :
    b1.Usable M parameters known1 op T :=
  hop.mono (fun _ _ _ _ hat => h.region.toChanges.at hat) fun id _ _ _ _ hid => h.keeps id hid

/-- The emission begins with the block of the phi. -/
theorem branching_sequential (h : Certified M parameters result b known) (hopen : b.Open)
    (type : Ty) :
    Branching M parameters result b known b.createBlock.2
      (Function.update known b.blocks.length (b.Here known)) b.blocks.length type []
      (· = b.blocks.length) := by
  have hregion : Region M parameters result b known b known fun p => p = b.insertBlock ∨ False :=
    (Region.refl h).mono fun p hp => .inl hp
  have hstart := branching_start hregion hopen hopen (.inl rfl) (fun _ hid => hid) type
  exact ⟨hstart.toConverges.mono fun p hp => hp.imp_right fun hp => hp.resolve_left id,
    hstart.works, hstart.opened, hstart.apart, hstart.keeps⟩

/-- The emission begins with that of the default of a switch, and that of the phi. -/
theorem branching_switch (h : Certified M parameters result b known) (hopen : b.Open) (type : Ty) :
    ∃ known', Branching M parameters result b known b.createBlock.2.createBlock.2 known'
      b.createBlock.2.blocks.length type []
      (fun p => p = b.createBlock.2.blocks.length ∨ p = b.blocks.length) ∧
    Awaits b known b.createBlock.2.createBlock.2 known' b.createBlock.2.blocks.length
      b.blocks.length ∧ b.blocks.length ≠ b.createBlock.2.createBlock.2.insertBlock := by
  have hlt := hopen.lt
  have hlen : b.createBlock.2.blocks.length = b.blocks.length + 1 := by
    simp [Builder.createBlock]
  have hregion := (Region.refl h).createBlock hopen fun id hid => h.here_lt hid
  have hstart := branching_start hregion hopen (emits_createBlock b hopen).opened (.inl rfl)
    (fun id hid => ?_) type
  · refine ⟨_, ⟨hstart.toConverges.mono fun p hp => hp.imp_right Or.symm, hstart.works,
      hstart.opened, hstart.apart, hstart.keeps⟩,
      ⟨⟨Nat.lt_of_le_of_lt (Nat.zero_le _) hlt, ?_⟩, Nat.le_refl _, ?_, ?_⟩, Nat.ne_of_gt hlt⟩
    · simp [Builder.createBlock]
    · rw [hlen]
      exact Nat.succ_ne_self _
    · rw [Function.update_of_ne (by rw [hlen]; exact (Nat.succ_ne_self _).symm),
        Function.update_self]
  · refine hid.later (fun id p k i hat => (sameCode_createBlock b).at_iff.mpr hat) ?_
    exact Function.update_of_ne (Nat.ne_of_lt hlt) _ _

/-- A test, with a new block for either outcome; code goes on in the first. -/
theorem Branching.test
    (h : Branching M parameters result b known b1 known1 c type incoming (· = c))
    (hc : Proceeds M parameters result b1.createBlock.2.createBlock.2
      (Function.update (Function.update known1 b1.blocks.length (b.Here known))
        b1.createBlock.2.blocks.length (b.Here known)) b2 known2) {condition : Operand}
    (hcondition : b2.Usable M parameters known2 condition .i1) :
    Branching M parameters result b known ((b2.terminate (.condBr condition b1.blocks.length
        b1.createBlock.2.blocks.length)).setInsertPoint b1.blocks.length) known2 c type incoming
      (fun p => p = c ∨ p = b1.createBlock.2.blocks.length) ∧
    Awaits b known ((b2.terminate (.condBr condition b1.blocks.length
      b1.createBlock.2.blocks.length)).setInsertPoint b1.blocks.length) known2 c
      b1.createBlock.2.blocks.length ∧
    b1.createBlock.2.blocks.length ≠ b1.blocks.length := by
  have h1 := h.createBlock
  have h2 := h1.createBlock
  have hlt := h.opened.lt
  have hlen : b1.createBlock.2.blocks.length = b1.blocks.length + 1 := by
    simp [Builder.createBlock]
  have hne : b1.createBlock.2.blocks.length ≠ b1.blocks.length := by
    rw [hlen]
    exact Nat.succ_ne_self _
  have h1ne : b1.blocks.length ≠ b1.createBlock.2.createBlock.2.insertBlock := Nat.ne_of_gt hlt
  have h2ne : b1.createBlock.2.blocks.length ≠ b1.createBlock.2.createBlock.2.insertBlock := by
    rw [hlen]
    exact Nat.ne_of_gt (Nat.lt_succ_of_lt hlt)
  have hfirst := h.toConverges.awaits.createBlock (b.Here known)
  have hsecond := h1.toConverges.awaits
  have hsplit := (h2.proceeds hc).split (t := .condBr condition b1.blocks.length
    b1.createBlock.2.blocks.length) hcondition (fun q hq => ?_) ?_
  · have he := hc.andAdvances (advances_terminate hc.opened (.condBr condition b1.blocks.length
      b1.createBlock.2.blocks.length))
    refine ⟨hsplit.enter (hfirst.advances he h1ne) fun p hp => ?_,
      (hsecond.advances he h2ne).keep rfl rfl, hne⟩
    rcases hp with (hp | hp) | hp
    · exact .inr (.inl hp)
    · exact .inl hp
    · exact .inr (.inr hp)
  · simp only [Terminator.targets, List.mem_cons, List.not_mem_nil, or_false] at hq
    rcases hq with rfl | rfl
    · exact hfirst.advances hc.advances h1ne
    · exact hsecond.advances hc.advances h2ne
  · simpa [Terminator.targets] using hne.symm

/-- Between the branches of a switch: the block `s` ends in it, and that of its default
takes no code yet. -/
structure Switching (M : Module) (parameters : List Ty) (result : Ty) (b : Builder)
    (known : Known) (b1 : Builder) (known1 : Known) (c : BlockId) (type : Ty)
    (incoming : List (Operand × BlockId)) (s default : BlockId)
    (cases : List (BitVec 64 × BlockId)) : Prop where
  converges : Converges M parameters result b known b1 known1 c type incoming
    fun p => p = c ∨ p = default
  awaits : Awaits b known b1 known1 c default
  works : b.Works s
  apart : c ≠ s
  knows : ∀ id, b.Here known id → KnownIn b1.blocks known1 s id
  switch : b1.Switches s default cases

variable {s default : BlockId} {cases : List (BitVec 64 × BlockId)}

theorem Builder.Switches.lt (h : b.Switches s default cases) : s < b.blocks.length := by
  obtain ⟨block, _, hblock, _⟩ := h
  exact (List.getElem?_eq_some_iff.mp hblock).1

theorem Builder.Switches.ne (h : b.Switches s default cases) {q : BlockId} (hq : b.Fresh q) :
    q ≠ s := by
  intro heq
  subst heq
  obtain ⟨block, v, hblock, ht⟩ := h
  rw [hq.empty] at hblock
  cases hblock
  cases ht

theorem Builder.Switches.of_eq (h : b.Switches s default cases)
    (heq : b1.blocks[s]? = b.blocks[s]?) : b1.Switches s default cases := by
  obtain ⟨block, v, hblock, ht⟩ := h
  exact ⟨block, v, heq.trans hblock, ht⟩

/-- A switch without cases. -/
theorem Branching.switch
    (h : Branching M parameters result b known b1 known1 c type incoming
      fun p => p = c ∨ p = default)
    (hawaits : Awaits b known b1 known1 c default) (hne : default ≠ b1.insertBlock)
    (hc : Proceeds M parameters result b1 known1 b2 known2) {tag : Operand}
    (htag : b2.Usable M parameters known2 tag (.of .i64)) :
    Switching M parameters result b known (b2.terminate (.switch tag default [])) known2 c type
      incoming b2.insertBlock default [] := by
  have h2 := h.proceeds hc
  have he := hc.andAdvances (advances_terminate hc.opened (.switch tag default []))
  obtain ⟨hchanges, last, _, hlast⟩ := changes_terminate hc.opened (.switch tag default [])
  refine ⟨h2.split ⟨htag, List.nodup_nil⟩ (fun q hq => ?_) (List.nodup_singleton default),
    hawaits.advances he hne, h2.works, h2.apart, fun id hid => ?_, ⟨_, tag, hlast, rfl⟩⟩
  · rw [List.mem_singleton.mp hq]
    exact hawaits.advances hc.advances hne
  · exact (h2.keeps id hid).later (fun _ _ _ _ hat => hchanges.at hat) rfl

/-- Code is inserted in a new block, for one more case of the switch. -/
def Builder.newCase (b : Builder) (s : BlockId) (value : BitVec 64) : Builder :=
  (b.createBlock.2.addCase s value b.blocks.length).setInsertPoint b.blocks.length

/-- A branch of the switch begins, in a new block. -/
theorem Switching.branch
    (h : Switching M parameters result b known b1 known1 c type incoming s default cases)
    {value : BitVec 64} (hvalue : value ∉ cases.map (·.1)) :
    Branching M parameters result b known (b1.newCase s value)
      (Function.update known1 b1.blocks.length (b.Here known)) c type incoming
      fun p => p = c ∨ p = default := by
  have hlt := h.switch.lt
  have hswitch : b1.createBlock.2.Switches s default cases :=
    h.switch.of_eq (List.getElem?_append_left hlt)
  have hnew := h.converges.awaits
  have htargets : b1.blocks.length ∉ default :: cases.map (·.2) := by
    rw [← targetsOf_switch h.switch]
    exact fun hin => absurd (h.converges.region.certified.code.targets s _ hin).2 (Nat.lt_irrefl _)
  have hknows : ∀ id, b.Here known id → KnownIn b1.createBlock.2.blocks
      (Function.update known1 b1.blocks.length (b.Here known)) s id :=
    fun id hid => (h.knows id hid).later
      (fun id p k i hat => (sameCode_createBlock b1).at_iff.mpr hat)
      (Function.update_of_ne (Nat.ne_of_lt hlt) _ _)
  have hcase := h.converges.createBlock.addCase h.works h.apart hknows hswitch hvalue htargets hnew
  refine hcase.enter (hnew.keep ?_ rfl) fun p hp => hp.symm
  exact List.getElem?_modify_ne _ _ (Nat.ne_of_lt hlt)

/-- The branch has ended. -/
theorem Switching.next
    (h : Switching M parameters result b known b1 known1 c type incoming s default cases)
    {value : BitVec 64} {incoming' : List (Operand × BlockId)}
    (hconverges : Converges M parameters result b known b2 known2 c type incoming'
      fun p => p = c ∨ p = default)
    (he : Advances (b1.newCase s value)
      (Function.update known1 b1.blocks.length (b.Here known)) b2 known2) :
    Switching M parameters result b known b2 known2 c type incoming' s default
      (cases ++ [(value, b1.blocks.length)]) := by
  have hlt := h.switch.lt
  have hsame : b1.createBlock.2.blocks[s]? = b1.blocks[s]? := List.getElem?_append_left hlt
  have hdefault : default ≠ s := h.switch.ne h.awaits.fresh
  have hdefault' := h.awaits.fresh.lt
  have hcode : SameCode b1.createBlock.2.blocks
      (b1.createBlock.2.addCase s value b1.blocks.length).blocks := sameCode_modify fun _ => rfl
  have hlt' : s < (b1.createBlock.2.addCase s value b1.blocks.length).blocks.length :=
    Nat.lt_of_lt_of_le hlt (Nat.le_trans (sameCode_createBlock b1).length_le hcode.length_le)
  refine ⟨hconverges, ?_, h.works, h.apart, fun id hid => ?_, ?_⟩
  · have hold : Awaits b known (b1.newCase s value)
        (Function.update known1 b1.blocks.length (b.Here known)) c default :=
      (h.awaits.createBlock (b.Here known)).keep (List.getElem?_modify_ne _ _ hdefault.symm) rfl
    exact hold.advances he (Nat.ne_of_lt hdefault')
  · refine (h.knows id hid).later (fun id p k i hat => he.toChanges.at ?_) ?_
    · exact hcode.at_iff.mpr ((sameCode_createBlock b1).at_iff.mpr hat)
    · rw [he.agrees s hlt', Function.update_of_ne (Nat.ne_of_lt hlt)]
  · exact (switches_addCase (h.switch.of_eq hsame) value b1.blocks.length).of_eq
      (he.kept s hlt' (Nat.ne_of_lt hlt))

end llvm
