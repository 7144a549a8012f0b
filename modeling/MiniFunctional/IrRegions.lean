-- Pieces of a function: code that is emitted at one place and in blocks of its
-- own, and goes on at another or comes together in a block.
import MiniFunctional.IrCertificates
import Mathlib.Logic.Function.Basic

namespace llvm

variable {M : Module} {parameters : List Ty} {result : Ty} {b b1 b2 : Builder}
  {known known1 known2 : Known}

/-! ## Blocks that are left alone -/

theorem Changes.at {b b' : Builder} (h : Changes b b') {id k : Nat} {p : BlockId}
    {i : Instruction} (hat : At b.blocks id p k i) : At b'.blocks id p k i := by
  obtain ⟨block, hblock, hk⟩ := hat
  obtain ⟨block', hblock', hle⟩ := h.grows_blocks (fun _ => True) p trivial block hblock
  refine ⟨block', hblock', ?_⟩
  obtain ⟨rest, heq⟩ := hle.1
  rw [← heq, List.getElem?_append_left (List.getElem?_eq_some_iff.mp hk).1]
  exact hk

/-- There is more code, and the same is known; the block `c` and the edges to it
are as they were. -/
structure Aside (c : BlockId) (b : Builder) (known : Known) (b' : Builder) (known' : Known) :
    Prop where
  code : ∀ id p k i, At b.blocks id p k i → At b'.blocks id p k i
  agrees : ∀ p, p < b.blocks.length → known' p = known p
  block : b'.blocks[c]? = b.blocks[c]?
  edges : ∀ p, (targetsOf b'.blocks p).count c = (targetsOf b.blocks p).count c

theorem KnownIn.later {b b' : Builder} {known known' : Known} {p : BlockId} {id : Nat}
    (h : KnownIn b.blocks known p id)
    (hcode : ∀ id p k i, At b.blocks id p k i → At b'.blocks id p k i)
    (hknown : known' p = known p) : KnownIn b'.blocks known' p id := by
  rcases h with h | ⟨k, i, hat⟩
  · exact .inl (hknown.symm ▸ h)
  · exact .inr ⟨k, i, hcode id p k i hat⟩

theorem Builder.Fresh.of_eq {b b' : Builder} {c : BlockId} (h : b.Fresh c)
    (heq : b'.blocks[c]? = b.blocks[c]?) : b'.Fresh c := ⟨h.pos, heq.trans h.empty⟩

/-- The values of `incoming` come together in a block that takes no code yet, from
the ends of blocks; there `K` is known. -/
structure Joins (M : Module) (parameters : List Ty) (b : Builder) (known : Known) (c : BlockId)
    (K : Nat → Prop) (type : Ty) (incoming : List (Operand × BlockId)) : Prop where
  fresh : b.Fresh c
  knows : known c = K
  edges : ∀ p, (targetsOf b.blocks p).count c = (incoming.map (·.2)).count p
  values : ∀ op q, (op, q) ∈ incoming → op.Is M parameters b.blocks (KnownIn b.blocks known q)
    (.of type)

variable {c : BlockId} {K : Nat → Prop} {type : Ty} {incoming : List (Operand × BlockId)}

/-- Control comes from the blocks of the entries. -/
theorem Joins.lt (h : Joins M parameters b known c K type incoming) {op : Operand} {q : BlockId}
    (hentry : (op, q) ∈ incoming) : q < b.blocks.length := by
  have hpos : 0 < (incoming.map (·.2)).count q :=
    List.count_pos_iff.mpr (List.mem_map.mpr ⟨_, hentry, rfl⟩)
  rw [← h.edges, List.count_pos_iff] at hpos
  exact targetsOf_lt hpos

theorem Joins.aside (h : Joins M parameters b known c K type incoming)
    (ha : Aside c b known b1 known1) : Joins M parameters b1 known1 c K type incoming := by
  refine ⟨h.fresh.of_eq ha.block, ?_, fun p => (ha.edges p).trans (h.edges p),
    fun op q hentry => ?_⟩
  · rw [ha.agrees c h.fresh.lt]
    exact h.knows
  · exact (h.values op q hentry).mono ha.code fun id _ _ _ _ hid =>
      hid.later ha.code (ha.agrees q (h.lt hentry))

/-- The phi of the block. -/
theorem Joins.phi (h : Joins M parameters b known c K type incoming) (hne : incoming ≠ [])
    (hdistinct : ∀ p, (targetsOf b.blocks p).Nodup) :
    PhiChecked M parameters b.blocks (KnownIn b.blocks known) c 0 type incoming := by
  refine ⟨rfl, hne, List.nodup_iff_count_le_one.mpr fun q => ?_, fun q => (h.edges q).symm,
    h.values⟩
  rw [← h.edges]
  exact List.nodup_iff_count_le_one.mp (hdistinct q) c

/-! ## Regions -/

/-- From `b`, code was put at the end of the insertion block and in new blocks.
No new edges go to old blocks, and the open blocks among those it worked on
satisfy `rest`. -/
structure Region (M : Module) (parameters : List Ty) (result : Ty) (b : Builder) (known : Known)
    (b' : Builder) (known' : Known) (rest : BlockId → Prop) : Prop extends Changes b b' where
  certified : Certified M parameters result b' known'
  agrees : ∀ p, p < b.blocks.length → known' p = known p
  inward : ∀ p c, c < b.blocks.length → c ∈ targetsOf b'.blocks p → c ∈ targetsOf b.blocks p
  closed : ∀ (p : BlockId) (block : BasicBlock), b.Works p → ¬ rest p →
    b'.blocks[p]? = some block → block.terminator ≠ none

/-- The emission goes on in one block, where no less is known. -/
structure Proceeds (M : Module) (parameters : List Ty) (result : Ty) (b : Builder)
    (known : Known) (b' : Builder) (known' : Known) : Prop
    extends Region M parameters result b known b' known' (· = b'.insertBlock) where
  works : b.Works b'.insertBlock
  opened : b'.Open
  keeps : ∀ id, b.Here known id → b'.Here known' id

variable {rest rest' : BlockId → Prop}

theorem Region.refl (h : Certified M parameters result b known) :
    Region M parameters result b known b known (· = b.insertBlock) := by
  refine ⟨.refl b, h, fun _ _ => rfl, fun _ _ _ hc => hc, fun p block hp hrest hblock => ?_⟩
  have hlt := (List.getElem?_eq_some_iff.mp hblock).1
  exact absurd hlt (Nat.not_lt.mpr (hp.resolve_left hrest))

theorem Region.mono (h : Region M parameters result b known b1 known1 rest)
    (hrest : ∀ p, rest p → rest' p) : Region M parameters result b known b1 known1 rest' :=
  ⟨h.toChanges, h.certified, h.agrees, h.inward,
    fun p block hp hnot => h.closed p block hp fun hin => hnot (hrest p hin)⟩

/-- The emission goes on where the region may work. -/
theorem Region.trans (h : Region M parameters result b known b1 known1 rest)
    (hworks : b.Works b1.insertBlock) (h' : Region M parameters result b1 known1 b2 known2 rest') :
    Region M parameters result b known b2 known2 fun p => rest' p ∨ (rest p ∧ ¬ b1.Works p) := by
  refine ⟨h.toChanges.trans hworks h'.toChanges, h'.certified, fun p hp => ?_,
    fun p c hc hin => ?_, fun p block hp hrest hblock => ?_⟩
  · rw [h'.agrees p (Nat.lt_of_lt_of_le hp h.grows), h.agrees p hp]
  · exact h.inward p c hc (h'.inward p c (Nat.lt_of_lt_of_le hc h.grows) hin)
  · rw [not_or, not_and, not_not] at hrest
    by_cases hw : b1.Works p
    · exact h'.closed p block hw hrest.1 hblock
    · have hold : ¬ rest p := fun hin => hw (hrest.2 hin)
      rw [Builder.Works, not_or] at hw
      rw [h'.kept p (Nat.not_le.mp hw.2) hw.1] at hblock
      exact h.closed p block hp hold hblock

theorem Proceeds.refl (h : Certified M parameters result b known) (hopen : b.Open) :
    Proceeds M parameters result b known b known :=
  ⟨.refl h, .inl rfl, hopen, fun _ hid => hid⟩

theorem Region.works (h : Region M parameters result b known b1 known1 rest)
    (hworks : b.Works b1.insertBlock) {p : BlockId} (hp : b1.Works p) : b.Works p := by
  rcases hp with rfl | hge
  · exact hworks
  · exact .inr (Nat.le_trans h.grows hge)

theorem Proceeds.trans (h : Proceeds M parameters result b known b1 known1)
    (h' : Proceeds M parameters result b1 known1 b2 known2) :
    Proceeds M parameters result b known b2 known2 := by
  refine ⟨(h.toRegion.trans h.works h'.toRegion).mono fun p hp => ?_,
    h.toRegion.works h.works h'.works, h'.opened, fun id hid => h'.keeps id (h.keeps id hid)⟩
  exact hp.resolve_right fun hold => hold.2 (.inl hold.1)

/-- An old block but the one at which the emission began. -/
theorem Region.aside (h : Region M parameters result b known b1 known1 rest)
    (hcertified : Certified M parameters result b known) (hopen : b.Open)
    (hlt : c < b.blocks.length) (hne : c ≠ b.insertBlock) : Aside c b known b1 known1 := by
  refine ⟨fun id p k i hat => h.toChanges.at hat, h.agrees, h.kept c hlt hne, fun p => ?_⟩
  have hiff : c ∈ targetsOf b1.blocks p ↔ c ∈ targetsOf b.blocks p := by
    refine ⟨h.inward p c hlt, fun hc => ?_⟩
    have hp : p ≠ b.insertBlock := by
      intro heq
      rw [heq, hopen.targetsOf] at hc
      cases hc
    unfold targetsOf
    rw [h.kept p (targetsOf_lt hc) hp]
    exact hc
  rw [(h.certified.distinct p).count, (hcertified.distinct p).count]
  simp only [hiff]

theorem certified_setInsertPoint (h : Certified M parameters result b known) (q : BlockId) :
    Certified M parameters result (b.setInsertPoint q) known :=
  ⟨h.code, h.ids, h.start, h.fresh, h.apart, h.flows, h.distinct⟩

theorem Region.setInsertPoint (h : Region M parameters result b known b1 known1 rest)
    (q : BlockId) : Region M parameters result b known (b1.setInsertPoint q) known1 rest :=
  ⟨⟨h.grows, h.kept, h.extended, h.next, h.malformed⟩, certified_setInsertPoint h.certified q,
    h.agrees, h.inward, h.closed⟩

theorem changes_createBlock (h : Changes b b1) : Changes b b1.createBlock.2 := by
  have hsame : ∀ id, id < b1.blocks.length → b1.createBlock.2.blocks[id]? = b1.blocks[id]? :=
    fun id hid => List.getElem?_append_left hid
  refine ⟨?_, fun id hid hne => ?_, fun block hblock => ?_, h.next, h.malformed⟩
  · simpa [Builder.createBlock] using Nat.le_succ_of_le h.grows
  · rw [hsame id (Nat.lt_of_lt_of_le hid h.grows), h.kept id hid hne]
  · obtain ⟨block', hblock', hle⟩ := h.extended block hblock
    exact ⟨block', by rw [hsame _ (List.getElem?_eq_some_iff.mp hblock').1]; exact hblock', hle⟩

/-- A new block, where `K` is known. -/
theorem Region.createBlock (h : Region M parameters result b known b1 known1 rest) (hopen : b.Open)
    (hK : ∀ id, K id → id < b1.next) :
    Region M parameters result b known b1.createBlock.2
      (Function.update known1 b1.blocks.length K) fun p => rest p ∨ p = b1.blocks.length := by
  have hlt := Nat.lt_of_lt_of_le (Nat.lt_of_le_of_lt (Nat.zero_le _) hopen.lt) h.grows
  have hold : ∀ p, p < b1.blocks.length →
      Function.update known1 b1.blocks.length K p = known1 p :=
    fun p hp => Function.update_of_ne (Nat.ne_of_lt hp) _ _
  refine ⟨changes_createBlock h.toChanges, certified_createBlock (h.certified.congr hlt hold ?_),
    fun p hp => ?_, fun p c hc hin => ?_, fun p block hp hrest hblock => ?_⟩
  · intro p id hid
    by_cases hp : p = b1.blocks.length
    · subst hp
      rw [Function.update_self] at hid
      exact hK id hid
    · rw [Function.update_of_ne hp] at hid
      exact h.certified.fresh p id hid
  · rw [hold p (Nat.lt_of_lt_of_le hp h.grows), h.agrees p hp]
  · rw [targetsOf_createBlock] at hin
    exact h.inward p c hc hin
  · rw [not_or] at hrest
    have hle : p < b1.blocks.length + 1 := by
      simpa [Builder.createBlock] using (List.getElem?_eq_some_iff.mp hblock).1
    have hlt' := Nat.lt_of_le_of_ne (Nat.le_of_lt_succ hle) hrest.2
    rw [Builder.createBlock, List.getElem?_append_left hlt'] at hblock
    exact h.closed p block hp hrest.1 hblock

/-- The block that takes code ends; control goes to new blocks. -/
theorem Region.terminate (h : Region M parameters result b known b1 known1 rest)
    (hworks : b.Works b1.insertBlock) (hopen : b1.Open) {t : Terminator}
    (htyped : t.Typed (b1.Usable M parameters known1) result)
    (htargets : ∀ c ∈ t.targets, b.blocks.length ≤ c ∧ b1.Fresh c ∧
      ∀ id, known1 c id → b1.Here known1 id)
    (hnodup : t.targets.Nodup) :
    Region M parameters result b known (b1.terminate t) known1
      fun p => rest p ∧ p ≠ b1.insertBlock := by
  obtain ⟨hchanges, last, _, hlast⟩ := changes_terminate hopen t
  refine ⟨h.toChanges.trans hworks hchanges, certified_terminate h.certified hopen htyped
    (fun c hc => (htargets c hc).2) hnodup, h.agrees, fun p c hc hin => ?_,
    fun p block hp hrest hblock => ?_⟩
  · by_cases hp : b1.insertBlock = p
    · subst hp
      rw [targetsOf_terminate hopen] at hin
      exact absurd hc (Nat.not_lt.mpr (htargets c hin).1)
    · rw [Builder.terminate, targetsOf_modify_ne hp] at hin
      exact h.inward p c hc hin
  · by_cases hne : b1.insertBlock = p
    · subst hne
      rw [hlast] at hblock
      cases hblock
      simp
    · rw [Builder.terminate, List.getElem?_modify_ne _ _ hne] at hblock
      exact h.closed p block hp (fun hin => hrest ⟨hin, fun heq => hne heq.symm⟩) hblock

theorem changes_addCase (h : Changes b b1) (hopen : b.Open) {s : BlockId} (hs : b.Works s)
    (value : BitVec 64) (target : BlockId) : Changes b (b1.addCase s value target) := by
  refine ⟨by simpa [Builder.addCase] using h.grows, fun id hid hne => ?_, fun block hblock => ?_,
    h.next, h.malformed⟩
  · have hid' : s ≠ id := by
      rcases hs with rfl | hge
      · exact fun heq => hne heq.symm
      · exact Nat.ne_of_gt (Nat.lt_of_lt_of_le hid hge)
    rw [Builder.addCase, List.getElem?_modify_ne _ _ hid', h.kept id hid hne]
  · obtain ⟨block', hblock', hle⟩ := h.extended block hblock
    have hnone : ¬ block.terminator ≠ none := by
      obtain ⟨block0, hblock0, hnone⟩ := hopen
      rw [hblock] at hblock0
      cases hblock0
      exact not_not.mpr hnone
    by_cases hid : s = b.insertBlock
    · subst hid
      refine ⟨block'.addCase value target, ?_, hle.1, fun hclosed => absurd hclosed hnone⟩
      rw [Builder.addCase, List.getElem?_modify_eq, hblock']
      rfl
    · exact ⟨block', by rw [Builder.addCase, List.getElem?_modify_ne _ _ hid]; exact hblock', hle⟩

/-- A switch gets one more case, with a new block. -/
theorem Region.addCase (h : Region M parameters result b known b1 known1 rest) (hopen : b.Open)
    {s default : BlockId} (hs : b.Works s) {cases : List (BitVec 64 × BlockId)}
    (hswitch : b1.Switches s default cases) {value : BitVec 64}
    (hvalue : value ∉ cases.map (·.1)) {target : BlockId}
    (htarget : target ∉ default :: cases.map (·.2)) (hnew : b.blocks.length ≤ target)
    (hfresh : b1.Fresh target) (hknows : ∀ id, known1 target id → KnownIn b1.blocks known1 s id) :
    Region M parameters result b known (b1.addCase s value target) known1 rest := by
  refine ⟨changes_addCase h.toChanges hopen hs value target, certified_addCase h.certified hswitch
    hvalue htarget hfresh hknows, h.agrees, fun p c hc hin => ?_,
    fun p block hp hrest hblock => ?_⟩
  · by_cases hp : s = p
    · subst hp
      rw [targetsOf_addCase hswitch, List.mem_append, List.mem_singleton] at hin
      rcases hin with hin | rfl
      · exact h.inward s c hc hin
      · exact absurd hc (Nat.not_lt.mpr hnew)
    · rw [Builder.addCase, targetsOf_modify_ne hp] at hin
      exact h.inward p c hc hin
  · by_cases hne : s = p
    · subst hne
      obtain ⟨block0, v, hblock0, ht⟩ := hswitch
      rw [Builder.addCase, List.getElem?_modify_eq, hblock0] at hblock
      cases hblock
      simp [BasicBlock.addCase, ht]
    · rw [Builder.addCase, List.getElem?_modify_ne _ _ hne] at hblock
      exact h.closed p block hp hrest hblock

/-! ## Instructions -/

/-- A phi may be put where `hphi` says. -/
theorem proceeds_insert (h : Certified M parameters result b known) (hopen : b.Open)
    {i : Instruction} (htyped : i.Typed M (b.Usable M parameters known))
    (hphi : ∀ block type incoming, b.blocks[b.insertBlock]? = some block →
      i = .phi type incoming → PhiChecked M parameters b.blocks (KnownIn b.blocks known)
        b.insertBlock block.instructions.length type incoming) :
    Proceeds M parameters result b known (b.insert i).2 known := by
  have hemits := emits_insert hopen i
  refine ⟨⟨hemits.toChanges, certified_insert h hopen htyped hphi, fun _ _ => rfl,
    fun p c _ hin => ?_, fun p block hp hrest hblock => ?_⟩, .inl rfl, hemits.opened,
    fun id hid => hid.later (fun _ _ _ _ hat => hemits.toChanges.at hat) rfl⟩
  · rw [targetsOf_insert] at hin
    exact hin
  · have hlt := (List.getElem?_eq_some_iff.mp hblock).1
    rw [Builder.insert, List.length_modify] at hlt
    exact absurd hlt (Nat.not_lt.mpr (hp.resolve_left hrest))

/-- The result of the instruction may be used after it. -/
theorem usable_insert (hopen : b.Open) {i : Instruction} {T : ValueTy}
    (hT : i.resultTy M = some T) :
    (b.insert i).2.Usable M parameters known (.result b.next) T := by
  obtain ⟨block, hblock, _⟩ := hopen
  have hat : At (b.insert i).2.blocks b.next b.insertBlock block.instructions.length i :=
    (at_insert hblock i _ _ _ _).mpr (.inr ⟨rfl, rfl, rfl, rfl⟩)
  exact ⟨.inr ⟨_, i, hat⟩, b.insertBlock, _, i, hat, hT⟩

/-- What may be used may be used further on. -/
theorem Proceeds.usable (h : Proceeds M parameters result b known b1 known1) {op : Operand}
    {T : ValueTy} (hop : b.Usable M parameters known op T) :
    b1.Usable M parameters known1 op T :=
  hop.mono (fun _ _ _ _ hat => h.toChanges.at hat) fun id _ _ _ _ hid => h.keeps id hid

end llvm
