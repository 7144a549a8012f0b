-- The code of a case expression: the branches of a switch or of a chain of
-- comparisons, and the block in which they meet.
import MiniFunctional.EmittedExpressions

open mf.util mf.ast llvm
open mf.semantics hiding Frame

namespace mf.visitors

variable {M : Module} {t : ScopeTree} {types : TypeTable} {functions_ : AssocMap SymbolId Nat}
  {constructors_ : AssocMap SymbolId ConstructorLayout} {locals : List SymbolId} {L : Locals}
  {g g1 g2 : GeneratorState}

/-! ## Branches -/

/-- The edges to the block of the phi. -/
def edgesOf (incoming : List (TypedValue × BlockId)) : List (Operand × BlockId) :=
  incoming.map fun entry => (entry.1.value, entry.2)

/-- What is known of a branch, where `locals` are in scope. -/
structure BranchTranslated (M : Module) (t : ScopeTree) (types : TypeTable)
    (functions_ : AssocMap SymbolId Nat) (constructors_ : AssocMap SymbolId ConstructorLayout)
    (locals : List SymbolId) (pattern : Pattern) (body : Expression) : Prop where
  pattern_scoped : t.PatternScoped pattern
  body_scoped : t.WellScoped body (t.patternSymbols pattern ++ locals)
  apart : Apart (t.patternSymbols pattern ++ t.boundIn body) locals
  translated : Translated M t types functions_ constructors_ body

section

variable (M t functions_ constructors_)

/-- The value of a branch's body, for the cells of its locals. -/
noncomputable def bodyMeaning (body : Expression) (cells : Cells) : Behaviour Val :=
  Meaning.expression (callBehaviour M) t functions_ constructors_ body cells >>=
    fun cell => pure cell.value

/-- A branch whose constructor is that of the scrutinee. -/
noncomputable def matchedMeaning (id : NodeId) (arguments : List String) (body : Expression)
    (layout : ConstructorLayout) (scrutinee : Operand) (L : Locals) (frame : Frame) :
    Behaviour Val :=
  Meaning.constructorPattern t id arguments (frame.eval scrutinee) layout (cellsOf frame L) >>=
    bodyMeaning M t functions_ constructors_ body

end

theorem emitted_branchBody {emitBody : Gen TypedValue} {bound : List SymbolId}
    {B : Frame → Behaviour Cell}
    (hbody : Ensures emitBody g (fun _ => True) fun value g' =>
      EmittedCell M g value.value g' bound B) (merge_block : BlockId)
    (incoming : List (TypedValue × BlockId)) :
    Ensures (emitBranchBody emitBody merge_block incoming) g (fun _ => True) fun incoming' g' =>
      ∃ entry, incoming' = incoming ++ [entry] ∧ OnlyBinds bound g g' ∧
        Jumps M g.builder g'.builder merge_block (edgesOf [entry])
          fun frame => B frame >>= fun cell => pure cell.value := by
  unfold emitBranchBody
  refine ensures_bind (hbody.mono fun body g1 h1 => ?_)
  refine ensures_bind (ensures_withBuilder (ensures_bind (ensures_withBuilder ?_)))
  simp only [h1.opened.not_terminated, Bool.false_eq_true, if_false]
  refine ensures_bind (ensures_withBuilder ?_)
  refine ensures_pure _ ⟨_, rfl, ⟨h1.binds.functions, h1.binds.others⟩, ?_⟩
  exact jumps_br h1.value merge_block

/-- A branch of a constructor pattern, and what comes after it. -/
theorem ensures_branch {α : Type} {id : NodeId} {name : String} {arguments : List String}
    {body : Expression}
    (hb : BranchTranslated M t types functions_ constructors_ locals
      (.ConstructorPattern id name arguments) body)
    {scrutinee : Operand} (layout : ConstructorLayout) (hopen : g.builder.Open)
    (hscrutinee : scrutinee.Below g.builder.next) (hL : Holds locals L g) (merge_block : BlockId)
    (incoming : List (TypedValue × BlockId)) {f : List (TypedValue × BlockId) → Gen α}
    {Q : α → GeneratorState → Prop}
    (hf : ∀ entry g', g'.functions = g.functions →
      Jumps M g.builder g'.builder merge_block (edgesOf [entry])
        (matchedMeaning M t functions_ constructors_ id arguments body layout scrutinee L) →
      Ensures (f (incoming ++ [entry])) g' (fun _ => True) Q) :
    Ensures (do
      emitConstructorPattern t id name arguments scrutinee layout
      let incoming ← emitBranchBody (emitExpression t types functions_ constructors_ body)
        merge_block incoming
      f incoming) g (fun _ => True) Q := by
  refine ensures_bind ((emitted_constructorPattern M hb.pattern_scoped layout hopen
    hscrutinee hL).mono fun _ g1 ⟨L', h1⟩ => ?_)
  have hbody := hb.translated _ L' g1 hb.body_scoped hb.apart.enter h1.codes.emits.opened h1.holds
  refine ensures_bind ((emitted_branchBody hbody merge_block incoming).mono
    fun incoming' g2 ⟨entry, hincoming, hbinds, hjumps⟩ => ?_)
  subst hincoming
  refine hf entry g2 (hbinds.functions.trans h1.binds.functions) ?_
  refine h1.codes.jumps hjumps fun frame frame1 cells _ hcells => ?_
  rw [← hcells]
  rfl

/-! ## Switches -/

/-- The tag that a branch is for. -/
def branchTag (t : ScopeTree) (constructors_ : AssocMap SymbolId ConstructorLayout)
    (branch : Branch) : Option (BitVec 64) :=
  match branch.pattern with
  | .VariablePattern _ _ => none
  | .ConstructorPattern id _ _ =>
    (Meaning.patternLayout t constructors_ id).map fun layout => BitVec.ofNat 64 layout.tag

theorem emitted_switchBranches {branches : List Branch}
    (hb : ∀ b ∈ branches, BranchTranslated M t types functions_ constructors_ locals b.pattern
      b.body)
    {scrutinee : TypedValue} {switch_block : BlockId} (merge_block : BlockId)
    {incoming : List (TypedValue × BlockId)}
    (hs : switch_block < g.builder.blocks.length)
    (hscrutinee : scrutinee.value.Below g.builder.next) (hL : Holds locals L g) :
    Ensures (emitSwitchBranches t types functions_ constructors_ branches scrutinee switch_block
        merge_block incoming) g (fun _ => True) fun incoming' g' =>
      ∃ cases more, incoming' = incoming ++ more ∧ OnlyBinds [] g g' ∧
        cases.map (fun entry => some entry.1) = branches.map (branchTag t constructors_) ∧
        Dispatches M switch_block g.builder g'.builder merge_block cases (edgesOf more)
          fun n frame => Meaning.switchBranches (callBehaviour M) t functions_ constructors_
            branches n (frame.eval scrutinee.value) (cellsOf frame L) := by
  induction branches generalizing g incoming with
  | nil => exact ensures_pure _ ⟨[], [], by simp, .refl [] g, rfl, .nil _ _ _⟩
  | cons b branches ih =>
    obtain ⟨bid, pattern, body⟩ := b
    have hbranch := hb _ List.mem_cons_self
    cases pattern with
    | VariablePattern id name => exact ensures_throw trivial
    | ConstructorPattern id name arguments =>
      simp only [emitSwitchBranches, emitSwitchBranch, patternConstructor, getLayout, bind_assoc]
      cases hctor : t.getResolvedSymbol id with
      | none => exact ensures_bind (ensures_throw trivial)
      | some ctor =>
        refine ensures_bind (ensures_pure ctor ?_)
        cases hlayout : constructors_.find ctor.id with
        | none => exact ensures_bind (ensures_throw trivial)
        | some layout =>
          refine ensures_bind (ensures_pure layout ?_)
          refine ensures_bind (ensures_withBuilder (ensures_bind (ensures_withBuilder ?_)))
          refine ensures_bind (ensures_withBuilder (ensures_bind (ensures_getLocals ?_)))
          refine ensures_branch hbranch layout ?_ ?_ (L := L) ?_ merge_block incoming
            fun entry g1 hfunctions hjumps => ?_
          · refine ⟨.empty, ?_, rfl⟩
            have hne : ¬ switch_block = g.builder.blocks.length := Nat.ne_of_lt hs
            simp [Builder.createBlock, Builder.addCase, Builder.setInsertPoint, hne]
          · exact hscrutinee
          · exact ⟨hL.found, hL.below⟩
          simp only [pure_bind]
          refine ensures_bind (ensures_setLocals ?_)
          have hnext := hjumps.changes.next
          have hlen : switch_block < g1.builder.blocks.length := by
            refine Nat.lt_of_lt_of_le hs (Nat.le_trans ?_ hjumps.changes.grows)
            simp [Builder.createBlock, Builder.addCase, Builder.setInsertPoint]
          refine (ih (fun b' hb' => hb b' (List.mem_cons_of_mem _ hb')) ?_ ?_ ?_).mono ?_
          · exact hlen
          · exact hscrutinee.mono hnext
          · exact ⟨hL.found, fun s value hvalue => (hL.below s value hvalue).mono hnext⟩
          rintro incoming' g2 ⟨cases, more, rfl, hbinds, htags, hcases⟩
          have hpattern : Meaning.patternLayout t constructors_ id = some layout := by
            simp [Meaning.patternLayout, hctor, hlayout]
          refine ⟨(BitVec.ofNat 64 layout.tag, g.builder.blocks.length) :: cases, entry :: more,
            by simp, ⟨hbinds.functions.trans hfunctions, hbinds.others⟩, ?_, ?_⟩
          · simp [htags, branchTag, hpattern]
          · refine (Dispatches.cons hs hjumps hcases).congr fun n frame => ?_
            simp only [Meaning.switchBranches, hpattern]
            rfl

/-! ## Chains of comparisons -/

/-- A trap at the end. -/
def afterTrap (b : Builder) : Builder := (b.insert (.call .trap [])).2.terminate .unreachable

theorem afterTrap_other (M : Module) {b : Builder} (h : b.Open) {id : BlockId}
    (hlt : id < b.blocks.length) (hid : id ≠ b.insertBlock) :
    (afterTrap b).blocks[id]? = b.blocks[id]? :=
  (jumps_trap (M := M) h 0).changes.kept id hlt hid

theorem ensures_emitTrap {E : GenerateError → Prop} {Q : Unit → GeneratorState → Prop}
    (h : Q () { g with builder := afterTrap g.builder }) : Ensures emitTrap g E Q :=
  ensures_bind (ensures_withBuilder (ensures_withBuilder h))

theorem emitted_sequentialBranches {branches : List Branch}
    (hb : ∀ b ∈ branches, BranchTranslated M t types functions_ constructors_ locals b.pattern
      b.body)
    {scrutinee : TypedValue} (merge_block : BlockId) {incoming : List (TypedValue × BlockId)}
    (hopen : g.builder.Open) (hscrutinee : scrutinee.value.Below g.builder.next)
    (hL : Holds locals L g) :
    Ensures (emitSequentialBranches t types functions_ constructors_ branches scrutinee
        merge_block incoming) g (fun _ => True) fun result g' =>
      ∃ more, result.1 = incoming ++ more ∧ OnlyBinds (t.boundInBranches branches) g g' ∧
        (result.2 = true → g'.builder.Open) ∧
        Jumps M g.builder (if result.2 then afterTrap g'.builder else g'.builder) merge_block
          (edgesOf more) fun frame => Meaning.sequentialBranches (callBehaviour M) t functions_
            constructors_ branches (cellOf frame scrutinee.value) (cellsOf frame L) := by
  induction branches generalizing g incoming with
  | nil => exact ensures_pure _ ⟨[], by simp, .refl _ g, fun _ => hopen, jumps_trap hopen _⟩
  | cons b branches ih =>
    obtain ⟨bid, pattern, body⟩ := b
    have hbranch := hb _ List.mem_cons_self
    cases pattern with
    | VariablePattern id name =>
      obtain ⟨s, hsymbol, hpattern⟩ := emitted_variablePattern hbranch.pattern_scoped
        hscrutinee hL (E := fun _ => True)
      simp only [emitSequentialBranches, ScopeTree.boundInBranches, Meaning.sequentialBranches,
        Meaning.variablePattern, hsymbol, Option.map_some]
      refine ensures_bind (hpattern.mono fun _ g1 ⟨hbuilder, hL1, hbinds1⟩ => ?_)
      have hbody := hbranch.translated _ _ g1 hbranch.body_scoped hbranch.apart.enter
        (hbuilder ▸ hopen) hL1
      refine ensures_bind ((emitted_branchBody hbody merge_block incoming).mono
        fun incoming' g2 ⟨entry, hincoming, hbinds2, hjumps⟩ => ensures_pure _ ?_)
      refine ⟨[entry], hincoming, (hbinds1.append hbinds2).mono fun s hs => ?_, by simp, ?_⟩
      · simp only [List.mem_append] at hs ⊢
        tauto
      · rw [hbuilder] at hjumps
        refine hjumps.congr fun frame => ?_
        unfold meaningOf
        rw [cellsOf_bind]
    | ConstructorPattern id name arguments =>
      simp only [emitSequentialBranches, emitConstructorCaseBranch, patternConstructor, getLayout,
        bind_assoc]
      cases hctor : t.getResolvedSymbol id with
      | none => exact ensures_bind (ensures_throw trivial)
      | some ctor =>
        refine ensures_bind (ensures_pure ctor ?_)
        cases hlayout : constructors_.find ctor.id with
        | none => exact ensures_bind (ensures_throw trivial)
        | some layout =>
          refine ensures_bind (ensures_pure layout ?_)
          have hopen1 := (emits_createBlock _ hopen).opened
          have hopen2 := (emits_createBlock _ hopen1).opened
          refine ensures_bind (ensures_withBuilder (ensures_bind (ensures_withBuilder ?_)))
          refine ensures_bind ((emitted_loadTag M (by exact hopen2) scrutinee.value).mono
            fun tag g1 h1 => ?_)
          refine ensures_bind ((emitted_icmpEq M h1.toEmitted.opened tag (i64 layout.tag)).mono
            fun matched g2 h2 => ?_)
          have h12 := h1.bindValue h2 (G := fun _ tag =>
            Behaviour.icmpEq tag (.int (BitVec.ofNat 64 layout.tag))) fun _ _ _ => rfl
          have hcondition := (h12.codes.createBlock hopen1).createBlock hopen
          obtain ⟨⟨hmatched, hnext⟩, ⟨hmi, hni⟩, hm, hn, hne⟩ := h12.codes.emits.twoBlocks hopen
          refine ensures_bind (ensures_withBuilder (ensures_bind (ensures_withBuilder ?_)))
          refine ensures_bind (ensures_getLocals ?_)
          have hlocals : g2.locals_ = g.locals_ := h2.locals_.trans h1.locals_
          have hle : g.builder.next ≤ g2.builder.next := hcondition.emits.next
          refine ensures_branch hbranch layout ?_ ?_ (L := L) ?_ merge_block incoming
            fun entry g3 hfunctions hjumps => ?_
          · refine ⟨.empty, ?_, rfl⟩
            exact (terminate_other h12.codes.emits.opened _ hmi).trans hmatched
          · exact hscrutinee.mono hle
          · exact ⟨fun s hs => by simp only [hlocals]; exact hL.found s hs,
              fun s value hvalue => (hL.below s value hvalue).mono hle⟩
          refine ensures_bind (ensures_setLocals (ensures_bind (ensures_withBuilder ?_)))
          simp only [pure_bind]
          have hle3 : g.builder.next ≤ g3.builder.next := Nat.le_trans hle hjumps.changes.next
          have hnext3 : g3.builder.blocks[g.builder.createBlock.2.createBlock.1]? =
              some .empty := by
            have hlt := (List.getElem?_eq_some_iff.mp hnext).1
            refine (hjumps.changes.kept _ ?_ hne).trans
              ((terminate_other h12.codes.emits.opened _ hni).trans hnext)
            exact Nat.lt_of_lt_of_eq hlt (terminate_length _ _).symm
          refine (ih (fun b' hb' => hb b' (List.mem_cons_of_mem _ hb')) ?_ ?_ ?_).mono ?_
          · exact ⟨.empty, hnext3, rfl⟩
          · exact hscrutinee.mono hle3
          · exact ⟨fun s hs => by simp only [hlocals]; exact hL.found s hs,
              fun s value hvalue => (hL.below s value hvalue).mono hle3⟩
          rintro result g4 ⟨more, hmore, hbinds, hfall, hrest⟩
          have hpattern : Meaning.patternLayout t constructors_ id = some layout := by
            simp [Meaning.patternLayout, hctor, hlayout]
          refine ⟨entry :: more, by rw [hmore]; simp, ⟨?_, ?_⟩, hfall, ?_⟩
          · exact hbinds.functions.trans (hfunctions.trans (h2.functions.trans h1.functions))
          · intro s hs
            refine (hbinds.others s fun hin => hs ?_).trans (congrArg (AssocMap.find · s) hlocals)
            exact List.mem_append_right _ (List.mem_append_right _ hin)
          · have hfirst : ∀ frame frame', Kept g.builder.next frame frame' →
                matchedMeaning M t functions_ constructors_ id arguments body layout
                  scrutinee.value L frame' =
                matchedMeaning M t functions_ constructors_ id arguments body layout
                  scrutinee.value L frame := by
              intro frame frame' hkept
              unfold matchedMeaning
              rw [hkept.eval hscrutinee, hL.kept hkept]
            have hothers : ∀ frame frame', Kept g.builder.next frame frame' →
                Meaning.sequentialBranches (callBehaviour M) t functions_ constructors_ branches
                  (cellOf frame' scrutinee.value) (cellsOf frame' L) =
                Meaning.sequentialBranches (callBehaviour M) t functions_ constructors_ branches
                  (cellOf frame scrutinee.value) (cellsOf frame L) := by
              intro frame frame' hkept
              rw [cellOf_kept hkept hscrutinee, hL.kept hkept]
            refine (jumps_condBr hcondition hmatched hnext hm hn hne hmi hni hjumps hrest
              hfirst hothers).congr fun frame => ?_
            simp only [Meaning.sequentialBranches, hpattern, bind_assoc]
            rfl

/-! ## Case expressions -/

theorem emitted_finish {b : Builder} {merge_block : BlockId}
    {incoming : List (TypedValue × BlockId)} {B : llvm.Frame → Behaviour Val}
    (h : Jumps M b g.builder merge_block (edgesOf incoming) B)
    (hmerge : g.builder.blocks[merge_block]? = some .empty) (hm : b.blocks.length ≤ merge_block) :
    Ensures (finishCaseExpression merge_block incoming) g (fun _ => True) fun value g' =>
      value.value.Below g'.builder.next ∧ OnlyBinds [] g g' ∧
        Codes M b g'.builder (fun frame => B frame >>= fun v => pure ⟨v, false⟩)
          fun c frame => cellOf frame value.value = c := by
  unfold finishCaseExpression
  cases incoming with
  | nil => exact ensures_throw trivial
  | cons entry incoming =>
    obtain ⟨result, block⟩ := entry
    refine ensures_bind (ensures_withBuilder ?_)
    cases llvmType result.type with
    | error e => exact ensures_bind (ensures_throw trivial)
    | ok type =>
      refine ensures_bind (ensures_pure type (ensures_bind (ensures_withBuilder ?_)))
      have hcodes := h.finish hmerge hm type
      refine ensures_pure _ ⟨Nat.lt_succ_self g.builder.next, ⟨rfl, fun _ _ => rfl⟩, ?_⟩
      have hpure : Codes M _ _ (fun frame => pure (cellOf frame (.result g.builder.next)))
          fun c frame => cellOf frame (.result g.builder.next) = c :=
        .pure hcodes.emits.opened _ fun _ => rfl
      refine hcodes.bind hpure fun frame frame1 v _ hv => ?_
      rw [cellOf, hv]
      rfl

theorem emitted_switchCase {branches : List Branch}
    (hb : ∀ b ∈ branches, BranchTranslated M t types functions_ constructors_ locals b.pattern
      b.body)
    (scrutinee : TypedValue) (hopen : g.builder.Open)
    (hscrutinee : scrutinee.value.Below g.builder.next) (hL : Holds locals L g) :
    Ensures (emitSwitchCaseExpression (fun switch_block merge_block =>
        emitSwitchBranches t types functions_ constructors_ branches scrutinee switch_block
          merge_block []) scrutinee) g (fun _ => True) fun value g' =>
      EmittedCell M g value.value g' [] fun frame =>
        (Meaning.loadTag (frame.eval scrutinee.value) >>= fun tag => Behaviour.dispatch tag
          fun n => Meaning.switchBranches (callBehaviour M) t functions_ constructors_ branches n
            (frame.eval scrutinee.value) (cellsOf frame L)) >>= fun v => pure ⟨v, false⟩ := by
  unfold emitSwitchCaseExpression
  have hopen1 := (emits_createBlock _ hopen).opened
  have hopen2 := (emits_createBlock _ hopen1).opened
  refine ensures_bind (ensures_withBuilder (ensures_bind (ensures_withBuilder ?_)))
  refine ensures_bind ((emitted_loadTag M (by exact hopen2) scrutinee.value).mono
    fun tag g1 h1 => ?_)
  have htag := (h1.codes.createBlock hopen1).createBlock hopen
  obtain ⟨⟨hdefault, hmerge⟩, ⟨hdi, hmi⟩, hd, hm, hne⟩ := h1.codes.emits.twoBlocks hopen
  refine ensures_bind (ensures_withBuilder (ensures_bind (ensures_withBuilder ?_)))
  have hle : g.builder.next ≤ g1.builder.next := htag.emits.next
  refine ensures_bind ((emitted_switchBranches hb _ ?_ ?_ (L := L) ?_).mono ?_)
  · rw [terminate_length]
    exact h1.toEmitted.opened.lt
  · exact hscrutinee.mono hle
  · exact ⟨fun s hs => by simp only [h1.locals_]; exact hL.found s hs,
      fun s value hvalue => (hL.below s value hvalue).mono hle⟩
  rintro incoming g2 ⟨cases, more, rfl, hbinds, -, hcases⟩
  have hkept : ∀ id, id < g1.builder.blocks.length → id ≠ g1.builder.insertBlock →
      g2.builder.blocks[id]? = g1.builder.blocks[id]? := by
    intro id hlt hid
    rw [hcases.kept id (by rw [terminate_length]; exact hlt) hid]
    exact terminate_other h1.toEmitted.opened _ hid
  have hdlt := (List.getElem?_eq_some_iff.mp hdefault).1
  have hmlt := (List.getElem?_eq_some_iff.mp hmerge).1
  have hopen3 : (g2.builder.setInsertPoint g.builder.createBlock.1).Open :=
    ⟨.empty, (hkept _ hdlt hdi).trans hdefault, rfl⟩
  have hjumps := jumps_switch htag hdefault hd hdi hcases fun n frame frame' hframe => by
    rw [hframe.eval hscrutinee, hL.kept hframe]
  refine ensures_bind (ensures_withBuilder (ensures_bind (ensures_emitTrap ?_)))
  refine (emitted_finish hjumps ?_ hm).mono fun value g3 h3 => ⟨h3.2.2, h3.1, ?_⟩
  · refine (afterTrap_other M hopen3 ?_ hne).trans ((hkept _ hmlt hmi).trans hmerge)
    exact Nat.lt_of_lt_of_le hmlt (Nat.le_trans (Nat.le_of_eq (terminate_length _ _).symm)
      hcases.grows)
  · obtain ⟨_, hbinds3, _⟩ := h3
    refine ⟨hbinds3.functions.trans (hbinds.functions.trans h1.functions), fun s hs => ?_⟩
    exact (hbinds3.others s hs).trans ((hbinds.others s hs).trans
      (congrArg (AssocMap.find · s) h1.locals_))

theorem emitted_sequentialCase {branches : List Branch}
    (hb : ∀ b ∈ branches, BranchTranslated M t types functions_ constructors_ locals b.pattern
      b.body)
    (scrutinee : TypedValue) (hopen : g.builder.Open)
    (hscrutinee : scrutinee.value.Below g.builder.next) (hL : Holds locals L g) :
    Ensures (emitSequentialCaseExpression fun merge_block =>
        emitSequentialBranches t types functions_ constructors_ branches scrutinee merge_block [])
      g (fun _ => True) fun value g' =>
      EmittedCell M g value.value g' (t.boundInBranches branches) fun frame =>
        Meaning.sequentialBranches (callBehaviour M) t functions_ constructors_ branches
          (cellOf frame scrutinee.value) (cellsOf frame L) >>= fun v => pure ⟨v, false⟩ := by
  unfold emitSequentialCaseExpression
  have hopen1 := (emits_createBlock _ hopen).opened
  have hlt := hopen.lt
  refine ensures_bind (ensures_withBuilder ?_)
  refine ensures_bind ((emitted_sequentialBranches hb g.builder.createBlock.1 ?_ ?_ (L := L)
    ?_).mono ?_)
  · exact hopen1
  · exact hscrutinee
  · exact ⟨hL.found, hL.below⟩
  rintro ⟨incoming, has_fallthrough⟩ g1 ⟨more, hincoming, hbinds, hfall, hrun⟩
  have hincoming : incoming = more := hincoming
  subst hincoming
  have hjumps := hrun.createBlock hopen
  have hmlt : g.builder.createBlock.1 < g.builder.createBlock.2.blocks.length := by
    simp [Builder.createBlock]
  have hmerge : (if has_fallthrough = true then afterTrap g1.builder else g1.builder).blocks[
      g.builder.createBlock.1]? = some .empty := by
    rw [hrun.changes.kept _ hmlt (Nat.ne_of_gt hlt)]
    simp [Builder.createBlock]
  have hfinish : ∀ g2, g2.functions = g1.functions → g2.locals_ = g1.locals_ →
      g2.builder = (if has_fallthrough = true then afterTrap g1.builder else g1.builder) →
      Ensures (finishCaseExpression g.builder.createBlock.1 incoming) g2 (fun _ => True)
        fun value g' => EmittedCell M g value.value g' (t.boundInBranches branches) fun frame =>
          Meaning.sequentialBranches (callBehaviour M) t functions_ constructors_ branches
            (cellOf frame scrutinee.value) (cellsOf frame L) >>= fun v => pure ⟨v, false⟩ := by
    intro g2 hfunctions hlocals hbuilder
    rw [← hbuilder] at hjumps hmerge
    refine (emitted_finish hjumps hmerge (Nat.le_refl _)).mono fun value g3 h3 =>
      ⟨h3.2.2, h3.1, ?_⟩
    obtain ⟨_, hbinds3, _⟩ := h3
    refine ⟨hbinds3.functions.trans (hfunctions.trans hbinds.functions), fun s hs => ?_⟩
    exact (hbinds3.others s (by simp)).trans ((congrArg (AssocMap.find · s) hlocals).trans
      (hbinds.others s hs))
  cases has_fallthrough with
  | true =>
    exact ensures_bind (ensures_emitTrap (hfinish { g1 with builder := afterTrap g1.builder }
      rfl rfl rfl))
  | false => exact hfinish g1 rfl rfl rfl

theorem translated_case {id : NodeId} {scrutinee : Expression} {branches : List Branch}
    (ihs : Translated M t types functions_ constructors_ scrutinee)
    (ihb : ∀ b ∈ branches, Translated M t types functions_ constructors_ b.body) :
    Translated M t types functions_ constructors_ (.CaseExpression id scrutinee branches) := by
  intro locals L g hs ha hopen hL
  obtain ⟨hss, -, hsb⟩ := hs
  have hscoped := ScopeTree.wellScopedBranches_iff.mp hsb
  have hbranches : ∀ b ∈ branches, BranchTranslated M t types functions_ constructors_ locals
      b.pattern b.body := fun b hb =>
    ⟨(hscoped b hb).1, (hscoped b hb).2, ha.right.branch hb, ihb b hb⟩
  simp only [emitExpression, ScopeTree.boundIn]
  refine ensures_bind ((ihs locals L g hss ha.left hopen hL).mono fun value g1 h1 => ?_)
  have hL1 := hL.later h1.binds ha.left.2 h1.next
  cases hcan : canUseSwitchCase t [] branches with
  | true =>
    simp only [if_true]
    refine (emitted_switchCase hbranches value h1.opened h1.below hL1).mono fun result g2 h2 => ?_
    have h12 := h1.bind (G := fun frame c =>
        (Meaning.loadTag c.value >>= fun tag => Behaviour.dispatch tag fun n =>
          Meaning.switchBranches (callBehaviour M) t functions_ constructors_ branches n c.value
            (cellsOf frame L)) >>= fun v => pure ⟨v, false⟩) h2
      fun frame frame1 hkept => by rw [hL.kept hkept]; rfl
    refine ⟨h12.codes.congr fun frame => ?_, h12.below, h12.binds.mono fun s hs => ?_⟩
    · have hswitch : ∀ x y : Behaviour Cell,
          (if canUseSwitchCase t [] branches = true then x else y) = x := fun _ _ => if_pos hcan
      simp only [meaningOf, Meaning.expression, hswitch, bind_assoc]
    · rw [List.append_nil] at hs
      exact List.mem_append_left _ hs
  | false =>
    simp only [Bool.false_eq_true, if_false]
    refine (emitted_sequentialCase hbranches value h1.opened h1.below hL1).mono
      fun result g2 h2 => ?_
    have h12 := h1.bind (G := fun frame c =>
        Meaning.sequentialBranches (callBehaviour M) t functions_ constructors_ branches c
          (cellsOf frame L) >>= fun v => pure ⟨v, false⟩) h2
      fun frame frame1 hkept => by rw [hL.kept hkept]
    refine ⟨h12.codes.congr fun frame => ?_, h12.below, h12.binds⟩
    have hchain : ∀ x y : Behaviour Cell,
        (if canUseSwitchCase t [] branches = true then x else y) = y :=
      fun _ _ => if_neg (by simp [hcan])
    simp only [meaningOf, Meaning.expression, hchain]

/-- The generator's code for an expression does what the expression means. -/
theorem translated (hlinked : Linked M types functions_) (e : Expression) :
    Translated M t types functions_ constructors_ e ∧
      TranslatedCallee M t types functions_ constructors_ e := by
  induction e with
  | IntLiteral id value =>
    refine ⟨fun locals L g _ _ hopen _ => ?_, translatedCallee_throw fun _ => rfl⟩
    exact ensures_pure _ ⟨.pure hopen _ fun _ => rfl, trivial, .refl _ g⟩
  | Variable id name =>
    exact ⟨translated_variable id name, translatedCallee_variable hlinked id name⟩
  | BinaryOperator kind id l r ihl ihr =>
    exact ⟨translated_operator ihl.1 ihr.1, translatedCallee_throw fun _ => rfl⟩
  | Application id f a ihf iha =>
    exact ⟨translated_application ihf.2 iha.1, translatedCallee_application ihf.2 iha.1⟩
  | CaseExpression id scrutinee branches ihs ihb =>
    exact ⟨translated_case ihs.1 fun b hb => (ihb b hb).1, translatedCallee_throw fun _ => rfl⟩

end mf.visitors
