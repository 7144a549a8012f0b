-- Case expressions: the values of the branches come together in a phi, whichever
-- way the branches are told apart.
import MiniFunctional.CertifiedExpressions

open mf.util mf.ast mf.parsing llvm
open mf.semantics hiding Frame

namespace mf.visitors

open ScopeTree

variable {M : Module} {parameters : List Ty} {result : Ty} {t : ScopeTree} {types : TypeTable}
  {program : Program} {τ : Typing} {functions_ : AssocMap SymbolId Nat}
  {constructors_ : AssocMap SymbolId ConstructorLayout} {locals : List SymbolId}
  {b : Builder} {known known1 : Known} {c : BlockId} {g g1 : GeneratorState}
  {incoming : List (TypedValue × BlockId)} {pending : BlockId → Prop} {S T : TypeVariant}

/-- The operands of the phi. -/
def phiOperands (incoming : List (TypedValue × BlockId)) : List (Operand × BlockId) :=
  incoming.map fun entry => (entry.1.value, entry.2)

/-! ## Branches -/

/-- What the branches of a case expression start from: `b` is where the scrutinee has
been computed. -/
structure Scrutinized (M : Module) (parameters : List Ty) (τ : Typing) (locals : List SymbolId)
    (b : Builder) (known : Known) (g : GeneratorState) : Prop where
  typed : LocalsTyped τ locals g
  ready : LocalsReady M parameters b known locals g.locals_

theorem Scrutinized.onlyBinds (h : Scrutinized M parameters τ locals b known g)
    (hb : OnlyBinds [] g g1) : Scrutinized M parameters τ locals b known g1 := by
  refine ⟨h.typed.onlyBinds hb (by simp), fun s hs v hv => h.ready s hs v ?_⟩
  rw [← hb.others s (by simp)]
  exact hv

/-- In a branch that begins. -/
theorem Scrutinized.positioned (h : Scrutinized M parameters τ locals b known g) {b1 : Builder}
    {type : Ty} {entries : List (Operand × BlockId)}
    (hb : Branching M parameters result b known b1 known1 c type entries pending) :
    Positioned M parameters result τ locals known1 { g with builder := b1 } :=
  ⟨⟨hb.opened, hb.region.certified⟩, h.typed, fun s hs v hv => hb.usable (h.ready s hs v hv)⟩

/-- The value of the body goes to the phi. -/
theorem certified_branchBody {emitBody : Gen TypedValue} {bound : List SymbolId}
    (hb : Branching M parameters result b known g.builder known1 c (lowerTy T)
      (phiOperands incoming) pending)
    (hbody : CertifiesTyped M parameters result known1 emitBody g T bound) :
    Ensures (emitBranchBody emitBody c incoming) g (fun _ => True) fun incoming' g' =>
      ∃ known', Converges M parameters result b known g'.builder known' c (lowerTy T)
        (phiOperands incoming') pending ∧ Advances g.builder known1 g'.builder known' := by
  unfold emitBranchBody
  apply ensures_bind
  refine hbody.mono fun body g1 h1 => ?_
  obtain ⟨⟨htype, _, _⟩, known2, hready, hc⟩ := h1
  refine ensures_bind (ensures_withBuilder (ensures_bind (ensures_withBuilder ?_)))
  rw [hc.opened.not_terminated]
  refine ensures_bind (ensures_withBuilder (ensures_pure _ ⟨known2, ?_, ?_⟩))
  · have hop : g1.builder.Usable M parameters known2 body.value (.of (lowerTy T)) := by
      rw [← htype]
      exact hready
    have hjump := (hb.proceeds hc).jump hop
    unfold phiOperands at *
    rw [List.map_append]
    exact hjump
  · exact hc.andAdvances (advances_terminate hc.opened _)

/-- What a constructor pattern is compared with is a node. -/
theorem scrutinee_ptr {id : NodeId} {name : String} {arguments : List String}
    (hS : PatternHasType t program τ S (.ConstructorPattern id name arguments)) :
    lowerTy S = .ptr := by
  obtain ⟨_, _, _, _, rfl, _⟩ := hS
  rfl

section

variable (h : Checked t program types τ) (hlayouts : Layouts t types program constructors_)

include h hlayouts

theorem certified_constructorBranch {id : NodeId} {name : String} {arguments : List String}
    {body : Expression}
    (hbranch : BranchChecked t types program τ functions_ constructors_ locals S T
      (.ConstructorPattern id name arguments) body)
    (hbody : ExpressionCertified M parameters result t types program τ functions_ constructors_
      body) {scrutinee : TypedValue}
    (hscrutinee : b.Usable M parameters known scrutinee.value (.of (lowerTy S)))
    (hg : Scrutinized M parameters τ locals b known g)
    (hb : Branching M parameters result b known g.builder known1 c (lowerTy T)
      (phiOperands incoming) (· = c)) :
    Ensures (emitConstructorCaseBranch t constructors_ id name arguments
        (emitExpression t types functions_ constructors_ body) scrutinee c incoming) g
      (fun _ => True) fun incoming' g' => ∃ known', Branching M parameters result b known
        g'.builder known' c (lowerTy T) (phiOperands incoming') (· = c) := by
  obtain ⟨ctor, layout, hctor, hlayout, hpattern⟩ := certified_constructorPattern (M := M)
    h hlayouts hbranch.pattern_scoped hbranch.pattern_type
  rw [scrutinee_ptr hbranch.pattern_type] at hscrutinee
  unfold emitConstructorCaseBranch
  simp only [patternConstructor_eq hctor, getLayout_eq hlayout, pure_bind]
  refine ensures_bind (ensures_withBuilder (ensures_bind (ensures_withBuilder ?_)))
  have hb2 := hb.createBlock.createBlock
  apply ensures_bind
  refine (computes_loadTag ⟨hb2.opened, hb2.region.certified⟩ (hb2.usable hscrutinee)).mono
    fun tag g3 h3 => ?_
  apply ensures_bind
  refine (computes_instruction h3.sound (.icmpEq tag (i64 layout.tag)) trivial
    ⟨h3.usable, usable_i64 g3.builder _ layout.tag⟩ rfl).mono fun matched g4 h4 => ?_
  have h24 := h3.toPasses.computes h4
  obtain ⟨hmatched, hnext, hne⟩ := hb.test h24.proceeds h24.usable
  refine ensures_bind (ensures_withBuilder (ensures_bind (ensures_withBuilder ?_)))
  refine ensures_bind (ensures_getLocals ?_)
  have hg4 := hg.onlyBinds ⟨h24.binds.functions, h24.binds.others⟩
  apply ensures_bind
  refine (hpattern scrutinee.value locals _ _ (hmatched.usable hscrutinee)
    (hg4.positioned hmatched)).mono fun _ g7 h7 => ?_
  obtain ⟨hpos7, hc7⟩ := h7
  have hvalue := hbody _ _ g7 T hbranch.body_scoped hbranch.body_type hbranch.apart.enter hpos7
  apply ensures_bind
  refine (certified_branchBody (hmatched.proceeds hc7) hvalue).mono fun incoming' g8 h8 => ?_
  obtain ⟨known8, hconverges, he⟩ := h8
  refine ensures_bind (ensures_setLocals (ensures_bind (ensures_withBuilder ?_)))
  have hawaits := hnext.advances (hc7.andAdvances he) hne
  exact ensures_pure _ ⟨known8, hconverges.enter hawaits fun p hp => hp.symm⟩

/-- The branches one after another; at the end either the last test has failed, or the
last branch has matched everything. -/
theorem certified_sequentialBranches {branches : List Branch}
    (hbranches : ∀ br ∈ branches, BranchChecked t types program τ functions_ constructors_ locals S
      T br.pattern br.body)
    (hbodies : ∀ br ∈ branches, ExpressionCertified M parameters result t types program τ functions_
      constructors_ br.body) {scrutinee : TypedValue} (htype : scrutinee.type = S)
    (hground : containsFunctionType S = false)
    (hscrutinee : b.Usable M parameters known scrutinee.value (.of (lowerTy S)))
    (htyped : IncomingTyped T incoming) (hg : Scrutinized M parameters τ locals b known g)
    (hb : Branching M parameters result b known g.builder known1 c (lowerTy T)
      (phiOperands incoming) (· = c)) :
    Ensures (emitSequentialBranches t types functions_ constructors_ branches scrutinee c incoming)
      g (fun _ => True) fun r g' => ∃ known',
        (r.2 = true → Branching M parameters result b known g'.builder known' c (lowerTy T)
          (phiOperands r.1) (· = c)) ∧
        (r.2 = false → Converges M parameters result b known g'.builder known' c (lowerTy T)
          (phiOperands r.1) (· = c)) := by
  induction branches generalizing g incoming known1 with
  | nil => exact ensures_pure _ ⟨known1, fun _ => hb, by simp⟩
  | cons br branches ih =>
    obtain ⟨bid, pattern, body⟩ := br
    have hbranch := hbranches _ List.mem_cons_self
    have hbody := hbodies _ List.mem_cons_self
    cases pattern with
    | VariablePattern id name =>
      simp only [emitSequentialBranches]
      have hready : Ready M parameters known1 g scrutinee := by
        rw [Ready, htype]
        exact hb.usable hscrutinee
      apply ensures_bind
      refine (certified_variablePattern hbranch.pattern_scoped hbranch.pattern_type hground htype
        hready (hg.positioned hb)).mono fun _ g1 h1 => ?_
      obtain ⟨hpos1, hbuilder⟩ := h1
      have hvalue := hbody _ _ g1 T hbranch.body_scoped hbranch.body_type hbranch.apart.enter hpos1
      rw [← hbuilder] at hb
      apply ensures_bind
      refine (certified_branchBody hb hvalue).mono fun incoming' g2 h2 => ?_
      obtain ⟨known2, hconverges, _⟩ := h2
      exact ensures_pure _ ⟨known2, by simp, fun _ => hconverges⟩
    | ConstructorPattern id name arguments =>
      simp only [emitSequentialBranches]
      apply ensures_bind
      refine ((certified_constructorBranch h hlayouts hbranch hbody hscrutinee hg hb).both
        (emitConstructorCaseBranch_spec h hlayouts hbranch hg.typed scrutinee c htyped)).mono
          fun incoming1 g1 h1 => ?_
      obtain ⟨⟨known2, hbranching⟩, _, htyped1, _, hb1⟩ := h1
      exact ih (fun br hbr => hbranches br (List.mem_cons_of_mem _ hbr))
        (fun br hbr => hbodies br (List.mem_cons_of_mem _ hbr)) htyped1 (hg.onlyBinds hb1)
        hbranching

theorem certified_switchBranch {id : NodeId} {name : String} {arguments : List String}
    {body : Expression}
    (hbranch : BranchChecked t types program τ functions_ constructors_ locals S T
      (.ConstructorPattern id name arguments) body)
    (hbody : ExpressionCertified M parameters result t types program τ functions_ constructors_
      body) {scrutinee : TypedValue}
    (hscrutinee : b.Usable M parameters known scrutinee.value (.of (lowerTy S)))
    (hg : Scrutinized M parameters τ locals b known g) {s default : BlockId}
    {cases : List (BitVec 64 × BlockId)}
    (hb : Switching M parameters result b known g.builder known1 c (lowerTy T)
      (phiOperands incoming) s default cases)
    (hvalue : ∀ ctor layout, t.getResolvedSymbol id = some ctor →
      constructors_.find ctor.id = some layout → BitVec.ofNat 64 layout.tag ∉ cases.map (·.1)) :
    Ensures (emitSwitchBranch t constructors_ id name arguments
        (emitExpression t types functions_ constructors_ body) scrutinee s c incoming) g
      (fun _ => True) fun incoming' g' => ∃ ctor layout known' target,
        t.getResolvedSymbol id = some ctor ∧ constructors_.find ctor.id = some layout ∧
        Switching M parameters result b known g'.builder known' c (lowerTy T)
          (phiOperands incoming') s default (cases ++ [(BitVec.ofNat 64 layout.tag, target)]) := by
  obtain ⟨ctor, layout, hctor, hlayout, hpattern⟩ := certified_constructorPattern (M := M)
    h hlayouts hbranch.pattern_scoped hbranch.pattern_type
  rw [scrutinee_ptr hbranch.pattern_type] at hscrutinee
  unfold emitSwitchBranch
  simp only [patternConstructor_eq hctor, getLayout_eq hlayout, pure_bind]
  refine ensures_bind (ensures_withBuilder (ensures_bind (ensures_withBuilder ?_)))
  refine ensures_bind (ensures_withBuilder (ensures_bind (ensures_getLocals ?_)))
  have hnew := hb.branch (hvalue ctor layout hctor hlayout)
  apply ensures_bind
  refine (hpattern scrutinee.value locals _ _ (hnew.usable hscrutinee)
    (hg.positioned hnew)).mono fun _ g1 h1 => ?_
  obtain ⟨hpos1, hc1⟩ := h1
  have hready := hbody _ _ g1 T hbranch.body_scoped hbranch.body_type hbranch.apart.enter hpos1
  apply ensures_bind
  refine (certified_branchBody (hnew.proceeds hc1) hready).mono fun incoming' g2 h2 => ?_
  obtain ⟨known2, hconverges, he⟩ := h2
  refine ensures_bind (ensures_setLocals (ensures_pure _ ?_))
  exact ⟨ctor, layout, known2, _, hctor, hlayout, hb.next hconverges (hc1.andAdvances he)⟩

/-- The branches of a switch; the tags so far are those of the constructors `seen`. -/
theorem certified_switchBranches {branches : List Branch} {seen : List SymbolId}
    (hcan : canUseSwitchCase t seen branches = true)
    (hbranches : ∀ br ∈ branches, BranchChecked t types program τ functions_ constructors_ locals S
      T br.pattern br.body)
    (hbodies : ∀ br ∈ branches, ExpressionCertified M parameters result t types program τ functions_
      constructors_ br.body) {scrutinee : TypedValue}
    (hscrutinee : b.Usable M parameters known scrutinee.value (.of (lowerTy S)))
    (htyped : IncomingTyped T incoming) (hg : Scrutinized M parameters τ locals b known g)
    {s default : BlockId} {cases : List (BitVec 64 × BlockId)}
    (hb : Switching M parameters result b known g.builder known1 c (lowerTy T)
      (phiOperands incoming) s default cases)
    (htags : ∀ value ∈ cases.map (·.1), ∃ id ∈ seen, ∃ layout,
      constructors_.find id = some layout ∧ value = BitVec.ofNat 64 layout.tag) :
    Ensures (emitSwitchBranches t types functions_ constructors_ branches scrutinee s c incoming) g
      (fun _ => True) fun incoming' g' => ∃ known' cases', Switching M parameters result b known
        g'.builder known' c (lowerTy T) (phiOperands incoming') s default cases' := by
  induction branches generalizing g incoming known1 seen cases with
  | nil => exact ensures_pure _ ⟨known1, cases, hb⟩
  | cons br branches ih =>
    obtain ⟨bid, pattern, body⟩ := br
    have hbranch := hbranches _ List.mem_cons_self
    have hbody := hbodies _ List.mem_cons_self
    cases pattern with
    | VariablePattern id name => simp [canUseSwitchCase] at hcan
    | ConstructorPattern id name arguments =>
      simp only [emitSwitchBranches]
      rw [canUseSwitchCase] at hcan
      cases hctor : t.getResolvedSymbol id with
      | none => simp [hctor] at hcan
      | some ctor =>
        simp only [hctor] at hcan
        by_cases hseen : ctor.id ∈ seen
        · rw [if_pos hseen] at hcan
          cases hcan
        · rw [if_neg hseen] at hcan
          -- a tag that is there already is that of a constructor that was seen
          have hvalue : ∀ ctor' layout, t.getResolvedSymbol id = some ctor' →
              constructors_.find ctor'.id = some layout →
              BitVec.ofNat 64 layout.tag ∉ cases.map (·.1) := by
            intro ctor' layout hctor' hlayout hin
            rw [hctor] at hctor'
            cases hctor'
            obtain ⟨id', hid', layout', hlayout', heq⟩ := htags _ hin
            rw [hlayouts.tag_inj hlayout hlayout' heq] at hseen
            exact hseen hid'
          apply ensures_bind
          refine ((certified_switchBranch h hlayouts hbranch hbody hscrutinee hg hb hvalue).both
            (emitSwitchBranch_spec h hlayouts hbranch hg.typed scrutinee s c htyped)).mono
              fun incoming1 g1 h1 => ?_
          obtain ⟨⟨ctor', layout, known2, target, hctor', hlayout, hnext⟩, _, htyped1, _, hb1⟩ := h1
          rw [hctor] at hctor'
          cases hctor'
          refine ih hcan (fun br hbr => hbranches br (List.mem_cons_of_mem _ hbr))
            (fun br hbr => hbodies br (List.mem_cons_of_mem _ hbr)) htyped1 (hg.onlyBinds hb1)
            hnext fun value hin => ?_
          rw [List.map_append, List.mem_append] at hin
          rcases hin with hin | hin
          · obtain ⟨id', hid', hrest⟩ := htags value hin
            exact ⟨id', List.mem_cons_of_mem _ hid', hrest⟩
          · exact ⟨ctor.id, List.mem_cons_self, layout, hlayout, by simpa using hin⟩

end

/-! ## The phi -/

/-- Where no branch has matched. -/
theorem certified_trap {type : Ty} {entries : List (Operand × BlockId)}
    (hb : Branching M parameters result b known g.builder known1 c type entries (· = c)) :
    Ensures emitTrap g (fun _ => True) fun _ g' =>
      Converges M parameters result b known g'.builder known1 c type entries (· = c) := by
  unfold emitTrap
  apply ensures_bind
  refine (passes_instruction ⟨hb.opened, hb.region.certified⟩ (.call .trap []) trivial rfl).mono
    fun _ g1 h1 => ensures_withBuilder ?_
  have hend : Terminator.unreachable.Typed (g1.builder.Usable M parameters known1) result := trivial
  exact (hb.proceeds h1.proceeds).split hend (fun q hq => absurd hq List.not_mem_nil)
    List.nodup_nil

theorem certified_finish (hne : incoming ≠ []) (htyped : IncomingTyped T incoming)
    (hb : Converges M parameters result b known g.builder known1 c (lowerTy T)
      (phiOperands incoming)
      (· = c)) :
    Ensures (finishCaseExpression c incoming) g (fun _ => True) fun v g' =>
      Ready M parameters known1 g' v ∧
        Proceeds M parameters result b known g'.builder known1 := by
  unfold finishCaseExpression
  cases incoming with
  | nil => exact ensures_throw trivial
  | cons entry incoming =>
    obtain ⟨first, block⟩ := entry
    obtain ⟨rfl, hground⟩ := htyped _ List.mem_cons_self
    refine ensures_bind (ensures_withBuilder ?_)
    simp only [llvmType_eq hground]
    refine ensures_bind (ensures_pure (lowerTy first.type) (ensures_bind (ensures_withBuilder ?_)))
    obtain ⟨hproceeds, husable⟩ := hb.finish (fun p hp => hp) (by simp [phiOperands])
    exact ensures_pure _ ⟨husable, hproceeds⟩

section

variable (h : Checked t program types τ) (hlayouts : Layouts t types program constructors_)

include h hlayouts

theorem certified_sequentialCase {branches : List Branch} (hne : branches ≠ [])
    (hbranches : ∀ br ∈ branches, BranchChecked t types program τ functions_ constructors_ locals S
      T br.pattern br.body)
    (hbodies : ∀ br ∈ branches, ExpressionCertified M parameters result t types program τ functions_
      constructors_ br.body) {scrutinee : TypedValue} (htype : scrutinee.type = S)
    (hground : containsFunctionType S = false) (hready : Ready M parameters known g scrutinee)
    (hp : Positioned M parameters result τ locals known g) :
    Certifies M parameters result known (emitSequentialCaseExpression fun merge_block =>
      emitSequentialBranches t types functions_ constructors_ branches scrutinee merge_block [])
        g := by
  have hscrutinee : g.builder.Usable M parameters known scrutinee.value (.of (lowerTy S)) := by
    rw [← htype]
    exact hready
  have hempty : IncomingTyped T [] := by simp [IncomingTyped]
  have hstart := branching_sequential hp.sound.certified hp.sound.opened (lowerTy T)
  unfold Certifies emitSequentialCaseExpression
  refine ensures_bind (ensures_withBuilder (ensures_bind ?_))
  have hloop := certified_sequentialBranches (g := { g with builder := g.builder.createBlock.2 })
    h hlayouts hbranches hbodies htype hground hscrutinee hempty ⟨hp.typed, hp.ready⟩ hstart
  have hspec := emitSequentialBranches_spec (g := { g with builder := g.builder.createBlock.2 })
    h hlayouts hground hbranches hp.typed htype g.builder.blocks.length hempty
  refine (hloop.both hspec).mono fun r g1 h1 => ?_
  obtain ⟨⟨known1, hopen, hclosed⟩, _, htyped, hincoming, _⟩ := h1
  obtain ⟨incoming, has_fallthrough⟩ := r
  have hne1 : incoming ≠ [] := hincoming (.inr hne)
  cases has_fallthrough with
  | true =>
    refine ensures_bind ((certified_trap (hopen rfl)).mono fun _ g2 h2 => ?_)
    exact (certified_finish hne1 htyped h2).mono fun v g3 h3 => ⟨known1, h3⟩
  | false =>
    exact (certified_finish hne1 htyped (hclosed rfl)).mono fun v g3 h3 => ⟨known1, h3⟩

theorem certified_switchCase {branches : List Branch} (hne : branches ≠ [])
    (hcan : canUseSwitchCase t [] branches = true)
    (hbranches : ∀ br ∈ branches, BranchChecked t types program τ functions_ constructors_ locals S
      T br.pattern br.body)
    (hbodies : ∀ br ∈ branches, ExpressionCertified M parameters result t types program τ functions_
      constructors_ br.body) {scrutinee : TypedValue} (htype : scrutinee.type = S)
    (hready : Ready M parameters known g scrutinee)
    (hp : Positioned M parameters result τ locals known g) :
    Certifies M parameters result known (emitSwitchCaseExpression (fun switch_block merge_block =>
      emitSwitchBranches t types functions_ constructors_ branches scrutinee switch_block
        merge_block []) scrutinee) g := by
  have hscrutinee : g.builder.Usable M parameters known scrutinee.value (.of (lowerTy S)) := by
    rw [← htype]
    exact hready
  have hptr : lowerTy S = .ptr := by
    cases branches with
    | nil => exact absurd rfl hne
    | cons br branches =>
      obtain ⟨id, name, arguments, hpattern⟩ :=
        canUseSwitchCase_patterns hcan br List.mem_cons_self
      have hS := (hbranches br List.mem_cons_self).pattern_type
      rw [hpattern] at hS
      exact scrutinee_ptr hS
  have hempty : IncomingTyped T [] := by simp [IncomingTyped]
  obtain ⟨known1, hstart, hawaits, hdefault⟩ :=
    branching_switch hp.sound.certified hp.sound.opened (lowerTy T)
  have hnode := hstart.usable hscrutinee
  rw [hptr] at hnode
  unfold Certifies emitSwitchCaseExpression
  refine ensures_bind (ensures_withBuilder (ensures_bind (ensures_withBuilder ?_)))
  apply ensures_bind
  refine (computes_loadTag ⟨hstart.opened, hstart.region.certified⟩ hnode).mono fun tag g1 h1 => ?_
  have hswitch := hstart.switch hawaits hdefault h1.proceeds h1.usable
  have hlocals : OnlyBinds [] g g1 := ⟨h1.binds.functions, h1.binds.others⟩
  refine ensures_bind (ensures_withBuilder (ensures_bind (ensures_withBuilder (ensures_bind ?_))))
  have hg1 : Scrutinized M parameters τ locals g.builder known g1 :=
    Scrutinized.onlyBinds ⟨hp.typed, hp.ready⟩ hlocals
  have hloop := certified_switchBranches (g := { g1 with
      builder := g1.builder.terminate (.switch tag g.builder.blocks.length []) })
    h hlayouts hcan hbranches hbodies hscrutinee hempty ⟨hg1.typed, hg1.ready⟩ hswitch (by simp)
  have hspec := emitSwitchBranches_spec (g := { g1 with
      builder := g1.builder.terminate (.switch tag g.builder.blocks.length []) })
    h hlayouts hbranches (canUseSwitchCase_patterns hcan) hg1.typed scrutinee
    g1.builder.insertBlock g.builder.createBlock.2.blocks.length hempty
  refine (hloop.both hspec).mono fun incoming g2 h2 => ?_
  obtain ⟨⟨known2, cases, hend⟩, _, htyped, hincoming, _⟩ := h2
  refine ensures_bind (ensures_withBuilder (ensures_bind ?_))
  have hlast := hend.converges.enter hend.awaits fun p hp => hp.symm
  refine (certified_trap hlast).mono fun _ g3 h3 => ?_
  exact (certified_finish (hincoming (.inr hne)) htyped h3).mono fun v g4 h4 => ⟨known2, h4⟩

theorem certified_case {id : NodeId} {scrutinee : Expression} {branches : List Branch}
    (ihs : ExpressionCertified M parameters result t types program τ functions_ constructors_
      scrutinee)
    (ihb : ∀ br ∈ branches, ExpressionCertified M parameters result t types program τ functions_
      constructors_ br.body)
    (hlowered : ∀ br ∈ branches, Lowered t types program τ functions_ constructors_ br.body)
    (hs : t.WellScoped (.CaseExpression id scrutinee branches) locals)
    (hT : HasType t program τ (.CaseExpression id scrutinee branches) T)
    (ha : Apart (t.boundIn (.CaseExpression id scrutinee branches)) locals)
    (hp : Positioned M parameters result τ locals known g) :
    Certifies M parameters result known (emitExpression t types functions_ constructors_
      (.CaseExpression id scrutinee branches)) g := by
  obtain ⟨hss, hne, hsb⟩ := hs
  rcases hT with _ | _ | _ | _ | @⟨_, _, _, S, _, hTs, hS, hTb⟩
  have hbranches := branchesChecked hlowered hsb hS hTb ha.right
  unfold Certifies
  simp only [emitExpression]
  apply ensures_bind
  refine (ihs locals known g S hss hTs ha.left hp).mono fun value g1 h1 => ?_
  obtain ⟨⟨htype, hground, hb1⟩, known1, hready, hc1⟩ := h1
  have hp1 := hp.proceeds hc1 hb1 ha.left.2
  by_cases hcan : canUseSwitchCase t [] branches = true
  · rw [if_pos hcan]
    refine Ensures.mono (certified_switchCase h hlayouts hne hcan hbranches ihb htype hready hp1)
      fun v g2 h2 => ?_
    obtain ⟨known2, hready2, hc2⟩ := h2
    exact ⟨known2, hready2, hc1.trans hc2⟩
  · rw [if_neg hcan]
    refine Ensures.mono (certified_sequentialCase h hlayouts hne hbranches ihb htype hground hready
      hp1) fun v g2 h2 => ?_
    obtain ⟨known2, hready2, hc2⟩ := h2
    exact ⟨known2, hready2, hc1.trans hc2⟩

/-! ## Expressions -/

variable (hdeclared : ∀ s, t.getSymbol s.id = some s → s.kind = .Function →
  ∃ n, functions_.find s.id = some n)

include hdeclared

/-- Whatever an expression is, the code of it is certified. -/
theorem certified_expression (hlinked : LinkedTypes M types functions_) (e : Expression) :
    ExpressionCertified M parameters result t types program τ functions_ constructors_ e ∧
      CalleeCertified M parameters result t types program τ functions_ constructors_ e := by
  -- types, and which symbols are bound, are known already
  have htyped : ∀ e, (∀ locals known g T, t.WellScoped e locals → HasType t program τ e T →
      Apart (t.boundIn e) locals → Positioned M parameters result τ locals known g →
      Certifies M parameters result known (emitExpression t types functions_ constructors_ e) g) →
      ExpressionCertified M parameters result t types program τ functions_ constructors_ e := by
    intro e hcertifies locals known g T hs hT ha hp
    have hlowers := (lowered h hlayouts hdeclared e).1 locals g T hs hT ha hp.typed
    exact (hcertifies locals known g T hs hT ha hp).typed hlowers
  induction e with
  | IntLiteral id value =>
    refine ⟨htyped _ fun locals known g T _ hT _ hp => ?_, callee_throws fun _ => rfl⟩
    exact ensures_pure _ ⟨known, rfl, .refl hp.sound.certified hp.sound.opened⟩
  | Variable id name =>
    refine ⟨htyped _ fun locals known g T hs _ _ hp => ?_,
      certified_call h hlayouts hlinked id name⟩
    exact certified_variable h hlayouts hs hp
  | BinaryOperator kind id l r ihl ihr =>
    refine ⟨htyped _ fun locals known g T hs hT ha hp => ?_, callee_throws fun _ => rfl⟩
    exact certified_operator ihl.1 ihr.1 hs hT ha hp
  | Application id f a ihf iha =>
    refine ⟨htyped _ fun locals known g T hs hT ha hp => ?_,
      certified_application ihf.2 iha.1⟩
    obtain ⟨hsf, hsa⟩ := hs
    rcases hT with _ | _ | _ | @⟨_, _, _, P, _, hTf, hTa⟩
    have hcall := ihf.2 [a] [P] locals known g T (by simp) (by simpa using iha.1) hsf
      (by simpa using hsa) hTf (.cons hTa .nil) (by simpa using ha) hp
    simpa using hcall
  | CaseExpression id scrutinee branches ihs ihb =>
    refine ⟨htyped _ fun locals known g T hs hT ha hp => ?_, callee_throws fun _ => rfl⟩
    exact certified_case h hlayouts ihs.1 (fun br hbr => (ihb br hbr).1)
      (fun br _ => (lowered h hlayouts hdeclared br.body).1) hs hT ha hp

end

end mf.visitors
