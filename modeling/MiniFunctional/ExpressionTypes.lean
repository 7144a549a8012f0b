-- The types that the code generator keeps beside its values against those that
-- inference gives: for every expression that it comes to, for what it reads
-- of its locals, and for the values that go into a phi.
import MiniFunctional.Compilable
import MiniFunctional.InferredTypes

open mf.util mf.ast mf.parsing mf.semantics mf.tokenization llvm ExceptLaws

namespace mf.visitors

open ScopeTree TypeAnalyzer

/-! ## The parts of the generator around the expressions in a case -/

def collectApplication : Expression → List Expression
  | .Application _ function argument => collectApplication function ++ [argument]
  | .IntLiteral _ _ => []
  | .Variable _ _ => []
  | .BinaryOperator _ _ _ _ => []
  | .CaseExpression _ _ _ => []

/-- `emitSwitchCaseExpression` up to its loop. -/
def startSwitch (scrutinee : TypedValue) : Gen (BlockId × BlockId × BlockId) := do
  let default_block ← createBlock
  let merge_block ← createBlock
  let tag ← loadTag scrutinee.value
  let switch_block ← getInsertBlock
  createTerminator (.switch tag default_block [])
  return (default_block, switch_block, merge_block)

theorem emitSwitchCaseExpression_eq
    (emitBranches : BlockId → BlockId → Gen (List (TypedValue × BlockId)))
    (scrutinee : TypedValue) : emitSwitchCaseExpression emitBranches scrutinee = (do
      let (default_block, switch_block, merge_block) ← startSwitch scrutinee
      let incoming ← emitBranches switch_block merge_block
      setInsertPoint default_block
      emitTrap
      finishCaseExpression merge_block incoming) := by
  simp only [emitSwitchCaseExpression, startSwitch, bind_assoc, pure_bind]

section

variable (t : ScopeTree) (constructors_ : AssocMap SymbolId ConstructorLayout)

/-- `emitSwitchBranch` up to the body. -/
def enterSwitchBranch (id : NodeId) (name : String) (arguments : List String)
    (scrutinee : TypedValue) (switch_block : BlockId) : Gen Unit := do
  let constructor ← patternConstructor t id name
  let layout ← getLayout constructors_ constructor
  let branch_block ← createBlock
  withBuilder fun b => ((), b.addCase switch_block (BitVec.ofNat 64 layout.tag) branch_block)
  setInsertPoint branch_block
  emitConstructorPattern t id name arguments scrutinee.value layout

theorem emitSwitchBranch_eq (id : NodeId) (name : String) (arguments : List String)
    (emitBody : Gen TypedValue) (scrutinee : TypedValue) (switch_block merge_block : BlockId)
    (incoming : List (TypedValue × BlockId)) :
    emitSwitchBranch t constructors_ id name arguments emitBody scrutinee switch_block merge_block
      incoming = (do
        let saved_locals ← getLocals
        enterSwitchBranch t constructors_ id name arguments scrutinee switch_block
        let incoming ← emitBranchBody emitBody merge_block incoming
        setLocals saved_locals
        return incoming) := by
  funext g
  unfold emitSwitchBranch enterSwitchBranch patternConstructor
  cases t.getResolvedSymbol id with
  | none => rfl
  | some constructor =>
    unfold getLayout
    simp only [pure_bind]
    cases constructors_.find constructor.id with
    | none => rfl
    | some layout =>
      simp only [pure_bind, bind_assoc]
      rfl

/-- `emitConstructorCaseBranch` up to the body. -/
def enterCaseBranch (id : NodeId) (name : String) (arguments : List String)
    (scrutinee : TypedValue) : Gen BlockId := do
  let constructor ← patternConstructor t id name
  let layout ← getLayout constructors_ constructor
  let matched_block ← createBlock
  let next_block ← createBlock
  let tag ← loadTag scrutinee.value
  let matched ← createInstruction (.icmpEq tag (i64 layout.tag))
  createTerminator (.condBr matched matched_block next_block)
  setInsertPoint matched_block
  emitConstructorPattern t id name arguments scrutinee.value layout
  return next_block

theorem emitConstructorCaseBranch_eq (id : NodeId) (name : String) (arguments : List String)
    (emitBody : Gen TypedValue) (scrutinee : TypedValue) (merge_block : BlockId)
    (incoming : List (TypedValue × BlockId)) :
    emitConstructorCaseBranch t constructors_ id name arguments emitBody scrutinee merge_block
      incoming = (do
        let saved_locals ← getLocals
        let next_block ← enterCaseBranch t constructors_ id name arguments scrutinee
        let incoming ← emitBranchBody emitBody merge_block incoming
        setLocals saved_locals
        setInsertPoint next_block
        return incoming) := by
  funext g
  unfold emitConstructorCaseBranch enterCaseBranch patternConstructor
  cases t.getResolvedSymbol id with
  | none => rfl
  | some constructor =>
    unfold getLayout
    simp only [pure_bind]
    cases constructors_.find constructor.id with
    | none => rfl
    | some layout =>
      simp only [pure_bind, bind_assoc]
      rfl

end

/-! ## The expressions that the generator comes to -/

section

variable (t : ScopeTree) (types : TypeTable) (program : Program)
  (functions_ : AssocMap SymbolId Nat) (constructors_ : AssocMap SymbolId ConstructorLayout)

/-- The generator comes to the expression, in the state. -/
inductive Emitting (functions : List llvm.Function) : Expression → GeneratorState → Prop
  | body {before fd after g symbol function signature scope_id g'} :
    program.definitions = before ++ .FunctionDefinition fd :: after →
    defineFunctions t types functions_ constructors_ before ⟨functions, .entry, .empty⟩ =
      .ok ((), g) →
    getRootSymbol t fd.name .Function = some symbol →
    functions_.find symbol.id = some function →
    types.getFunctionSignature symbol.id = some signature →
    t.getScopeId fd.id = some scope_id →
    (do setLocals .empty
        startFunction
        bindParameters t scope_id 0 fd.parameters signature.parameters) g = .ok ((), g') →
    Emitting functions fd.body g'
  | left {kind id left right g} : Emitting functions (.BinaryOperator kind id left right) g →
    Emitting functions left g
  | right {kind id left right g value g1} :
    Emitting functions (.BinaryOperator kind id left right) g →
    emitExpression t types functions_ constructors_ left g = .ok (value, g1) →
    Emitting functions right g1
  | argument {id function argument before a after g values g1} :
    Emitting functions (.Application id function argument) g →
    collectApplication (.Application id function argument) = before ++ a :: after →
    emitArguments (before.map (emitExpression t types functions_ constructors_)) g =
      .ok (values, g1) →
    Emitting functions a g1
  | scrutinee {id scrutinee branches g} :
    Emitting functions (.CaseExpression id scrutinee branches) g → Emitting functions scrutinee g
  | switchBranch {id scrutinee branches before bid pid name arguments body after g value g1
      default_block switch_block merge_block g2 incoming g3 g4} :
    Emitting functions (.CaseExpression id scrutinee branches) g →
    branches = before ++ ⟨bid, .ConstructorPattern pid name arguments, body⟩ :: after →
    emitExpression t types functions_ constructors_ scrutinee g = .ok (value, g1) →
    canUseSwitchCase t [] branches = true →
    startSwitch value g1 = .ok ((default_block, switch_block, merge_block), g2) →
    emitSwitchBranches t types functions_ constructors_ before value
        switch_block merge_block [] g2 =
      .ok (incoming, g3) →
    enterSwitchBranch t constructors_ pid name arguments value switch_block g3 = .ok ((), g4) →
    Emitting functions body g4
  | constructorBranch {id scrutinee branches before bid pid name arguments body after g value g1
      merge_block g2 incoming g3 next_block g4} :
    Emitting functions (.CaseExpression id scrutinee branches) g →
    branches = before ++ ⟨bid, .ConstructorPattern pid name arguments, body⟩ :: after →
    emitExpression t types functions_ constructors_ scrutinee g = .ok (value, g1) →
    canUseSwitchCase t [] branches = false → createBlock g1 = .ok (merge_block, g2) →
    emitSequentialBranches t types functions_ constructors_ before value merge_block [] g2 =
      .ok ((incoming, true), g3) →
    enterCaseBranch t constructors_ pid name arguments value g3 = .ok (next_block, g4) →
    Emitting functions body g4
  | variableBranch {id scrutinee branches before bid pid name body after g value g1 merge_block g2
      incoming g3 g4} :
    Emitting functions (.CaseExpression id scrutinee branches) g →
    branches = before ++ ⟨bid, .VariablePattern pid name, body⟩ :: after →
    emitExpression t types functions_ constructors_ scrutinee g = .ok (value, g1) →
    canUseSwitchCase t [] branches = false → createBlock g1 = .ok (merge_block, g2) →
    emitSequentialBranches t types functions_ constructors_ before value merge_block [] g2 =
      .ok ((incoming, true), g3) →
    emitVariablePattern t pid name value g3 = .ok ((), g4) → Emitting functions body g4

/-- The values that the branches of a case expression have for its phi. -/
inductive Collects : Expression → GeneratorState → List (TypedValue × BlockId) → Prop
  | switch {id scrutinee branches g value g1 default_block switch_block merge_block g2
      incoming g3} :
    emitExpression t types functions_ constructors_ scrutinee g = .ok (value, g1) →
    canUseSwitchCase t [] branches = true →
    startSwitch value g1 = .ok ((default_block, switch_block, merge_block), g2) →
    emitSwitchBranches t types functions_ constructors_ branches value switch_block merge_block []
      g2 = .ok (incoming, g3) →
    Collects (.CaseExpression id scrutinee branches) g incoming
  | sequential {id scrutinee branches g value g1 merge_block g2 incoming has_fallthrough g3} :
    emitExpression t types functions_ constructors_ scrutinee g = .ok (value, g1) →
    canUseSwitchCase t [] branches = false → createBlock g1 = .ok (merge_block, g2) →
    emitSequentialBranches t types functions_ constructors_ branches value merge_block [] g2 =
      .ok ((incoming, has_fallthrough), g3) →
    Collects (.CaseExpression id scrutinee branches) g incoming

/-- The types of the generator are those of inference: that of what it emits for
the expression, that of the local that it reads if the expression is one, and
those of all that goes into the phi of a case expression. -/
structure TypesAgree (e : Expression) (g : GeneratorState) : Prop where
  value : ∀ value g', emitExpression t types functions_ constructors_ e g = .ok (value, g') →
    InferredType t program e value.type ∧ ∀ T, InferredType t program e T → T = value.type
  read : ∀ id name s value, e = .Variable id name → t.getResolvedSymbol id = some s →
    s.kind ≠ .Constructor → s.kind ≠ .Function → g.locals_.find s.id = some value →
    SymbolType t program s.id value.type ∧ ∀ T, SymbolType t program s.id T → T = value.type
  incoming : ∀ incoming, Collects t types functions_ constructors_ e g incoming →
    ∀ entry ∈ incoming, InferredType t program e entry.1.type ∧
      ∀ T, InferredType t program e T → T = entry.1.type

end

variable {t : ScopeTree} {types : TypeTable} {program : Program} {τ : Typing}
  {functions_ : AssocMap SymbolId Nat} {constructors_ : AssocMap SymbolId ConstructorLayout}
  {functions : List llvm.Function}

/-! ## Applications -/

theorem boundIn_collectApplication (e : Expression) :
    ∃ bound, t.boundIn e = bound ++ (collectApplication e).flatMap t.boundIn := by
  induction e with
  | Application id f a ihf iha =>
    obtain ⟨bound, hbound⟩ := ihf
    refine ⟨bound, ?_⟩
    simp only [ScopeTree.boundIn, collectApplication, List.flatMap_append, List.flatMap_cons,
      List.flatMap_nil, List.append_nil, hbound, List.append_assoc]
  | IntLiteral id value => exact ⟨[], rfl⟩
  | Variable id name => exact ⟨[], rfl⟩
  | BinaryOperator kind id l r => exact ⟨_, (List.append_nil _).symm⟩
  | CaseExpression id scrutinee branches => exact ⟨_, (List.append_nil _).symm⟩

/-- The arguments of an application have types, and only names in scope. -/
theorem collectApplication_checked {e : Expression} {locals : List SymbolId} {T : TypeVariant}
    (hs : t.WellScoped e locals) (hT : HasType t program τ e T) :
    (∀ a ∈ collectApplication e, t.WellScoped a locals) ∧
      ∃ Ps, List.Forall₂ (HasType t program τ) (collectApplication e) Ps := by
  induction e generalizing T with
  | Application id f a ihf iha =>
    rcases hT with _ | _ | _ | @⟨_, _, _, P, _, hTf, hTa⟩
    obtain ⟨hsf, Ps, hPs⟩ := ihf hs.1 hTf
    refine ⟨fun a' ha' => ?_, Ps ++ [P], List.rel_append hPs (.cons hTa .nil)⟩
    rcases List.mem_append.mp ha' with ha' | ha'
    · exact hsf a' ha'
    · rw [List.mem_singleton.mp ha']
      exact hs.2
  | IntLiteral id value => exact ⟨by simp [collectApplication], [], .nil⟩
  | Variable id name => exact ⟨by simp [collectApplication], [], .nil⟩
  | BinaryOperator kind id l r => exact ⟨by simp [collectApplication], [], .nil⟩
  | CaseExpression id scrutinee branches => exact ⟨by simp [collectApplication], [], .nil⟩

/-! ## The invariant -/

/-- The expression is emitted in a state where the locals have values of their types. -/
def EmittedIn (t : ScopeTree) (program : Program) (τ : Typing) (locals : List SymbolId)
    (e : Expression) (g : GeneratorState) : Prop :=
  t.WellScoped e locals ∧ (∃ T, HasType t program τ e T) ∧ Apart (t.boundIn e) locals ∧
    LocalsTyped τ locals g

section

variable (h : Checked t program types τ) (hlayouts : Layouts t types program constructors_)

include h hlayouts

theorem enterSwitchBranch_spec {id : NodeId} {name : String} {arguments : List String}
    {locals : List SymbolId} {S T : TypeVariant} {body : Expression}
    (hb : BranchChecked t types program τ functions_ constructors_ locals S T
      (.ConstructorPattern id name arguments) body)
    {g : GeneratorState} (hg : LocalsTyped τ locals g) (scrutinee : TypedValue)
    (switch_block : BlockId) (E : GenerateError → Prop) :
    Ensures (enterSwitchBranch t constructors_ id name arguments scrutinee switch_block) g E
      fun _ g' => LocalsTyped τ (t.patternSymbols (.ConstructorPattern id name arguments) ++ locals)
        g' := by
  obtain ⟨ctor, layout, hctor, hlayout, _, hpattern⟩ :=
    emitConstructorPattern_spec h hlayouts hb.pattern_scoped hb.pattern_type
  unfold enterSwitchBranch
  simp only [patternConstructor_eq hctor, getLayout_eq hlayout, pure_bind]
  refine ensures_bind (ensures_withBuilder (ensures_bind (ensures_withBuilder ?_)))
  refine ensures_bind (ensures_withBuilder ?_)
  refine (hpattern scrutinee.value locals _ _ ?_).mono fun _ _ h1 => h1.1
  exact fun s hs => hg s hs

theorem enterCaseBranch_spec {id : NodeId} {name : String} {arguments : List String}
    {locals : List SymbolId} {S T : TypeVariant} {body : Expression}
    (hb : BranchChecked t types program τ functions_ constructors_ locals S T
      (.ConstructorPattern id name arguments) body)
    {g : GeneratorState} (hg : LocalsTyped τ locals g) (scrutinee : TypedValue)
    (E : GenerateError → Prop) :
    Ensures (enterCaseBranch t constructors_ id name arguments scrutinee) g E
      fun _ g' => LocalsTyped τ (t.patternSymbols (.ConstructorPattern id name arguments) ++ locals)
        g' := by
  obtain ⟨ctor, layout, hctor, hlayout, _, hpattern⟩ :=
    emitConstructorPattern_spec h hlayouts hb.pattern_scoped hb.pattern_type
  unfold enterCaseBranch
  simp only [patternConstructor_eq hctor, getLayout_eq hlayout, pure_bind]
  refine ensures_bind (ensures_withBuilder (ensures_bind (ensures_withBuilder ?_)))
  refine ensures_bind ((quiet_loadTag scrutinee.value _ _).mono fun tag g1 h1 => ?_)
  refine ensures_bind ((quiet_createInstruction _ g1 _).mono fun matched g2 h2 => ?_)
  refine ensures_bind (ensures_withBuilder (ensures_bind (ensures_withBuilder ?_)))
  refine ensures_bind ((hpattern scrutinee.value locals _ _ ?_).mono
    fun _ g3 h3 => ensures_pure _ h3.1)
  exact hg.congr (h2.2.trans h1.2)

variable (hdeclared : ∀ s, t.getSymbol s.id = some s → s.kind = .Function →
    ∃ n, functions_.find s.id = some n)

include hdeclared

theorem EmittedIn.right {kind : BinaryOperatorKind} {id : NodeId} {l r : Expression}
    {locals : List SymbolId} {g g1 : GeneratorState} {value : TypedValue}
    (he : EmittedIn t program τ locals (.BinaryOperator kind id l r) g)
    (hrun : emitExpression t types functions_ constructors_ l g = .ok (value, g1)) :
    EmittedIn t program τ locals r g1 := by
  obtain ⟨hs, ⟨T, hT⟩, ha, hg⟩ := he
  rcases hT with _ | _ | ⟨hTl, hTr⟩
  obtain ⟨_, _, _, hb⟩ :=
    ((lowered h hlayouts hdeclared l).1 locals g _ hs.1 hTl ha.left hg).of_ok hrun
  exact ⟨hs.2, ⟨_, hTr⟩, ha.right, hg.onlyBinds hb ha.left.2⟩

theorem EmittedIn.argument {e a : Expression} {before after : List Expression}
    {locals : List SymbolId} {g g1 : GeneratorState} {values : List TypedValue}
    (he : EmittedIn t program τ locals e g) (hsplit : collectApplication e = before ++ a :: after)
    (hrun : emitArguments (before.map (emitExpression t types functions_ constructors_)) g =
      .ok (values, g1)) : EmittedIn t program τ locals a g1 := by
  obtain ⟨hs, ⟨T, hT⟩, ha, hg⟩ := he
  obtain ⟨hsargs, Ps, hPs⟩ := collectApplication_checked hs hT
  obtain ⟨bound, hbound⟩ := boundIn_collectApplication (t := t) e
  rw [hsplit] at hsargs hPs hbound
  rw [hbound, List.flatMap_append, List.flatMap_cons] at ha
  have hbefore := List.forall₂_take before.length hPs
  have hrest := List.forall₂_drop before.length hPs
  rw [List.take_left] at hbefore
  rw [List.drop_left] at hrest
  obtain ⟨P, hTa⟩ : ∃ P, HasType t program τ a P := by
    generalize Ps.drop before.length = Ps' at hrest
    cases hrest with
    | cons hTa _ => exact ⟨_, hTa⟩
  obtain ⟨_, _, hb⟩ := (emitArguments_spec
    (fun a' _ => (lowered h hlayouts hdeclared a').1)
    (fun a' ha' => hsargs a' (List.mem_append_left _ ha')) hbefore ha.right.left hg).of_ok hrun
  exact ⟨hsargs a (by simp), ⟨P, hTa⟩, ha.right.right.left, hg.onlyBinds hb ha.right.left.2⟩

/-- The loop over the first branches of a case expression keeps its locals. -/
theorem EmittedIn.branches {id : NodeId} {scrutinee : Expression} {branches : List Branch}
    {locals : List SymbolId} {g g1 : GeneratorState} {value : TypedValue}
    (he : EmittedIn t program τ locals (.CaseExpression id scrutinee branches) g)
    (hrun : emitExpression t types functions_ constructors_ scrutinee g = .ok (value, g1)) :
    ∃ S T, HasType t program τ (.CaseExpression id scrutinee branches) T ∧ value.type = S ∧
      containsFunctionType S = false ∧ LocalsTyped τ locals g1 ∧
      (∀ s ∈ t.boundInBranches branches, s ∉ locals) ∧
      ∀ b ∈ branches, BranchChecked t types program τ functions_ constructors_ locals S T b.pattern
        b.body := by
  obtain ⟨⟨hss, _, hsb⟩, ⟨T, hT⟩, ha, hg⟩ := he
  have hcase := hT
  rcases hT with _ | _ | _ | _ | @⟨_, _, _, S, _, hTs, hS, hTb⟩
  obtain ⟨_, htype, hground, hb⟩ :=
    ((lowered h hlayouts hdeclared scrutinee).1 locals g S hss hTs ha.left hg).of_ok hrun
  exact ⟨S, T, hcase, htype, hground, hg.onlyBinds hb ha.left.2, ha.right.2,
    branchesChecked (fun b _ => (lowered h hlayouts hdeclared b.body).1) hsb hS hTb ha.right⟩

omit h hlayouts hdeclared in
theorem startSwitch_spec {scrutinee : TypedValue} {g g1 : GeneratorState}
    {blocks : BlockId × BlockId × BlockId} (hrun : startSwitch scrutinee g = .ok (blocks, g1)) :
    g1.locals_ = g.locals_ := by
  have hquiet : Quiet (startSwitch scrutinee) := by
    unfold startSwitch
    refine (quiet_withBuilder _).bind fun _ => (quiet_withBuilder _).bind fun _ => ?_
    refine (quiet_loadTag _).bind fun _ => (quiet_withBuilder _).bind fun _ => ?_
    exact (quiet_withBuilder _).bind fun _ => quiet_pure _
  exact ((hquiet g fun _ => True).of_ok hrun).2

omit h hlayouts hdeclared in
theorem createBlock_spec {g g1 : GeneratorState} {block : BlockId}
    (hrun : createBlock g = .ok (block, g1)) : g1.locals_ = g.locals_ :=
  ((quiet_withBuilder Builder.createBlock g fun _ => True).of_ok hrun).2

theorem EmittedIn.switchBranch {id bid pid : NodeId} {scrutinee body : Expression} {name : String}
    {arguments : List String} {branches before after : List Branch} {locals : List SymbolId}
    {g g1 g2 g3 g4 : GeneratorState} {value : TypedValue}
    {default_block switch_block merge_block : BlockId} {incoming : List (TypedValue × BlockId)}
    (he : EmittedIn t program τ locals (.CaseExpression id scrutinee branches) g)
    (hsplit : branches = before ++ ⟨bid, .ConstructorPattern pid name arguments, body⟩ :: after)
    (hscrutinee : emitExpression t types functions_ constructors_ scrutinee g = .ok (value, g1))
    (hcan : canUseSwitchCase t [] branches = true)
    (hstart : startSwitch value g1 = .ok ((default_block, switch_block, merge_block), g2))
    (hbefore : emitSwitchBranches t types functions_ constructors_ before value
        switch_block merge_block [] g2 = .ok (incoming, g3))
    (henter : enterSwitchBranch t constructors_ pid name arguments value switch_block g3 =
      .ok ((), g4)) :
    EmittedIn t program τ (t.patternSymbols (.ConstructorPattern pid name arguments) ++ locals) body
      g4 := by
  obtain ⟨S, T, _, _, _, hg1, _, hbranches⟩ := he.branches h hlayouts hdeclared hscrutinee
  have hg2 := hg1.congr (startSwitch_spec hstart)
  rw [hsplit] at hbranches
  have hpatterns := canUseSwitchCase_patterns hcan
  rw [hsplit] at hpatterns
  obtain ⟨_, _, _, hb⟩ := (emitSwitchBranches_spec h hlayouts (S := S) (T := T)
    (fun b hb => hbranches b (List.mem_append_left _ hb))
    (fun b hb => hpatterns b (List.mem_append_left _ hb)) hg2 value switch_block merge_block
    (by simp [IncomingTyped])).of_ok hbefore
  have hbranch := hbranches _ (List.mem_append_right _ List.mem_cons_self)
  have hg3 := hg2.onlyBinds hb (by simp)
  exact ⟨hbranch.body_scoped, ⟨T, hbranch.body_type⟩, hbranch.apart.enter,
    (enterSwitchBranch_spec h hlayouts hbranch hg3 value switch_block fun _ => True).of_ok henter⟩

/-- The locals after the sequential branches before another one. -/
theorem EmittedIn.sequential {id : NodeId} {scrutinee : Expression}
    {branches before rest : List Branch} {locals : List SymbolId} {g g1 g2 g3 : GeneratorState}
    {value : TypedValue} {merge_block : BlockId} {incoming : List (TypedValue × BlockId)}
    (he : EmittedIn t program τ locals (.CaseExpression id scrutinee branches) g)
    (hsplit : branches = before ++ rest)
    (hscrutinee : emitExpression t types functions_ constructors_ scrutinee g = .ok (value, g1))
    (hcreate : createBlock g1 = .ok (merge_block, g2))
    (hbefore : emitSequentialBranches t types functions_ constructors_ before value
      merge_block [] g2
      = .ok ((incoming, true), g3)) :
    ∃ S T, value.type = S ∧ containsFunctionType S = false ∧ LocalsTyped τ locals g3 ∧
      ∀ b ∈ rest, BranchChecked t types program τ functions_ constructors_ locals S T b.pattern
        b.body := by
  obtain ⟨S, T, _, htype, hground, hg1, hapart, hbranches⟩ :=
    he.branches h hlayouts hdeclared hscrutinee
  rw [hsplit] at hapart hbranches
  have hg2 := hg1.congr (createBlock_spec hcreate)
  obtain ⟨_, _, _, hb⟩ := (emitSequentialBranches_spec h hlayouts (S := S) (T := T) hground
    (fun b hb => hbranches b (List.mem_append_left _ hb)) hg2 htype merge_block
    (by simp [IncomingTyped])).of_ok hbefore
  refine ⟨S, T, htype, hground, hg2.onlyBinds hb fun s hs => hapart s ?_,
    fun b hb => hbranches b (List.mem_append_right _ hb)⟩
  rw [boundInBranches_append]
  exact List.mem_append_left _ hs

theorem EmittedIn.constructorBranch {id bid pid : NodeId} {scrutinee body : Expression}
    {name : String} {arguments : List String} {branches before after : List Branch}
    {locals : List SymbolId} {g g1 g2 g3 g4 : GeneratorState} {value : TypedValue}
    {merge_block next_block : BlockId} {incoming : List (TypedValue × BlockId)}
    (he : EmittedIn t program τ locals (.CaseExpression id scrutinee branches) g)
    (hsplit : branches = before ++ ⟨bid, .ConstructorPattern pid name arguments, body⟩ :: after)
    (hscrutinee : emitExpression t types functions_ constructors_ scrutinee g = .ok (value, g1))
    (hcreate : createBlock g1 = .ok (merge_block, g2))
    (hbefore : emitSequentialBranches t types functions_ constructors_ before value
      merge_block [] g2
      = .ok ((incoming, true), g3))
    (henter : enterCaseBranch t constructors_ pid name arguments value g3 =
      .ok (next_block, g4)) :
    EmittedIn t program τ (t.patternSymbols (.ConstructorPattern pid name arguments) ++ locals) body
      g4 := by
  obtain ⟨S, T, _, _, hg3, hrest⟩ :=
    he.sequential h hlayouts hdeclared hsplit hscrutinee hcreate hbefore
  have hbranch := hrest _ List.mem_cons_self
  exact ⟨hbranch.body_scoped, ⟨T, hbranch.body_type⟩, hbranch.apart.enter,
    (enterCaseBranch_spec h hlayouts hbranch hg3 value fun _ => True).of_ok henter⟩

theorem EmittedIn.variableBranch {id bid pid : NodeId} {scrutinee body : Expression}
    {name : String} {branches before after : List Branch} {locals : List SymbolId}
    {g g1 g2 g3 g4 : GeneratorState} {value : TypedValue} {merge_block : BlockId}
    {incoming : List (TypedValue × BlockId)}
    (he : EmittedIn t program τ locals (.CaseExpression id scrutinee branches) g)
    (hsplit : branches = before ++ ⟨bid, .VariablePattern pid name, body⟩ :: after)
    (hscrutinee : emitExpression t types functions_ constructors_ scrutinee g = .ok (value, g1))
    (hcreate : createBlock g1 = .ok (merge_block, g2))
    (hbefore : emitSequentialBranches t types functions_ constructors_ before value
      merge_block [] g2
      = .ok ((incoming, true), g3))
    (henter : emitVariablePattern t pid name value g3 = .ok ((), g4)) :
    EmittedIn t program τ (t.patternSymbols (.VariablePattern pid name) ++ locals) body g4 := by
  obtain ⟨S, T, htype, hground, hg3, hrest⟩ :=
    he.sequential h hlayouts hdeclared hsplit hscrutinee hcreate hbefore
  have hbranch := hrest _ List.mem_cons_self
  obtain ⟨hg4, _⟩ := (emitVariablePattern_spec (E := fun _ => True) hbranch.pattern_scoped
    hbranch.pattern_type hground htype hg3).of_ok henter
  exact ⟨hbranch.body_scoped, ⟨T, hbranch.body_type⟩, hbranch.apart.enter, hg4⟩

/-- What the generator comes to is emitted with its locals in place. -/
theorem Emitting.emittedIn {e : Expression} {g : GeneratorState}
    (he : Emitting t types program functions_ constructors_ functions e g) :
    ∃ locals, EmittedIn t program τ locals e g := by
  induction he with
  | @body before fd after g symbol function signature scope_id g' hsplit hbefore hsymbol hfunction
      hsignature hscope hbind =>
    have hfd : Definition.FunctionDefinition fd ∈ program.definitions := by
      rw [hsplit]
      simp
    obtain ⟨s, signature', hs, hsignature', _, ⟨sid, hsid, hparameters⟩, hbody⟩ :=
      h.functions fd hfd
    obtain ⟨⟨s', hs', hkind, _⟩, _, hscoped⟩ := h.scopes.functions fd hfd
    rw [hs] at hs'
    cases hs'
    obtain ⟨hlocal, _⟩ := Option.filter_eq_some_iff.mp hsymbol
    rw [hs] at hlocal
    cases hlocal
    rw [hsignature] at hsignature'
    cases hsignature'
    rw [hscope] at hsid
    cases hsid
    obtain ⟨_, hground, _⟩ := h.firstOrder symbol.id signature hsignature
    have hsymbols : t.parameterSymbols fd = t.symbolsIn scope_id fd.parameters := by
      simp [parameterSymbols, hscope]
    have hempty : ∀ g : GeneratorState, LocalsTyped τ [] g := fun _ _ hs => absurd hs (by simp)
    have hrun : Ensures (do
        setLocals .empty
        startFunction
        bindParameters t scope_id 0 fd.parameters signature.parameters) g (fun _ => True)
        fun _ g' => LocalsTyped τ (t.symbolsIn scope_id fd.parameters ++ []) g' :=
      ensures_bind (ensures_setLocals (ensures_bind (ensures_startFunction
        (bindParameters_spec hparameters hground (hempty _)))))
    have hg' := hrun.of_ok hbind
    rw [List.append_nil, ← hsymbols] at hg'
    exact ⟨_, hscoped, ⟨_, hbody⟩, function_apart h hfd, hg'⟩
  | left _ ih =>
    obtain ⟨locals, hs, ⟨T, hT⟩, ha, hg⟩ := ih
    rcases hT with _ | _ | ⟨hTl, hTr⟩
    exact ⟨locals, hs.1, ⟨_, hTl⟩, ha.left, hg⟩
  | right _ hrun ih =>
    obtain ⟨locals, he⟩ := ih
    exact ⟨locals, he.right h hlayouts hdeclared hrun⟩
  | argument _ hsplit hrun ih =>
    obtain ⟨locals, he⟩ := ih
    exact ⟨locals, he.argument h hlayouts hdeclared hsplit hrun⟩
  | scrutinee _ ih =>
    obtain ⟨locals, hs, ⟨T, hT⟩, ha, hg⟩ := ih
    rcases hT with _ | _ | _ | _ | @⟨_, _, _, S, _, hTs, _⟩
    exact ⟨locals, hs.1, ⟨S, hTs⟩, ha.left, hg⟩
  | switchBranch _ hsplit hscrutinee hcan hstart hbefore henter ih =>
    obtain ⟨locals, he⟩ := ih
    exact ⟨_, he.switchBranch h hlayouts hdeclared hsplit hscrutinee hcan hstart hbefore henter⟩
  | constructorBranch _ hsplit hscrutinee _ hcreate hbefore henter ih =>
    obtain ⟨locals, he⟩ := ih
    exact ⟨_, he.constructorBranch h hlayouts hdeclared hsplit hscrutinee hcreate hbefore henter⟩
  | variableBranch _ hsplit hscrutinee _ hcreate hbefore henter ih =>
    obtain ⟨locals, he⟩ := ih
    exact ⟨_, he.variableBranch h hlayouts hdeclared hsplit hscrutinee hcreate hbefore henter⟩

end

/-! ## The two computations -/

section

variable {last : TypeAnalyzer} (hscoped : t.ProgramScoped program) (hsolved : Solved t program last)

include hscoped hsolved

theorem inferring_argument {e a : Expression} {st : TypeAnalyzer} (he : Inferring t program e st)
    (ha : a ∈ collectApplication e) : ∃ st1, Inferring t program a st1 := by
  induction e generalizing st with
  | Application id f a' ihf iha =>
    rcases List.mem_append.mp ha with ha | ha
    · exact ihf he.function ha
    · rw [List.mem_singleton.mp ha]
      exact he.applied_argument hscoped hsolved
  | IntLiteral id value => simp [collectApplication] at ha
  | Variable id name => simp [collectApplication] at ha
  | BinaryOperator kind id l r => simp [collectApplication] at ha
  | CaseExpression id scrutinee branches => simp [collectApplication] at ha

/-- What the generator comes to, inference has come to. -/
theorem Emitting.inferring {e : Expression} {g : GeneratorState}
    (he : Emitting t types program functions_ constructors_ functions e g) :
    ∃ st, Inferring t program e st := by
  induction he with
  | body hsplit =>
    exact body_inferring hscoped hsolved.silent hsolved.run (by rw [hsplit]; simp)
  | left _ ih =>
    obtain ⟨st, hst⟩ := ih
    exact ⟨st, hst.left⟩
  | right _ _ ih =>
    obtain ⟨st, hst⟩ := ih
    exact hst.right_operand hscoped hsolved
  | argument _ hsplit _ ih =>
    obtain ⟨st, hst⟩ := ih
    exact inferring_argument hscoped hsolved hst (by rw [hsplit]; simp)
  | scrutinee _ ih =>
    obtain ⟨st, hst⟩ := ih
    exact ⟨st, hst.scrutinee⟩
  | switchBranch _ hsplit _ _ _ _ _ ih =>
    obtain ⟨st, hst⟩ := ih
    rw [hsplit] at hst
    exact hst.branch_body hscoped hsolved
  | constructorBranch _ hsplit _ _ _ _ _ ih =>
    obtain ⟨st, hst⟩ := ih
    rw [hsplit] at hst
    exact hst.branch_body hscoped hsolved
  | variableBranch _ hsplit _ _ _ _ _ ih =>
    obtain ⟨st, hst⟩ := ih
    rw [hsplit] at hst
    exact hst.branch_body hscoped hsolved

variable (h : Checked t program types τ)

include h

/-- An expression that was inferred has one inferred type, its type in the typing. -/
theorem inferredType_of_hasType {e : Expression} {st : TypeAnalyzer} {locals : List SymbolId}
    {T : TypeVariant} (he : Inferring t program e st) (hs : t.WellScoped e locals)
    (hT : HasType t program τ e T) :
    InferredType t program e T ∧ ∀ T', InferredType t program e T' → T' = T := by
  have hunique : ∀ T', InferredType t program e T' → T' = T := fun T' hT' =>
    hasType_unique hs (hT'.hasType hscoped hsolved h.fields h.typing.checks) hT
  obtain ⟨T', hT'⟩ := he.inferredType hscoped hsolved
  have heq := hunique T' hT'
  subst heq
  exact ⟨hT', hunique⟩

end

section

variable {last : TypeAnalyzer} (h : Checked t program types τ)
  (hlayouts : Layouts t types program constructors_)
  (hdeclared : ∀ s, t.getSymbol s.id = some s → s.kind = .Function →
    ∃ n, functions_.find s.id = some n)

include h hlayouts hdeclared

/-- What a case expression collects has the type of the case expression. -/
theorem Collects.typed {e : Expression} {locals : List SymbolId} {g : GeneratorState}
    {incoming : List (TypedValue × BlockId)} {T : TypeVariant}
    (hc : Collects t types functions_ constructors_ e g incoming)
    (he : EmittedIn t program τ locals e g) (hT : HasType t program τ e T) :
    IncomingTyped T incoming := by
  have hs := he.1
  cases hc with
  | switch hscrutinee hcan hstart hbranches =>
    obtain ⟨S, T', hT', _, _, hg1, _, hchecked⟩ := he.branches h hlayouts hdeclared hscrutinee
    cases hasType_unique hs hT' hT
    have hg2 := hg1.congr (startSwitch_spec hstart)
    exact ((emitSwitchBranches_spec h hlayouts hchecked (canUseSwitchCase_patterns hcan) hg2 _ _ _
      (by simp [IncomingTyped])).of_ok hbranches).2.1
  | sequential hscrutinee _ hcreate hbranches =>
    obtain ⟨S, T', hT', htype, hground, hg1, _, hchecked⟩ :=
      he.branches h hlayouts hdeclared hscrutinee
    cases hasType_unique hs hT' hT
    have hg2 := hg1.congr (createBlock_spec hcreate)
    exact ((emitSequentialBranches_spec h hlayouts hground hchecked hg2 htype _
      (by simp [IncomingTyped])).of_ok hbranches).2.1

theorem Emitting.typesAgree (hsolved : Solved t program last) {e : Expression}
    {g : GeneratorState}
    (he : Emitting t types program functions_ constructors_ functions e g) :
    TypesAgree t types program functions_ constructors_ e g := by
  obtain ⟨locals, hemitted⟩ := he.emittedIn h hlayouts hdeclared
  obtain ⟨st, hinferring⟩ := he.inferring h.scopes hsolved
  have hin := hemitted
  obtain ⟨hs, ⟨T, hT⟩, ha, hg⟩ := hemitted
  have hinferred := inferredType_of_hasType h.scopes hsolved h hinferring hs hT
  constructor
  · intro value g' hrun
    obtain ⟨_, htype, _, _⟩ :=
      ((lowered h hlayouts hdeclared e).1 locals g T hs hT ha hg).of_ok hrun
    rw [htype]
    exact hinferred
  · rintro id name s value rfl hresolved hctor hfunction hvalue
    obtain ⟨s', hresolved', _, hkinds⟩ := hs
    rw [hresolved] at hresolved'
    cases hresolved'
    rcases hkinds with ⟨hkind, _⟩ | ⟨hkind, hmem⟩
    · rcases hkind with hkind | hkind
      · exact absurd hkind hctor
      · exact absurd hkind hfunction
    obtain ⟨_, value', hvalue', htype⟩ := hg s.id hmem
    rw [hvalue] at hvalue'
    cases hvalue'
    have hunique : ∀ T, SymbolType t program s.id T → T = value.type := fun T hT =>
      (hT.eq hsolved h.fields h.typing.checks).symm.trans htype.symm
    obtain ⟨T', hT'⟩ := hinferring.symbolType h.scopes hsolved hresolved hkind
    have heq := hunique T' hT'
    subst heq
    exact ⟨hT', hunique⟩
  · intro incoming hcollects entry hentry
    rw [(hcollects.typed h hlayouts hdeclared hin hT entry hentry).1]
    exact hinferred

end

/-! ## Programs -/

theorem declareFunctions_find (h : Checked t program types τ)
    (hdeclare : declareFunctions t types program = .ok (functions, functions_)) :
    ∀ s, t.getSymbol s.id = some s → s.kind = .Function → ∃ n, functions_.find s.id = some n := by
  obtain ⟨functions', functions_', hrun, _, hcomplete⟩ := declareFunctions_spec h
  rw [hdeclare] at hrun
  cases hrun
  intro s hs hkind
  obtain ⟨hlocal, _⟩ := h.rooted.find hs (by simp [isLocalKind, hkind])
  obtain ⟨fd, hfd, hname, _⟩ := function_declared h.scopes hlocal hkind
  exact hcomplete fd hfd s (by rw [hname]; exact hlocal)

variable {tokens : TokenVector} {p : ParsedProgram} {result : TypeAnalysisResult}

/-- The types that the generator computes for an accepted program are those that
inference gives its expressions and symbols. The tokens are the scanner's. -/
theorem emitExpression_types (hl : tokens.Lexed) (hp : parse tokens = .ok p) (hok : (analyze p).ok)
    (hrun : analyzeTypes p (analyze p) = some result) (hresult : result.ok)
    (hdeclare : declareFunctions (analyze p).scopes result.types p.ast =
      .ok (functions, functions_)) {e : Expression} {g : GeneratorState}
    (he : Emitting (analyze p).scopes result.types p.ast functions_
      (registerConstructors (analyze p).scopes result.types p.ast) functions e g) :
    TypesAgree (analyze p).scopes result.types p.ast functions_
      (registerConstructors (analyze p).scopes result.types p.ast) e g := by
  obtain ⟨τ, h⟩ := checked hl hp hok hrun hresult
  obtain ⟨last, hsolved⟩ := solved hl hp hok hrun hresult
  exact he.typesAgree h (layouts h) (declareFunctions_find h hdeclare) hsolved

/-- What emits the body of a function emits it. -/
theorem emitting_of_run {before after : List Definition} {fd : FunctionDefinition}
    {symbol : Symbol} {function : Nat} {signature : FunctionSignature} {scope_id : ScopeId}
    {value : TypedValue} {g' : GeneratorState}
    (hprogram : program.definitions = before ++ .FunctionDefinition fd :: after)
    (hroot : getRootSymbol t fd.name .Function = some symbol)
    (hfunction : functions_.find symbol.id = some function)
    (hsignature : types.getFunctionSignature symbol.id = some signature)
    (hscope : t.getScopeId fd.id = some scope_id)
    (hrun : (do
      defineFunctions t types functions_ constructors_ before
      (do setLocals .empty
          startFunction
          bindParameters t scope_id 0 fd.parameters signature.parameters)
      emitExpression t types functions_ constructors_ fd.body) ⟨functions, .entry, .empty⟩ =
        .ok (value, g')) :
    ∃ g, Emitting t types program functions_ constructors_ functions fd.body g ∧
      emitExpression t types functions_ constructors_ fd.body g = .ok (value, g') := by
  obtain ⟨⟨_, g1⟩, hbefore, hrun⟩ := bind_eq_ok.mp hrun
  obtain ⟨⟨_, g2⟩, hentered, hrun⟩ := bind_eq_ok.mp hrun
  exact ⟨g2, .body hprogram hbefore hroot hfunction hsignature hscope hentered, hrun⟩

/-- In `choiceProgram`, the emitter comes to the body, emits it, and agrees with
inference on the types. -/
def ChoiceEmits (body : Expression) : Prop :=
  ∃ functions functions_ g value g', declareFunctions (analyze choiceProgram).scopes
      choiceResult.types choiceProgram.ast = .ok (functions, functions_) ∧
    Emitting (analyze choiceProgram).scopes choiceResult.types choiceProgram.ast functions_
      (registerConstructors (analyze choiceProgram).scopes choiceResult.types choiceProgram.ast)
      functions body g ∧
    emitExpression (analyze choiceProgram).scopes choiceResult.types functions_
      (registerConstructors (analyze choiceProgram).scopes choiceResult.types choiceProgram.ast)
      body g = .ok (value, g') ∧
    TypesAgree (analyze choiceProgram).scopes choiceResult.types choiceProgram.ast functions_
      (registerConstructors (analyze choiceProgram).scopes choiceResult.types choiceProgram.ast)
      body g

/-- The function is declared at the place, and its body is emitted. -/
def choiceChecks (before : List Definition) (fd : FunctionDefinition) (symbol : Symbol)
    (function : Nat) (signature : FunctionSignature) (scope_id : ScopeId) : Bool :=
  match declareFunctions (analyze choiceProgram).scopes choiceResult.types choiceProgram.ast with
  | .error _ => false
  | .ok (functions, functions_) =>
    decide (functions_.find symbol.id = some function) && Except.isOk ((do
      defineFunctions (analyze choiceProgram).scopes choiceResult.types functions_
        (registerConstructors (analyze choiceProgram).scopes choiceResult.types choiceProgram.ast)
        before
      (do setLocals .empty
          startFunction
          bindParameters (analyze choiceProgram).scopes scope_id 0 fd.parameters
            signature.parameters)
      emitExpression (analyze choiceProgram).scopes choiceResult.types functions_
        (registerConstructors (analyze choiceProgram).scopes choiceResult.types choiceProgram.ast)
        fd.body) ⟨functions, .entry, .empty⟩)

/-- The case expression with its phi in `f`, and the call in `main`. -/
theorem emitExpression_types_choice :
    ChoiceEmits choiceFunction.body ∧ ChoiceEmits choiceMain.body := by
  have hemits : ∀ before after fd symbol function signature scope_id,
      choiceProgram.ast.definitions = before ++ .FunctionDefinition fd :: after →
      getRootSymbol (analyze choiceProgram).scopes fd.name .Function = some symbol →
      choiceResult.types.getFunctionSignature symbol.id = some signature →
      (analyze choiceProgram).scopes.getScopeId fd.id = some scope_id →
      choiceChecks before fd symbol function signature scope_id = true → ChoiceEmits fd.body := by
    intro before after fd symbol function signature scope_id hprogram hroot hsignature hscope h
    unfold choiceChecks at h
    cases hdeclare : declareFunctions (analyze choiceProgram).scopes choiceResult.types
        choiceProgram.ast with
    | error e =>
      rw [hdeclare] at h
      cases h
    | ok declared =>
      obtain ⟨functions, functions_⟩ := declared
      rw [hdeclare] at h
      obtain ⟨hfunction, hok⟩ := Bool.and_eq_true_iff.mp h
      obtain ⟨⟨value, g'⟩, hrun⟩ := exists_of_isOk hok
      obtain ⟨g, he, hemit⟩ := emitting_of_run hprogram hroot (of_decide_eq_true hfunction)
        hsignature hscope hrun
      exact ⟨functions, functions_, g, value, g', hdeclare, he, hemit, emitExpression_types
        (show choiceTokens.Lexed by decide) choiceProgram_parse choiceProgram_ok
        choiceProgram_analyzed choiceResult_ok hdeclare he⟩
  constructor
  · exact hemits [_] _ choiceFunction ⟨4, "f", .Function, 13⟩ 0 ⟨[dataType 1, intType], intType⟩ 1
      rfl (by decide +kernel) (by decide +kernel) (by decide +kernel) (by decide +kernel)
  · exact hemits [_, _] _ choiceMain ⟨5, "main", .Function, 21⟩ 1 ⟨[], intType⟩ 4
      rfl (by decide +kernel) (by decide +kernel) (by decide +kernel) (by decide +kernel)

end mf.visitors
