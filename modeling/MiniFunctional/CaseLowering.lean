-- The two lowerings of a case expression: a switch on the tag and a chain of
-- comparisons select the same branch, bind the same fields and do the same.
import MiniFunctional.EmittedFunctions

open mf.util mf.ast mf.parsing mf.tokenization llvm
open mf.semantics hiding Frame

/-! ## Subexpressions -/

namespace mf.ast

/-- `e` is the second expression or a part of it. -/
inductive Expression.Occurs (e : Expression) : Expression → Prop
  | here : Occurs e e
  | left {kind id l r} : Occurs e l → Occurs e (.BinaryOperator kind id l r)
  | right {kind id l r} : Occurs e r → Occurs e (.BinaryOperator kind id l r)
  | function {id f a} : Occurs e f → Occurs e (.Application id f a)
  | argument {id f a} : Occurs e a → Occurs e (.Application id f a)
  | scrutinee {id s bs} : Occurs e s → Occurs e (.CaseExpression id s bs)
  | branch {id s bs} {b : Branch} : b ∈ bs → Occurs e b.body → Occurs e (.CaseExpression id s bs)

end mf.ast

namespace mf.visitors

variable {M : Module} {t : ScopeTree} {types : TypeTable} {program : Program} {τ : Typing}
  {functions_ : AssocMap SymbolId Nat} {constructors_ : AssocMap SymbolId ConstructorLayout}
  {locals : List SymbolId} {L : Locals} {g : GeneratorState}

/-- A part of an expression stands in a scope of its own. -/
theorem occurs_scoped {e e' : Expression} (h : Expression.Occurs e e') {locals : List SymbolId}
    (hs : t.WellScoped e' locals) (ha : Apart (t.boundIn e') locals) :
    ∃ locals', t.WellScoped e locals' ∧ Apart (t.boundIn e) locals' := by
  induction h generalizing locals with
  | here => exact ⟨locals, hs, ha⟩
  | left _ ih => exact ih hs.1 ha.left
  | right _ ih => exact ih hs.2 ha.right
  | function _ ih => exact ih hs.1 ha.left
  | argument _ ih => exact ih hs.2 ha.right
  | scrutinee _ ih => exact ih hs.1 ha.left
  | branch hb _ ih =>
    exact ih (ScopeTree.wellScopedBranches_iff.mp hs.2.2 _ hb).2 (ha.right.branch hb).enter

/-! ## Selection -/

section

variable (t constructors_)

/-- The tag is that of the branch, whose pattern takes the fields of the node. -/
def matchBranch (branch : Branch) (node : Val) (cells : Cells) : Behaviour (Branch × Cells) :=
  match branch.pattern with
  | .VariablePattern _ _ => Behaviour.undefined
  | .ConstructorPattern id _ arguments =>
    match Meaning.patternLayout t constructors_ id with
    | none => Behaviour.undefined
    | some layout => do
      let cells ← Meaning.constructorPattern t id arguments node layout cells
      pure (branch, cells)

/-- The first branch for the tag, and the cells of the locals in it; without
one, a trap. -/
def selectBranch : List Branch → BitVec 64 → Val → Cells → Behaviour (Branch × Cells)
  | [], _, _, _ => Behaviour.trap
  | branch :: branches, tag, node, cells =>
    if branchTag t constructors_ branch = some tag then
      matchBranch t constructors_ branch node cells
    else selectBranch branches tag node cells

variable (M functions_)

/-- What a case expression does with a node, whichever way it is lowered. -/
noncomputable def caseMeaning (branches : List Branch) (node : Val) (cells : Cells) :
    Behaviour Val := do
  let tag ← Meaning.loadTag node
  let selected ← Behaviour.dispatch tag fun n => selectBranch t constructors_ branches n node cells
  bodyMeaning M t functions_ constructors_ selected.1.body selected.2

end

/-- All patterns name constructors that have layouts. -/
def Switchable (t : ScopeTree) (constructors_ : AssocMap SymbolId ConstructorLayout)
    (branches : List Branch) : Prop :=
  ∀ b ∈ branches, ∃ id name arguments ctor layout,
    b.pattern = .ConstructorPattern id name arguments ∧ t.getResolvedSymbol id = some ctor ∧
      constructors_.find ctor.id = some layout

/-- A branch for the tag is selected, and the others are passed over. -/
theorem selectBranch_cons (t : ScopeTree)
    (constructors_ : AssocMap SymbolId ConstructorLayout) (b : Branch) (branches : List Branch)
    (n : BitVec 64) (node : Val) (cells : Cells) :
    (branchTag t constructors_ b = some n →
      selectBranch t constructors_ (b :: branches) n node cells =
        matchBranch t constructors_ b node cells) ∧
    (branchTag t constructors_ b ≠ some n →
      selectBranch t constructors_ (b :: branches) n node cells =
        selectBranch t constructors_ branches n node cells) :=
  ⟨fun h => if_pos h, fun h => if_neg h⟩

/-- The facts of a branch of `Switchable`. -/
theorem switchable_cons {b : Branch} {branches : List Branch}
    (hb : Switchable t constructors_ (b :: branches)) :
    Switchable t constructors_ branches ∧
    ∃ id name arguments layout, b.pattern = .ConstructorPattern id name arguments ∧
      Meaning.patternLayout t constructors_ id = some layout ∧
      branchTag t constructors_ b = some (BitVec.ofNat 64 layout.tag) ∧
      ∀ (M : Module) (functions_ : AssocMap SymbolId Nat) (node : Val) (cells : Cells),
        (Meaning.constructorPattern t id arguments node layout cells >>= fun cells =>
          bodyMeaning M t functions_ constructors_ b.body cells) =
        matchBranch t constructors_ b node cells >>= fun selected =>
          bodyMeaning M t functions_ constructors_ selected.1.body selected.2 := by
  obtain ⟨id, name, arguments, ctor, layout, hpattern, hctor, hlayout⟩ := hb _ List.mem_cons_self
  have hfound : Meaning.patternLayout t constructors_ id = some layout := by
    simp [Meaning.patternLayout, hctor, hlayout]
  refine ⟨fun b' hb' => hb b' (List.mem_cons_of_mem _ hb'), id, name, arguments, layout, hpattern,
    hfound, by simp [branchTag, hpattern, hfound], fun M functions_ node cells => ?_⟩
  simp only [matchBranch, hpattern, hfound, bind_assoc, pure_bind]

theorem switchBranches_select {branches : List Branch} (hb : Switchable t constructors_ branches)
    (n : BitVec 64) (node : Val) (cells : Cells) :
    Meaning.switchBranches (callBehaviour M) t functions_ constructors_ branches n node cells =
      selectBranch t constructors_ branches n node cells >>= fun selected =>
        bodyMeaning M t functions_ constructors_ selected.1.body selected.2 := by
  induction branches with
  | nil => rfl
  | cons b branches ih =>
    obtain ⟨hrest, id, name, arguments, layout, hpattern, hfound, htag, hmatch⟩ :=
      switchable_cons hb
    obtain ⟨bid, pattern, body⟩ := b
    have hpattern : pattern = .ConstructorPattern id name arguments := hpattern
    subst hpattern
    obtain ⟨hhit, hmiss⟩ := selectBranch_cons t constructors_
      ⟨bid, .ConstructorPattern id name arguments, body⟩ branches n node cells
    simp only [Meaning.switchBranches, hfound]
    by_cases hn : n = BitVec.ofNat 64 layout.tag
    · subst hn
      rw [hhit htag, ← hmatch M functions_]
      exact if_pos rfl
    · rw [hmiss (by rw [htag]; exact fun heq => hn (Option.some.inj heq).symm), ← ih hrest]
      exact if_neg hn

theorem choose_icmpEq {α : Type} (n k : BitVec 64) (x y : Behaviour α) :
    (n = k → (Behaviour.icmpEq (.int n) (.int k) >>= fun matched =>
      Behaviour.choose matched x y) = x) ∧
    (n ≠ k → (Behaviour.icmpEq (.int n) (.int k) >>= fun matched =>
      Behaviour.choose matched x y) = y) := by
  constructor
  · intro h
    have hvalue : icmpEqVal (.int n) (.int k) = some (.bool true) :=
      congrArg (some ∘ Val.bool) (decide_eq_true h)
    unfold Behaviour.icmpEq
    rw [hvalue]
    rfl
  · intro h
    have hvalue : icmpEqVal (.int n) (.int k) = some (.bool false) :=
      congrArg (some ∘ Val.bool) (decide_eq_false h)
    unfold Behaviour.icmpEq
    rw [hvalue]
    rfl

/-- The chain loads the tag of the node again for each comparison. -/
theorem sequentialBranches_select {branches : List Branch}
    (hb : Switchable t constructors_ branches) (scrutinee : Cell) (cells : Cells) {m : Memory}
    {output : String} {tag : Val}
    (htag : Meaning.loadTag scrutinee.value m output = .returns tag m output)
    (hne : branches ≠ []) :
    Meaning.sequentialBranches (callBehaviour M) t functions_ constructors_ branches scrutinee
        cells m output =
      (Behaviour.dispatch tag (fun n =>
        selectBranch t constructors_ branches n scrutinee.value cells) >>= fun selected =>
          bodyMeaning M t functions_ constructors_ selected.1.body selected.2) m output := by
  induction branches with
  | nil => exact absurd rfl hne
  | cons b branches ih =>
    obtain ⟨hrest, id, name, arguments, layout, hpattern, hfound, htagb, hmatch⟩ :=
      switchable_cons hb
    obtain ⟨bid, pattern, body⟩ := b
    have hpattern : pattern = .ConstructorPattern id name arguments := hpattern
    subst hpattern
    simp only [Meaning.sequentialBranches, hfound]
    rw [Behaviour.bind_returns htag]
    cases tag with
    | int n =>
      obtain ⟨hhit, hmiss⟩ := selectBranch_cons t constructors_
        ⟨bid, .ConstructorPattern id name arguments, body⟩ branches n scrutinee.value cells
      have hcompare := choose_icmpEq (α := Val) n (BitVec.ofNat 64 layout.tag)
      by_cases hn : n = BitVec.ofNat 64 layout.tag
      · rw [(hcompare _ _).1 hn]
        have hselect := hhit (htagb.trans (congrArg some hn.symm))
        exact congrFun (congrFun ((hmatch M functions_ scrutinee.value cells).trans
          (congrArg (· >>= _) hselect.symm)) m) output
      · rw [(hcompare _ _).2 hn]
        have hselect := hmiss fun heq => hn (Option.some.inj (htagb.symm.trans heq)).symm
        refine Eq.trans ?_ (congrFun (congrFun (congrArg (· >>= fun selected =>
          bodyMeaning M t functions_ constructors_ selected.1.body selected.2) hselect.symm) m)
          output)
        cases branches with
        | nil => rfl
        | cons b' branches => exact ih hrest (by simp)
    | _ => rfl

theorem dispatch_bind {α β : Type} (tag : Val) (x : BitVec 64 → Behaviour α)
    (f : α → Behaviour β) :
    (Behaviour.dispatch tag fun n => x n >>= f) = Behaviour.dispatch tag x >>= f := by
  cases tag with
  | int n => rfl
  | _ => rfl

theorem switch_caseMeaning {branches : List Branch} (hb : Switchable t constructors_ branches)
    (node : Val) (cells : Cells) :
    (Meaning.loadTag node >>= fun tag => Behaviour.dispatch tag fun n =>
      Meaning.switchBranches (callBehaviour M) t functions_ constructors_ branches n node cells) =
      caseMeaning M t functions_ constructors_ branches node cells := by
  unfold caseMeaning
  simp only [switchBranches_select hb, dispatch_bind]

/-- A load leaves the memory, or is undefined. -/
theorem loadTag_reads (node : Val) (m : Memory) (output : String) :
    (∃ tag, Meaning.loadTag node m output = .returns tag m output) ∨
      Meaning.loadTag node m output = .dead := by
  unfold Meaning.loadTag
  rw [Behaviour.bind_run]
  unfold Behaviour.structGEP
  cases gepVal m (8 * 0) node with
  | none => exact .inr rfl
  | some pointer =>
    cases pointer with
    | ptr p =>
      simp only [Behaviour.ofOption, Behaviour.pure_run, Behaviour.load]
      cases (m.read p).filter Ty.i64.holds with
      | none => exact .inr rfl
      | some tag => exact .inl ⟨tag, rfl⟩
    | _ => exact .inr rfl

theorem sequential_caseMeaning {branches : List Branch} (hb : Switchable t constructors_ branches)
    (hne : branches ≠ []) (scrutinee : Cell) (cells : Cells) :
    Meaning.sequentialBranches (callBehaviour M) t functions_ constructors_ branches scrutinee
      cells = caseMeaning M t functions_ constructors_ branches scrutinee.value cells := by
  funext m output
  unfold caseMeaning
  rcases loadTag_reads scrutinee.value m output with ⟨tag, htag⟩ | htag
  · rw [sequentialBranches_select hb scrutinee cells htag hne, Behaviour.bind_returns htag]
  · cases branches with
    | nil => exact absurd rfl hne
    | cons b branches =>
      obtain ⟨_, id, name, arguments, layout, hpattern, hfound, _⟩ := switchable_cons hb
      obtain ⟨bid, pattern, body⟩ := b
      have hpattern : pattern = .ConstructorPattern id name arguments := hpattern
      subst hpattern
      simp only [Meaning.sequentialBranches, hfound]
      rw [Behaviour.bind_run, Behaviour.bind_run, htag]

/-! ## Tags -/

theorem canUseSwitchCase_ids {branches : List Branch} {seen : List SymbolId}
    (hcan : canUseSwitchCase t seen branches = true) :
    ∀ b ∈ branches, ∃ id name arguments ctor, b.pattern = .ConstructorPattern id name arguments ∧
      t.getResolvedSymbol id = some ctor ∧ ctor.id ∉ seen := by
  induction branches generalizing seen with
  | nil => simp
  | cons b branches ih =>
    obtain ⟨bid, pattern, body⟩ := b
    cases pattern with
    | VariablePattern id name => simp [canUseSwitchCase] at hcan
    | ConstructorPattern id name arguments =>
      simp only [canUseSwitchCase] at hcan
      split at hcan
      · cases hcan
      · rename_i ctor hctor
        split at hcan
        · cases hcan
        · rename_i hnew
          refine List.forall_mem_cons.mpr ⟨⟨id, name, arguments, ctor, rfl, hctor, hnew⟩, ?_⟩
          intro b' hb'
          obtain ⟨id', name', arguments', ctor', hpattern, hctor', hnot⟩ := ih hcan b' hb'
          exact ⟨id', name', arguments', ctor', hpattern, hctor',
            fun hin => hnot (List.mem_cons_of_mem _ hin)⟩

/-- The cases of a switch have different values. -/
theorem branchTags_nodup (hlayouts : Layouts t types program constructors_)
    {branches : List Branch} {seen : List SymbolId}
    (hcan : canUseSwitchCase t seen branches = true)
    (hb : Switchable t constructors_ branches) :
    (branches.map (branchTag t constructors_)).Nodup := by
  induction branches generalizing seen with
  | nil => exact List.nodup_nil
  | cons b branches ih =>
    obtain ⟨hrest, id, name, arguments, layout, hpattern, hfound, htag, -⟩ := switchable_cons hb
    obtain ⟨bid, pattern, body⟩ := b
    have hpattern : pattern = .ConstructorPattern id name arguments := hpattern
    subst hpattern
    simp only [canUseSwitchCase] at hcan
    split at hcan
    · cases hcan
    · rename_i ctor hctor
      split at hcan
      · cases hcan
      · refine List.nodup_cons.mpr ⟨fun hin => ?_, ih hcan hrest⟩
        obtain ⟨b', hb', htag'⟩ := List.mem_map.mp hin
        obtain ⟨id', _, _, ctor', hpattern', hctor', hnew⟩ := canUseSwitchCase_ids hcan b' hb'
        obtain ⟨id'', _, _, ctor'', layout', hpattern'', hctor'', hlayout'⟩ := hrest b' hb'
        rw [hpattern'] at hpattern''
        cases hpattern''
        rw [hctor'] at hctor''
        cases hctor''
        have hlayout : constructors_.find ctor.id = some layout := by
          simpa [Meaning.patternLayout, hctor] using hfound
        have hbits : BitVec.ofNat 64 layout'.tag = BitVec.ofNat 64 layout.tag := by
          rw [htag] at htag'
          simpa [branchTag, hpattern', Meaning.patternLayout, hctor', hlayout'] using htag'
        exact hnew (by
          rw [hlayouts.tag_inj hlayout' hlayout hbits]
          exact List.mem_cons_self)

/-- Where the tags differ, the branch for a tag does not depend on the order. -/
theorem selectBranch_tag {branches : List Branch}
    (hnodup : (branches.map (branchTag t constructors_)).Nodup) {b : Branch} (hb : b ∈ branches)
    {n : BitVec 64} (htag : branchTag t constructors_ b = some n) (node : Val) (cells : Cells) :
    selectBranch t constructors_ branches n node cells =
      matchBranch t constructors_ b node cells := by
  induction branches with
  | nil => simp at hb
  | cons b' branches ih =>
    rw [List.map_cons, List.nodup_cons] at hnodup
    obtain ⟨hhit, hmiss⟩ := selectBranch_cons t constructors_ b' branches n
      node cells
    rcases List.mem_cons.mp hb with rfl | hb
    · exact hhit htag
    · rw [hmiss fun heq => hnodup.1 (heq.trans htag.symm ▸ List.mem_map_of_mem hb)]
      exact ih hnodup.2 hb

/-! ## The lowerings -/

theorem switchable (h : Checked t program types τ)
    (hlayouts : Layouts t types program constructors_) {branches : List Branch}
    {locals : List SymbolId} (hs : t.WellScopedBranches branches locals)
    (hcan : canUseSwitchCase t [] branches = true) : Switchable t constructors_ branches := by
  intro b hb
  obtain ⟨id, name, arguments, hpattern⟩ := canUseSwitchCase_patterns hcan b hb
  have hscoped := (ScopeTree.wellScopedBranches_iff.mp hs b hb).1
  rw [hpattern] at hscoped
  obtain ⟨_, ctor, hctor, hkind, hlocal⟩ := hscoped
  obtain ⟨layout, hlayout, _⟩ := constructor_facts h hlayouts hlocal hkind
  exact ⟨id, name, arguments, ctor, layout, hpattern, hctor, hlayout⟩

/-- Two pieces of code, from the same point and with the same values, that have
one outcome; a value that they return is that of their operands. -/
def SameOutcome (M : Module) (b b1 b2 : Builder) (op1 op2 : Operand)
    (B : llvm.Frame → Behaviour Val) : Prop :=
  ∀ (frame frame' : llvm.Frame) callers callers' m output F F',
    M.functions[frame.function]? = some F → M.functions[frame'.function]? = some F' →
    Within b b1 F.blocks → Within b b2 F'.blocks → AtEnd b frame → AtEnd b frame' →
    frame'.registers = frame.registers → frame'.arguments = frame.arguments →
    Realises M callers frame m output
      (fun v final => AtEnd b1 final ∧ final.eval op1 = v) (B frame m output) ∧
    Realises M callers' frame' m output
      (fun v final => AtEnd b2 final ∧ final.eval op2 = v) (B frame m output)

theorem eval_registers {frame frame' : llvm.Frame} (hr : frame'.registers = frame.registers)
    (ha : frame'.arguments = frame.arguments) (op : Operand) :
    frame'.eval op = frame.eval op := by
  cases op with
  | argument index => simp [Frame.eval, ha]
  | result id => simp [Frame.eval, hr]
  | _ => rfl

theorem cellsOf_registers {frame frame' : llvm.Frame} (hr : frame'.registers = frame.registers)
    (ha : frame'.arguments = frame.arguments) (L : Locals) :
    cellsOf frame' L = cellsOf frame L := by
  funext s
  unfold cellsOf cellOf
  simp only [eval_registers hr ha]

theorem SameOutcome.of_codes {b b1 b2 : Builder} {op1 op2 : Operand}
    {B : llvm.Frame → Behaviour Val} (h1 : Codes M b b1 B fun v frame => frame.eval op1 = v)
    (h2 : Codes M b b2 B fun v frame => frame.eval op2 = v)
    (hB : ∀ frame frame' : llvm.Frame, frame'.registers = frame.registers →
      frame'.arguments = frame.arguments → B frame' = B frame) :
    SameOutcome M b b1 b2 op1 op2 B := by
  intro frame frame' callers callers' m output F F' hF hF' hw hw' hat hat' hr ha
  constructor
  · exact (h1.runs frame callers m output F hF hw hat).mono fun v final hfinal =>
      ⟨hfinal.1, hfinal.2.2⟩
  · have hrun := h2.runs frame' callers' m output F' hF' hw' hat'
    rw [hB frame frame' hr ha] at hrun
    exact hrun.mono fun v final hfinal => ⟨hfinal.1, hfinal.2.2⟩

variable {tokens : TokenVector} {p : ParsedProgram} {result : TypeAnalysisResult}

/-- The cases of a switch have different tags, the branch for a tag is the one
that has it, and the switch does what the chain of comparisons would do: with any
node and any locals it selects the branch for the tag, binds its variables to the
fields and does what its body means, or traps. The tokens are the scanner's. -/
theorem emitSwitchCaseExpression_agrees (hl : tokens.Lexed) (hp : parse tokens = .ok p)
    (hok : (analyze p).ok) (hrun : analyzeTypes p (analyze p) = some result) (hresult : result.ok)
    {fd : FunctionDefinition} (hfd : .FunctionDefinition fd ∈ p.ast.definitions) {id : NodeId}
    {scrutinee : Expression} {branches : List Branch}
    (hoccurs : Expression.Occurs (.CaseExpression id scrutinee branches) fd.body)
    (hcan : canUseSwitchCase (analyze p).scopes [] branches = true) {g : GeneratorState}
    (hopen : g.builder.Open)
    (hlocals : ∀ s v, g.locals_.find s = some v → v.value.Below g.builder.next)
    {node : TypedValue} (hnode : node.value.Below g.builder.next) {value : TypedValue}
    {g1 : GeneratorState}
    (hswitch : emitSwitchCaseExpression (fun switch_block merge_block =>
      emitSwitchBranches (analyze p).scopes result.types functions_
        (registerConstructors (analyze p).scopes result.types p.ast) branches node switch_block
        merge_block []) node g = .ok (value, g1)) {value' : TypedValue} {g1' : GeneratorState}
    (hchain : emitSequentialCaseExpression (fun merge_block =>
      emitSequentialBranches (analyze p).scopes result.types functions_
        (registerConstructors (analyze p).scopes result.types p.ast) branches node merge_block [])
      g = .ok (value', g1')) {M : Module} (hlinked : Linked M result.types functions_) :
    (branches.map (branchTag (analyze p).scopes
      (registerConstructors (analyze p).scopes result.types p.ast))).Nodup ∧
    (∀ b ∈ branches, ∀ n node cells, branchTag (analyze p).scopes
        (registerConstructors (analyze p).scopes result.types p.ast) b = some n →
      selectBranch (analyze p).scopes (registerConstructors (analyze p).scopes result.types p.ast)
        branches n node cells =
      matchBranch (analyze p).scopes (registerConstructors (analyze p).scopes result.types p.ast)
        b node cells) ∧
    SameOutcome M g.builder g1.builder g1'.builder value.value value'.value fun frame =>
      caseMeaning M (analyze p).scopes functions_
        (registerConstructors (analyze p).scopes result.types p.ast) branches
        (frame.eval node.value) (cellsOf frame g.locals_.find) := by
  obtain ⟨τ, h⟩ := checked hl hp hok hrun hresult
  obtain ⟨_, _, hscoped⟩ := h.scopes.functions fd hfd
  obtain ⟨locals, hs, ha⟩ := occurs_scoped hoccurs hscoped (function_apart h hfd)
  obtain ⟨_, hne, hsb⟩ := hs
  have hb := ScopeTree.wellScopedBranches_iff.mp hsb
  have hbranches : ∀ b ∈ branches, BranchTranslated M (analyze p).scopes result.types functions_
      (registerConstructors (analyze p).scopes result.types p.ast) locals b.pattern b.body :=
    fun b hmem => ⟨(hb b hmem).1, (hb b hmem).2, ha.right.branch hmem,
      (translated hlinked b.body).1⟩
  have hL : Holds locals g.locals_.find g := ⟨fun _ _ => rfl, hlocals⟩
  have hswitchable := switchable h (layouts h) hsb hcan
  have hnodup := branchTags_nodup (layouts h) hcan hswitchable
  refine ⟨hnodup, fun b hmem n node cells htag => selectBranch_tag hnodup hmem htag node cells, ?_⟩
  have h1 := ((emitted_switchCase hbranches node hopen hnode hL).of_ok hswitch).value
  have h2 := ((emitted_sequentialCase hbranches node hopen hnode hL).of_ok hchain).value
  simp only [bind_assoc, pure_bind, bind_pure] at h1 h2
  refine .of_codes (h1.congr fun frame => ?_) (h2.congr fun frame => ?_)
    fun frame frame' hr ha => ?_
  · exact (switch_caseMeaning hswitchable _ _).symm
  · exact (sequential_caseMeaning hswitchable hne (cellOf frame node.value) _).symm
  · rw [eval_registers hr ha, cellsOf_registers hr ha]

/-- At the entry of `f`, whose arguments are the node and `y`. -/
def choiceState : GeneratorState :=
  ⟨[], .entry, (AssocMap.empty.insert 6 ⟨.argument 0, dataType 1⟩).insert 7 ⟨.argument 1, intType⟩⟩

def choiceSwitch (types : TypeTable) : Except GenerateError (TypedValue × GeneratorState) :=
  emitSwitchCaseExpression (fun switch_block merge_block =>
    emitSwitchBranches (analyze choiceProgram).scopes types .empty
      (registerConstructors (analyze choiceProgram).scopes types choiceProgram.ast) choiceBranches
      ⟨.argument 0, dataType 1⟩ switch_block merge_block []) ⟨.argument 0, dataType 1⟩ choiceState

def choiceChain (types : TypeTable) : Except GenerateError (TypedValue × GeneratorState) :=
  emitSequentialCaseExpression (fun merge_block =>
    emitSequentialBranches (analyze choiceProgram).scopes types .empty
      (registerConstructors (analyze choiceProgram).scopes types choiceProgram.ast) choiceBranches
      ⟨.argument 0, dataType 1⟩ merge_block []) choiceState

/-- The two codes, as those of two functions. -/
def choiceModule (g g' : GeneratorState) : Module :=
  ⟨[⟨"switch", .i64, [.ptr, .i64], g.builder.blocks⟩,
    ⟨"chain", .i64, [.ptr, .i64], g'.builder.blocks⟩]⟩

/-- The case expression of `f` in `choiceProgram`. -/
theorem emitSwitchCaseExpression_agrees_choice :
    ∃ result value value' g1 g1' constructors_,
      analyzeTypes choiceProgram (analyze choiceProgram) = some result ∧
      registerConstructors (analyze choiceProgram).scopes result.types choiceProgram.ast =
        constructors_ ∧
      choiceSwitch result.types = .ok (value, g1) ∧ choiceChain result.types = .ok (value', g1') ∧
      (choiceBranches.map (branchTag (analyze choiceProgram).scopes constructors_)).Nodup ∧
      (∀ b ∈ choiceBranches, ∀ n node cells,
        branchTag (analyze choiceProgram).scopes constructors_ b = some n →
        selectBranch (analyze choiceProgram).scopes constructors_ choiceBranches n node cells =
          matchBranch (analyze choiceProgram).scopes constructors_ b node cells) ∧
      SameOutcome (choiceModule g1 g1') .entry g1.builder g1'.builder value.value value'.value
        fun frame => caseMeaning (choiceModule g1 g1') (analyze choiceProgram).scopes .empty
          constructors_ choiceBranches (frame.eval (.argument 0))
          (cellsOf frame choiceState.locals_.find) := by
  have hrun : ∃ result, analyzeTypes choiceProgram (analyze choiceProgram) = some result ∧
      (result.ok && ((choiceSwitch result.types).isOk && (choiceChain result.types).isOk)) = true :=
    Option.map_eq_some_iff.mp (show (analyzeTypes choiceProgram (analyze choiceProgram)).map
      _ = some true by decide +kernel)
  obtain ⟨result, hrun, hboth⟩ := hrun
  obtain ⟨hresult, hcodes⟩ := Bool.and_eq_true_iff.mp hboth
  obtain ⟨hswitch, hchain⟩ := Bool.and_eq_true_iff.mp hcodes
  cases hs : choiceSwitch result.types with
  | error e =>
    rw [hs] at hswitch
    cases hswitch
  | ok r =>
    cases hc : choiceChain result.types with
    | error e =>
      rw [hc] at hchain
      cases hchain
    | ok r' =>
      refine ⟨result, r.1, r'.1, r.2, r'.2, _, hrun, rfl, hs, hc, ?_⟩
      have hlexed : choiceTokens.Lexed := by decide
      have hok : (analyze choiceProgram).ok := by decide +kernel
      have hcan : canUseSwitchCase (analyze choiceProgram).scopes [] choiceBranches = true := by
        decide +kernel
      have hopen : choiceState.builder.Open := ⟨.empty, rfl, rfl⟩
      have hlocals : ∀ s v, choiceState.locals_.find s = some v →
          v.value.Below choiceState.builder.next := by
        intro s v hv
        have hmem := AssocMap.find_eq_some_iff.mp hv
        rcases List.mem_cons.mp hmem with h | h
        · cases h
          exact trivial
        · cases List.mem_singleton.mp h
          exact trivial
      have hnode : Operand.Below choiceState.builder.next (.argument 0) := trivial
      exact emitSwitchCaseExpression_agrees hlexed choiceProgram_parse hok hrun hresult
        (List.mem_cons_of_mem _ List.mem_cons_self) Expression.Occurs.here hcan hopen hlocals
        hnode hs hc fun _ _ _ hs => by cases hs

end mf.visitors
