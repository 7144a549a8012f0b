-- The code of an expression does what the expression means of the cells of
-- its locals, wherever the expression stands.
import MiniFunctional.EmissionLaws
import MiniFunctional.EmittedBranches

open mf.util mf.ast llvm
open mf.semantics hiding Frame

namespace mf.visitors

variable {M : Module} {α β : Type} {g g1 g2 : GeneratorState}

/-! ## Locals -/

/-- The values that symbols have in the generator. -/
abbrev Locals := SymbolId → Option TypedValue

def Locals.bind (L : Locals) (id : SymbolId) (value : TypedValue) : Locals := fun s =>
  if s = id then some value else L s

def cellsOf (frame : Frame) (L : Locals) : Cells := fun s =>
  (L s).map fun value => cellOf frame value.value

theorem cellsOf_bind (frame : Frame) (L : Locals) (id : SymbolId) (value : TypedValue) :
    cellsOf frame (L.bind id value) = (cellsOf frame L).insert id (cellOf frame value.value) := by
  funext s
  unfold cellsOf Locals.bind Cells.insert
  by_cases hs : s = id
  · rw [if_pos hs, if_pos hs]
    rfl
  · rw [if_neg hs, if_neg hs]

/-- The generator has the values of `L` for the symbols of `locals`; all of
them are known. -/
structure Holds (locals : List SymbolId) (L : Locals) (g : GeneratorState) : Prop where
  found : ∀ s ∈ locals, g.locals_.find s = L s
  below : ∀ s value, L s = some value → value.value.Below g.builder.next

theorem cellsOf_kept {n : Nat} {frame frame' : Frame} (h : Kept n frame frame') {L : Locals}
    (hbelow : ∀ s value, L s = some value → value.value.Below n) :
    cellsOf frame' L = cellsOf frame L := by
  funext s
  unfold cellsOf
  cases hs : L s with
  | none => rfl
  | some value => exact congrArg some (cellOf_kept h (hbelow s value hs))

theorem Holds.kept {locals : List SymbolId} {L : Locals} (h : Holds locals L g)
    {frame frame' : Frame} (hkept : Kept g.builder.next frame frame') :
    cellsOf frame' L = cellsOf frame L := cellsOf_kept hkept h.below

theorem Holds.later {locals bound : List SymbolId} {L : Locals} (h : Holds locals L g)
    (hb : OnlyBinds bound g g1) (ha : ∀ s ∈ bound, s ∉ locals)
    (hnext : g.builder.next ≤ g1.builder.next) : Holds locals L g1 := by
  refine ⟨fun s hs => ?_, fun s value hvalue => (h.below s value hvalue).mono hnext⟩
  rw [hb.others s fun hin => ha s hin hs]
  exact h.found s hs

/-- `setLocal`. -/
theorem Holds.bind {locals : List SymbolId} {L : Locals} (h : Holds locals L g) {id : SymbolId}
    {value : TypedValue} (hvalue : value.value.Below g.builder.next) :
    Holds (id :: locals) (L.bind id value)
      { g with locals_ := g.locals_.insert id value } := by
  refine ⟨fun s hs => ?_, fun s value' hvalue' => ?_⟩
  · simp only [AssocMap.find_insert, Locals.bind]
    by_cases heq : s = id
    · rw [if_pos heq, if_pos heq]
    · rw [if_neg heq, if_neg heq]
      exact h.found s ((List.mem_cons.mp hs).resolve_left heq)
  · unfold Locals.bind at hvalue'
    by_cases heq : s = id
    · rw [if_pos heq] at hvalue'
      cases hvalue'
      exact hvalue
    · rw [if_neg heq] at hvalue'
      exact h.below s value' hvalue'

/-! ## Code for an expression -/

/-- A value, and code that uses it. -/
theorem EmittedCell.bind {op op' : Operand} {bound bound' : List SymbolId}
    {B B' : Frame → Behaviour Cell} {G : Frame → Cell → Behaviour Cell}
    (h : EmittedCell M g op g1 bound B) (h' : EmittedCell M g1 op' g2 bound' B')
    (hG : ∀ frame frame1, Kept g.builder.next frame frame1 →
      B' frame1 = G frame (cellOf frame1 op)) :
    EmittedCell M g op' g2 (bound ++ bound') (fun frame => B frame >>= G frame) := by
  refine ⟨h.codes.bind h'.codes fun frame frame1 c hkept hc => ?_, h'.below,
    h.binds.append h'.binds⟩
  rw [← hc]
  exact hG frame frame1 hkept

/-- The values of arguments. -/
structure EmittedArguments (M : Module) (g : GeneratorState) (values : List TypedValue)
    (g' : GeneratorState) (bound : List SymbolId) (B : Frame → Behaviour (List Val)) :
    Prop where
  codes : Codes M g.builder g'.builder B fun vs frame => operandValues frame values = vs
  below : ∀ value ∈ values, value.value.Below g'.builder.next
  binds : OnlyBinds bound g g'

theorem EmittedArguments.bind {values : List TypedValue} {op : Operand}
    {bound bound' : List SymbolId} {B : Frame → Behaviour (List Val)}
    {B' : Frame → Behaviour Cell} {G : Frame → List Val → Behaviour Cell}
    (h : EmittedArguments M g values g1 bound B) (h' : EmittedCell M g1 op g2 bound' B')
    (hG : ∀ frame frame1, Kept g.builder.next frame frame1 →
      B' frame1 = G frame (operandValues frame1 values)) :
    EmittedCell M g op g2 (bound ++ bound') (fun frame => B frame >>= G frame) := by
  refine ⟨h.codes.bind h'.codes fun frame frame1 vs hkept hvs => ?_, h'.below,
    h.binds.append h'.binds⟩
  rw [← hvs]
  exact hG frame frame1 hkept

section

variable (M : Module) (t : ScopeTree) (types : TypeTable) (functions_ : AssocMap SymbolId Nat)
  (constructors_ : AssocMap SymbolId ConstructorLayout)

/-- The declared functions are functions of the module, with their parameters. -/
def Linked : Prop :=
  ∀ s function signature, functions_.find s = some function →
    types.getFunctionSignature s = some signature →
    ∃ callee, M.functions[function]? = some callee ∧
      callee.parameters.length = signature.parameters.length

/-- What the expression means of the locals. -/
noncomputable def meaningOf (e : Expression) (L : Locals) (frame : Frame) : Behaviour Cell :=
  Meaning.expression (callBehaviour M) t functions_ constructors_ e (cellsOf frame L)

/-- The generator's code for the expression does what the expression means. -/
def Translated (e : Expression) : Prop :=
  ∀ (locals : List SymbolId) (L : Locals) (g : GeneratorState), t.WellScoped e locals →
    Apart (t.boundIn e) locals → g.builder.Open → Holds locals L g →
    Ensures (emitExpression t types functions_ constructors_ e) g (fun _ => True)
      fun value g' => EmittedCell M g value.value g' (t.boundIn e)
        (meaningOf M t functions_ constructors_ e L)

end

variable {t : ScopeTree} {types : TypeTable} {functions_ : AssocMap SymbolId Nat}
  {constructors_ : AssocMap SymbolId ConstructorLayout} {locals : List SymbolId} {L : Locals}

theorem meaningOf_kept (e : Expression) (hL : Holds locals L g) {frame frame' : Frame}
    (hkept : Kept g.builder.next frame frame') :
    meaningOf M t functions_ constructors_ e L frame' =
      meaningOf M t functions_ constructors_ e L frame := by
  unfold meaningOf
  rw [hL.kept hkept]

theorem translated_operator {kind : BinaryOperatorKind} {id : NodeId} {l r : Expression}
    (ihl : Translated M t types functions_ constructors_ l)
    (ihr : Translated M t types functions_ constructors_ r) :
    Translated M t types functions_ constructors_ (.BinaryOperator kind id l r) := by
  intro locals L g hs ha hopen hL
  simp only [emitExpression, ScopeTree.boundIn] at ha ⊢
  refine ensures_bind ((ihl locals L g hs.1 ha.left hopen hL).mono fun left g1 h1 => ?_)
  have hL1 := hL.later h1.binds ha.left.2 h1.next
  refine ensures_bind ((ihr locals L g1 hs.2 ha.right h1.opened hL1).mono fun right g2 h2 => ?_)
  refine ensures_bind ((emitted_createBinary M h2.opened (opcode kind) left.value
    right.value).mono fun value g3 h3 => ensures_pure _ ?_)
  have h23 := h2.bind (G := fun frame c =>
      Meaning.binaryOperator (opcode kind) (cellOf frame left.value) c) h3
    fun frame frame1 hkept => by rw [cellOf_kept hkept h1.below]
  have h13 := h1.bind (G := fun frame c =>
      meaningOf M t functions_ constructors_ r L frame >>=
        fun c' => Meaning.binaryOperator (opcode kind) c c') h23
    fun frame frame1 hkept => by rw [meaningOf_kept r hL hkept]
  rw [List.append_nil] at h13
  exact h13

theorem emitted_arguments {arguments : List Expression}
    (ih : ∀ a ∈ arguments, Translated M t types functions_ constructors_ a)
    (hs : ∀ a ∈ arguments, t.WellScoped a locals)
    (ha : Apart (arguments.flatMap t.boundIn) locals) (hopen : g.builder.Open)
    (hL : Holds locals L g) :
    Ensures (emitArguments (arguments.map (emitExpression t types functions_ constructors_))) g
      (fun _ => True) fun values g' => values.length = arguments.length ∧
        EmittedArguments M g values g' (arguments.flatMap t.boundIn) fun frame =>
          Meaning.evaluateArguments
            (arguments.map fun a => meaningOf M t functions_ constructors_ a L frame) := by
  induction arguments generalizing g with
  | nil => exact ensures_pure [] ⟨rfl, .pure hopen _ fun _ => rfl, by simp, .refl _ g⟩
  | cons a arguments ihrest =>
    simp only [List.map_cons, emitArguments, List.flatMap_cons, List.forall_mem_cons] at ih hs ha ⊢
    refine ensures_bind ((ih.1 locals L g hs.1 ha.left hopen hL).mono fun value g1 h1 => ?_)
    have hL1 := hL.later h1.binds ha.left.2 h1.next
    refine ensures_bind ((ihrest ih.2 hs.2 ha.right h1.opened hL1).mono fun values g2 hrest => ?_)
    obtain ⟨hlen, h2⟩ := hrest
    have hbelow := h1.below.mono h2.codes.emits.next
    refine ensures_pure _ ⟨congrArg (· + 1) hlen, ?_, List.forall_mem_cons.mpr
      ⟨hbelow, h2.below⟩, h1.binds.append h2.binds⟩
    have hpure : Codes M g2.builder g2.builder
        (fun frame => pure (operandValues frame (value :: values)))
        fun vs frame => operandValues frame (value :: values) = vs :=
      .pure h2.codes.emits.opened _ fun _ => rfl
    have h12 := h2.codes.bind (G := fun frame vs => pure (frame.eval value.value :: vs)) hpure
      fun frame frame1 vs hkept hvs => by
        rw [← hvs, ← hkept.eval h1.below]
        rfl
    refine h1.codes.bind h12 fun frame frame1 c hkept hc => ?_
    have hmeaning : (fun a => meaningOf M t functions_ constructors_ a L frame1) =
        fun a => meaningOf M t functions_ constructors_ a L frame :=
      funext fun a => meaningOf_kept a hL hkept
    rw [hmeaning, ← hc]
    rfl

/-! ## Calls -/

theorem emitted_constructed (M : Module) {layout : ConstructorLayout} {values : List TypedValue}
    (hopen : g.builder.Open) (hbelow : ∀ value ∈ values, value.value.Below g.builder.next) :
    Ensures (emitConstructedValue layout values) g (fun _ => True) fun value g' =>
      EmittedCell M g value.value g' [] fun frame =>
        Meaning.constructedValue layout (operandValues frame values) >>=
          fun node => pure ⟨node, false⟩ :=
  (emitted_constructedValue M hopen hbelow).mono fun _ _ ⟨hconstant, h⟩ => h.cell hconstant

theorem emitted_call {function : Nat} {callee : llvm.Function}
    (hf : M.functions[function]? = some callee) {values : List TypedValue}
    (hlen : callee.parameters.length = values.length) (hopen : g.builder.Open) :
    Ensures (createInstruction (.call (.defined function) (values.map (·.value)))) g
      (fun _ => True) fun op g' => EmittedCell M g op g' [] fun frame =>
        callBehaviour M function (operandValues frame values) >>= fun v => pure ⟨v, false⟩ := by
  refine ensures_withBuilder ?_
  have hcodes : Codes M g.builder
      (g.builder.insert (.call (.defined function) (values.map (·.value)))).2 _ _ :=
    codes_call hopen hf (by simp [hlen])
  have hvalue : EmittedValue M g (.result g.builder.next)
      { g with builder := (g.builder.insert (.call (.defined function)
        (values.map (·.value)))).2 }
      fun frame => callBehaviour M function (operandValues frame values) := by
    refine ⟨⟨hcodes.congr fun frame => ?_, rfl, rfl⟩, Nat.lt_succ_self g.builder.next⟩
    rw [List.map_map]
    rfl
  exact hvalue.cell rfl

theorem translated_variable (id : NodeId) (name : String) :
    Translated M t types functions_ constructors_ (.Variable id name) := by
  intro locals L g hs _ hopen hL
  obtain ⟨s, hresolved, -, hkinds⟩ := hs
  unfold meaningOf
  simp only [emitExpression, emitVariable, Meaning.expression, Meaning.localOrConstructor,
    hresolved, ScopeTree.boundIn]
  rcases hkinds with ⟨hkind | hkind, -⟩ | ⟨hkind, hmem⟩
  · simp only [hkind, getLayout, Meaning.constructorCall]
    cases constructors_.find s.id with
    | none => exact ensures_throw trivial
    | some layout =>
      refine ensures_bind (ensures_pure layout ?_)
      by_cases hempty : layout.fields.isEmpty
      · simp only [hempty, if_true]
        exact emitted_constructed M hopen (by simp)
      · simp only [hempty]
        exact ensures_throw trivial
  · simp only [hkind]
    exact ensures_throw trivial
  · have hfound := hL.found s.id hmem
    rcases hkind with hkind | hkind
    all_goals
      simp only [hkind]
      refine ensures_bind (ensures_getLocals ?_)
      simp only [hfound]
      cases hvalue : L s.id with
      | none => exact ensures_throw trivial
      | some value =>
        refine ensures_pure value ⟨?_, hL.below s.id value hvalue, .refl _ g⟩
        simp only [cellsOf, hvalue, Option.map_some]
        exact .pure hopen _ fun _ => rfl

section

variable (M t types functions_ constructors_)

/-- The generator's code for the application of the expression to arguments
does what the application means. -/
def TranslatedCallee (e : Expression) : Prop :=
  ∀ (arguments : List Expression) (locals : List SymbolId) (L : Locals) (g : GeneratorState),
    (∀ a ∈ arguments, Translated M t types functions_ constructors_ a) →
    t.WellScoped e locals → (∀ a ∈ arguments, t.WellScoped a locals) →
    Apart (t.boundIn e ++ arguments.flatMap t.boundIn) locals → g.builder.Open →
    Holds locals L g →
    Ensures (emitApplication t types functions_ constructors_ e
        (arguments.map (emitExpression t types functions_ constructors_))) g (fun _ => True)
      fun value g' => EmittedCell M g value.value g'
        (t.boundIn e ++ arguments.flatMap t.boundIn) fun frame =>
          Meaning.application (callBehaviour M) t functions_ constructors_ e
            (arguments.map fun a => meaningOf M t functions_ constructors_ a L frame)
            (cellsOf frame L)

end

theorem translatedCallee_application {id : NodeId} {f a : Expression}
    (ihf : TranslatedCallee M t types functions_ constructors_ f)
    (iha : Translated M t types functions_ constructors_ a) :
    TranslatedCallee M t types functions_ constructors_ (.Application id f a) := by
  intro arguments locals L g ih hs hsargs ha hopen hL
  have hcall := ihf (a :: arguments) locals L g (List.forall_mem_cons.mpr ⟨iha, ih⟩) hs.1
    (List.forall_mem_cons.mpr ⟨hs.2, hsargs⟩) (by simpa using ha) hopen hL
  simp only [List.map_cons, List.flatMap_cons, ← List.append_assoc] at hcall
  exact hcall

theorem translated_application {id : NodeId} {f a : Expression}
    (ihf : TranslatedCallee M t types functions_ constructors_ f)
    (iha : Translated M t types functions_ constructors_ a) :
    Translated M t types functions_ constructors_ (.Application id f a) := by
  intro locals L g hs ha hopen hL
  have hcall := ihf [a] locals L g (by simpa using iha) hs.1 (by simpa using hs.2)
    (by simpa using ha) hopen hL
  simp only [List.map_cons, List.map_nil, List.flatMap_cons, List.flatMap_nil,
    List.append_nil] at hcall
  exact hcall

/-- What is no name is not called. -/
theorem translatedCallee_throw {e : Expression}
    (hthrow : ∀ arguments, emitApplication t types functions_ constructors_ e arguments =
      throw .OnlyNamedAreCallable) :
    TranslatedCallee M t types functions_ constructors_ e := by
  intro arguments locals L g _ _ _ _ _ _
  rw [hthrow]
  exact ensures_throw trivial

theorem translatedCallee_variable (hlinked : Linked M types functions_) (id : NodeId)
    (name : String) : TranslatedCallee M t types functions_ constructors_ (.Variable id name) := by
  intro arguments locals L g ih _ hs ha hopen hL
  simp only [emitApplication, emitCall, Meaning.application, Meaning.call, ScopeTree.boundIn,
    List.nil_append] at ha ⊢
  have harguments := emitted_arguments ih hs ha hopen hL
  cases t.getResolvedSymbol id with
  | none => exact ensures_throw trivial
  | some symbol =>
    cases hkind : symbol.kind with
    | Function =>
      simp only [hkind, emitFunctionCall, Meaning.functionCall]
      cases hfunction : functions_.find symbol.id with
      | none => exact ensures_throw trivial
      | some function =>
        simp only [List.length_map]
        cases hsignature : types.getFunctionSignature symbol.id with
        | none => exact ensures_throw trivial
        | some signature =>
          obtain ⟨callee, hcallee, hparameters⟩ := hlinked _ _ _ hfunction hsignature
          by_cases hlen : signature.parameters.length = arguments.length
          · simp only [Option.filter, hlen, decide_true, if_true]
            refine ensures_bind (ensures_reserve ?_ trivial)
            refine ensures_bind (harguments.mono fun values g1 hemitted => ?_)
            obtain ⟨hvalues, h1⟩ := hemitted
            refine ensures_bind ((emitted_call hcallee (by omega) h1.codes.emits.opened).mono
              fun value g2 h2 => ensures_pure _ ?_)
            have h12 := h1.bind (G := fun _ vs => callBehaviour M function vs >>=
              fun v => pure ⟨v, false⟩) h2 fun _ _ _ => rfl
            rw [List.append_nil] at h12
            exact h12
          · simp only [Option.filter, hlen, decide_false]
            exact ensures_throw trivial
    | Constructor =>
      simp only [hkind, emitConstructorCall, Meaning.constructorCall, getLayout]
      cases constructors_.find symbol.id with
      | none => exact ensures_throw trivial
      | some layout =>
        refine ensures_bind (ensures_pure layout ?_)
        simp only
        split
        · refine ensures_bind (ensures_reserve ?_ trivial)
          refine ensures_bind (harguments.mono fun values g1 hemitted => ?_)
          obtain ⟨_, h1⟩ := hemitted
          refine (emitted_constructed M h1.codes.emits.opened h1.below).mono fun value g2 h2 => ?_
          have h12 := h1.bind (G := fun _ vs => Meaning.constructedValue layout vs >>=
            fun node => pure ⟨node, false⟩) h2 fun _ _ _ => rfl
          rw [List.append_nil] at h12
          exact h12
        · exact ensures_throw trivial
    | _ =>
      simp only [hkind]
      exact ensures_throw trivial

/-! ## Patterns -/

/-- The code of a pattern: it leaves the locals of the branch. -/
structure EmittedPattern (M : Module) (g g' : GeneratorState) (bound locals : List SymbolId)
    (L' : Locals) (B : Frame → Behaviour Cells) : Prop where
  codes : Codes M g.builder g'.builder B fun cells frame => cellsOf frame L' = cells
  holds : Holds (bound ++ locals) L' g'
  binds : OnlyBinds bound g g'

theorem emitted_variablePattern {id : NodeId} {name : String}
    (hp : t.PatternScoped (.VariablePattern id name)) {scrutinee : TypedValue}
    (hscrutinee : scrutinee.value.Below g.builder.next)
    (hL : Holds locals L g) {E : GenerateError → Prop} :
    ∃ s, getSymbolInNodeScope t id name .PatternVariable = some s ∧
      Ensures (emitVariablePattern t id name scrutinee) g E fun _ g' => g'.builder = g.builder ∧
        Holds (t.patternSymbols (.VariablePattern id name) ++ locals) (L.bind s.id scrutinee) g' ∧
        OnlyBinds (t.patternSymbols (.VariablePattern id name)) g g' := by
  obtain ⟨⟨sid, hsid, hnames⟩, -⟩ := hp
  obtain ⟨s, hs, hkind⟩ := hnames name List.mem_cons_self
  have hid : t.getScopeId id = some sid := hsid
  have hsymbols : t.patternSymbols (.VariablePattern id name) = [s.id] := by
    simp [ScopeTree.patternSymbols, Pattern.id, Pattern.names, ScopeTree.symbolsIn, hid, hs]
  have hsymbol : getSymbolInNodeScope t id name .PatternVariable = some s := by
    simp [getSymbolInNodeScope, hid, hs, hkind, Option.filter]
  refine ⟨s, hsymbol, ?_⟩
  unfold emitVariablePattern
  simp only [hsymbol, hsymbols]
  refine ensures_setLocal ⟨rfl, hL.bind hscrutinee, rfl, fun s' hs' => ?_⟩
  exact AssocMap.find_insert_of_ne _ _ fun heq => hs' (by simp [heq])

theorem Holds.mono {locals' : List SymbolId} (h : Holds locals L g)
    (hsub : ∀ s ∈ locals', s ∈ locals) : Holds locals' L g :=
  ⟨fun s hs => h.found s (hsub s hs), h.below⟩

theorem emitted_patternFields {name : String} {sid : ScopeId} {scrutinee : Operand} {index : Nat}
    {arguments : List String} {Ts : List TypeVariant}
    (hnames : ∀ name ∈ arguments, ∃ s, t.getLocalSymbol sid name = some s ∧
      s.kind = .PatternVariable) (hopen : g.builder.Open)
    (hscrutinee : scrutinee.Below g.builder.next) (hL : Holds locals L g) :
    Ensures (bindPatternFields t name sid scrutinee index arguments Ts) g (fun _ => True)
      fun _ g' => ∃ L', EmittedPattern M g g' (t.symbolsIn sid arguments) locals L' fun frame =>
        Meaning.patternFields t sid (frame.eval scrutinee) index arguments Ts
          (cellsOf frame L) := by
  induction arguments generalizing index Ts locals L g with
  | nil => exact ensures_pure () ⟨L, .pure hopen _ fun _ => rfl, hL, .refl _ g⟩
  | cons argument arguments ih =>
    cases Ts with
    | nil => exact ensures_throw trivial
    | cons T Ts =>
      obtain ⟨s, hs, hkind⟩ := hnames argument List.mem_cons_self
      have hfilter : (t.getLocalSymbol sid argument).filter (·.kind = .PatternVariable) =
          some s := by
        simp [hs, hkind, Option.filter]
      have hsymbols : t.symbolsIn sid (argument :: arguments) =
          s.id :: t.symbolsIn sid arguments := by
        simp [ScopeTree.symbolsIn, hs]
      simp only [bindPatternFields, Meaning.patternFields, hfilter, hsymbols]
      refine ensures_bind ((emitted_loadField M hopen scrutinee index T).mono
        fun field g1 hload => ensures_bind (ensures_setLocal ?_))
      obtain ⟨hfield, h1⟩ := hload
      have hL1 : Holds (s.id :: locals) (L.bind s.id ⟨field, T⟩)
          { g1 with locals_ := g1.locals_.insert s.id ⟨field, T⟩ } :=
        (hL.later h1.onlyBinds (by simp) h1.next).bind h1.below
      refine (ih (fun n hn => hnames n (List.mem_cons_of_mem _ hn)) ?_ ?_ hL1).mono
        fun _ g2 hrest => ?_
      · exact h1.opened
      · exact hscrutinee.mono h1.next
      obtain ⟨L', h2⟩ := hrest
      refine ⟨L', ?_, h2.holds.mono ?_, ?_⟩
      · have h12 := h1.codes.bind (G := fun frame field =>
            Meaning.patternFields t sid (frame.eval scrutinee) (index + 1) arguments Ts
              ((cellsOf frame L).insert s.id ⟨field, false⟩)) h2.codes
          fun frame frame1 v hkept hv => by
            rw [hkept.eval hscrutinee, cellsOf_bind, hL.kept hkept, ← hv, cellOf, hfield]
        exact h12
      · intro s' hs'
        simp only [List.cons_append, List.mem_cons, List.mem_append] at hs' ⊢
        tauto
      · refine ⟨h2.binds.functions.trans h1.functions, fun s' hs' => ?_⟩
        rw [List.mem_cons, not_or] at hs'
        rw [h2.binds.others s' hs'.2, ← h1.locals_]
        exact AssocMap.find_insert_of_ne _ _ hs'.1

theorem emitted_constructorPattern (M : Module) {id : NodeId} {name : String}
    {arguments : List String}
    (hp : t.PatternScoped (.ConstructorPattern id name arguments)) {scrutinee : Operand}
    (layout : ConstructorLayout) (hopen : g.builder.Open)
    (hscrutinee : scrutinee.Below g.builder.next) (hL : Holds locals L g) :
    Ensures (emitConstructorPattern t id name arguments scrutinee layout) g (fun _ => True)
      fun _ g' => ∃ L', EmittedPattern M g g'
        (t.patternSymbols (.ConstructorPattern id name arguments)) locals L' fun frame =>
          Meaning.constructorPattern t id arguments (frame.eval scrutinee) layout
            (cellsOf frame L) := by
  obtain ⟨⟨sid, hsid, hnames⟩, -⟩ := hp
  have hid : t.getScopeId id = some sid := hsid
  have hsymbols : t.patternSymbols (.ConstructorPattern id name arguments) =
      t.symbolsIn sid arguments := by
    simp [ScopeTree.patternSymbols, Pattern.id, Pattern.names, hid]
  unfold emitConstructorPattern Meaning.constructorPattern
  simp only [hid, hsymbols]
  split
  · exact ensures_throw trivial
  · exact emitted_patternFields hnames hopen hscrutinee hL

end mf.visitors
