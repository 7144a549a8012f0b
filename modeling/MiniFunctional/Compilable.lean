-- Which accepted programs the code generator lowers: those in which every
-- function and every constructor has just its arguments wherever it is
-- written. On all others it throws one of five errors.
import MiniFunctional.GeneratorRuns
import MiniFunctional.GeneratorTables
import MiniFunctional.InterpreterSafety

open mf.util mf.ast mf.parsing mf.semantics mf.tokenization llvm ExceptLaws

namespace mf.visitors

open ScopeTree

/-! ## Shapes -/

section

variable (t : ScopeTree) (types : TypeTable)

/-- The name is that of a function or a constructor with `n` arguments. -/
def saturates (id : NodeId) (n : Nat) : Bool :=
  match t.getResolvedSymbol id with
  | none => false
  | some s =>
    match s.kind with
    | .Function => (types.getFunctionSignature s.id).any (·.parameters.length = n)
    | .Constructor => (types.getConstructorSignature s.id).any (·.fields.length = n)
    | _ => false

/-- The name is that of a local or of a constructor without arguments. -/
def namesValue (id : NodeId) : Bool :=
  match t.getResolvedSymbol id with
  | none => false
  | some s =>
    match s.kind with
    | .Function => false
    | .Constructor => saturates t types id 0
    | _ => true

mutual

@[simp] def compilable : Expression → Bool
  | .IntLiteral _ _ => true
  | .Variable id _ => namesValue t types id
  | .BinaryOperator _ _ left right => compilable left && compilable right
  | .Application _ function argument =>
    compilableCallee function 1 && compilable argument
  | .CaseExpression _ scrutinee branches => compilable scrutinee && compilableBranches branches

/-- The expression has `n` arguments. -/
@[simp] def compilableCallee : Expression → Nat → Bool
  | .Application _ function argument, n =>
    compilableCallee function (n + 1) && compilable argument
  | .Variable id _, n => saturates t types id n
  | .IntLiteral _ _, _ => false
  | .BinaryOperator _ _ _ _, _ => false
  | .CaseExpression _ _ _, _ => false

/-- Nothing is asked of the branches behind one that matches everything. -/
@[simp] def compilableBranches : List Branch → Bool
  | [] => true
  | ⟨_, .VariablePattern _ _, body⟩ :: _ => compilable body
  | ⟨_, .ConstructorPattern _ _ _, body⟩ :: branches =>
    compilable body && compilableBranches branches

end

end

/-- The errors of a function or a constructor without just its arguments. -/
def GenerateError.IsShapeError : GenerateError → Prop
  | .ConstructorNeedsArguments _ => True
  | .FunctionCannotBeUsedAsValue _ => True
  | .OnlyNamedAreCallable => True
  | .InvalidArity _ => True
  | .ConstructorExpectsArguments _ _ _ => True
  | _ => False

/-- What the generator throws, of code that has the shape if `shape` holds. -/
def Refused (shape : Bool) (error : GenerateError) : Prop := shape = false ∧ error.IsShapeError

theorem Refused.left {shape : Bool} (shape' : Bool) {error : GenerateError}
    (h : Refused shape error) : Refused (shape && shape') error := by
  obtain ⟨hshape, herror⟩ := h
  exact ⟨by rw [hshape, Bool.false_and], herror⟩

theorem Refused.right {shape' : Bool} (shape : Bool) {error : GenerateError}
    (h : Refused shape' error) : Refused (shape && shape') error := by
  obtain ⟨hshape, herror⟩ := h
  exact ⟨by rw [hshape, Bool.and_false], herror⟩

/-! ## Locals -/

variable {t : ScopeTree} {types : TypeTable} {program : Program} {τ : Typing}
  {functions_ : AssocMap SymbolId Nat} {constructors_ : AssocMap SymbolId ConstructorLayout}

/-- Each symbol of `locals` has a value of its type, which is no function. -/
def LocalsTyped (τ : Typing) (locals : List SymbolId) (g : GeneratorState) : Prop :=
  ∀ s ∈ locals, containsFunctionType (τ s) = false ∧
    ∃ value, g.locals_.find s = some value ∧ value.type = τ s

theorem LocalsTyped.congr {locals : List SymbolId} {g g' : GeneratorState}
    (h : LocalsTyped τ locals g) (heq : g'.locals_ = g.locals_) : LocalsTyped τ locals g' := by
  intro s hs
  rw [heq]
  exact h s hs

theorem LocalsTyped.onlyBinds {locals bound : List SymbolId} {g g' : GeneratorState}
    (h : LocalsTyped τ locals g) (ho : OnlyBinds bound g g') (ha : ∀ s ∈ bound, s ∉ locals) :
    LocalsTyped τ locals g' := by
  intro s hs
  rw [ho.others s fun hin => ha s hin hs]
  exact h s hs

theorem LocalsTyped.append {locals locals' : List SymbolId} {g : GeneratorState}
    (h : LocalsTyped τ locals g) (h' : LocalsTyped τ locals' g) :
    LocalsTyped τ (locals ++ locals') g := by
  intro s hs
  rcases List.mem_append.mp hs with hs | hs
  · exact h s hs
  · exact h' s hs

theorem LocalsTyped.insert {locals : List SymbolId} {g : GeneratorState}
    (h : LocalsTyped τ locals g) {id : SymbolId} {value : TypedValue}
    (hground : containsFunctionType (τ id) = false) (htype : value.type = τ id) :
    LocalsTyped τ (id :: locals) { g with locals_ := g.locals_.insert id value } := by
  intro s hs
  simp only [AssocMap.find_insert]
  by_cases heq : s = id
  · subst heq
    exact ⟨hground, value, by rw [if_pos rfl], htype⟩
  · rw [if_neg heq]
    exact h s ((List.mem_cons.mp hs).resolve_left heq)

theorem LocalsTyped.mono {locals locals' : List SymbolId} {g : GeneratorState}
    (h : LocalsTyped τ locals g) (hsub : ∀ s ∈ locals', s ∈ locals) : LocalsTyped τ locals' g :=
  fun s hs => h s (hsub s hs)

/-! ## Lowering -/

/-- What the generator does with an expression of the type `T` that binds the
symbols `bound`: it returns a value of the type if the expression has the shape. -/
def Lowers (x : Gen TypedValue) (g : GeneratorState) (shape : Bool) (T : TypeVariant)
    (bound : List SymbolId) : Prop :=
  Ensures x g (Refused shape) fun value g' => shape = true ∧ value.type = T ∧
    containsFunctionType T = false ∧ OnlyBinds bound g g'

section

variable (t types functions_ constructors_ program τ)

/-- The generator does so with the expression, wherever it stands. -/
def Lowered (e : Expression) : Prop :=
  ∀ (locals : List SymbolId) (g : GeneratorState) (T : TypeVariant), t.WellScoped e locals →
    HasType t program τ e T → Apart (t.boundIn e) locals → LocalsTyped τ locals g →
    Lowers (emitExpression t types functions_ constructors_ e) g (compilable t types e) T
      (t.boundIn e)

end

theorem emitOperator_spec {kind : BinaryOperatorKind} {id : NodeId} {l r : Expression}
    (ihl : Lowered t types program τ functions_ constructors_ l)
    (ihr : Lowered t types program τ functions_ constructors_ r) :
    Lowered t types program τ functions_ constructors_ (.BinaryOperator kind id l r) := by
  intro locals g T hs hT ha hg
  obtain ⟨hsl, hsr⟩ := hs
  rcases hT with _ | _ | ⟨hTl, hTr⟩
  unfold Lowers
  simp only [emitExpression, compilable, ScopeTree.boundIn]
  have hl := (ihl locals g _ hsl hTl ha.left hg).weaken fun _ he => he.left (compilable t types r)
  refine ensures_bind (hl.mono fun left g1 ⟨hshape1, _, _, hb1⟩ => ?_)
  have hr := (ihr locals g1 _ hsr hTr ha.right (hg.onlyBinds hb1 ha.left.2)).weaken
    fun _ he => he.right (compilable t types l)
  refine ensures_bind (hr.mono fun right g2 ⟨hshape2, _, _, hb2⟩ => ?_)
  refine ensures_bind (ensures_withBuilder ?_)
  have hb3 := hb1.append hb2
  exact ensures_pure _ ⟨by rw [hshape1, hshape2]; rfl, rfl, rfl, hb3.functions, hb3.others⟩

theorem emitArguments_spec {arguments : List Expression}
    (ih : ∀ a ∈ arguments, Lowered t types program τ functions_ constructors_ a)
    {locals : List SymbolId} {g : GeneratorState} {Ps : List TypeVariant}
    (hs : ∀ a ∈ arguments, t.WellScoped a locals)
    (hT : List.Forall₂ (HasType t program τ) arguments Ps)
    (ha : Apart (arguments.flatMap t.boundIn) locals) (hg : LocalsTyped τ locals g) :
    Ensures (emitArguments (arguments.map (emitExpression t types functions_ constructors_))) g
      (Refused (arguments.all (compilable t types))) fun values g' =>
        arguments.all (compilable t types) = true ∧ values.map (·.type) = Ps ∧
          OnlyBinds (arguments.flatMap t.boundIn) g g' := by
  induction hT generalizing g with
  | nil => exact ensures_pure [] ⟨rfl, rfl, .refl _ g⟩
  | @cons a P arguments Ps hTa _ ihrest =>
    simp only [List.map_cons, emitArguments, List.all_cons, List.flatMap_cons] at ha ⊢
    have hfirst := (ih a List.mem_cons_self locals g P (hs a List.mem_cons_self) hTa ha.left
      hg).weaken fun _ he => he.left (arguments.all (compilable t types))
    refine ensures_bind (hfirst.mono fun value g1 ⟨hshape1, htype, _, hb1⟩ => ?_)
    have hrest := (ihrest (fun a' ha' => ih a' (List.mem_cons_of_mem _ ha'))
      (fun a' ha' => hs a' (List.mem_cons_of_mem _ ha')) ha.right
      (hg.onlyBinds hb1 ha.left.2)).weaken fun _ he => he.right (compilable t types a)
    refine ensures_bind (hrest.mono fun values g2 ⟨hshape2, htypes, hb2⟩ => ?_)
    refine ensures_pure _ ⟨by rw [hshape1, hshape2]; rfl, ?_, hb1.append hb2⟩
    rw [List.map_cons, htype, htypes]

section

variable (t types functions_ constructors_ program τ)

/-- The generator does so with the application of the expression to arguments. -/
def LoweredCallee (e : Expression) : Prop :=
  ∀ (arguments : List Expression) (Ps : List TypeVariant) (locals : List SymbolId)
    (g : GeneratorState) (T : TypeVariant), arguments ≠ [] →
    (∀ a ∈ arguments, Lowered t types program τ functions_ constructors_ a) →
    t.WellScoped e locals → (∀ a ∈ arguments, t.WellScoped a locals) →
    HasType t program τ e (functionTypes Ps T) →
    List.Forall₂ (HasType t program τ) arguments Ps →
    Apart (t.boundIn e ++ arguments.flatMap t.boundIn) locals → LocalsTyped τ locals g →
    Lowers (emitApplication t types functions_ constructors_ e
        (arguments.map (emitExpression t types functions_ constructors_))) g
      (compilableCallee t types e arguments.length && arguments.all (compilable t types)) T
      (t.boundIn e ++ arguments.flatMap t.boundIn)

end

theorem emitApplication_spec {id : NodeId} {f a : Expression}
    (ihf : LoweredCallee t types program τ functions_ constructors_ f)
    (iha : Lowered t types program τ functions_ constructors_ a) :
    LoweredCallee t types program τ functions_ constructors_ (.Application id f a) := by
  intro arguments Ps locals g T _ ih hs hsargs hT hTargs ha hg
  obtain ⟨hsf, hsa⟩ := hs
  rcases hT with _ | _ | _ | @⟨_, _, _, P, _, hTf, hTa⟩
  have hcall := ihf (a :: arguments) (P :: Ps) locals g T (by simp)
    (List.forall_mem_cons.mpr ⟨iha, ih⟩) hsf (List.forall_mem_cons.mpr ⟨hsa, hsargs⟩) hTf
    (.cons hTa hTargs) (by simpa using ha) hg
  simpa [Bool.and_assoc] using hcall

theorem emitExpression_application {id : NodeId} {f a : Expression}
    (ihf : LoweredCallee t types program τ functions_ constructors_ f)
    (iha : Lowered t types program τ functions_ constructors_ a) :
    Lowered t types program τ functions_ constructors_ (.Application id f a) := by
  intro locals g T hs hT ha hg
  obtain ⟨hsf, hsa⟩ := hs
  rcases hT with _ | _ | _ | @⟨_, _, _, P, _, hTf, hTa⟩
  have hcall := ihf [a] [P] locals g T (by simp) (by simpa using iha) hsf (by simpa using hsa) hTf
    (.cons hTa .nil) (by simpa using ha) hg
  simpa using hcall

/-- What is no name is not called. -/
theorem loweredCallee_throw {e : Expression}
    (hthrow : ∀ arguments, emitApplication t types functions_ constructors_ e arguments =
      throw .OnlyNamedAreCallable) (hshape : ∀ n, compilableCallee t types e n = false) :
    LoweredCallee t types program τ functions_ constructors_ e := by
  intro arguments Ps locals g T _ _ _ _ _ _ _ _
  unfold Lowers
  rw [hthrow, hshape]
  exact ensures_throw ⟨rfl, trivial⟩

/-! ## Functions and constructors -/

theorem getLayout_eq {s : Symbol} {layout : ConstructorLayout}
    (hs : constructors_.find s.id = some layout) : getLayout constructors_ s = pure layout := by
  unfold getLayout
  rw [hs]

section

variable (h : Checked t program types τ) (hlayouts : Layouts t types program constructors_)
  (hdeclared : ∀ s, t.getSymbol s.id = some s → s.kind = .Function →
    ∃ n, functions_.find s.id = some n)

include h

/-- What is known of a constructor. -/
structure ConstructorFacts (t : ScopeTree) (types : TypeTable) (program : Program) (τ : Typing)
    (id : SymbolId) (layout : ConstructorLayout) : Prop where
  found : types.getConstructorSignature id = some ⟨layout.data_type, layout.fields⟩
  declares : Declares t program id ⟨layout.data_type, layout.fields⟩
  type : τ id = functionTypes layout.fields (dataType layout.data_type)
  ground : ∀ T ∈ layout.fields, containsFunctionType T = false
  sized : layout.fields.length ≤ maxTokens

include h in
/-- A vector holds the fields of a constructor. -/
theorem declared_length {id : SymbolId} {signature : ConstructorSignature}
    (hdeclares : Declares t program id signature) : signature.fields.length ≤ maxTokens := by
  obtain ⟨dt, hdt, ctor, hctor, _, _, _, _, hfields⟩ := hdeclares
  rw [← hfields.length_eq]
  exact h.sized.fields ctor (List.mem_flatMap.mpr ⟨_, hdt, hctor⟩)

include hlayouts in
theorem constructor_facts {name : String} {s : Symbol}
    (hs : t.getLocalSymbol getRootScopeId name = some s) (hkind : s.kind = .Constructor) :
    ∃ layout, constructors_.find s.id = some layout ∧
      ConstructorFacts t types program τ s.id layout := by
  obtain ⟨layout, hlayout⟩ := hlayouts.complete s (h.scopes.named _ _ _ hs).1 hkind
  obtain ⟨hsignature, hdeclares⟩ := hlayouts.sound s.id layout hlayout
  exact ⟨layout, hlayout, hsignature, hdeclares, h.typing.checks.constructors _ _ hdeclares,
    fun T hT => field_ground hdeclares hT, declared_length h hdeclares⟩

/-- What is known of a function. -/
structure FunctionFacts (types : TypeTable) (τ : Typing) (id : SymbolId)
    (signature : FunctionSignature) : Prop where
  found : types.getFunctionSignature id = some signature
  type : τ id = functionTypes signature.parameters signature.result
  parameters : ∀ T ∈ signature.parameters, containsFunctionType T = false
  result : containsFunctionType signature.result = false
  sized : signature.parameters.length ≤ maxTokens

theorem function_facts {name : String} {s : Symbol}
    (hs : t.getLocalSymbol getRootScopeId name = some s) (hkind : s.kind = .Function) :
    ∃ signature, FunctionFacts types τ s.id signature := by
  obtain ⟨fd, hfd, hname, _⟩ := function_declared h.scopes hs hkind
  obtain ⟨s', signature, hs', hsignature, ⟨s'', hs'', htype⟩, ⟨_, _, hall⟩, _⟩ := h.functions fd hfd
  rw [hname, hs] at hs'
  cases hs'
  rw [hname, hs] at hs''
  cases hs''
  obtain ⟨_, hparameters, hresult⟩ := h.firstOrder s.id signature hsignature
  refine ⟨signature, hsignature, htype, hparameters, hresult, ?_⟩
  rw [← hall.length_eq]
  exact h.parameterized fd hfd

/-! ## Expressions -/

include hlayouts in
theorem emitVariable_spec {id : NodeId} {name : String} {locals : List SymbolId}
    {g : GeneratorState} {T : TypeVariant} (hs : t.VariableScoped id name locals)
    (hT : HasType t program τ (.Variable id name) T) (hg : LocalsTyped τ locals g) :
    Lowers (emitVariable t constructors_ id name) g (namesValue t types id) T [] := by
  obtain ⟨s, hresolved, hname, hkinds⟩ := hs
  rcases hT with _ | @⟨_, _, s', hresolved'⟩
  rw [hresolved] at hresolved'
  cases hresolved'
  unfold Lowers emitVariable namesValue saturates
  rcases hkinds with ⟨hkind | hkind, hlocal⟩ | ⟨hkind, hmem⟩
  · obtain ⟨layout, hlayout, hfacts⟩ := constructor_facts h hlayouts hlocal hkind
    simp only [hresolved, hkind, getLayout_eq hlayout, pure_bind, hfacts.found, Option.any_some]
    cases hfields : layout.fields with
    | nil =>
      refine (ensures_emitConstructedValue (by simp) hfacts.ground).mono fun value g' hvalue => ?_
      refine ⟨by simp, ?_, ?_, OnlyBinds.of_eq hvalue.2⟩
      · rw [hfacts.type, hfields]
        exact hvalue.1
      · rw [hfacts.type, hfields]
        rfl
    | cons T Ts => exact ensures_throw ⟨by simp, trivial⟩
  · simp only [hresolved, hkind]
    exact ensures_throw ⟨rfl, trivial⟩
  · obtain ⟨hground, value, hvalue, htype⟩ := hg s.id hmem
    rcases hkind with hkind | hkind
    all_goals
      simp only [hresolved, hkind]
      refine ensures_bind (ensures_getLocals ?_)
      simp only [hvalue]
      exact ensures_pure value ⟨trivial, htype, hground, .refl _ g⟩

include hdeclared in
theorem emitFunctionCall_spec {s : Symbol}
    (hs : ∃ name, t.getLocalSymbol getRootScopeId name = some s)
    (hkind : s.kind = .Function) {arguments : List Expression}
    (ih : ∀ a ∈ arguments, Lowered t types program τ functions_ constructors_ a)
    {locals : List SymbolId} {g : GeneratorState} {Ps : List TypeVariant} {T : TypeVariant}
    (hsargs : ∀ a ∈ arguments, t.WellScoped a locals) (hT : τ s.id = functionTypes Ps T)
    (hTargs : List.Forall₂ (HasType t program τ) arguments Ps)
    (ha : Apart (arguments.flatMap t.boundIn) locals) (hg : LocalsTyped τ locals g) :
    Lowers (emitFunctionCall types functions_ s
        (arguments.map (emitExpression t types functions_ constructors_))) g
      ((types.getFunctionSignature s.id).any (·.parameters.length = arguments.length) &&
        arguments.all (compilable t types)) T (arguments.flatMap t.boundIn) := by
  obtain ⟨name, hlocal⟩ := hs
  obtain ⟨n, hn⟩ := hdeclared s (h.scopes.named _ _ _ hlocal).1 hkind
  obtain ⟨signature, hfacts⟩ := function_facts h hlocal hkind
  unfold Lowers emitFunctionCall
  simp only [hn, hfacts.found, List.length_map, Option.any_some]
  by_cases hlen : signature.parameters.length = arguments.length
  · simp only [Option.filter, hlen, decide_true, Bool.true_and, if_true]
    have htypes := hfacts.type.symm.trans hT
    obtain ⟨-, rfl⟩ := functionTypes_inj (hlen.trans hTargs.length_eq) htypes
    refine ensures_bind (ensures_reserve_tokens (hlen ▸ hfacts.sized) (by decide) (by decide) ?_)
    refine ensures_bind ((emitArguments_spec ih hsargs hTargs ha hg).mono fun values g1 h1 => ?_)
    obtain ⟨hshape, _, hb⟩ := h1
    refine ensures_bind ((quiet_createInstruction _ g1 _).mono fun value g2 h2 => ?_)
    exact ensures_pure _ ⟨hshape, rfl, hfacts.result, hb.trans (.of_eq h2)⟩
  · simp only [Option.filter, hlen, decide_false, Bool.false_and, Bool.false_eq_true, if_false]
    exact ensures_throw ⟨rfl, trivial⟩

include hlayouts in
theorem emitConstructorCall_spec {s : Symbol}
    (hs : ∃ name, t.getLocalSymbol getRootScopeId name = some s) (hkind : s.kind = .Constructor)
    {arguments : List Expression}
    (ih : ∀ a ∈ arguments, Lowered t types program τ functions_ constructors_ a)
    {locals : List SymbolId} {g : GeneratorState} {Ps : List TypeVariant} {T : TypeVariant}
    (hsargs : ∀ a ∈ arguments, t.WellScoped a locals) (hT : τ s.id = functionTypes Ps T)
    (hTargs : List.Forall₂ (HasType t program τ) arguments Ps)
    (ha : Apart (arguments.flatMap t.boundIn) locals) (hg : LocalsTyped τ locals g) :
    Lowers (emitConstructorCall constructors_ s
        (arguments.map (emitExpression t types functions_ constructors_))) g
      ((types.getConstructorSignature s.id).any (·.fields.length = arguments.length) &&
        arguments.all (compilable t types)) T (arguments.flatMap t.boundIn) := by
  obtain ⟨name, hlocal⟩ := hs
  obtain ⟨layout, hlayout, hfacts⟩ := constructor_facts h hlayouts hlocal hkind
  unfold Lowers emitConstructorCall
  simp only [getLayout_eq hlayout, pure_bind, hfacts.found, List.length_map, Option.any_some]
  by_cases hlen : layout.fields.length = arguments.length
  · simp only [hlen, decide_true, Bool.true_and, if_true]
    have htypes := hfacts.type.symm.trans hT
    obtain ⟨rfl, rfl⟩ := functionTypes_inj (hlen.trans hTargs.length_eq) htypes
    refine ensures_bind (ensures_reserve_tokens (hlen ▸ hfacts.sized) (by decide) (by decide) ?_)
    refine ensures_bind ((emitArguments_spec ih hsargs hTargs ha hg).mono
      fun values g1 ⟨hshape, hvalues, hb⟩ => ?_)
    have hcount : values.length ≤ layout.fields.length := by
      rw [← hvalues, List.length_map]
    exact (ensures_emitConstructedValue hcount hfacts.ground).mono fun value g2 ⟨htype, h2⟩ =>
      ⟨hshape, htype, rfl, hb.trans (.of_eq h2)⟩
  · simp only [hlen, decide_false, Bool.false_and, if_false]
    exact ensures_throw ⟨rfl, trivial⟩

include hlayouts hdeclared in
theorem emitCall_spec (id : NodeId) (name : String) :
    LoweredCallee t types program τ functions_ constructors_ (.Variable id name) := by
  intro arguments Ps locals g T hne ih hs hsargs hT hTargs ha hg
  obtain ⟨s, hresolved, hname, hkinds⟩ := hs
  generalize hS : functionTypes Ps T = S at hT
  rcases hT with _ | @⟨_, _, s', hresolved'⟩
  rw [hresolved] at hresolved'
  cases hresolved'
  simp only [emitApplication, emitCall, compilableCallee, saturates, hresolved,
    ScopeTree.boundIn, List.nil_append] at ha ⊢
  rcases hkinds with ⟨hkind | hkind, hlocal⟩ | ⟨hkind, hmem⟩
  · simp only [hkind]
    exact emitConstructorCall_spec h hlayouts ⟨name, hlocal⟩ hkind ih hsargs hS.symm hTargs ha hg
  · simp only [hkind]
    exact emitFunctionCall_spec h hdeclared ⟨name, hlocal⟩ hkind ih hsargs hS.symm hTargs ha hg
  · -- a local is no function
    have hground := (hg s.id hmem).1
    rw [← hS] at hground
    cases hTargs with
    | nil => exact absurd rfl hne
    | cons _ _ => simp [functionTypes, functionType, containsFunctionType] at hground

/-! ## Patterns -/

omit h in
theorem emitVariablePattern_spec {id : NodeId} {name : String} {locals : List SymbolId}
    {g : GeneratorState} {E : GenerateError → Prop} {scrutinee : TypedValue} {S : TypeVariant}
    (hp : t.PatternScoped (.VariablePattern id name))
    (hS : PatternHasType t program τ S (.VariablePattern id name))
    (hground : containsFunctionType S = false) (htype : scrutinee.type = S)
    (hg : LocalsTyped τ locals g) :
    Ensures (emitVariablePattern t id name scrutinee) g E fun _ g' =>
      LocalsTyped τ (t.patternSymbols (.VariablePattern id name) ++ locals) g' ∧
        OnlyBinds (t.patternSymbols (.VariablePattern id name)) g g' := by
  obtain ⟨⟨sid, hsid, hnames⟩, -⟩ := hp
  obtain ⟨sid', s, hsid', hs, rfl⟩ := hS
  have hid : t.getScopeId id = some sid := hsid
  rw [hid] at hsid'
  cases hsid'
  obtain ⟨s', hs', hkind⟩ := hnames name List.mem_cons_self
  rw [hs] at hs'
  cases hs'
  have hsymbols : t.patternSymbols (.VariablePattern id name) = [s.id] := by
    simp [patternSymbols, Pattern.id, Pattern.names, symbolsIn, hid, hs]
  have hsymbol : getSymbolInNodeScope t id name .PatternVariable = some s := by
    simp [getSymbolInNodeScope, hid, hs, hkind, Option.filter]
  unfold emitVariablePattern
  simp only [hsymbol, hsymbols]
  refine ensures_setLocal ⟨hg.insert hground htype, rfl, fun s' hs' => ?_⟩
  exact AssocMap.find_insert_of_ne _ _ fun heq => hs' (by simp [heq])

omit h in
theorem bindPatternFields_spec {name : String} {sid : ScopeId} {scrutinee : Operand} {index : Nat}
    {arguments : List String} {Ts : List TypeVariant} {locals : List SymbolId}
    {g : GeneratorState} {E : GenerateError → Prop}
    (hnames : ∀ name ∈ arguments, ∃ s, t.getLocalSymbol sid name = some s ∧
      s.kind = .PatternVariable)
    (hT : List.Forall₂ (fun name T => ∃ s, t.getLocalSymbol sid name = some s ∧ τ s.id = T)
      arguments Ts)
    (hground : ∀ T ∈ Ts, containsFunctionType T = false) (hg : LocalsTyped τ locals g) :
    Ensures (bindPatternFields t name sid scrutinee index arguments Ts) g E fun _ g' =>
      LocalsTyped τ (t.symbolsIn sid arguments ++ locals) g' ∧
        OnlyBinds (t.symbolsIn sid arguments) g g' := by
  induction hT generalizing index locals g with
  | nil => exact ensures_pure () ⟨hg, .refl _ g⟩
  | @cons argument T arguments Ts hT _ ih =>
    obtain ⟨s, hs, rfl⟩ := hT
    obtain ⟨s', hs', hkind⟩ := hnames argument List.mem_cons_self
    rw [hs] at hs'
    cases hs'
    have hgroundT := hground _ List.mem_cons_self
    have hfilter : (t.getLocalSymbol sid argument).filter (·.kind = .PatternVariable) = some s := by
      simp [hs, hkind, Option.filter]
    have hsymbols : t.symbolsIn sid (argument :: arguments) =
        s.id :: t.symbolsIn sid arguments := by
      simp [symbolsIn, hs]
    simp only [bindPatternFields, hfilter, hsymbols]
    refine ensures_bind ((quiet_loadField scrutinee index hgroundT g E).mono
      fun field g1 h1 => ensures_bind (ensures_setLocal ?_))
    obtain ⟨hfunctions1, hlocals1⟩ := h1
    have hg1 := hg.congr hlocals1
    refine (ih (fun n hn => hnames n (List.mem_cons_of_mem _ hn))
      (fun T hT => hground T (List.mem_cons_of_mem _ hT))
      (hg1.insert hgroundT rfl)).mono fun _ g2 h2 => ⟨h2.1.mono ?_, ?_⟩
    · intro s' hs'
      simp only [List.cons_append, List.mem_cons, List.mem_append] at hs' ⊢
      tauto
    · refine ⟨h2.2.functions.trans hfunctions1, fun s' hs' => ?_⟩
      rw [List.mem_cons, not_or] at hs'
      rw [h2.2.others s' hs'.2, ← hlocals1]
      exact AssocMap.find_insert_of_ne _ _ hs'.1

include hlayouts in
/-- A constructor pattern of an accepted program: its constructor has a layout
with as many fields as it has arguments, which are bound. -/
theorem emitConstructorPattern_spec {id : NodeId} {name : String} {arguments : List String}
    {S : TypeVariant} (hp : t.PatternScoped (.ConstructorPattern id name arguments))
    (hS : PatternHasType t program τ S (.ConstructorPattern id name arguments)) :
    ∃ ctor layout, t.getResolvedSymbol id = some ctor ∧ constructors_.find ctor.id = some layout ∧
      S = dataType layout.data_type ∧
      ∀ (scrutinee : Operand) (locals : List SymbolId) (g : GeneratorState)
        (E : GenerateError → Prop), LocalsTyped τ locals g →
        Ensures (emitConstructorPattern t id name arguments scrutinee layout) g E fun _ g' =>
          LocalsTyped τ (t.patternSymbols (.ConstructorPattern id name arguments) ++ locals) g' ∧
            OnlyBinds (t.patternSymbols (.ConstructorPattern id name arguments)) g g' := by
  obtain ⟨⟨sid, hsid, hnames⟩, ctor, hctor, hkind, hlocal⟩ := hp
  obtain ⟨ctor', signature, hctor', hdeclares, rfl, sid', hsid', hT⟩ := hS
  rw [hctor] at hctor'
  cases hctor'
  have hid : t.getScopeId id = some sid := hsid
  rw [hid] at hsid'
  cases hsid'
  obtain ⟨layout, hlayout, hfacts⟩ := constructor_facts h hlayouts hlocal hkind
  obtain rfl := declares_unique h.typing.checks hdeclares hfacts.declares
  refine ⟨ctor, layout, hctor, hlayout, rfl, fun scrutinee locals g E hg => ?_⟩
  have hsymbols : t.patternSymbols (.ConstructorPattern id name arguments) =
      t.symbolsIn sid arguments := by
    simp [patternSymbols, Pattern.id, Pattern.names, hid]
  unfold emitConstructorPattern
  rw [if_neg (not_not.mpr hT.length_eq), hsymbols]
  simp only [hid]
  exact bindPatternFields_spec hnames hT hfacts.ground hg

/-! ## Cases -/

/-- The values that go into the phi have the type `T`, which is no function. -/
def IncomingTyped (T : TypeVariant) (incoming : List (TypedValue × BlockId)) : Prop :=
  ∀ entry ∈ incoming, entry.1.type = T ∧ containsFunctionType T = false

omit h in
theorem emitBranchBody_spec {emitBody : Gen TypedValue} {g : GeneratorState} {shape : Bool}
    {T : TypeVariant} {bound : List SymbolId} (hbody : Lowers emitBody g shape T bound)
    (merge_block : BlockId) {incoming : List (TypedValue × BlockId)}
    (hincoming : IncomingTyped T incoming) :
    Ensures (emitBranchBody emitBody merge_block incoming) g (Refused shape) fun incoming' g' =>
      shape = true ∧ IncomingTyped T incoming' ∧ incoming' ≠ [] ∧ OnlyBinds bound g g' := by
  unfold emitBranchBody
  refine ensures_bind (hbody.mono fun body g1 ⟨hshape, htype, hground, hb⟩ => ?_)
  refine ensures_bind (ensures_withBuilder (ensures_bind (ensures_withBuilder ?_)))
  have hmore : ∀ block : BlockId, IncomingTyped T (incoming ++ [(body, block)]) := by
    intro block entry hentry
    rcases List.mem_append.mp hentry with hentry | hentry
    · exact hincoming entry hentry
    · rw [List.mem_singleton.mp hentry]
      exact ⟨htype, hground⟩
  split
  · exact ensures_pure _ ⟨hshape, hmore _, by simp, hb.functions, hb.others⟩
  · refine ensures_bind (ensures_withBuilder ?_)
    exact ensures_pure _ ⟨hshape, hmore _, by simp, hb.functions, hb.others⟩

omit h in
theorem patternConstructor_eq {id : NodeId} {name : String} {ctor : Symbol}
    (hctor : t.getResolvedSymbol id = some ctor) : patternConstructor t id name = pure ctor := by
  unfold patternConstructor
  rw [hctor]

/-- What is known of a branch in a scope. -/
structure BranchChecked (t : ScopeTree) (types : TypeTable) (program : Program) (τ : Typing)
    (functions_ : AssocMap SymbolId Nat) (constructors_ : AssocMap SymbolId ConstructorLayout)
    (locals : List SymbolId) (S T : TypeVariant) (pattern : Pattern) (body : Expression) :
    Prop where
  pattern_scoped : t.PatternScoped pattern
  body_scoped : t.WellScoped body (t.patternSymbols pattern ++ locals)
  pattern_type : PatternHasType t program τ S pattern
  body_type : HasType t program τ body T
  apart : Apart (t.patternSymbols pattern ++ t.boundIn body) locals
  lowered : Lowered t types program τ functions_ constructors_ body

omit h in
theorem BranchChecked.emitBody {locals : List SymbolId} {S T : TypeVariant} {pattern : Pattern}
    {body : Expression}
    (hb : BranchChecked t types program τ functions_ constructors_ locals S T pattern body)
    {g : GeneratorState} (hg : LocalsTyped τ (t.patternSymbols pattern ++ locals) g) :
    Lowers (emitExpression t types functions_ constructors_ body) g (compilable t types body) T
      (t.boundIn body) :=
  hb.lowered _ g T hb.body_scoped hb.body_type hb.apart.enter hg

include hlayouts

theorem emitSwitchBranch_spec {locals : List SymbolId} {S T : TypeVariant} {id : NodeId}
    {name : String} {arguments : List String} {body : Expression}
    (hb : BranchChecked t types program τ functions_ constructors_ locals S T
      (.ConstructorPattern id name arguments) body)
    {g : GeneratorState} (hg : LocalsTyped τ locals g) (scrutinee : TypedValue)
    (switch_block merge_block : BlockId) {incoming : List (TypedValue × BlockId)}
    (hincoming : IncomingTyped T incoming) :
    Ensures (emitSwitchBranch t constructors_ id name arguments
        (emitExpression t types functions_ constructors_ body) scrutinee switch_block merge_block
        incoming) g (Refused (compilable t types body)) fun incoming' g' =>
      compilable t types body = true ∧ IncomingTyped T incoming' ∧ incoming' ≠ [] ∧
        OnlyBinds [] g g' := by
  obtain ⟨ctor, layout, hctor, hlayout, _, hpattern⟩ :=
    emitConstructorPattern_spec h hlayouts hb.pattern_scoped hb.pattern_type
  unfold emitSwitchBranch
  simp only [patternConstructor_eq hctor, getLayout_eq hlayout, pure_bind]
  refine ensures_bind (ensures_withBuilder (ensures_bind (ensures_withBuilder ?_)))
  refine ensures_bind (ensures_withBuilder (ensures_bind (ensures_getLocals ?_)))
  refine ensures_bind ((hpattern scrutinee.value locals _ _ ?_).mono fun _ g1 ⟨hg1, hb1⟩ => ?_)
  · exact fun s hs => hg s hs
  refine ensures_bind ((emitBranchBody_spec (hb.emitBody hg1) merge_block hincoming).mono
    fun incoming' g2 ⟨hshape, htyped, hne, hb2⟩ => ensures_bind (ensures_setLocals ?_))
  exact ensures_pure _ ⟨hshape, htyped, hne, hb2.functions.trans hb1.functions, fun _ _ => rfl⟩

theorem emitConstructorCaseBranch_spec {locals : List SymbolId} {S T : TypeVariant} {id : NodeId}
    {name : String} {arguments : List String} {body : Expression}
    (hb : BranchChecked t types program τ functions_ constructors_ locals S T
      (.ConstructorPattern id name arguments) body)
    {g : GeneratorState} (hg : LocalsTyped τ locals g) (scrutinee : TypedValue)
    (merge_block : BlockId) {incoming : List (TypedValue × BlockId)}
    (hincoming : IncomingTyped T incoming) :
    Ensures (emitConstructorCaseBranch t constructors_ id name arguments
        (emitExpression t types functions_ constructors_ body) scrutinee merge_block incoming) g
      (Refused (compilable t types body)) fun incoming' g' =>
      compilable t types body = true ∧ IncomingTyped T incoming' ∧ incoming' ≠ [] ∧
        OnlyBinds [] g g' := by
  obtain ⟨ctor, layout, hctor, hlayout, _, hpattern⟩ :=
    emitConstructorPattern_spec h hlayouts hb.pattern_scoped hb.pattern_type
  unfold emitConstructorCaseBranch
  simp only [patternConstructor_eq hctor, getLayout_eq hlayout, pure_bind]
  refine ensures_bind (ensures_withBuilder (ensures_bind (ensures_withBuilder ?_)))
  refine ensures_bind ((quiet_loadTag scrutinee.value _ _).mono fun tag g1 h1 => ?_)
  refine ensures_bind ((quiet_createInstruction _ g1 _).mono fun matched g2 h2 => ?_)
  refine ensures_bind (ensures_withBuilder (ensures_bind (ensures_withBuilder ?_)))
  refine ensures_bind (ensures_getLocals ?_)
  have hlocals : g2.locals_ = g.locals_ := h2.2.trans h1.2
  have hg2 := hg.congr hlocals
  refine ensures_bind ((hpattern scrutinee.value locals _ _ ?_).mono fun _ g3 ⟨hg3, hb3⟩ => ?_)
  · exact fun s hs => hg2 s hs
  refine ensures_bind ((emitBranchBody_spec (hb.emitBody hg3) merge_block hincoming).mono
    fun incoming' g4 ⟨hshape, htyped, hne, hb4⟩ => ensures_bind (ensures_setLocals ?_))
  refine ensures_bind (ensures_withBuilder ?_)
  refine ensures_pure _ ⟨hshape, htyped, hne, ?_, fun s _ => ?_⟩
  · exact hb4.functions.trans (hb3.functions.trans (h2.1.trans h1.1))
  · exact congrArg (AssocMap.find · s) hlocals

theorem emitSwitchBranches_spec {branches : List Branch} {locals : List SymbolId}
    {S T : TypeVariant}
    (hb : ∀ b ∈ branches, BranchChecked t types program τ functions_ constructors_ locals S T
      b.pattern b.body)
    (hpatterns : ∀ b ∈ branches, ∃ id name arguments,
      b.pattern = .ConstructorPattern id name arguments)
    {g : GeneratorState} (hg : LocalsTyped τ locals g) (scrutinee : TypedValue)
    (switch_block merge_block : BlockId) {incoming : List (TypedValue × BlockId)}
    (hincoming : IncomingTyped T incoming) :
    Ensures (emitSwitchBranches t types functions_ constructors_ branches scrutinee switch_block
        merge_block incoming) g (Refused (compilableBranches t types branches))
      fun incoming' g' => compilableBranches t types branches = true ∧ IncomingTyped T incoming' ∧
        (incoming ≠ [] ∨ branches ≠ [] → incoming' ≠ []) ∧ OnlyBinds [] g g' := by
  induction branches generalizing g incoming with
  | nil => exact ensures_pure _ ⟨rfl, hincoming, by simp, .refl [] g⟩
  | cons b branches ih =>
    obtain ⟨bid, pattern, body⟩ := b
    obtain ⟨id, name, arguments, hpattern⟩ := hpatterns _ List.mem_cons_self
    have hpattern : pattern = .ConstructorPattern id name arguments := hpattern
    subst hpattern
    have hfirst := (emitSwitchBranch_spec h hlayouts (hb _ List.mem_cons_self) hg scrutinee
      switch_block merge_block hincoming).weaken
        fun _ he => he.left (compilableBranches t types branches)
    simp only [emitSwitchBranches, compilableBranches]
    refine ensures_bind (hfirst.mono fun incoming1 g1 ⟨hshape1, htyped1, hne1, hb1⟩ => ?_)
    have hrest := (ih (fun b' hb' => hb b' (List.mem_cons_of_mem _ hb'))
      (fun b' hb' => hpatterns b' (List.mem_cons_of_mem _ hb'))
      (hg.onlyBinds hb1 (by simp)) htyped1).weaken fun _ he => he.right (compilable t types body)
    exact hrest.mono fun incoming2 g2 ⟨hshape2, htyped2, hne2, hb2⟩ =>
      ⟨by rw [hshape1, hshape2]; rfl, htyped2, fun _ => hne2 (.inl hne1), hb1.trans hb2⟩

theorem emitSequentialBranches_spec {branches : List Branch} {locals : List SymbolId}
    {S T : TypeVariant} (hground : containsFunctionType S = false)
    (hb : ∀ b ∈ branches, BranchChecked t types program τ functions_ constructors_ locals S T
      b.pattern b.body)
    {g : GeneratorState} (hg : LocalsTyped τ locals g) {scrutinee : TypedValue}
    (hscrutinee : scrutinee.type = S) (merge_block : BlockId)
    {incoming : List (TypedValue × BlockId)} (hincoming : IncomingTyped T incoming) :
    Ensures (emitSequentialBranches t types functions_ constructors_ branches scrutinee
        merge_block incoming) g (Refused (compilableBranches t types branches))
      fun result g' => compilableBranches t types branches = true ∧ IncomingTyped T result.1 ∧
        (incoming ≠ [] ∨ branches ≠ [] → result.1 ≠ []) ∧
        OnlyBinds (t.boundInBranches branches) g g' := by
  induction branches generalizing g incoming with
  | nil => exact ensures_pure _ ⟨rfl, hincoming, by simp, .refl [] g⟩
  | cons b branches ih =>
    obtain ⟨bid, pattern, body⟩ := b
    have hbranch := hb _ List.mem_cons_self
    cases pattern with
    | VariablePattern id name =>
      simp only [emitSequentialBranches, compilableBranches, ScopeTree.boundInBranches]
      refine ensures_bind ((emitVariablePattern_spec hbranch.pattern_scoped hbranch.pattern_type
        hground hscrutinee hg).mono fun _ g1 ⟨hg1, hb1⟩ => ?_)
      refine ensures_bind ((emitBranchBody_spec (hbranch.emitBody hg1) merge_block
        hincoming).mono fun incoming' g2 ⟨hshape, htyped, hne, hb2⟩ => ?_)
      refine ensures_pure _ ⟨hshape, htyped, fun _ => hne, ?_⟩
      refine (hb1.append hb2).mono fun s hs => ?_
      simp only [List.mem_append] at hs ⊢
      tauto
    | ConstructorPattern id name arguments =>
      have hfirst := (emitConstructorCaseBranch_spec h hlayouts hbranch hg scrutinee merge_block
        hincoming).weaken fun _ he => he.left (compilableBranches t types branches)
      simp only [emitSequentialBranches, compilableBranches, ScopeTree.boundInBranches]
      refine ensures_bind (hfirst.mono fun incoming1 g1 ⟨hshape1, htyped1, hne1, hb1⟩ => ?_)
      have hrest := (ih (fun b' hb' => hb b' (List.mem_cons_of_mem _ hb'))
        (hg.onlyBinds hb1 (by simp)) htyped1).weaken fun _ he => he.right (compilable t types body)
      refine hrest.mono fun result g2 ⟨hshape2, htyped2, hne2, hb2⟩ =>
        ⟨by rw [hshape1, hshape2]; rfl, htyped2, fun _ => hne2 (.inl hne1), ?_⟩
      refine (hb1.mono (by simp)).trans (hb2.mono fun s hs => ?_)
      exact List.mem_append_right _ (List.mem_append_right _ hs)

omit h hlayouts

theorem finishCaseExpression_spec {T : TypeVariant} {incoming : List (TypedValue × BlockId)}
    (hincoming : IncomingTyped T incoming) (hne : incoming ≠ []) (merge_block : BlockId)
    (g : GeneratorState) (E : GenerateError → Prop) :
    Ensures (finishCaseExpression merge_block incoming) g E fun value g' =>
      value.type = T ∧ containsFunctionType T = false ∧ OnlyBinds [] g g' := by
  unfold finishCaseExpression
  cases incoming with
  | nil => exact absurd rfl hne
  | cons entry incoming =>
    obtain ⟨result, block⟩ := entry
    obtain ⟨rfl, hground⟩ := hincoming _ List.mem_cons_self
    obtain ⟨type, htype⟩ := llvmType_ok hground
    refine ensures_bind (ensures_withBuilder ?_)
    simp only [htype]
    refine ensures_bind (ensures_pure type (ensures_bind (ensures_withBuilder ?_)))
    exact ensures_pure _ ⟨rfl, hground, rfl, fun _ _ => rfl⟩

theorem emitSwitchCaseExpression_spec
    {emitBranches : BlockId → BlockId → Gen (List (TypedValue × BlockId))} {g : GeneratorState}
    {shape : Bool} {T : TypeVariant} {bound : List SymbolId} (scrutinee : TypedValue)
    (hloop : ∀ switch_block merge_block g1, OnlyBinds [] g g1 →
      Ensures (emitBranches switch_block merge_block) g1 (Refused shape) fun incoming g2 =>
        shape = true ∧ IncomingTyped T incoming ∧ incoming ≠ [] ∧ OnlyBinds bound g1 g2) :
    Lowers (emitSwitchCaseExpression emitBranches scrutinee) g shape T bound := by
  unfold Lowers emitSwitchCaseExpression
  refine ensures_bind (((quiet_withBuilder _).onlyBinds g _).mono fun _ g1 hb1 => ?_)
  refine ensures_bind (((quiet_withBuilder _).onlyBinds g1 _).mono fun merge g2 hb2 => ?_)
  refine ensures_bind (((quiet_loadTag _).onlyBinds g2 _).mono fun _ g3 hb3 => ?_)
  refine ensures_bind (((quiet_withBuilder _).onlyBinds g3 _).mono fun switch g4 hb4 => ?_)
  refine ensures_bind (((quiet_withBuilder _).onlyBinds g4 _).mono fun _ g5 hb5 => ?_)
  have hb := (((hb1.trans hb2).trans hb3).trans hb4).trans hb5
  refine ensures_bind ((hloop switch merge g5 hb).mono
    fun incoming g6 ⟨hshape, htyped, hne, hb6⟩ => ?_)
  refine ensures_bind (((quiet_withBuilder _).onlyBinds g6 _).mono fun _ g7 hb7 => ?_)
  refine ensures_bind ((quiet_emitTrap.onlyBinds g7 _).mono fun _ g8 hb8 => ?_)
  refine (finishCaseExpression_spec htyped hne merge g8 _).mono
    fun value g9 ⟨htype, hground, hb9⟩ => ⟨hshape, htype, hground, ?_⟩
  exact (hb.append hb6).trans (((hb7.trans hb8).trans hb9).mono (by simp))

theorem emitSequentialCaseExpression_spec
    {emitBranches : BlockId → Gen (List (TypedValue × BlockId) × Bool)} {g : GeneratorState}
    {shape : Bool} {T : TypeVariant} {bound : List SymbolId}
    (hloop : ∀ merge_block g1, OnlyBinds [] g g1 →
      Ensures (emitBranches merge_block) g1 (Refused shape) fun result g2 =>
        shape = true ∧ IncomingTyped T result.1 ∧ result.1 ≠ [] ∧ OnlyBinds bound g1 g2) :
    Lowers (emitSequentialCaseExpression emitBranches) g shape T bound := by
  unfold Lowers emitSequentialCaseExpression
  refine ensures_bind (((quiet_withBuilder _).onlyBinds g _).mono fun merge g1 hb1 => ?_)
  refine ensures_bind ((hloop merge g1 hb1).mono fun result g2 ⟨hshape, htyped, hne, hb2⟩ => ?_)
  obtain ⟨incoming, has_fallthrough⟩ := result
  have hfinish : ∀ g3, OnlyBinds [] g2 g3 → Ensures (finishCaseExpression merge incoming) g3
      (Refused shape) fun value g' => shape = true ∧ value.type = T ∧
        containsFunctionType T = false ∧ OnlyBinds bound g g' := by
    intro g3 hb3
    refine (finishCaseExpression_spec htyped hne merge g3 _).mono
      fun value g4 ⟨htype, hground, hb4⟩ => ⟨hshape, htype, hground, ?_⟩
    exact (hb1.append hb2).trans ((hb3.trans hb4).mono (by simp))
  cases has_fallthrough with
  | true => exact ensures_bind ((quiet_emitTrap.onlyBinds g2 _).mono fun _ g3 hb3 => hfinish g3 hb3)
  | false => exact hfinish g2 (.refl [] g2)

theorem canUseSwitchCase_patterns {branches : List Branch} {seen : List SymbolId}
    (hcan : canUseSwitchCase t seen branches = true) :
    ∀ b ∈ branches, ∃ id name arguments, b.pattern = .ConstructorPattern id name arguments := by
  induction branches generalizing seen with
  | nil => simp
  | cons b branches ih =>
    obtain ⟨bid, pattern, body⟩ := b
    cases pattern with
    | VariablePattern id name => simp [canUseSwitchCase] at hcan
    | ConstructorPattern id name arguments =>
      simp only [canUseSwitchCase] at hcan
      split at hcan
      · cases hcan
      · split at hcan
        · cases hcan
        · exact List.forall_mem_cons.mpr ⟨⟨id, name, arguments, rfl⟩, ih hcan⟩

theorem Apart.branch {branches : List Branch} {locals : List SymbolId}
    (ha : Apart (t.boundInBranches branches) locals) {b : Branch} (hb : b ∈ branches) :
    Apart (t.patternSymbols b.pattern ++ t.boundIn b.body) locals := by
  induction branches with
  | nil => simp at hb
  | cons b' branches ih =>
    obtain ⟨bid, pattern, body⟩ := b'
    simp only [ScopeTree.boundInBranches, ← List.append_assoc] at ha
    rcases List.mem_cons.mp hb with rfl | hb
    · exact ha.left
    · exact ih ha.right hb

/-- What is known of the branches of a case expression. -/
theorem branchesChecked {branches : List Branch} {locals : List SymbolId} {S T : TypeVariant}
    (hlowered : ∀ b ∈ branches, Lowered t types program τ functions_ constructors_ b.body)
    (hs : t.WellScopedBranches branches locals)
    (hS : ∀ b ∈ branches, PatternHasType t program τ S b.pattern)
    (hT : ∀ b ∈ branches, HasType t program τ b.body T)
    (ha : Apart (t.boundInBranches branches) locals) :
    ∀ b ∈ branches, BranchChecked t types program τ functions_ constructors_ locals S T b.pattern
      b.body := by
  intro b hb
  have hscoped := ScopeTree.wellScopedBranches_iff.mp hs b hb
  exact ⟨hscoped.1, hscoped.2, hS b hb, hT b hb, ha.branch hb, hlowered b hb⟩

include h hlayouts

theorem emitCase_spec {id : NodeId} {scrutinee : Expression} {branches : List Branch}
    (ihs : Lowered t types program τ functions_ constructors_ scrutinee)
    (ihb : ∀ b ∈ branches, Lowered t types program τ functions_ constructors_ b.body) :
    Lowered t types program τ functions_ constructors_ (.CaseExpression id scrutinee branches) := by
  intro locals g T hs hT ha hg
  obtain ⟨hss, hne, hsb⟩ := hs
  rcases hT with _ | _ | _ | _ | @⟨_, _, _, S, _, hTs, hS, hTb⟩
  have hbranches := branchesChecked ihb hsb hS hTb ha.right
  have hscrutinee := (ihs locals g S hss hTs ha.left hg).weaken
    fun _ he => he.left (compilableBranches t types branches)
  unfold Lowers
  simp only [emitExpression, compilable, ScopeTree.boundIn]
  refine ensures_bind (hscrutinee.mono fun value g1 ⟨hshape1, htype1, hground1, hb1⟩ => ?_)
  have hg1 := hg.onlyBinds hb1 ha.left.2
  have hcase : Lowers (if canUseSwitchCase t [] branches = true then
        emitSwitchCaseExpression
          (fun switch_block merge_block => emitSwitchBranches t types functions_ constructors_
            branches value switch_block merge_block []) value
      else
        emitSequentialCaseExpression fun merge_block =>
          emitSequentialBranches t types functions_ constructors_ branches value merge_block [])
      g1 (compilableBranches t types branches) T (t.boundInBranches branches) := by
    split
    · rename_i hcan
      refine emitSwitchCaseExpression_spec value fun switch_block merge_block g2 hb2 => ?_
      refine (emitSwitchBranches_spec h hlayouts hbranches (canUseSwitchCase_patterns hcan)
        (hg1.onlyBinds hb2 (by simp)) value switch_block merge_block
        (by simp [IncomingTyped])).mono
          fun incoming g3 ⟨hshape, htyped, hne3, hb3⟩ => ?_
      exact ⟨hshape, htyped, hne3 (.inr hne), hb3.mono (by simp)⟩
    · refine emitSequentialCaseExpression_spec fun merge_block g2 hb2 => ?_
      refine (emitSequentialBranches_spec h hlayouts hground1 hbranches
        (hg1.onlyBinds hb2 (by simp)) htype1 merge_block
        (by simp [IncomingTyped])).mono
          fun result g3 ⟨hshape, htyped, hne3, hb3⟩ => ?_
      exact ⟨hshape, htyped, hne3 (.inr hne), hb3⟩
  refine Ensures.mono (hcase.weaken fun _ he => he.right (compilable t types scrutinee))
    fun value' g2 ⟨hshape2, htype2, hground2, hb2⟩ => ?_
  exact ⟨by rw [hshape1, hshape2]; rfl, htype2, hground2, hb1.append hb2⟩

include hdeclared

theorem lowered (e : Expression) : Lowered t types program τ functions_ constructors_ e ∧
    LoweredCallee t types program τ functions_ constructors_ e := by
  induction e with
  | IntLiteral id value =>
    refine ⟨fun locals g T _ hT _ _ => ?_, loweredCallee_throw (fun _ => rfl) fun _ => rfl⟩
    cases hT
    exact ensures_pure _ ⟨rfl, rfl, rfl, .refl _ g⟩
  | Variable id name =>
    refine ⟨fun locals g T hs hT _ hg => ?_, emitCall_spec h hlayouts hdeclared id name⟩
    exact emitVariable_spec h hlayouts hs hT hg
  | BinaryOperator kind id l r ihl ihr =>
    exact ⟨emitOperator_spec ihl.1 ihr.1, loweredCallee_throw (fun _ => rfl) fun _ => rfl⟩
  | Application id f a ihf iha =>
    exact ⟨emitExpression_application ihf.2 iha.1, emitApplication_spec ihf.2 iha.1⟩
  | CaseExpression id scrutinee branches ihs ihb =>
    exact ⟨emitCase_spec h hlayouts ihs.1 fun b hb => (ihb b hb).1,
      loweredCallee_throw (fun _ => rfl) fun _ => rfl⟩

/-! ## Programs -/

omit h hlayouts hdeclared in
theorem bindParameters_spec {sid : ScopeId} {index : Nat} {names : List String}
    {Ts : List TypeVariant} {locals : List SymbolId} {g : GeneratorState}
    {E : GenerateError → Prop}
    (hT : List.Forall₂ (fun name T => ∃ p, t.getLocalSymbol sid name = some p ∧ τ p.id = T)
      names Ts)
    (hground : ∀ T ∈ Ts, containsFunctionType T = false) (hg : LocalsTyped τ locals g) :
    Ensures (bindParameters t sid index names Ts) g E fun _ g' =>
      LocalsTyped τ (t.symbolsIn sid names ++ locals) g' := by
  induction hT generalizing index locals g with
  | nil => exact ensures_pure () hg
  | @cons name T names Ts hT _ ih =>
    obtain ⟨s, hs, rfl⟩ := hT
    have hsymbols : t.symbolsIn sid (name :: names) = s.id :: t.symbolsIn sid names := by
      simp [symbolsIn, hs]
    simp only [bindParameters, hs, hsymbols]
    refine ensures_bind (ensures_setLocal ?_)
    refine (ih (fun T hT => hground T (List.mem_cons_of_mem _ hT))
      (hg.insert (hground _ List.mem_cons_self) rfl)).mono fun _ g' hg' => hg'.mono ?_
    intro s' hs'
    simp only [List.cons_append, List.mem_cons, List.mem_append] at hs' ⊢
    tauto

omit hlayouts hdeclared in
theorem function_apart {fd : FunctionDefinition}
    (hfd : .FunctionDefinition fd ∈ program.definitions) :
    Apart (t.boundIn fd.body) (t.parameterSymbols fd) := by
  have hnodup := (List.nodup_append'.mp h.scopes.apart).2.1
  have hlocals : (t.parameterSymbols fd ++ t.boundIn fd.body).Nodup :=
    (List.nodup_flatMap.mp hnodup).1 _ hfd
  obtain ⟨_, hbound, hdisjoint⟩ := List.nodup_append'.mp hlocals
  exact ⟨hbound, fun s hs hin => hdisjoint hin hs⟩

theorem defineFunction_spec {fd : FunctionDefinition}
    (hfd : .FunctionDefinition fd ∈ program.definitions) (g : GeneratorState) :
    Ensures (defineFunction t types functions_ constructors_ fd) g
      (Refused (compilable t types fd.body)) fun _ _ => compilable t types fd.body = true := by
  obtain ⟨s, signature, hs, hsignature, _, ⟨sid, hsid, hparameters⟩, hbody⟩ := h.functions fd hfd
  obtain ⟨⟨s', hs', hkind, _⟩, _, hscoped⟩ := h.scopes.functions fd hfd
  rw [hs] at hs'
  cases hs'
  obtain ⟨n, hn⟩ := hdeclared s (h.scopes.named _ _ _ hs).1 hkind
  obtain ⟨_, hground, _⟩ := h.firstOrder s.id signature hsignature
  have hroot : getRootSymbol t fd.name .Function = some s :=
    Option.filter_eq_some_iff.mpr ⟨hs, by simpa using hkind⟩
  have hsymbols : t.parameterSymbols fd = t.symbolsIn sid fd.parameters := by
    simp [parameterSymbols, hsid]
  have hempty : ∀ g' : GeneratorState, LocalsTyped τ [] g' := fun _ _ hs => absurd hs (by simp)
  unfold defineFunction
  simp only [hroot, hn, hsignature, hsid]
  refine ensures_bind (ensures_setLocals ?_)
  unfold emitFunctionBody
  refine ensures_bind (ensures_startFunction ?_)
  refine ensures_bind ((bindParameters_spec hparameters hground (hempty _)).mono
    fun _ g1 hg1 => ?_)
  rw [List.append_nil, ← hsymbols] at hg1
  refine ensures_bind (((lowered h hlayouts hdeclared fd.body).1 _ g1 _ hscoped hbody
    (function_apart h hfd) hg1).mono fun body g2 h2 => ?_)
  exact ensures_bind (ensures_withBuilder h2.1)

end

/-- All bodies have the shape. -/
def compilableDefinition (t : ScopeTree) (types : TypeTable) : Definition → Bool
  | .FunctionDefinition fd => compilable t types fd.body
  | .DataTypeDefinition _ => true

def compilableProgram (t : ScopeTree) (types : TypeTable) (program : Program) : Bool :=
  program.definitions.all (compilableDefinition t types)

section

variable (h : Checked t program types τ) (hlayouts : Layouts t types program constructors_)
  (hdeclared : ∀ s, t.getSymbol s.id = some s → s.kind = .Function →
    ∃ n, functions_.find s.id = some n)

include h hdeclared

include hlayouts in
theorem defineFunctions_spec {definitions : List Definition}
    (hdefinitions : ∀ d ∈ definitions, d ∈ program.definitions) (g : GeneratorState) :
    Ensures (defineFunctions t types functions_ constructors_ definitions) g
      (Refused (definitions.all (compilableDefinition t types)))
      fun _ _ => definitions.all (compilableDefinition t types) = true := by
  induction definitions generalizing g with
  | nil => exact ensures_pure () rfl
  | cons d definitions ih =>
    have hd := hdefinitions d List.mem_cons_self
    have ih := fun g => ih (fun d' hd' => hdefinitions d' (List.mem_cons_of_mem _ hd')) g
    cases d with
    | DataTypeDefinition dt => simpa [defineFunctions, compilableDefinition] using ih g
    | FunctionDefinition fd =>
      simp only [defineFunctions, List.all_cons, compilableDefinition]
      have hfirst := (defineFunction_spec h hlayouts hdeclared hd g).weaken
        fun _ he => he.left (definitions.all (compilableDefinition t types))
      refine ensures_bind (hfirst.mono fun _ g1 hshape1 => ?_)
      have hrest := (ih g1).weaken fun _ he => he.right (compilable t types fd.body)
      exact hrest.mono fun _ g2 hshape2 => by rw [hshape1, hshape2]; rfl

theorem defineMain_spec {fd : FunctionDefinition}
    (hfd : .FunctionDefinition fd ∈ program.definitions) (hname : fd.name = "main")
    (g : GeneratorState) (E : GenerateError → Prop) :
    Ensures (defineMain t types functions_) g E fun _ _ => True := by
  obtain ⟨s, signature, hs, hsignature, _⟩ := h.functions fd hfd
  obtain ⟨s', hs', hkind, _⟩ := (h.scopes.functions fd hfd).1
  rw [hs] at hs'
  cases hs'
  rw [hname] at hs
  obtain ⟨hsymbol, hsname⟩ := h.scopes.named _ _ _ hs
  obtain ⟨n, hn⟩ := hdeclared s hsymbol hkind
  obtain ⟨hnone, _, hresult⟩ := h.firstOrder s.id signature hsignature
  have hroot : getRootSymbol t "main" .Function = some s :=
    Option.filter_eq_some_iff.mpr ⟨hs, by simpa using hkind⟩
  have hfilter : (types.getFunctionSignature s.id).filter (·.parameters.isEmpty) =
      some signature := by
    simp [hsignature, Option.filter, hnone s hsymbol hsname]
  unfold defineMain
  simp only [hroot, hn, hfilter]
  have hprint : ∀ value, Quiet (emitPrint value signature.result) := by
    intro value
    cases hT : signature.result with
    | IntType => exact (quiet_createInstruction _).bind fun _ => quiet_pure ()
    | DataType d =>
      exact (quiet_loadTag value).bind fun _ => (quiet_createInstruction _).bind
        fun _ => quiet_pure ()
    | FunctionType P R => simp [hT, containsFunctionType] at hresult
  refine ensures_bind (ensures_createMain (ensures_bind (ensures_startFunction ?_)))
  refine ensures_bind (ensures_withBuilder (ensures_bind ((hprint _ _ E).mono fun _ g2 _ => ?_)))
  exact ensures_bind (ensures_withBuilder trivial)

end

/-- The errors of a module, for a program with a function `main`. -/
theorem generateModule_spec (h : Checked t program types τ)
    (hmain : ∃ fd, .FunctionDefinition fd ∈ program.definitions ∧ fd.name = "main") :
    Satisfies (generateModule program t types) (Refused (compilableProgram t types program))
      fun _ => compilableProgram t types program = true := by
  obtain ⟨functions, functions_, hrun, _, hcomplete⟩ := declareFunctions_spec h
  have hdeclared : ∀ s, t.getSymbol s.id = some s → s.kind = .Function →
      ∃ n, functions_.find s.id = some n := by
    intro s hs hkind
    obtain ⟨hlocal, _⟩ := h.rooted.find hs (by simp [isLocalKind, hkind])
    obtain ⟨fd, hfd, hname, _⟩ := function_declared h.scopes hlocal hkind
    exact hcomplete fd hfd s (by rw [hname]; exact hlocal)
  obtain ⟨fd, hfd, hname⟩ := hmain
  unfold generateModule
  simp only [hrun]
  have hbodies := defineFunctions_spec h (layouts h) hdeclared (fun d hd => hd)
    ⟨functions, .entry, .empty⟩
  have hall : Ensures (do
      defineFunctions t types functions_ (registerConstructors t types program) program.definitions
      defineMain t types functions_) ⟨functions, .entry, .empty⟩
        (Refused (compilableProgram t types program))
        fun _ _ => compilableProgram t types program = true :=
    ensures_bind (hbodies.mono fun _ g1 hshape =>
      (defineMain_spec h hdeclared hfd hname g1 _).mono fun _ _ _ => hshape)
  refine satisfies_bind.mpr (satisfies_ok _ |>.mpr (satisfies_bind.mpr ?_))
  exact Satisfies.mono hall fun r hr => hr

variable {tokens : TokenVector} {p : ParsedProgram} {result : TypeAnalysisResult}

/-- What the analyses accept, the generator lowers just when all functions and
constructors are written with just their arguments; if not, it throws one of the
errors for that. The tokens are the scanner's. -/
theorem generateModule_total (hl : tokens.Lexed) (hp : parse tokens = .ok p)
    (hok : (analyze p).ok) (hrun : analyzeTypes p (analyze p) = some result) (hresult : result.ok)
    (hmain : ∃ fd, .FunctionDefinition fd ∈ p.ast.definitions ∧ fd.name = "main") :
    (compilableProgram (analyze p).scopes result.types p.ast = true →
      ∃ M, generateModule p.ast (analyze p).scopes result.types = .ok M) ∧
    (compilableProgram (analyze p).scopes result.types p.ast = false →
      ∃ error, generateModule p.ast (analyze p).scopes result.types = .error error ∧
        error.IsShapeError) := by
  obtain ⟨τ, h⟩ := checked hl hp hok hrun hresult
  have hspec := generateModule_spec h hmain
  constructor
  · intro hshape
    cases hgenerate : generateModule p.ast (analyze p).scopes result.types with
    | ok M => exact ⟨M, rfl⟩
    | error error =>
      obtain ⟨hfalse, _⟩ := hspec.of_error hgenerate
      rw [hshape] at hfalse
      cases hfalse
  · intro hshape
    cases hgenerate : generateModule p.ast (analyze p).scopes result.types with
    | ok M =>
      have := hspec.of_ok hgenerate
      rw [hshape] at this
      cases this
    | error error =>
      obtain ⟨_, herror⟩ := hspec.of_error hgenerate
      exact ⟨error, rfl, herror⟩

/-- A module is generated of `boxProgram`. -/
theorem generateModule_total_box :
    ∃ result M, analyzeTypes boxProgram (analyze boxProgram) = some result ∧
      compilableProgram (analyze boxProgram).scopes result.types boxProgram.ast = true ∧
      generateModule boxProgram.ast (analyze boxProgram).scopes result.types = .ok M := by
  have hrun : ∃ result, analyzeTypes boxProgram (analyze boxProgram) = some result ∧
      (result.ok && compilableProgram (analyze boxProgram).scopes result.types
        boxProgram.ast) = true :=
    Option.map_eq_some_iff.mp (show (analyzeTypes boxProgram (analyze boxProgram)).map _ =
      some true by decide +kernel)
  obtain ⟨result, hrun, hboth⟩ := hrun
  obtain ⟨hresult, hshape⟩ := Bool.and_eq_true_iff.mp hboth
  obtain ⟨M, hM⟩ := (generateModule_total (show boxTokens.Lexed by decide) rfl rfl hrun hresult
    ⟨_, List.mem_cons_of_mem _ List.mem_cons_self, rfl⟩).1 hshape
  exact ⟨result, M, hrun, hshape, hM⟩

/-- `defn one = { 1 } defn main = { one }`. -/
def constantTokens : TokenVector :=
  ⟨[.Function, .LowerVariable "one", .Equal, .LeftBrace, .IntLiteral 1, .RightBrace, .Function,
    .LowerVariable "main", .Equal, .LeftBrace, .LowerVariable "one",
    .RightBrace].map fun load => ⟨load, ⟨1, 1, 1, 1⟩⟩, by decide⟩

def constantProgram : ParsedProgram :=
  ⟨⟨[.FunctionDefinition ⟨1, "one", [], .IntLiteral 0 1⟩,
    .FunctionDefinition ⟨3, "main", [], .Variable 2 "one"⟩]⟩, List.replicate 4 ⟨1, 1, 1, 1⟩⟩

/-- A function without parameters is accepted as a value, and not lowered. -/
theorem generateModule_constant : constantTokens.Lexed ∧
    parse constantTokens = .ok constantProgram ∧ (analyze constantProgram).ok ∧
    (∃ fd, .FunctionDefinition fd ∈ constantProgram.ast.definitions ∧ fd.name = "main") ∧
    ∃ result, analyzeTypes constantProgram (analyze constantProgram) = some result ∧ result.ok ∧
      generateModule constantProgram.ast (analyze constantProgram).scopes result.types =
        .error (.FunctionCannotBeUsedAsValue "one") := by
  have hrun : ∃ result, analyzeTypes constantProgram (analyze constantProgram) = some result ∧
      (result.ok && thrown (generateModule constantProgram.ast (analyze constantProgram).scopes
        result.types) == some (.FunctionCannotBeUsedAsValue "one")) = true :=
    Option.map_eq_some_iff.mp (show (analyzeTypes constantProgram (analyze constantProgram)).map
      _ = some true by decide +kernel)
  obtain ⟨result, hrun, hboth⟩ := hrun
  obtain ⟨hresult, hthrown⟩ := Bool.and_eq_true_iff.mp hboth
  refine ⟨by decide, rfl, rfl, ⟨_, List.mem_cons_of_mem _ List.mem_cons_self, rfl⟩, result, hrun,
    hresult, ?_⟩
  cases hgenerate : generateModule constantProgram.ast (analyze constantProgram).scopes
      result.types with
  | ok M => rw [hgenerate] at hthrown; simp [thrown] at hthrown
  | error error =>
    rw [hgenerate] at hthrown
    simpa [thrown] using hthrown

end mf.visitors
