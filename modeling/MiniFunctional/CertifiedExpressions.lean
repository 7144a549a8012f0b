-- Expressions without branches, and patterns: the generator leaves certified
-- code for them, and values that may be used.
import MiniFunctional.CertifiedCode

open mf.util mf.ast mf.parsing llvm
open mf.semantics hiding Frame

namespace mf.visitors

open ScopeTree

variable {M : Module} {parameters : List Ty} {result : Ty} {t : ScopeTree} {types : TypeTable}
  {program : Program} {τ : Typing} {functions_ : AssocMap SymbolId Nat}
  {constructors_ : AssocMap SymbolId ConstructorLayout} {locals : List SymbolId}
  {known known1 : Known} {g g1 : GeneratorState}

/-! ## Positions -/

/-- Where an expression may be emitted: its locals have values that may be used. -/
structure Positioned (M : Module) (parameters : List Ty) (result : Ty) (τ : Typing)
    (locals : List SymbolId) (known : Known) (g : GeneratorState) : Prop where
  sound : Sound M parameters result known g
  typed : LocalsTyped τ locals g
  ready : LocalsReady M parameters g.builder known locals g.locals_

/-- Emission goes on, and binds other symbols. -/
theorem Positioned.proceeds {bound : List SymbolId}
    (h : Positioned M parameters result τ locals known g)
    (hc : Proceeds M parameters result g.builder known g1.builder known1)
    (hb : OnlyBinds bound g g1) (ha : ∀ s ∈ bound, s ∉ locals) :
    Positioned M parameters result τ locals known1 g1 := by
  refine ⟨.of_proceeds hc, h.typed.onlyBinds hb ha, fun s hs v hv => ?_⟩
  rw [hb.others s fun hin => ha s hin hs] at hv
  exact hc.usable (h.ready s hs v hv)

/-- One more local. -/
theorem Positioned.bind (h : Positioned M parameters result τ locals known g) {id : SymbolId}
    {v : TypedValue} (hground : containsFunctionType (τ id) = false) (htype : v.type = τ id)
    (hv : Ready M parameters known g v) :
    Positioned M parameters result τ (id :: locals) known
      { g with locals_ := g.locals_.insert id v } := by
  refine ⟨⟨h.sound.opened, h.sound.certified⟩, h.typed.insert hground htype,
    fun s hs v' hv' => ?_⟩
  rw [AssocMap.find_insert] at hv'
  by_cases heq : s = id
  · rw [if_pos heq] at hv'
    cases hv'
    exact hv
  · rw [if_neg heq] at hv'
    exact h.ready s ((List.mem_cons.mp hs).resolve_left heq) v' hv'

theorem Positioned.mono {locals' : List SymbolId}
    (h : Positioned M parameters result τ locals known g) (hsub : ∀ s ∈ locals', s ∈ locals) :
    Positioned M parameters result τ locals' known g :=
  ⟨h.sound, h.typed.mono hsub, fun s hs => h.ready s (hsub s hs)⟩

/-! ## What is said of expressions -/

section

variable (M parameters result known)

/-- The computation leaves certified code that goes on, and a value that may be
used there. -/
def Certifies (x : Gen TypedValue) (g : GeneratorState) : Prop :=
  Ensures x g (fun _ => True) fun v g' => ∃ known', Ready M parameters known' g' v ∧
    Proceeds M parameters result g.builder known g'.builder known'

/-- The value has the type `T` besides, and only symbols of `bound` are bound. -/
def CertifiesTyped (x : Gen TypedValue) (g : GeneratorState) (T : TypeVariant)
    (bound : List SymbolId) : Prop :=
  Ensures x g (fun _ => True) fun v g' =>
    (v.type = T ∧ containsFunctionType T = false ∧ OnlyBinds bound g g') ∧
    ∃ known', Ready M parameters known' g' v ∧
      Proceeds M parameters result g.builder known g'.builder known'

end

theorem Certifies.typed {x : Gen TypedValue} {shape : Bool} {T : TypeVariant}
    {bound : List SymbolId} (h : Certifies M parameters result known x g)
    (hlowers : Lowers x g shape T bound) :
    CertifiesTyped M parameters result known x g T bound := by
  exact (Ensures.both h hlowers).mono fun _ _ hboth => ⟨hboth.2.2, hboth.1⟩

section

variable (M parameters result t types functions_ constructors_ program τ)

/-- The generator does so for the expression, wherever it stands. -/
def ExpressionCertified (e : Expression) : Prop :=
  ∀ (locals : List SymbolId) (known : Known) (g : GeneratorState) (T : TypeVariant),
    t.WellScoped e locals → HasType t program τ e T → Apart (t.boundIn e) locals →
    Positioned M parameters result τ locals known g →
    CertifiesTyped M parameters result known
      (emitExpression t types functions_ constructors_ e) g T (t.boundIn e)

/-- The same of the application of the expression to arguments. -/
def CalleeCertified (e : Expression) : Prop :=
  ∀ (arguments : List Expression) (Ps : List TypeVariant) (locals : List SymbolId)
    (known : Known) (g : GeneratorState) (T : TypeVariant), arguments ≠ [] →
    (∀ a ∈ arguments, ExpressionCertified M parameters result t types program τ functions_
      constructors_ a) →
    t.WellScoped e locals → (∀ a ∈ arguments, t.WellScoped a locals) →
    HasType t program τ e (functionTypes Ps T) →
    List.Forall₂ (HasType t program τ) arguments Ps →
    Apart (t.boundIn e ++ arguments.flatMap t.boundIn) locals →
    Positioned M parameters result τ locals known g →
    Certifies M parameters result known (emitApplication t types functions_ constructors_ e
      (arguments.map (emitExpression t types functions_ constructors_))) g

end

/-! ## Operators and calls -/

theorem computes_createBinary (h : Sound M parameters result known g) (op : BinaryOp)
    {left right : Operand} (hleft : g.builder.Usable M parameters known left (.of .i64))
    (hright : g.builder.Usable M parameters known right (.of .i64)) :
    Ensures (withBuilder (Builder.createBinary op left right)) g (fun _ => True) fun v g' =>
      Computes M parameters result known g v (.of .i64) g' := by
  refine ensures_withBuilder ?_
  unfold Builder.createBinary
  cases hconstant : left.isConstant && right.isConstant with
  | true =>
    obtain ⟨value, hfold, hvalue⟩ : ∃ value, foldBinary op left right = some value ∧
        g.builder.Usable M parameters known value (.of .i64) := by
      cases left with
      | int a =>
        cases right with
        | int b =>
          refine ⟨_, rfl, ?_⟩
          cases op.apply a b with
          | none => rfl
          | some n => rfl
        | poison => exact ⟨_, rfl, rfl⟩
        | _ => cases hconstant
      | poison =>
        cases right with
        | int b => exact ⟨_, rfl, rfl⟩
        | poison => exact ⟨_, rfl, rfl⟩
        | _ => cases hconstant
      | _ => cases hconstant
    simp only [hfold]
    exact ⟨.refl h, hvalue⟩
  | false =>
    simp only [foldBinary_eq_none hconstant]
    exact (computes_instruction (E := fun _ => True) h (.binary op left right) trivial
      ⟨hleft, hright⟩ rfl).of_ok rfl

/-- The arguments have values that may be used where the last of them is emitted. -/
theorem certified_arguments {arguments : List Expression}
    (ih : ∀ a ∈ arguments, ExpressionCertified M parameters result t types program τ functions_
      constructors_ a) {Ps : List TypeVariant} (hs : ∀ a ∈ arguments, t.WellScoped a locals)
    (hT : List.Forall₂ (HasType t program τ) arguments Ps)
    (ha : Apart (arguments.flatMap t.boundIn) locals)
    (hp : Positioned M parameters result τ locals known g) :
    Ensures (emitArguments (arguments.map (emitExpression t types functions_ constructors_))) g
      (fun _ => True) fun values g' => values.map (·.type) = Ps ∧
        ∃ known', (∀ v ∈ values, Ready M parameters known' g' v) ∧
          Proceeds M parameters result g.builder known g'.builder known' := by
  induction hT generalizing g known with
  | nil =>
    exact ensures_pure [] ⟨rfl, known, by simp, .refl hp.sound.certified hp.sound.opened⟩
  | @cons a P arguments Ps hTa _ ihrest =>
    simp only [List.map_cons, emitArguments, List.flatMap_cons] at ha ⊢
    apply ensures_bind
    refine (ih a List.mem_cons_self locals known g P (hs a List.mem_cons_self) hTa ha.left
      hp).mono fun value g1 h1 => ?_
    obtain ⟨⟨htype, _, hb1⟩, known1, hready1, hc1⟩ := h1
    apply ensures_bind
    refine (ihrest (fun a' ha' => ih a' (List.mem_cons_of_mem _ ha'))
      (fun a' ha' => hs a' (List.mem_cons_of_mem _ ha')) ha.right
      (hp.proceeds hc1 hb1 ha.left.2)).mono fun values g2 h2 => ?_
    obtain ⟨htypes, known2, hready2, hc2⟩ := h2
    refine ensures_pure _ ⟨by rw [List.map_cons, htype, htypes], known2, fun v hv => ?_,
      hc1.trans hc2⟩
    rcases List.mem_cons.mp hv with rfl | hv
    · exact hready1.proceeds hc2
    · exact hready2 v hv

/-- The functions of the symbols are in the module, with the types of the signatures. -/
def LinkedTypes (M : Module) (types : TypeTable) (functions_ : AssocMap SymbolId Nat) : Prop :=
  ∀ id n signature, functions_.find id = some n →
    types.getFunctionSignature id = some signature → ∃ F, M.functions[n]? = some F ∧
      F.parameters = signature.parameters.map lowerTy ∧ F.result = lowerTy signature.result

/-- The operands of a call, for the parameters of the callee. -/
theorem operands_typed {values : List TypedValue}
    (h : ∀ v ∈ values, Ready M parameters known g v) :
    List.Forall₂ (fun op type => g.builder.Usable M parameters known op (.of type))
      (values.map (·.value)) ((values.map (·.type)).map lowerTy) := by
  induction values with
  | nil => exact .nil
  | cons v values ih =>
    exact .cons (h v List.mem_cons_self) (ih fun v' hv' => h v' (List.mem_cons_of_mem _ hv'))

theorem computes_call (h : Sound M parameters result known g)
    (hlinked : LinkedTypes M types functions_) {id : SymbolId} {n : Nat}
    {signature : FunctionSignature} (hn : functions_.find id = some n)
    (hsignature : types.getFunctionSignature id = some signature) (values : List TypedValue)
    (hready : ∀ v ∈ values, Ready M parameters known g v)
    (htypes : values.map (·.type) = signature.parameters) :
    Ensures (createInstruction (.call (.defined n) (values.map (·.value)))) g (fun _ => True)
      fun op g' => Computes M parameters result known g op (.of (lowerTy signature.result)) g' := by
  obtain ⟨F, hF, hparameters, hresult⟩ := hlinked id n signature hn hsignature
  have hoperands := operands_typed hready
  rw [htypes, ← hparameters] at hoperands
  refine computes_instruction h (.call (.defined n) _) trivial ⟨F, hF, hoperands⟩ ?_
  simp [Instruction.resultTy, hF, hresult]

section

variable (h : Checked t program types τ) (hlayouts : Layouts t types program constructors_)
  (hdeclared : ∀ s, t.getSymbol s.id = some s → s.kind = .Function →
    ∃ n, functions_.find s.id = some n)

include h

theorem certified_functionCall (hlinked : LinkedTypes M types functions_) {s : Symbol}
    (hs : ∃ name, t.getLocalSymbol getRootScopeId name = some s) (hkind : s.kind = .Function)
    {arguments : List Expression}
    (ih : ∀ a ∈ arguments, ExpressionCertified M parameters result t types program τ functions_
      constructors_ a) {Ps : List TypeVariant} {T : TypeVariant}
    (hsargs : ∀ a ∈ arguments, t.WellScoped a locals) (hT : τ s.id = functionTypes Ps T)
    (hTargs : List.Forall₂ (HasType t program τ) arguments Ps)
    (ha : Apart (arguments.flatMap t.boundIn) locals)
    (hp : Positioned M parameters result τ locals known g) :
    Certifies M parameters result known (emitFunctionCall types functions_ s
      (arguments.map (emitExpression t types functions_ constructors_))) g := by
  obtain ⟨name, hlocal⟩ := hs
  obtain ⟨signature, hfacts⟩ := function_facts h hlocal hkind
  unfold Certifies emitFunctionCall
  cases hn : functions_.find s.id with
  | none => exact ensures_throw trivial
  | some n =>
    simp only [hfacts.found, List.length_map]
    by_cases hlen : signature.parameters.length = arguments.length
    · simp only [Option.filter, hlen, decide_true, if_true]
      have htypes := hfacts.type.symm.trans hT
      obtain ⟨rfl, rfl⟩ := functionTypes_inj (hlen.trans hTargs.length_eq) htypes
      apply ensures_bind
      refine ensures_reserve ?_ trivial
      apply ensures_bind
      refine (certified_arguments ih hsargs hTargs ha hp).mono fun values g1 h1 => ?_
      obtain ⟨hvalues, known1, hready, hc1⟩ := h1
      apply ensures_bind
      refine (computes_call (.of_proceeds hc1) hlinked hn hfacts.found values hready hvalues).mono
        fun value g2 h2 => ?_
      exact ensures_pure _ ⟨known1, h2.usable, hc1.trans h2.proceeds⟩
    · simp only [Option.filter, hlen, decide_false, Bool.false_eq_true, if_false]
      exact ensures_throw trivial

include hlayouts

theorem certified_constructorCall {s : Symbol}
    (hs : ∃ name, t.getLocalSymbol getRootScopeId name = some s) (hkind : s.kind = .Constructor)
    {arguments : List Expression}
    (ih : ∀ a ∈ arguments, ExpressionCertified M parameters result t types program τ functions_
      constructors_ a) {Ps : List TypeVariant} {T : TypeVariant}
    (hsargs : ∀ a ∈ arguments, t.WellScoped a locals) (hT : τ s.id = functionTypes Ps T)
    (hTargs : List.Forall₂ (HasType t program τ) arguments Ps)
    (ha : Apart (arguments.flatMap t.boundIn) locals)
    (hp : Positioned M parameters result τ locals known g) :
    Certifies M parameters result known (emitConstructorCall constructors_ s
      (arguments.map (emitExpression t types functions_ constructors_))) g := by
  obtain ⟨name, hlocal⟩ := hs
  obtain ⟨layout, hlayout, hfacts⟩ := constructor_facts h hlayouts hlocal hkind
  unfold Certifies emitConstructorCall
  simp only [getLayout_eq hlayout, pure_bind, List.length_map]
  by_cases hlen : layout.fields.length = arguments.length
  · simp only [hlen, if_true]
    have htypes := hfacts.type.symm.trans hT
    obtain ⟨rfl, rfl⟩ := functionTypes_inj (hlen.trans hTargs.length_eq) htypes
    apply ensures_bind
    refine ensures_reserve ?_ trivial
    apply ensures_bind
    refine (certified_arguments ih hsargs hTargs ha hp).mono fun values g1 h1 => ?_
    obtain ⟨hvalues, known1, hready, hc1⟩ := h1
    refine (computes_constructedValue (.of_proceeds hc1) hvalues hready).mono fun v g2 h2 => ?_
    exact ⟨known1, h2.2, hc1.trans h2.1.proceeds⟩
  · simp only [hlen, if_false]
    exact ensures_throw trivial

theorem certified_variable {id : NodeId} {name : String}
    (hs : t.VariableScoped id name locals)
    (hp : Positioned M parameters result τ locals known g) :
    Certifies M parameters result known (emitVariable t constructors_ id name) g := by
  obtain ⟨s, hresolved, hname, hkinds⟩ := hs
  unfold Certifies emitVariable
  rcases hkinds with ⟨hkind | hkind, hlocal⟩ | ⟨hkind, hmem⟩
  · obtain ⟨layout, hlayout, hfacts⟩ := constructor_facts h hlayouts hlocal hkind
    simp only [hresolved, hkind, getLayout_eq hlayout, pure_bind]
    cases hfields : layout.fields with
    | nil =>
      refine (computes_constructedValue hp.sound (by simpa using hfields.symm)
        (by simp)).mono fun v g1 h1 => ?_
      exact ⟨known, h1.2, h1.1.proceeds⟩
    | cons T Ts => exact ensures_throw trivial
  · simp only [hresolved, hkind]
    exact ensures_throw trivial
  · obtain ⟨_, value, hvalue, _⟩ := hp.typed s.id hmem
    rcases hkind with hkind | hkind
    all_goals
      simp only [hresolved, hkind]
      refine ensures_bind (ensures_getLocals ?_)
      simp only [hvalue]
      exact ensures_pure value ⟨known, hp.ready s.id hmem value hvalue,
        .refl hp.sound.certified hp.sound.opened⟩

theorem certified_call (hlinked : LinkedTypes M types functions_) (id : NodeId) (name : String) :
    CalleeCertified M parameters result t types program τ functions_ constructors_
      (.Variable id name) := by
  intro arguments Ps locals known g T hne ih hs hsargs hT hTargs ha hp
  obtain ⟨s, hresolved, hname, hkinds⟩ := hs
  generalize hS : functionTypes Ps T = S at hT
  rcases hT with _ | @⟨_, _, s', hresolved'⟩
  rw [hresolved] at hresolved'
  cases hresolved'
  simp only [emitApplication, emitCall, hresolved, ScopeTree.boundIn, List.nil_append] at ha ⊢
  rcases hkinds with ⟨hkind | hkind, hlocal⟩ | ⟨hkind, hmem⟩
  · simp only [hkind]
    exact certified_constructorCall h hlayouts ⟨name, hlocal⟩ hkind ih hsargs hS.symm hTargs ha hp
  · simp only [hkind]
    exact certified_functionCall h hlinked ⟨name, hlocal⟩ hkind ih hsargs hS.symm hTargs ha hp
  · -- a local is not called
    rcases hkind with hkind | hkind
    all_goals
      simp only [hkind]
      exact ensures_throw trivial

end

theorem certified_operator {kind : BinaryOperatorKind} {id : NodeId} {l r : Expression}
    (ihl : ExpressionCertified M parameters result t types program τ functions_ constructors_ l)
    (ihr : ExpressionCertified M parameters result t types program τ functions_ constructors_ r)
    {T : TypeVariant} (hs : t.WellScoped (.BinaryOperator kind id l r) locals)
    (hT : HasType t program τ (.BinaryOperator kind id l r) T)
    (ha : Apart (t.boundIn (.BinaryOperator kind id l r)) locals)
    (hp : Positioned M parameters result τ locals known g) :
    Certifies M parameters result known
      (emitExpression t types functions_ constructors_ (.BinaryOperator kind id l r)) g := by
  obtain ⟨hsl, hsr⟩ := hs
  rcases hT with _ | _ | ⟨hTl, hTr⟩
  unfold Certifies
  simp only [emitExpression]
  apply ensures_bind
  refine (ihl locals known g _ hsl hTl ha.left hp).mono fun left g1 h1 => ?_
  obtain ⟨⟨htype1, _, hb1⟩, known1, hready1, hc1⟩ := h1
  apply ensures_bind
  refine (ihr locals known1 g1 _ hsr hTr ha.right
    (hp.proceeds hc1 hb1 ha.left.2)).mono fun right g2 h2 => ?_
  obtain ⟨⟨htype2, _, _⟩, known2, hready2, hc2⟩ := h2
  have hleft : g2.builder.Usable M parameters known2 left.value (.of .i64) := by
    have := hready1.proceeds hc2
    rw [Ready, htype1] at this
    exact this
  have hright : g2.builder.Usable M parameters known2 right.value (.of .i64) := by
    rw [Ready, htype2] at hready2
    exact hready2
  apply ensures_bind
  refine (computes_createBinary (.of_proceeds hc2) (opcode kind) hleft hright).mono
    fun value g3 h3 => ?_
  exact ensures_pure _ ⟨known2, h3.usable, (hc1.trans hc2).trans h3.proceeds⟩

theorem certified_application {id : NodeId} {f a : Expression}
    (ihf : CalleeCertified M parameters result t types program τ functions_ constructors_ f)
    (iha : ExpressionCertified M parameters result t types program τ functions_ constructors_ a) :
    CalleeCertified M parameters result t types program τ functions_ constructors_
      (.Application id f a) := by
  intro arguments Ps locals known g T _ ih hs hsargs hT hTargs ha hp
  obtain ⟨hsf, hsa⟩ := hs
  rcases hT with _ | _ | _ | @⟨_, _, _, P, _, hTf, hTa⟩
  have hcall := ihf (a :: arguments) (P :: Ps) locals known g T (by simp)
    (List.forall_mem_cons.mpr ⟨iha, ih⟩) hsf (List.forall_mem_cons.mpr ⟨hsa, hsargs⟩) hTf
    (.cons hTa hTargs) (by simpa using ha) hp
  simpa using hcall

/-- What is no name is not called. -/
theorem callee_throws {e : Expression}
    (hthrow : ∀ arguments, emitApplication t types functions_ constructors_ e arguments =
      throw .OnlyNamedAreCallable) :
    CalleeCertified M parameters result t types program τ functions_ constructors_ e := by
  intro arguments Ps locals known g T _ _ _ _ _ _ _ _
  unfold Certifies
  rw [hthrow]
  exact ensures_throw trivial

/-! ## Patterns -/

theorem certified_variablePattern {id : NodeId} {name : String} {scrutinee : TypedValue}
    {S : TypeVariant} (hp : t.PatternScoped (.VariablePattern id name))
    (hS : PatternHasType t program τ S (.VariablePattern id name))
    (hground : containsFunctionType S = false) (htype : scrutinee.type = S)
    (hready : Ready M parameters known g scrutinee)
    (hpos : Positioned M parameters result τ locals known g) :
    Ensures (emitVariablePattern t id name scrutinee) g (fun _ => True) fun _ g' =>
      Positioned M parameters result τ (t.patternSymbols (.VariablePattern id name) ++ locals)
        known g' ∧ g'.builder = g.builder := by
  obtain ⟨⟨sid, hsid, hnames⟩, -⟩ := hp
  obtain ⟨sid', s, hsid', hs, rfl⟩ := hS
  have hid : t.getScopeId id = some sid := hsid
  rw [hid] at hsid'
  cases hsid'
  obtain ⟨s', hs', hkind⟩ := hnames name List.mem_cons_self
  rw [hs] at hs'
  cases hs'
  have hsymbols : t.patternSymbols (.VariablePattern id name) = [s.id] := by
    simp [patternSymbols, Pattern.id, Pattern.names, symbolsIn, hid, hs]
  have hsymbol : getSymbolInNodeScope t id name .PatternVariable = some s := by
    simp [getSymbolInNodeScope, hid, hs, hkind, Option.filter]
  unfold emitVariablePattern
  simp only [hsymbol, hsymbols]
  exact ensures_setLocal ⟨hpos.bind hground htype hready, rfl⟩

theorem certified_patternFields {name : String} {sid : ScopeId} {scrutinee : Operand}
    {index : Nat} {arguments : List String} {Ts : List TypeVariant}
    (hT : List.Forall₂ (fun name T => ∃ s, t.getLocalSymbol sid name = some s ∧ τ s.id = T)
      arguments Ts)
    (hground : ∀ T ∈ Ts, containsFunctionType T = false)
    (hscrutinee : g.builder.Usable M parameters known scrutinee (.of .ptr))
    (hpos : Positioned M parameters result τ locals known g) :
    Ensures (bindPatternFields t name sid scrutinee index arguments Ts) g (fun _ => True)
      fun _ g' => Positioned M parameters result τ (t.symbolsIn sid arguments ++ locals) known g' ∧
        Proceeds M parameters result g.builder known g'.builder known := by
  induction hT generalizing index locals g with
  | nil => exact ensures_pure () ⟨hpos, .refl hpos.sound.certified hpos.sound.opened⟩
  | @cons argument T arguments Ts hT _ ih =>
    obtain ⟨s, hs, rfl⟩ := hT
    have hsymbols : t.symbolsIn sid (argument :: arguments) =
        s.id :: t.symbolsIn sid arguments := by
      simp [symbolsIn, hs]
    rw [bindPatternFields, hsymbols, hs]
    cases hkind : Option.filter (fun s : Symbol => decide (s.kind = .PatternVariable)) (some s) with
    | none => exact ensures_throw trivial
    | some binding =>
      have hsame := (Option.filter_eq_some_iff.mp hkind).1
      cases hsame
      apply ensures_bind
      refine (computes_loadField hpos.sound hscrutinee index (τ s.id)).mono fun field g1 h1 => ?_
      apply ensures_bind
      apply ensures_setLocal
      have hpos1 := hpos.proceeds h1.proceeds h1.binds (by simp)
      have hpos2 := hpos1.bind (v := ⟨field, τ s.id⟩) (hground _ List.mem_cons_self) rfl h1.usable
      refine (ih (fun T hT => hground T (List.mem_cons_of_mem _ hT)) ?_ hpos2).mono
        fun _ g2 h2 => ?_
      · exact h1.toPasses.usable hscrutinee
      refine ⟨h2.1.mono fun s' hs' => ?_, h1.proceeds.trans h2.2⟩
      simp only [List.cons_append, List.mem_cons, List.mem_append] at hs' ⊢
      tauto

theorem certified_constructorPattern (h : Checked t program types τ)
    (hlayouts : Layouts t types program constructors_) {id : NodeId} {name : String}
    {arguments : List String} {S : TypeVariant}
    (hp : t.PatternScoped (.ConstructorPattern id name arguments))
    (hS : PatternHasType t program τ S (.ConstructorPattern id name arguments)) :
    ∃ ctor layout, t.getResolvedSymbol id = some ctor ∧ constructors_.find ctor.id = some layout ∧
      ∀ (scrutinee : Operand) (locals : List SymbolId) (known : Known) (g : GeneratorState),
        g.builder.Usable M parameters known scrutinee (.of .ptr) →
        Positioned M parameters result τ locals known g →
        Ensures (emitConstructorPattern t id name arguments scrutinee layout) g (fun _ => True)
          fun _ g' => Positioned M parameters result τ
            (t.patternSymbols (.ConstructorPattern id name arguments) ++ locals) known g' ∧
            Proceeds M parameters result g.builder known g'.builder known := by
  obtain ⟨⟨sid, hsid, hnames⟩, ctor, hctor, hkind, hlocal⟩ := hp
  obtain ⟨ctor', signature, hctor', hdeclares, rfl, sid', hsid', hT⟩ := hS
  rw [hctor] at hctor'
  cases hctor'
  have hid : t.getScopeId id = some sid := hsid
  rw [hid] at hsid'
  cases hsid'
  obtain ⟨layout, hlayout, hfacts⟩ := constructor_facts h hlayouts hlocal hkind
  obtain rfl := declares_unique h.typing.checks hdeclares hfacts.declares
  refine ⟨ctor, layout, hctor, hlayout, fun scrutinee locals known g hscrutinee hpos => ?_⟩
  have hsymbols : t.patternSymbols (.ConstructorPattern id name arguments) =
      t.symbolsIn sid arguments := by
    simp [patternSymbols, Pattern.id, Pattern.names, hid]
  unfold emitConstructorPattern
  rw [if_neg (not_not.mpr hT.length_eq), hsymbols]
  simp only [hid]
  exact certified_patternFields hT hfacts.ground hscrutinee hpos

end mf.visitors
