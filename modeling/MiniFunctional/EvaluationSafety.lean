-- What evaluation of an accepted program can come to: a value of the inferred
-- type, or a fault of a division or of a case that does not name all
-- constructors. Without recursion it comes to one of them.
import MiniFunctional.AcyclicDepth
import MiniFunctional.RuntimeFailures

open mf.util mf.ast mf.parsing mf.tokenization mf.evaluation llvm
open mf.semantics hiding Frame

namespace mf.visitors

open ExceptLaws ScopeTree

variable {t : ScopeTree} {program : Program} {types : TypeTable} {τ : Typing}

/-! ## Where evaluation may fail -/

/-- The branch is taken whatever the value is. -/
def Branch.Always (b : Branch) : Prop := ∃ id name, b.pattern = .VariablePattern id name

/-- The branch is for the constructor. -/
def Branch.Names (b : Branch) (ctor : Constructor) : Prop :=
  ∃ id arguments, b.pattern = .ConstructorPattern id ctor.name arguments

/-- A branch is always taken, or each constructor of a data type, of which there
is one, has a branch. -/
def Exhaustive (program : Program) (branches : List Branch) : Prop :=
  (∃ b ∈ branches, Branch.Always b) ∨
  ∃ dt, .DataTypeDefinition dt ∈ program.definitions ∧
    (∃ ctor ∈ dt.constructors, ∃ b ∈ branches, Branch.Names b ctor) ∧
    ∀ ctor ∈ dt.constructors, ∃ b ∈ branches, Branch.Names b ctor

/-- The fault of a division. -/
def Fault.OfDivision (fault : Fault) : Prop :=
  fault = .DivisionByZero ∨ fault = .DivisionOverflow

mutual

/-- The expression has a node at which evaluation may come to the fault. -/
@[simp] def MayFail (program : Program) (fault : Fault) : Expression → Prop
  | .IntLiteral _ _ => False
  | .Variable _ _ => False
  | .BinaryOperator kind _ left right =>
    (kind = .Division ∧ Fault.OfDivision fault) ∨ MayFail program fault left ∨
      MayFail program fault right
  | .Application _ function argument =>
    MayFail program fault function ∨ MayFail program fault argument
  | .CaseExpression _ scrutinee branches =>
    (fault = .NoMatchingBranch ∧ ¬ Exhaustive program branches) ∨
      MayFail program fault scrutinee ∨ MayFailBranches program fault branches

@[simp] def MayFailBranches (program : Program) (fault : Fault) : List Branch → Prop
  | [] => False
  | ⟨_, _, body⟩ :: branches => MayFail program fault body ∨ MayFailBranches program fault branches

end

mutual

/-- The functions that the expression names. -/
@[simp] def functionsIn (t : ScopeTree) : Expression → List SymbolId
  | .IntLiteral _ _ => []
  | .Variable id _ => ((t.getResolvedSymbol id).filter (·.kind = .Function)).toList.map (·.id)
  | .BinaryOperator _ _ left right => functionsIn t left ++ functionsIn t right
  | .Application _ function argument => functionsIn t function ++ functionsIn t argument
  | .CaseExpression _ scrutinee branches =>
    functionsIn t scrutinee ++ functionsInBranches t branches

@[simp] def functionsInBranches (t : ScopeTree) : List Branch → List SymbolId
  | [] => []
  | ⟨_, _, body⟩ :: branches => functionsIn t body ++ functionsInBranches t branches

end

theorem mayFailBranches_iff {fault : Fault} {bs : List Branch} :
    MayFailBranches program fault bs ↔ ∃ b ∈ bs, MayFail program fault b.body := by
  induction bs with
  | nil => simp
  | cons b bs ih =>
    obtain ⟨id, p, e⟩ := b
    simp [ih]

theorem mem_functionsInBranches {s : SymbolId} {bs : List Branch} :
    s ∈ functionsInBranches t bs ↔ ∃ b ∈ bs, s ∈ functionsIn t b.body := by
  induction bs with
  | nil => simp
  | cons b bs ih =>
    obtain ⟨id, p, e⟩ := b
    simp [ih]

/-! ## Patterns -/

variable {locals : List SymbolId} {env : Environment (BitVec 64)} {E : Fault → Prop}

/-- The pattern is for values such as `v`. -/
def Fits (v : Datum) (pattern : Pattern) : Prop :=
  (∃ id name, pattern = .VariablePattern id name) ∨
  ∃ id name arguments fields, pattern = .ConstructorPattern id name arguments ∧
    v = .ConstructedValue name fields

theorem bindNames_spec {id : NodeId} {sid : ScopeId} (hid : t.getScopeId id = some sid)
    {names : List String} {Ts : List TypeVariant} (hTs : NamesTyped t τ sid names Ts)
    {vs : List Datum} (hvs : List.Forall₂ (ValueHasType t program) vs Ts)
    (henv : EnvHasTypes t program τ locals env) :
    Satisfies (bindNames t id names vs env) E fun env' =>
      EnvHasTypes t program τ (t.symbolsIn sid names ++ locals) env' := by
  induction hTs generalizing vs locals env with
  | nil =>
    cases hvs
    exact henv
  | @cons name T names Ts hT _ ih =>
    rcases hvs with _ | ⟨hv, hvs⟩
    obtain ⟨s, hs, rfl⟩ := hT
    unfold bindNames
    simp only [hid, Option.bind_some, hs]
    refine (ih hvs (henv.insert hv)).mono fun env' henv' => henv'.mono fun x hx => ?_
    simp only [ScopeTree.symbolsIn, List.filterMap_cons, hs, Option.map_some, List.cons_append,
      List.mem_cons, List.mem_append] at hx ⊢
    tauto

section

variable (h : Checked t program types τ)

include h

/-- A pattern that is for the value binds its variables to values of their types. -/
theorem matchValue_spec {pattern : Pattern} {S : TypeVariant} (hp : t.PatternScoped pattern)
    (hS : PatternHasType t program τ S pattern) {v : Datum} (hv : ValueHasType t program v S)
    (henv : EnvHasTypes t program τ locals env) :
    Satisfies (matchValue t pattern v env) E fun matched =>
      (∀ env', matched = some env' →
        EnvHasTypes t program τ (t.patternSymbols pattern ++ locals) env') ∧
      (matched = none → ¬ Fits v pattern) := by
  obtain ⟨⟨sid, hsid, _⟩, hctor⟩ := hp
  have hsymbols : t.patternSymbols pattern = t.symbolsIn sid (Pattern.names pattern) := by
    unfold ScopeTree.patternSymbols
    rw [hsid]
  have hbound : ∀ {names : List String} {Ts : List TypeVariant} {vs : List Datum},
      NamesTyped t τ sid names Ts → List.Forall₂ (ValueHasType t program) vs Ts →
      Satisfies (some <$> bindNames t pattern.id names vs env) E fun matched =>
        (∀ env', matched = some env' →
          EnvHasTypes t program τ (t.symbolsIn sid names ++ locals) env') ∧
        (matched = none → ¬ Fits v pattern) := by
    intro names Ts vs hTs hvs
    refine satisfies_map.mpr ((bindNames_spec hsid hTs hvs henv).mono fun env' henv' => ?_)
    refine ⟨fun env'' heq => ?_, fun heq => (by cases heq)⟩
    cases heq
    exact henv'
  rw [hsymbols]
  cases pattern with
  | VariablePattern id name =>
    obtain ⟨sid', s, hsid', hs, rfl⟩ := hS
    have hid : t.getScopeId id = some sid := hsid
    rw [hid] at hsid'
    cases hsid'
    exact hbound (.cons ⟨s, hs, rfl⟩ .nil) (.cons hv .nil)
  | ConstructorPattern id name arguments =>
    obtain ⟨s, hs, _, hglobal⟩ := hctor
    obtain ⟨s', signature, hs', hdeclares, rfl, sid', hsid', hTs⟩ := hS
    rw [hs] at hs'
    cases hs'
    have hid : t.getScopeId id = some sid := hsid
    rw [hid] at hsid'
    cases hsid'
    obtain rfl := (h.scopes.named _ _ _ hglobal).2
    obtain ⟨vname, fields, ctor, signature', rfl, hname, hdeclares', _, hfields⟩ :=
      hv.isConstructed
    unfold matchValue
    simp only [hs]
    by_cases hn : vname = s.name
    · -- the value's constructor is the pattern's, and so are its fields
      rw [hn, hglobal] at hname
      cases hname
      obtain rfl := declares_unique h.typing.checks hdeclares' hdeclares
      have hlen : fields.length = arguments.length := hfields.length_eq.trans hTs.length_eq.symm
      rw [if_pos ⟨hn, hlen⟩]
      exact hbound hTs hfields
    · rw [if_neg fun hboth => hn hboth.1]
      refine ⟨fun env' heq => (by cases heq), fun _ hfits => ?_⟩
      rcases hfits with ⟨_, _, heq⟩ | ⟨_, _, _, _, heq, hvalue⟩
      · cases heq
      · cases heq
        cases hvalue
        exact hn rfl

omit h in
theorem definition_unique (hnodup : program.ids.Nodup) {d d' : Definition}
    (hd : d ∈ program.definitions) (hd' : d' ∈ program.definitions) {id : NodeId}
    (hid : id ∈ d.ids) (hid' : id ∈ d'.ids) : d = d' := by
  by_contra hne
  have hsymm : Std.Symm (Function.onFun List.Disjoint Definition.ids) :=
    ⟨fun _ _ hdisjoint => hdisjoint.symm⟩
  have hdisjoint := (List.nodup_flatMap.mp hnodup).2
  exact hdisjoint.forall hd hd' hne hid hid'

/-- Different names have different symbols. -/
theorem name_unique {name name' : String} {s s' : Symbol}
    (hs : t.getLocalSymbol getRootScopeId name = some s)
    (hs' : t.getLocalSymbol getRootScopeId name' = some s') (hid : s.id = s'.id) :
    name = name' := by
  obtain ⟨hsymbol, hname⟩ := h.scopes.named _ _ _ hs
  obtain ⟨hsymbol', hname'⟩ := h.scopes.named _ _ _ hs'
  rw [hid, hsymbol'] at hsymbol
  cases hsymbol
  exact hname.symm.trans hname'

theorem dataType_unique {dt dt' : DataTypeDefinition}
    (hdt : .DataTypeDefinition dt ∈ program.definitions)
    (hdt' : .DataTypeDefinition dt' ∈ program.definitions) (hname : dt.name = dt'.name) :
    dt = dt' := by
  obtain ⟨s, hs, _, hid⟩ := global_symbol h.scopes (mem_globalFrame hdt List.mem_cons_self)
  obtain ⟨s', hs', _, hid'⟩ := global_symbol h.scopes (mem_globalFrame hdt' List.mem_cons_self)
  simp only at hs hs' hid hid'
  rw [← hname, hs] at hs'
  cases hs'
  have hmem : s.declaration ∈ (Definition.DataTypeDefinition dt).ids := by
    simp [Definition.ids, hid]
  have hmem' : s.declaration ∈ (Definition.DataTypeDefinition dt').ids := by
    simp [Definition.ids, hid']
  have heq := definition_unique h.ids hdt hdt' hmem hmem'
  cases heq
  rfl

theorem constructor_unique {dt dt' : DataTypeDefinition}
    (hdt : .DataTypeDefinition dt ∈ program.definitions)
    (hdt' : .DataTypeDefinition dt' ∈ program.definitions) {ctor ctor' : Constructor}
    (hctor : ctor ∈ dt.constructors) (hctor' : ctor' ∈ dt'.constructors)
    (hname : ctor.name = ctor'.name) : dt = dt' := by
  have hframe : ∀ {dt : DataTypeDefinition} {ctor : Constructor}, ctor ∈ dt.constructors →
      .DataTypeDefinition dt ∈ program.definitions →
      (⟨ctor.name, .Constructor, ctor.id⟩ : Binder) ∈ globalFrame program := fun hctor hdt =>
    mem_globalFrame hdt (List.mem_cons_of_mem _ (List.mem_map.mpr ⟨_, hctor, rfl⟩))
  obtain ⟨s, hs, _, hid⟩ := global_symbol h.scopes (hframe hctor hdt)
  obtain ⟨s', hs', _, hid'⟩ := global_symbol h.scopes (hframe hctor' hdt')
  simp only at hs hs' hid hid'
  rw [← hname, hs] at hs'
  cases hs'
  have hmem : s.declaration ∈ (Definition.DataTypeDefinition dt).ids :=
    List.mem_cons_of_mem _ (List.mem_map.mpr ⟨ctor, hctor, hid.symm⟩)
  have hmem' : s.declaration ∈ (Definition.DataTypeDefinition dt').ids :=
    List.mem_cons_of_mem _ (List.mem_map.mpr ⟨ctor', hctor', hid'.symm⟩)
  cases definition_unique h.ids hdt hdt' hmem hmem'
  rfl

/-- Of an exhaustive case, a branch is for the value. -/
theorem exhaustive_fits {branches : List Branch} {S : TypeVariant}
    (hscoped : ∀ b ∈ branches, t.PatternScoped b.pattern)
    (hS : ∀ b ∈ branches, PatternHasType t program τ S b.pattern)
    (hexhaustive : Exhaustive program branches) {v : Datum} (hv : ValueHasType t program v S) :
    ∃ b ∈ branches, Fits v b.pattern := by
  rcases hexhaustive with ⟨b, hb, halways⟩ | ⟨dt, hdt, ⟨ctor, hctor, b, hb, id, arguments, hnames⟩,
    hall⟩
  · exact ⟨b, hb, .inl halways⟩
  · -- the scrutinee's type is the data type whose constructors have branches
    have hscoped := hscoped b hb
    have hS := hS b hb
    rw [hnames] at hscoped hS
    obtain ⟨_, cs, hcs, _, hglobal⟩ := hscoped
    obtain ⟨cs', signature, hcs', hdeclares, rfl, _⟩ := hS
    rw [hcs] at hcs'
    cases hcs'
    obtain ⟨dt', hdt', ctor', hctor', d', hd', hdata', ⟨s', hs', hid'⟩, _⟩ := hdeclares
    obtain rfl := constructor_unique h hdt' hdt hctor' hctor (name_unique h hs' hglobal hid')
    obtain ⟨vname, fields, vs, vsignature, rfl, hvs, hvdeclares, hvdata, _⟩ := hv.isConstructed
    obtain ⟨vdt, hvdt, vctor, hvctor, vd, hvd, hvd', ⟨s'', hs'', hid''⟩, _⟩ := hvdeclares
    have hdata : vd.id = d'.id := hvd'.symm.trans (hvdata.trans hdata')
    obtain rfl := dataType_unique h hvdt hdt' (name_unique h hvd hd' hdata)
    have hvname := name_unique h hs'' hvs hid''
    obtain ⟨b', hb', id', arguments', hnames'⟩ := hall vctor hvctor
    exact ⟨b', hb', .inr ⟨id', vname, arguments', fields, by rw [hnames', hvname], rfl⟩⟩

end

/-! ## Expressions -/

variable {calls : Symbol → List Datum → Evaluated Datum}

section

variable (t program types calls E)

/-- Each of the functions, called with arguments of its parameters' types, comes
to a value of its result type or to a fault of `E`. -/
def CallsEnd (functions : List SymbolId) : Prop :=
  ∀ name s signature, t.getLocalSymbol getRootScopeId name = some s → s.kind = .Function →
    s.id ∈ functions → types.getFunctionSignature s.id = some signature →
    ∀ vs, List.Forall₂ (ValueHasType t program) vs signature.parameters →
      Satisfies (calls s vs) E fun v => ValueHasType t program v signature.result

/-- The expression has no node of a fault outside `E`, and its calls come to none. -/
structure FaultsWithin (e : Expression) : Prop where
  faults : ∀ fault, MayFail program fault e → E fault
  calls : CallsEnd t program types E calls (functionsIn t e)

variable (τ)

/-- Evaluation of the expression comes to a value of its type or to a fault of `E`. -/
def Ends (e : Expression) : Prop :=
  ∀ locals env T, t.WellScoped e locals → HasType t program τ e T →
    compilable t types e = true → EnvHasTypes t program τ locals env →
    FaultsWithin t program types E calls e →
    Satisfies (evalDatum t program types calls e env) E fun v => ValueHasType t program v T

/-- So does its application to arguments that come to such. -/
def EndsCallee (e : Expression) : Prop :=
  ∀ (xs : List (Evaluated Datum)) (Ps : List TypeVariant) locals env T, xs ≠ [] →
    List.Forall₂ (fun x P => Satisfies x E fun v => ValueHasType t program v P) xs Ps →
    t.WellScoped e locals → HasType t program τ e (functionTypes Ps T) →
    compilableCallee t types e xs.length = true → EnvHasTypes t program τ locals env →
    FaultsWithin t program types E calls e →
    Satisfies (eval program t types calls e env >>= fun r =>
        applyAll program types calls r xs >>= Result.datum) E
      fun v => ValueHasType t program v T

end

theorem CallsEnd.mono {functions functions' : List SymbolId}
    (h : CallsEnd t program types E calls functions) (hsub : ∀ s ∈ functions', s ∈ functions) :
    CallsEnd t program types E calls functions' :=
  fun name s signature hs hkind hmem => h name s signature hs hkind (hsub s.id hmem)

theorem evalAll_spec {xs : List (Evaluated Datum)} {Ps : List TypeVariant}
    (h : List.Forall₂ (fun x P => Satisfies x E fun v => ValueHasType t program v P) xs Ps) :
    Satisfies (evalAll xs) E fun vs => List.Forall₂ (ValueHasType t program) vs Ps := by
  induction h with
  | nil => exact .nil
  | cons hx _ ih =>
    unfold evalAll
    refine hx.bind fun v hv => ih.bind fun vs hvs => ?_
    exact .cons hv hvs

/-! ### Operators -/

theorem arithmetic_spec (kind : BinaryOperatorKind) (left right : BitVec 64)
    (hfaults : ∀ fault, kind = .Division ∧ Fault.OfDivision fault → E fault) :
    Satisfies (arithmetic kind left right) E fun _ => True := by
  cases kind with
  | Division =>
    unfold arithmetic
    simp only
    by_cases hzero : right = 0
    · rw [if_pos hzero]
      exact hfaults _ ⟨rfl, .inl rfl⟩
    · by_cases hleast : left = BitVec.intMin 64 ∧ right = -1
      · rw [if_neg hzero, if_pos hleast]
        exact hfaults _ ⟨rfl, .inr rfl⟩
      · rw [if_neg hzero, if_neg hleast]
        exact trivial
  | _ => exact trivial

theorem ends_operator {kind : BinaryOperatorKind} {id : NodeId} {l r : Expression}
    (ihl : Ends t program types τ E calls l) (ihr : Ends t program types τ E calls r) :
    Ends t program types τ E calls (.BinaryOperator kind id l r) := by
  intro locals env T hs hT hc henv hwithin
  rcases hT with _ | _ | ⟨hTl, hTr⟩
  simp only [compilable, Bool.and_eq_true] at hc
  obtain ⟨hfaults, hcalls⟩ := hwithin
  have hl := ihl locals env intType hs.1 hTl hc.1 henv
    ⟨fun fault hf => hfaults fault (.inr (.inl hf)),
      hcalls.mono fun s hs => List.mem_append_left _ hs⟩
  have hr := ihr locals env intType hs.2 hTr hc.2 henv
    ⟨fun fault hf => hfaults fault (.inr (.inr hf)),
      hcalls.mono fun s hs => List.mem_append_right _ hs⟩
  rw [evalDatum_operator]
  refine hl.bind fun x hx => ?_
  obtain ⟨a, rfl⟩ := hx.isInt
  rw [show integer (Value.int a) = .ok a from rfl, ok_bind]
  refine hr.bind fun y hy => ?_
  obtain ⟨b, rfl⟩ := hy.isInt
  rw [show integer (Value.int b) = .ok b from rfl, ok_bind]
  have harithmetic := arithmetic_spec kind a b fun fault hf => hfaults fault (.inl hf)
  exact harithmetic.bind fun c _ => ValueHasType.int

/-! ### Applications -/

theorem endsCallee_application {id : NodeId} {f a : Expression}
    (ihf : EndsCallee t program types τ E calls f) (iha : Ends t program types τ E calls a) :
    EndsCallee t program types τ E calls (.Application id f a) := by
  intro xs Ps locals env T _ hxs hs hT hc henv hwithin
  rcases hT with _ | _ | _ | @⟨_, _, _, P, _, hTf, hTa⟩
  simp only [compilableCallee, Bool.and_eq_true] at hc
  obtain ⟨hfaults, hcalls⟩ := hwithin
  have ha := iha locals env P hs.2 hTa hc.2 henv
    ⟨fun fault hf => hfaults fault (.inr hf), hcalls.mono fun s hs => List.mem_append_right _ hs⟩
  rw [eval_application]
  apply ihf (evalDatum t program types calls a env :: xs) (P :: Ps) locals env T (by simp)
    (.cons ha hxs) hs.1 hTf hc.1 henv
  exact ⟨fun fault hf => hfaults fault (.inl hf), hcalls.mono fun s hs => List.mem_append_left _ hs⟩

theorem ends_application {id : NodeId} {f a : Expression}
    (ihf : EndsCallee t program types τ E calls f) (iha : Ends t program types τ E calls a) :
    Ends t program types τ E calls (.Application id f a) := by
  intro locals env T hs hT hc henv hwithin
  rcases hT with _ | _ | _ | @⟨_, _, _, P, _, hTf, hTa⟩
  simp only [compilable, Bool.and_eq_true] at hc
  obtain ⟨hfaults, hcalls⟩ := hwithin
  have ha := iha locals env P hs.2 hTa hc.2 henv
    ⟨fun fault hf => hfaults fault (.inr hf), hcalls.mono fun s hs => List.mem_append_right _ hs⟩
  rw [evalDatum_application]
  apply ihf [evalDatum t program types calls a env] [P] locals env T (by simp) (.cons ha .nil)
    hs.1 hTf hc.1 henv
  exact ⟨fun fault hf => hfaults fault (.inl hf), hcalls.mono fun s hs => List.mem_append_left _ hs⟩

/-! ### Names -/

section

variable (h : Checked t program types τ)

include h

omit h in
theorem constructed_spec {s : Symbol} (hs : t.getLocalSymbol getRootScopeId s.name = some s)
    (hkind : s.kind = .Constructor) {layout : ConstructorLayout}
    (hfacts : ConstructorFacts t types program τ s.id layout) {vs : List Datum}
    (hvs : List.Forall₂ (ValueHasType t program) vs layout.fields) :
    Satisfies (complete program types calls s vs >>= Result.datum) E fun v =>
      ValueHasType t program v (dataType layout.data_type) := by
  have harity : arity program types s = some vs.length := by
    unfold arity
    simp only [hkind, hfacts.found, Option.map_some, hvs.length_eq]
  have hcomplete : complete program types calls s vs >>= Result.datum =
      .ok (.ConstructedValue s.name vs) := by
    unfold complete
    simp only [harity, hkind, if_true]
    rfl
  rw [hcomplete]
  exact ValueHasType.ConstructedValue hs hfacts.declares hvs

theorem ends_variable (id : NodeId) (name : String) :
    Ends t program types τ E calls (.Variable id name) := by
  intro locals env T hs hT hc henv _
  obtain ⟨s, hresolved, hname, hkinds⟩ := hs
  rcases hT with _ | @⟨_, _, s', hresolved'⟩
  rw [hresolved] at hresolved'
  cases hresolved'
  unfold evalDatum
  simp only [eval, evalVariable, hresolved]
  simp only [compilable, namesValue, saturates, hresolved] at hc
  rcases hkinds with ⟨hkind | hkind, hlocal⟩ | ⟨hkind, hmem⟩
  · rw [← hname] at hlocal
    obtain ⟨layout, _, hfacts⟩ := constructor_facts h (layouts h) hlocal hkind
    simp only [hkind, hfacts.found, Option.any_some, decide_eq_true_eq] at hc
    have hnil := List.length_eq_zero_iff.mp hc
    rw [if_pos hkind, hfacts.type, hnil]
    exact constructed_spec hlocal hkind hfacts (by rw [hnil]; exact .nil)
  · rw [hkind] at hc
    cases hc
  · obtain ⟨v, hv⟩ := henv.bound s.id hmem
    have htyped := henv.typed s.id v hv
    rcases hkind with hkind | hkind
    all_goals
      simp only [hkind, hv, reduceCtorEq, if_false]
      exact htyped

theorem endsCallee_variable (id : NodeId) (name : String) :
    EndsCallee t program types τ E calls (.Variable id name) := by
  intro xs Ps locals env T hne hxs hs hT hc henv hwithin
  obtain ⟨s, hresolved, hsaturated, heval⟩ :=
    saturated_callee h (layouts h) hs hT hne hxs.length_eq hc henv
  rw [heval]
  refine (evalAll_spec hxs).bind fun vs hvs => ?_
  cases hsaturated with
  | constructor hkind hlocal _ hfacts => exact constructed_spec hlocal hkind hfacts hvs
  | function hkind hlocal hfacts harity =>
    rw [complete_call hkind (by rw [harity, hvs.length_eq])]
    have hmem : s.id ∈ functionsIn t (.Variable id name) := by
      simp [functionsIn, hresolved, Option.filter, hkind]
    exact hwithin.calls s.name s _ hlocal hkind hmem hfacts.found vs hvs

/-! ### Cases -/

/-- The branches, of which the first that matches is taken. -/
theorem ends_branches {branches : List Branch}
    (ih : ∀ b ∈ branches, Ends t program types τ E calls b.body) {S T : TypeVariant}
    (hs : t.WellScopedBranches branches locals)
    (hS : ∀ b ∈ branches, PatternHasType t program τ S b.pattern)
    (hT : ∀ b ∈ branches, HasType t program τ b.body T)
    (hc : compilableBranches t types branches = true) {v : Datum}
    (hv : ValueHasType t program v S) (henv : EnvHasTypes t program τ locals env)
    (hwithin : ∀ b ∈ branches, FaultsWithin t program types E calls b.body)
    (hnone : (∀ b ∈ branches, ¬ Fits v b.pattern) → E .NoMatchingBranch) :
    Satisfies (evalBranches program t types calls branches v env >>= Result.datum) E
      fun v => ValueHasType t program v T := by
  induction branches with
  | nil => exact hnone (by simp)
  | cons b branches ihrest =>
    obtain ⟨bid, pattern, body⟩ := b
    rw [List.forall_mem_cons] at ih hS hT hwithin
    obtain ⟨hp, hbody, hrest⟩ := hs
    simp only [evalBranches, bind_assoc]
    refine (matchValue_spec h hp hS.1 hv henv).bind fun matched hmatched => ?_
    have hcbody : compilable t types body = true := by
      cases pattern with
      | VariablePattern id name => exact hc
      | ConstructorPattern id name arguments => exact (Bool.and_eq_true_iff.mp hc).1
    cases matched with
    | some env' => exact ih.1 _ env' T hbody hT.1 hcbody (hmatched.1 env' rfl) hwithin.1
    | none =>
      have hunfit := hmatched.2 rfl
      have hcrest : compilableBranches t types branches = true := by
        cases pattern with
        | VariablePattern id name => exact absurd (.inl ⟨id, name, rfl⟩) hunfit
        | ConstructorPattern id name arguments => exact (Bool.and_eq_true_iff.mp hc).2
      apply ihrest ih.2 hrest hS.2 hT.2 hcrest hwithin.2
      intro hothers
      apply hnone
      rw [List.forall_mem_cons]
      exact ⟨hunfit, hothers⟩

theorem ends_case {id : NodeId} {scrutinee : Expression} {branches : List Branch}
    (ihs : Ends t program types τ E calls scrutinee)
    (ihb : ∀ b ∈ branches, Ends t program types τ E calls b.body) :
    Ends t program types τ E calls (.CaseExpression id scrutinee branches) := by
  intro locals env T hs hT hc henv hwithin
  obtain ⟨hss, _, hsb⟩ := hs
  rcases hT with _ | _ | _ | _ | @⟨_, _, _, S, _, hTs, hS, hTb⟩
  simp only [compilable, Bool.and_eq_true] at hc
  obtain ⟨hfaults, hcalls⟩ := hwithin
  rw [evalDatum_case]
  have hscrutinee := ihs locals env S hss hTs hc.1 henv
    ⟨fun fault hf => hfaults fault (.inr (.inl hf)),
      hcalls.mono fun s hs => List.mem_append_left _ hs⟩
  refine hscrutinee.bind fun v hv => ?_
  apply ends_branches h ihb hsb hS hTb hc.2 hv henv
  · intro b hb
    constructor
    · intro fault hf
      exact hfaults fault (.inr (.inr (mayFailBranches_iff.mpr ⟨b, hb, hf⟩)))
    · exact hcalls.mono fun s hs =>
        List.mem_append_right _ (mem_functionsInBranches.mpr ⟨b, hb, hs⟩)
  · intro hunfit
    apply hfaults
    refine .inl ⟨rfl, fun hexhaustive => ?_⟩
    have hscoped := fun b hb => (wellScopedBranches_iff.mp hsb b hb).1
    obtain ⟨b, hb, hfits⟩ := exhaustive_fits h hscoped hS hexhaustive hv
    exact hunfit b hb hfits

theorem ends (e : Expression) :
    Ends t program types τ E calls e ∧ EndsCallee t program types τ E calls e := by
  have hnone : ∀ {e : Expression}, (∀ n, compilableCallee t types e n = false) →
      EndsCallee t program types τ E calls e := by
    intro e he xs Ps locals env T _ _ _ _ hc
    rw [he] at hc
    cases hc
  induction e with
  | IntLiteral id value =>
    refine ⟨fun locals env T _ hT _ _ _ => ?_, hnone fun _ => rfl⟩
    cases hT
    exact ValueHasType.int
  | Variable id name => exact ⟨ends_variable h id name, endsCallee_variable h id name⟩
  | BinaryOperator kind id l r ihl ihr =>
    exact ⟨ends_operator ihl.1 ihr.1, hnone fun _ => rfl⟩
  | Application id f a ihf iha =>
    exact ⟨ends_application ihf.2 iha.1, endsCallee_application ihf.2 iha.1⟩
  | CaseExpression id scrutinee branches ihs ihb =>
    exact ⟨ends_case h ihs.1 fun b hb => (ihb b hb).1, hnone fun _ => rfl⟩

end

/-! ## Calls -/

section

variable (t program)

/-- The body of the function `f` names the function `g`. -/
def CallsDirectly (f g : SymbolId) : Prop :=
  ∃ fd s, .FunctionDefinition fd ∈ program.definitions ∧
    t.getLocalSymbol getRootScopeId fd.name = some s ∧ s.id = f ∧ g ∈ functionsIn t fd.body

/-- Calls from `f` can get to `g`. -/
abbrev CallReaches : SymbolId → SymbolId → Prop := Relation.ReflTransGen (CallsDirectly t program)

/-- Calls from the function can get to it again. -/
def Recursive (f : SymbolId) : Prop := Relation.TransGen (CallsDirectly t program) f f

/-- A function that calls from `f` can get to has a node of the fault. -/
def MayComeTo (f : SymbolId) (fault : Fault) : Prop :=
  ∃ fd s, .FunctionDefinition fd ∈ program.definitions ∧
    t.getLocalSymbol getRootScopeId fd.name = some s ∧ CallReaches t program f s.id ∧
    MayFail program fault fd.body

def functionSymbol : Definition → Option SymbolId
  | .FunctionDefinition fd => (t.getLocalSymbol getRootScopeId fd.name).map (·.id)
  | .DataTypeDefinition _ => none

/-- The symbols of the functions. -/
def functionSymbols : List SymbolId := program.definitions.filterMap (functionSymbol t)

end

theorem MayComeTo.of_call {f g : SymbolId} {fault : Fault} (hcall : CallsDirectly t program f g)
    (hg : MayComeTo t program g fault) : MayComeTo t program f fault := by
  obtain ⟨fd, s, hfd, hs, hreach, hfail⟩ := hg
  exact ⟨fd, s, hfd, hs, .head hcall hreach, hfail⟩

/-- The nodes fail in no other way. -/
theorem mayFail_fault {fault : Fault} {e : Expression} (h : MayFail program fault e) :
    Fault.OfDivision fault ∨ fault = .NoMatchingBranch := by
  induction e with
  | IntLiteral id value => exact h.elim
  | Variable id name => exact h.elim
  | BinaryOperator kind id l r ihl ihr =>
    rcases h with ⟨_, hfault⟩ | hl | hr
    · exact .inl hfault
    · exact ihl hl
    · exact ihr hr
  | Application id f a ihf iha =>
    rcases h with hf | ha
    · exact ihf hf
    · exact iha ha
  | CaseExpression id scrutinee branches ihs ihb =>
    rcases h with ⟨hfault, _⟩ | hs | hb
    · exact .inr hfault
    · exact ihs hs
    · obtain ⟨b, hb, hfail⟩ := mayFailBranches_iff.mp hb
      exact ihb b hb hfail

theorem MayComeTo.fault {f : SymbolId} {fault : Fault} (h : MayComeTo t program f fault) :
    Fault.OfDivision fault ∨ fault = .NoMatchingBranch := by
  obtain ⟨_, _, _, _, _, hfail⟩ := h
  exact mayFail_fault hfail

/-- The functions that a scoped expression names are global. -/
theorem functionsIn_global {e : Expression} {locals : List SymbolId} (hs : t.WellScoped e locals)
    {f : SymbolId} (hf : f ∈ functionsIn t e) :
    ∃ name s, t.getLocalSymbol getRootScopeId name = some s ∧ s.kind = .Function ∧ s.id = f := by
  induction e generalizing locals with
  | IntLiteral id value => simp at hf
  | Variable id name =>
    obtain ⟨s, hresolved, _, hkinds⟩ := hs
    simp only [functionsIn, hresolved] at hf
    by_cases hkind : s.kind = .Function
    · simp only [Option.filter, hkind, decide_true, if_true, Option.toList_some, List.map_cons,
        List.map_nil, List.mem_singleton] at hf
      rcases hkinds with ⟨_, hglobal⟩ | ⟨hlocal, _⟩
      · exact ⟨name, s, hglobal, hkind, hf.symm⟩
      · simp [hkind] at hlocal
    · simp [Option.filter, hkind] at hf
  | BinaryOperator kind id l r ihl ihr =>
    rcases List.mem_append.mp hf with hl | hr
    · exact ihl hs.1 hl
    · exact ihr hs.2 hr
  | Application id f a ihf iha =>
    rcases List.mem_append.mp hf with hf | ha
    · exact ihf hs.1 hf
    · exact iha hs.2 ha
  | CaseExpression id scrutinee branches ihs ihb =>
    rcases List.mem_append.mp hf with hf | hf
    · exact ihs hs.1 hf
    · obtain ⟨b, hb, hf⟩ := mem_functionsInBranches.mp hf
      exact ihb b hb (wellScopedBranches_iff.mp hs.2.2 b hb).2 hf

section

variable (h : Checked t program types τ)

include h

theorem function_mem {name : String} {s : Symbol}
    (hs : t.getLocalSymbol getRootScopeId name = some s) (hkind : s.kind = .Function) :
    s.id ∈ (functionSymbols t program).toFinset := by
  obtain ⟨fd, hfd, rfl, _⟩ := function_declared h.scopes hs hkind
  rw [List.mem_toFinset]
  unfold functionSymbols
  rw [List.mem_filterMap]
  refine ⟨_, hfd, ?_⟩
  unfold functionSymbol
  simp only [hs, Option.map_some]

theorem callsDirectly_function {f g : SymbolId} (hcall : CallsDirectly t program f g) :
    g ∈ (functionSymbols t program).toFinset := by
  obtain ⟨fd, _, hfd, _, _, hg⟩ := hcall
  obtain ⟨_, _, hscoped⟩ := h.scopes.functions fd hfd
  obtain ⟨name, s, hs, hkind, rfl⟩ := functionsIn_global hscoped hg
  exact function_mem h hs hkind

variable (hbodies : ∀ fd, .FunctionDefinition fd ∈ program.definitions →
  compilable t types fd.body = true)

include hbodies

/-- A call comes to what its body may fail in, when the calls in it do. -/
theorem call_spec {name : String} {s : Symbol} (hs : t.getLocalSymbol getRootScopeId name = some s)
    (hkind : s.kind = .Function) {signature : FunctionSignature}
    (hsignature : types.getFunctionSignature s.id = some signature) {fuel : Nat}
    (hfaults : ∀ fault, MayComeTo t program s.id fault → E fault)
    (hcalls : ∀ g, CallsDirectly t program s.id g →
      CallsEnd t program types E (callWithin program t types fuel) [g]) {vs : List Datum}
    (hvs : List.Forall₂ (ValueHasType t program) vs signature.parameters) :
    Satisfies (callWithin program t types (fuel + 1) s vs) E fun v =>
      ValueHasType t program v signature.result := by
  obtain ⟨fd, hfd, hname, hdeclaration⟩ := function_declared h.scopes hs hkind
  obtain ⟨s', signature', hs', hsignature', _, ⟨sid, hsid, hparameters⟩, hbody⟩ :=
    h.functions fd hfd
  rw [hname, hs] at hs'
  cases hs'
  rw [hsignature] at hsignature'
  cases hsignature'
  obtain ⟨_, _, hscoped⟩ := h.scopes.functions fd hfd
  have hsymbols : t.parameterSymbols fd = t.symbolsIn sid fd.parameters := by
    simp [ScopeTree.parameterSymbols, hsid]
  simp only [callWithin, hdeclaration, findFunctionById_eq h.ids hfd]
  refine (bindNames_spec hsid hparameters hvs (envHasTypes_empty t program τ)).bind
    fun env henv => ?_
  rw [List.append_nil, ← hsymbols] at henv
  rw [← hname] at hs
  apply (ends h fd.body).1 _ env _ hscoped hbody (hbodies fd hfd) henv
  constructor
  · intro fault hfail
    exact hfaults fault ⟨fd, s, hfd, hs, .refl, hfail⟩
  · intro name' g signature' hg hgkind hmem
    have hcall : CallsDirectly t program s.id g.id := ⟨fd, s, hfd, hs, rfl, hmem⟩
    exact hcalls g.id hcall name' g signature' hg hgkind (by simp)

/-- However deep calls are, nothing else comes of one. -/
theorem callWithin_spec (fuel : Nat) {name : String} {s : Symbol}
    (hs : t.getLocalSymbol getRootScopeId name = some s) (hkind : s.kind = .Function)
    {signature : FunctionSignature} (hsignature : types.getFunctionSignature s.id = some signature)
    {vs : List Datum} (hvs : List.Forall₂ (ValueHasType t program) vs signature.parameters) :
    Satisfies (callWithin program t types fuel s vs)
      (fun fault => fault = .outOfFuel ∨ MayComeTo t program s.id fault)
      fun v => ValueHasType t program v signature.result := by
  induction fuel generalizing name s signature vs with
  | zero => exact .inl rfl
  | succ fuel ih =>
    apply call_spec h hbodies hs hkind hsignature (fun fault hfault => .inr hfault) ?_ hvs
    intro g hcall name' s' signature' hs' hkind' hmem hsignature' vs' hvs'
    obtain rfl := List.mem_singleton.mp hmem
    refine (ih hs' hkind' hsignature' hvs').weaken fun fault hfault => ?_
    exact hfault.imp id fun hfault => hfault.of_call hcall

/-- Without recursion no more calls are open at once than there are functions. -/
theorem callWithin_ends {name : String} {s : Symbol}
    (hs : t.getLocalSymbol getRootScopeId name = some s) (hkind : s.kind = .Function)
    (hrecursion : ∀ f, CallReaches t program s.id f → ¬ Recursive t program f)
    {signature : FunctionSignature} (hsignature : types.getFunctionSignature s.id = some signature)
    {vs : List Datum} (hvs : List.Forall₂ (ValueHasType t program) vs signature.parameters) :
    Satisfies (callWithin program t types (functionSymbols t program).toFinset.card s vs)
      (MayComeTo t program s.id) fun v => ValueHasType t program v signature.result := by
  have hall := AcyclicDepth.holds_at_card
    (P := fun n f => CallsEnd t program types (MayComeTo t program f)
      (callWithin program t types n) [f])
    (fun _ _ => callsDirectly_function h) (function_mem h hs hkind) hrecursion ?_
  · exact hall name s signature hs hkind (by simp) hsignature vs hvs
  · intro n f _ hnext name' s' signature' hs' hkind' hmem hsignature' vs' hvs'
    obtain rfl := List.mem_singleton.mp hmem
    apply call_spec h hbodies hs' hkind' hsignature' (fun fault hfault => hfault) ?_ hvs'
    intro g hcall name'' s'' signature'' hs'' hkind'' hmem' hsignature'' vs'' hvs''
    have hg := hnext g hcall name'' s'' signature'' hs'' hkind'' hmem' hsignature'' vs'' hvs''
    exact hg.weaken fun fault hfault => hfault.of_call hcall

end

/-! ## Programs -/

/-- What a module's `main` does: it prints the value that `main` comes to, or it
traps at the end of a case. Of the faults of divisions nothing is said. -/
inductive MainDoes (t : ScopeTree) (constructors_ : AssocMap SymbolId ConstructorLayout)
    (M : Module) : Evaluated Datum → Prop
  | prints {v : Datum} {line : String} {m : Memory} : shown t constructors_ v = some line →
    Runs M (mainIndex M) [] [] (.int32 0) m (line ++ "\n") → MainDoes t constructors_ M (.ok v)
  | traps : MainTraps M → MainDoes t constructors_ M (.error .NoMatchingBranch)
  | divides {fault : Fault} : Fault.OfDivision fault → MainDoes t constructors_ M (.error fault)

variable {tokens : TokenVector} {p : ParsedProgram} {result : TypeAnalysisResult} {M : Module}

/-- Evaluation of a program of which there is a module is never stuck: a call with
arguments of the parameters' types that ends, ends with a value of the result type
or in a fault of a node that its calls can get to. The tokens are the scanner's.
-/
theorem calls_safe (hl : tokens.Lexed) (hp : parse tokens = .ok p) (hok : (analyze p).ok)
    (hrun : analyzeTypes p (analyze p) = some result) (hresult : result.ok)
    (hgenerate : generateModule p.ast (analyze p).scopes result.types = .ok M)
    {name : String} {s : Symbol} {signature : FunctionSignature}
    (hs : (analyze p).scopes.getLocalSymbol getRootScopeId name = some s)
    (hkind : s.kind = .Function)
    (hsignature : result.types.getFunctionSignature s.id = some signature) {vs : List Datum}
    (hvs : List.Forall₂ (ValueHasType (analyze p).scopes p.ast) vs signature.parameters)
    {outcome : Evaluated Datum}
    (hcalls : Calls p.ast (analyze p).scopes result.types s vs outcome) :
    Satisfies outcome (MayComeTo (analyze p).scopes p.ast s.id) fun v =>
      ValueHasType (analyze p).scopes p.ast v signature.result := by
  obtain ⟨τ, h⟩ := checked hl hp hok hrun hresult
  have hbodies := fun fd hfd => (generateModule_bodies h hgenerate fd hfd).1
  obtain ⟨hfuel, fuel, hwithin⟩ := hcalls
  have hspec := callWithin_spec h hbodies fuel hs hkind hsignature hvs
  rw [hwithin] at hspec
  cases outcome with
  | ok v => exact hspec
  | error fault =>
    rcases hspec with rfl | hfault
    · exact absurd rfl hfuel
    · exact hfault

/-- A module is generated of `callProgram`, and `f` is from `Int` to `Int`. -/
theorem callProgram_generated : ∃ result M,
    analyzeTypes callProgram (analyze callProgram) = some result ∧ result.ok ∧
      generateModule callProgram.ast (analyze callProgram).scopes result.types = .ok M ∧
      result.types.getFunctionSignature 1 = some ⟨[intType], intType⟩ := by
  obtain ⟨result, M, hrun, hresult, hM⟩ := generated_of_isOk (p := callProgram) (by decide +kernel)
  have hsignature : (analyzeTypes callProgram (analyze callProgram)).map
      (·.types.getFunctionSignature 1) = some (some ⟨[intType], intType⟩) := by decide +kernel
  rw [hrun] at hsignature
  exact ⟨result, M, hrun, hresult, hM, Option.some.inj hsignature⟩

/-- `f 5` in `callProgram`. -/
theorem calls_safe_call : ∃ result M s signature,
    analyzeTypes callProgram (analyze callProgram) = some result ∧
      generateModule callProgram.ast (analyze callProgram).scopes result.types = .ok M ∧
      (analyze callProgram).scopes.getLocalSymbol getRootScopeId "f" = some s ∧
      result.types.getFunctionSignature s.id = some signature ∧
      Satisfies (.ok (.int 5#64)) (MayComeTo (analyze callProgram).scopes callProgram.ast s.id)
        fun v => ValueHasType (analyze callProgram).scopes callProgram.ast v signature.result := by
  obtain ⟨result, M, hrun, hresult, hgenerate, hsignature⟩ := callProgram_generated
  have hs : (analyze callProgram).scopes.getLocalSymbol getRootScopeId "f" =
      some ⟨1, "f", .Function, 1⟩ := rfl
  have hcalls : Calls callProgram.ast (analyze callProgram).scopes result.types
      ⟨1, "f", .Function, 1⟩ [.int 5] (.ok (.int 5)) := ⟨by simp, 1, rfl⟩
  exact ⟨result, M, _, _, hrun, hgenerate, hs, hsignature,
    calls_safe (show callTokens.Lexed by decide) callProgram_parse rfl hrun hresult hgenerate hs
      rfl hsignature (.cons .int .nil) hcalls⟩

/-- A program with a module whose `main` gets to no recursive function ends, with
no more calls open at once than it has functions, and its module does what it ends
in. The tokens are the scanner's. -/
theorem main_ends (hl : tokens.Lexed) (hp : parse tokens = .ok p) (hok : (analyze p).ok)
    (hrun : analyzeTypes p (analyze p) = some result) (hresult : result.ok)
    (hgenerate : generateModule p.ast (analyze p).scopes result.types = .ok M) {main : Symbol}
    (hmain : (analyze p).scopes.getLocalSymbol getRootScopeId "main" = some main)
    (hrecursion : ∀ f, CallReaches (analyze p).scopes p.ast main.id f →
      ¬ Recursive (analyze p).scopes p.ast f) :
    ∃ signature outcome, result.types.getFunctionSignature main.id = some signature ∧
      callWithin p.ast (analyze p).scopes result.types
        (functionSymbols (analyze p).scopes p.ast).length main [] = outcome ∧
      Satisfies outcome (MayComeTo (analyze p).scopes p.ast main.id)
        (fun v => ValueHasType (analyze p).scopes p.ast v signature.result) ∧
      MainDoes (analyze p).scopes
        (registerConstructors (analyze p).scopes result.types p.ast) M outcome := by
  obtain ⟨τ, h⟩ := checked hl hp hok hrun hresult
  have hbodies := generateModule_bodies h hgenerate
  obtain ⟨functions, functions_, _, hgenerated⟩ := generated h hgenerate
  obtain ⟨main', _, signature, _, hmain', hkind, _, hsignature, hnone, _⟩ := hgenerated.main
  rw [hmain] at hmain'
  cases hmain'
  have hargs : List.Forall₂ (ValueHasType (analyze p).scopes p.ast) ([] : List Datum)
      signature.parameters := by
    rw [hnone]
    exact .nil
  have hends := callWithin_ends h (fun fd hfd => (hbodies fd hfd).1) hmain hkind hrecursion
    hsignature hargs
  generalize hout : callWithin p.ast (analyze p).scopes result.types
    (functionSymbols (analyze p).scopes p.ast).toFinset.card main [] = outcome at hends
  have hfuel : outcome ≠ .error .outOfFuel := by
    rintro rfl
    rcases MayComeTo.fault hends with hdivision | hbranch
    · rcases hdivision with heq | heq
      · cases heq
      · cases heq
    · cases hbranch
  have hle : Settles outcome (callWithin p.ast (analyze p).scopes result.types
      (functionSymbols (analyze p).scopes p.ast).length main []) := by
    rw [← hout]
    exact callWithin_le (List.toFinset_card_le _) main []
  have hcalls : Calls p.ast (analyze p).scopes result.types main [] outcome :=
    ⟨hfuel, _, hle hfuel⟩
  have hfollows := mainFollows h (layouts h) hgenerated hbodies hmain hcalls
  refine ⟨signature, outcome, hsignature, hle hfuel, hends, ?_⟩
  cases outcome with
  | ok v =>
    obtain ⟨line, m, hline, hprints⟩ := hfollows
    exact .prints hline hprints
  | error fault =>
    rcases MayComeTo.fault hends with hdivision | rfl
    · exact .divides hdivision
    · exact .traps (.of_steps (hfollows rfl))

/-- In `callProgram`, `main` calls `f` and `f` nothing. -/
theorem callProgram_calls {f g : SymbolId}
    (h : CallsDirectly (analyze callProgram).scopes callProgram.ast f g) : f = 2 ∧ g = 1 := by
  obtain ⟨fd, s, hfd, hs, rfl, hg⟩ := h
  rcases List.mem_cons.mp hfd with heq | hfd
  · cases heq
    cases hg
  · cases List.mem_singleton.mp hfd
    have hmain : (analyze callProgram).scopes.getLocalSymbol getRootScopeId "main" =
        some ⟨2, "main", .Function, 5⟩ := rfl
    rw [hmain] at hs
    cases hs
    exact ⟨rfl, List.mem_singleton.mp hg⟩

theorem main_ends_call : ∃ result M main signature outcome,
    analyzeTypes callProgram (analyze callProgram) = some result ∧
      generateModule callProgram.ast (analyze callProgram).scopes result.types = .ok M ∧
      (analyze callProgram).scopes.getLocalSymbol getRootScopeId "main" = some main ∧
      result.types.getFunctionSignature main.id = some signature ∧
      callWithin callProgram.ast (analyze callProgram).scopes result.types
        (functionSymbols (analyze callProgram).scopes callProgram.ast).length main [] = outcome ∧
      Satisfies outcome (MayComeTo (analyze callProgram).scopes callProgram.ast main.id)
        (fun v => ValueHasType (analyze callProgram).scopes callProgram.ast v signature.result) ∧
      MainDoes (analyze callProgram).scopes
        (registerConstructors (analyze callProgram).scopes result.types callProgram.ast) M
        outcome := by
  obtain ⟨result, M, hrun, hresult, hgenerate, _⟩ := callProgram_generated
  have hmain : (analyze callProgram).scopes.getLocalSymbol getRootScopeId "main" =
      some ⟨2, "main", .Function, 5⟩ := rfl
  have hrecursion : ∀ f, CallReaches (analyze callProgram).scopes callProgram.ast 2 f →
      ¬ Recursive (analyze callProgram).scopes callProgram.ast f := by
    intro f _ hrecursive
    obtain ⟨g, hfirst, _⟩ := Relation.TransGen.head'_iff.mp hrecursive
    obtain ⟨g', _, hlast⟩ := Relation.TransGen.tail'_iff.mp hrecursive
    have hf := (callProgram_calls hfirst).1
    rw [(callProgram_calls hlast).2] at hf
    cases hf
  obtain ⟨signature, outcome, hends⟩ := main_ends (show callTokens.Lexed by decide)
    callProgram_parse rfl hrun hresult hgenerate hmain hrecursion
  exact ⟨result, M, _, signature, outcome, hrun, hgenerate, hmain, hends⟩

end mf.visitors
