-- Type preservation for the interpreter: on an accepted program, what it
-- returns has the inferred type, and what it throws is one of a few exceptions.
import MiniFunctional.EvaluationPaths
import MiniFunctional.TypeSoundness
import MiniFunctional.ValueTyping

open mf.util mf.ast mf.parsing mf.tokenization mf.semantics

namespace mf.visitors

open ExceptLaws ScopeTree

variable {t : ScopeTree} {program : Program} {types : TypeTable} {τ : Typing}

/-! ## The exceptions -/

/-- Where evaluation of an accepted program can fail: at an operator whose result
is too large, at a division by zero, at a case that no branch matches, at the
name of a function, and at a case that examines a function. -/
inductive RaisedAt (t : ScopeTree) (program : Program) (types : TypeTable) (τ : Typing) :
    Failure → Expression → Environment Int32 → Prop
  | intOverflow {kind id left right env a b} : YieldsInt t types left env a →
    YieldsInt t types right env b → applyBinaryOp kind a b = .error .intOverflow →
    RaisedAt t program types τ .intOverflow (.BinaryOperator kind id left right) env
  | divisionByZero {id left right env a} : YieldsInt t types left env a →
    YieldsInt t types right env 0 →
    RaisedAt t program types τ (.runtimeError .DivisionByZero)
      (.BinaryOperator .Division id left right) env
  | noMatchingBranch {id scrutinee branches env value} :
    evaluate t types scrutinee env = .ok (.Value value) →
    (∀ b ∈ branches, matchPattern t b.pattern value env = .ok none) →
    RaisedAt t program types τ (.runtimeError .NoMatchingBranch)
      (.CaseExpression id scrutinee branches) env
  | function {id name env s fd} : t.getResolvedSymbol id = some s → s.kind = .Function →
    .FunctionDefinition fd ∈ program.definitions → fd.name = name → s.declaration = fd.id →
    RaisedAt t program types τ (.runtimeError (.UnboundLocalVariable name))
      (.Variable id name) env
  | functionScrutinee {id scrutinee branches env P R ctor} :
    HasType t program τ scrutinee (functionType P R) →
    evaluate t types scrutinee env = .ok (.PartialConstructor ctor) →
    RaisedAt t program types τ (.runtimeError .UnexpectedPartialConstructor)
      (.CaseExpression id scrutinee branches) env

/-- The failure is raised by an expression that evaluation gets to. -/
def Explained (t : ScopeTree) (program : Program) (types : TypeTable) (τ : Typing)
    (e : Expression) (env : Environment Int32) (failure : Failure) : Prop :=
  ∃ e' env', Reaches t types e env e' env' ∧ RaisedAt t program types τ failure e' env'

theorem RaisedAt.explained {failure : Failure} {e : Expression} {env : Environment Int32}
    (h : RaisedAt t program types τ failure e env) :
    Explained t program types τ e env failure := ⟨e, env, .here, h⟩

theorem Explained.of_reaches {failure : Failure} {e e' : Expression}
    {env env' : Environment Int32} (hreaches : Reaches t types e env e' env')
    (h : Explained t program types τ e' env' failure) :
    Explained t program types τ e env failure := by
  obtain ⟨e'', env'', hreaches', hraised⟩ := h
  exact ⟨e'', env'', hreaches.trans hreaches', hraised⟩

/-! ## Values -/

/-- A partial constructor has a function type. -/
theorem partial_isFunction {ctor : PartialConstructor Int32} {T : TypeVariant}
    (h : ResultHasType t program (.PartialConstructor ctor) T) : ∃ P R, T = functionType P R := by
  obtain ⟨_, signature, _, P, after, _, _, _, _, _, hT⟩ := h
  exact ⟨P, functionTypes after (dataType signature.data_type), hT⟩

theorem asValue_spec {result : EvalResult Int32} {T : TypeVariant} {E : Failure → Prop}
    (h : ResultHasType t program result T) (hground : containsFunctionType T = false) :
    Satisfies (asValue result) E fun v => ValueHasType t program v T := by
  cases result with
  | Value value => exact h
  | PartialConstructor ctor =>
    obtain ⟨P, R, rfl⟩ := partial_isFunction h
    simp [functionType, containsFunctionType] at hground

theorem result_isInt {result : EvalResult Int32} (h : ResultHasType t program result intType) :
    ∃ n, result = .Value (.int n) := by
  cases result with
  | Value value =>
    obtain ⟨n, rfl⟩ := ValueHasType.isInt h
    exact ⟨n, rfl⟩
  | PartialConstructor ctor =>
    obtain ⟨_, _, _, _, _, _, _, _, _, _, hT⟩ := h
    cases hT

/-- Arithmetic fails at its operator. -/
theorem applyBinaryOp_spec (kind : BinaryOperatorKind) (id : NodeId) {l r : Expression}
    {env : Environment Int32} {a b : Int32} (ha : YieldsInt t types l env a)
    (hb : YieldsInt t types r env b) :
    Satisfies (applyBinaryOp kind a b)
      (Explained t program types τ (.BinaryOperator kind id l r) env) fun _ => True := by
  have hresult : ∀ n, applyBinaryOp kind a b = intResult n →
      Satisfies (intResult n) (Explained t program types τ (.BinaryOperator kind id l r) env)
        fun _ => True := by
    intro n heq
    unfold intResult at heq ⊢
    split at heq
    · rw [if_pos ‹_›]
      exact trivial
    · rw [if_neg ‹_›]
      exact (RaisedAt.intOverflow ha hb heq).explained
  cases kind with
  | Addition => exact hresult _ rfl
  | Subtraction => exact hresult _ rfl
  | Multiplication => exact hresult _ rfl
  | Division =>
    by_cases hzero : b = 0
    · subst hzero
      exact (RaisedAt.divisionByZero ha hb).explained
    · have heq : applyBinaryOp .Division a b = intResult (a.toInt.tdiv b.toInt) := if_neg hzero
      rw [heq]
      exact hresult _ heq

/-- A constructor takes an argument of the type of its next field. -/
theorem applyPartial_spec {function : EvalResult Int32} {argument : Value Int32} {P R : TypeVariant}
    {E : Failure → Prop} (hf : ResultHasType t program function (functionType P R))
    (ha : ValueHasType t program argument P) :
    Satisfies (applyPartial function argument) E fun result =>
      ResultHasType t program result R := by
  cases function with
  | Value value =>
    have hground := ValueHasType.ground hf
    simp [functionType, containsFunctionType] at hground
  | PartialConstructor ctor =>
    obtain ⟨name, arity, applied⟩ := ctor
    obtain
      ⟨symbol, signature, before, P', after, hsymbol, hdeclares, hfields, harity, happlied, hT⟩ :=
      hf
    simp only [functionTypes, List.foldr_cons, functionType,
      TypeVariant.FunctionType.injEq] at hT
    obtain ⟨rfl, hR⟩ := hT
    simp only at harity
    have hall : List.Forall₂ (ValueHasType t program) (applied ++ [argument]) (before ++ [P]) :=
      List.rel_append happlied (.cons ha .nil)
    have hlen := hall.length_eq
    have hfieldslen := congrArg List.length hfields
    simp only [List.length_append, List.length_cons, List.length_nil] at hlen hfieldslen
    unfold applyPartial
    simp only [List.length_append, List.length_singleton]
    by_cases hsaturated : applied.length + 1 = arity
    · rw [if_pos hsaturated]
      have hnil : after = [] := by
        rw [← List.length_eq_zero_iff]
        omega
      subst hnil
      rw [← hfields] at hall
      subst hR
      exact ValueHasType.ConstructedValue hsymbol hdeclares hall
    · rw [if_neg hsaturated]
      cases after with
      | nil =>
        rw [List.length_nil] at hfieldslen
        omega
      | cons P' after =>
        exact ⟨symbol, signature, before ++ [P], P', after, hsymbol, hdeclares, by simp [hfields],
          harity, hall, hR⟩

/-! ## Patterns -/

theorem bindFields_spec {sid : ScopeId} {arguments : List String} {fields : List (Value Int32)}
    {Ts : List TypeVariant} {locals : List SymbolId} {env : Environment Int32} {E : Failure → Prop}
    (hkinds : ∀ name ∈ arguments,
      ∃ s, t.getLocalSymbol sid name = some s ∧ s.kind = .PatternVariable)
    (hTs : List.Forall₂ (fun name T => ∃ s, t.getLocalSymbol sid name = some s ∧ τ s.id = T)
      arguments Ts)
    (hfields : List.Forall₂ (ValueHasType t program) fields Ts)
    (henv : EnvHasTypes t program τ locals env) :
    Satisfies (bindFields t sid arguments fields env) E fun env' =>
      EnvHasTypes t program τ (t.symbolsIn sid arguments ++ locals) env' := by
  induction hTs generalizing fields locals env with
  | nil =>
    cases hfields
    exact henv
  | cons hT _ ih =>
    rename_i name T arguments Ts _
    rcases hfields with _ | ⟨hv, hrest⟩
    obtain ⟨s, hs, hkind⟩ := hkinds name List.mem_cons_self
    obtain ⟨s', hs', rfl⟩ := hT
    rw [hs] at hs'
    cases hs'
    have hfilter : (t.getLocalSymbol sid name).filter (·.kind = .PatternVariable) = some s := by
      rw [hs]
      simp [Option.filter, hkind]
    unfold bindFields
    simp only [hfilter]
    refine (ih (fun name hname => hkinds name (List.mem_cons_of_mem _ hname)) hrest
      (henv.insert hv)).mono fun env' henv' => henv'.mono fun x hx => ?_
    simp only [ScopeTree.symbolsIn, List.filterMap_cons, hs, Option.map_some, List.cons_append,
      List.mem_cons, List.mem_append] at hx ⊢
    tauto

section

variable (hscoped : t.ProgramScoped program) (hτ : IsTyping t program τ)

include hscoped hτ

/-- A pattern that matches binds its variables to values of their types. -/
theorem matchPattern_spec {pattern : Pattern} {S : TypeVariant}
    (hp : t.PatternScoped pattern) (hS : PatternHasType t program τ S pattern)
    {value : Value Int32} (hv : ValueHasType t program value S) {locals : List SymbolId}
    {env : Environment Int32} (henv : EnvHasTypes t program τ locals env) {E : Failure → Prop} :
    Satisfies (matchPattern t pattern value env) E fun matched => ∀ env', matched = some env' →
      EnvHasTypes t program τ (t.patternSymbols pattern ++ locals) env' := by
  obtain ⟨⟨sid, hsid, hnames⟩, hctor⟩ := hp
  have hsymbols : t.patternSymbols pattern = t.symbolsIn sid (Pattern.names pattern) := by
    unfold ScopeTree.patternSymbols
    rw [hsid]
  rw [hsymbols]
  cases pattern with
  | VariablePattern id name =>
    obtain ⟨sid', s, hsid', hs, hτs⟩ := hS
    simp only [Pattern.id] at hsid
    rw [hsid] at hsid'
    cases hsid'
    obtain ⟨s', hs', hkind⟩ := hnames name (by simp [Pattern.names])
    rw [hs] at hs'
    cases hs'
    simp only [matchPattern, matchVariablePattern, hsid, hs, hkind, Option.bind_some, ne_eq,
      not_true_eq_false, if_false]
    intro env' henv'
    cases henv'
    rw [← hτs] at hv
    refine (henv.insert hv).mono fun x hx => ?_
    simpa [ScopeTree.symbolsIn, Pattern.names, hs] using hx
  | ConstructorPattern id name arguments =>
    obtain ⟨s, hs, hkind, hglobal⟩ := hctor
    obtain ⟨s', signature, hs', hdeclares, rfl, sid', hsid', hTs⟩ := hS
    rw [hs] at hs'
    cases hs'
    simp only [Pattern.id] at hsid
    rw [hsid] at hsid'
    cases hsid'
    have hfilter : (t.getResolvedSymbol id).filter (·.kind = .Constructor) = some s := by
      rw [hs]
      simp [Option.filter, hkind]
    obtain ⟨vname, fields, ctor, signature', rfl, hname, hdeclares', _, hfields⟩ := hv.isConstructed
    simp only [matchPattern, matchConstructorPattern, hfilter]
    by_cases hn : vname = s.name
    · -- the value's constructor is the pattern's, and so are its fields
      have hsname := (hscoped.named _ _ _ hglobal).2
      rw [hn, hsname, hglobal] at hname
      cases hname
      obtain rfl := declares_unique hτ hdeclares' hdeclares
      have hlen : fields.length = arguments.length := by
        rw [hfields.length_eq, hTs.length_eq]
      rw [if_neg (by simp [hn]), if_neg (by simp [hlen])]
      by_cases hempty : fields.isEmpty = true
      · rw [if_pos hempty]
        intro env' henv'
        cases henv'
        have hnil : arguments = [] := by
          rw [← List.length_eq_zero_iff, ← hlen, List.length_eq_zero_iff]
          exact List.isEmpty_iff.mp hempty
        subst hnil
        exact henv
      · rw [if_neg hempty]
        simp only [hsid]
        refine satisfies_map.mpr ((bindFields_spec hnames hTs hfields henv).mono ?_)
        intro env' henv' env'' heq
        cases heq
        exact henv'
    · rw [if_pos hn]
      intro env' henv'
      cases henv'

/-! ## Expressions -/

/-- Evaluation in an environment with the types of its locals gives a result of
the expression's type, or fails in one of a few ways at an expression it gets to. -/
def Preserves (t : ScopeTree) (program : Program) (types : TypeTable) (τ : Typing)
    (e : Expression) : Prop :=
  ∀ locals env T, t.WellScoped e locals → HasType t program τ e T →
    EnvHasTypes t program τ locals env →
    Satisfies (evaluate t types e env) (Explained t program types τ e env)
      fun result => ResultHasType t program result T

theorem evaluateVariable_spec (hsound : types.Sound t program) (id : NodeId) (name : String) :
    Preserves t program types τ (.Variable id name) := by
  intro locals env T hs hT henv
  obtain ⟨s, hresolved, rfl, hcases⟩ := hs
  rcases hT with _ | hresolved'
  rw [hresolved] at hresolved'
  cases hresolved'
  simp only [evaluate, evaluateVariable, hresolved]
  by_cases hkind : s.kind = .Constructor
  · have hglobal : t.getLocalSymbol getRootScopeId s.name = some s := by
      rcases hcases with ⟨_, hglobal⟩ | ⟨hlocal, _⟩
      · exact hglobal
      · simp [hkind] at hlocal
    obtain ⟨signature, hsignature, hdeclares⟩ :=
      hsound.constructors s.id s (hscoped.named _ _ _ hglobal).1 hkind
    have htype := hτ.constructors s.id signature hdeclares
    have harity : constructorArity s types = .ok signature.fields.length := by
      simp only [constructorArity, hkind, ne_eq, not_true_eq_false, if_false, hsignature]
      rfl
    rw [if_pos hkind, harity]
    refine satisfies_bind.mpr ?_
    simp only [satisfies_ok]
    cases hfields : signature.fields with
    | nil =>
      simp only [hfields, functionTypes, List.foldr_nil] at htype
      simp only [List.length_nil, if_true, satisfies_pure, ResultHasType, htype]
      exact .ConstructedValue hglobal hdeclares (by rw [hfields]; exact .nil)
    | cons P after =>
      rw [hfields] at htype
      simp only [List.length_cons, Nat.add_one_ne_zero, if_false, satisfies_pure]
      exact ⟨s, signature, [], P, after, hglobal, hdeclares, hfields, by simp [hfields],
        .nil, htype⟩
  · rw [if_neg hkind]
    cases hfind : env.find s.id with
    | some value => exact henv.typed s.id value hfind
    | none =>
      rcases hcases with ⟨hcallable, hglobal⟩ | ⟨_, hlocal⟩
      · have hfunction := hcallable.resolve_left hkind
        obtain ⟨fd, hfd, hname, hdeclaration⟩ := function_declared hscoped hglobal hfunction
        exact (RaisedAt.function hresolved hfunction hfd hname hdeclaration).explained
      · obtain ⟨v, hv⟩ := henv.bound s.id hlocal
        rw [hfind] at hv
        cases hv

omit hscoped hτ in
theorem evaluateOperator_spec {kind : BinaryOperatorKind} {id : NodeId} {l r : Expression}
    (ihl : Preserves t program types τ l) (ihr : Preserves t program types τ r) :
    Preserves t program types τ (.BinaryOperator kind id l r) := by
  intro locals env T hs hT henv
  obtain ⟨hsl, hsr⟩ := hs
  rcases hT with _ | _ | ⟨hTl, hTr⟩
  have hl : Satisfies _ (Explained t program types τ (.BinaryOperator kind id l r) env) _ :=
    (ihl locals env intType hsl hTl henv).weaken fun _ h => h.of_reaches (.left .here)
  simp only [evaluate]
  refine hl.bind_of fun lresult hleft hlresult => ?_
  obtain ⟨a, rfl⟩ := result_isInt hlresult
  have hr : Satisfies _ (Explained t program types τ (.BinaryOperator kind id l r) env) _ :=
    (ihr locals env intType hsr hTr henv).weaken fun _ h => h.of_reaches (.right hleft .here)
  simp only [asValue, asInt, pure_bind]
  refine hr.bind_of fun rresult hright hrresult => ?_
  obtain ⟨b, rfl⟩ := result_isInt hrresult
  exact (applyBinaryOp_spec kind id hleft hright).bind fun n _ => ValueHasType.int

omit hscoped hτ in
theorem evaluateApplication_spec {id : NodeId} {f a : Expression}
    (ihf : Preserves t program types τ f) (iha : Preserves t program types τ a) :
    Preserves t program types τ (.Application id f a) := by
  intro locals env R hs hT henv
  obtain ⟨hsf, hsa⟩ := hs
  rcases hT with _ | _ | _ | @⟨_, _, _, P, _, hTf, hTa⟩
  have hf : Satisfies _ (Explained t program types τ (.Application id f a) env) _ :=
    (ihf locals env _ hsf hTf henv).weaken fun _ h => h.of_reaches (.function .here)
  simp only [evaluate]
  refine hf.bind_of fun func hfunction hfunc => ?_
  have ha : Satisfies _ (Explained t program types τ (.Application id f a) env) _ :=
    (iha locals env _ hsa hTa henv).weaken fun _ h => h.of_reaches (.argument hfunction .here)
  refine ha.bind fun aresult haresult => ?_
  -- a parameter of a constructor is no function, so its argument is a value
  refine (asValue_spec haresult ?_).bind fun arg harg => applyPartial_spec hfunc harg
  cases func with
  | Value value =>
    have := ValueHasType.ground hfunc
    simp [functionType, containsFunctionType] at this
  | PartialConstructor ctor =>
    obtain ⟨_, signature, before, P, after, _, hdeclares, hfields, _, _, heq⟩ := hfunc
    simp only [functionTypes, List.foldr_cons, functionType, TypeVariant.FunctionType.injEq] at heq
    rw [heq.1]
    exact field_ground hdeclares (by simp [hfields])

/-- The body of the branch that is taken fails, or no branch matches. -/
theorem evaluateBranches_spec {bs : List Branch}
    (ih : ∀ b ∈ bs, Preserves t program types τ b.body) {locals : List SymbolId}
    {env : Environment Int32} {S T : TypeVariant} {value : Value Int32}
    (hs : t.WellScopedBranches bs locals)
    (hS : ∀ b ∈ bs, PatternHasType t program τ S b.pattern)
    (hT : ∀ b ∈ bs, HasType t program τ b.body T) (hv : ValueHasType t program value S)
    (henv : EnvHasTypes t program τ locals env) :
    Satisfies (evaluateBranches t types bs value env)
      (fun failure => (∃ body branch_env, Taken t bs value env body branch_env ∧
          Explained t program types τ body branch_env failure) ∨
        (failure = .runtimeError .NoMatchingBranch ∧
          ∀ b ∈ bs, matchPattern t b.pattern value env = .ok none))
      fun result => ResultHasType t program result T := by
  induction bs with
  | nil => exact .inr ⟨rfl, by simp⟩
  | cons b bs ihbs =>
    obtain ⟨id, pattern, body⟩ := b
    obtain ⟨hp, hbody, hrest⟩ := hs
    simp only [evaluateBranches]
    refine (matchPattern_spec hscoped hτ hp (hS _ List.mem_cons_self) hv henv).bind_of
      fun matched hmatch hmatched => ?_
    cases matched with
    | some branch_env =>
      exact (ih _ List.mem_cons_self _ branch_env T hbody (hT _ List.mem_cons_self)
        (hmatched branch_env rfl)).weaken fun _ h => .inl ⟨body, branch_env, .first hmatch, h⟩
    | none =>
      refine (ihbs (fun b hb => ih b (List.mem_cons_of_mem _ hb)) hrest
        (fun b hb => hS b (List.mem_cons_of_mem _ hb))
        (fun b hb => hT b (List.mem_cons_of_mem _ hb))).weaken fun failure h => ?_
      rcases h with ⟨taken, branch_env, htaken, hexplained⟩ | ⟨hfailure, hnone⟩
      · exact .inl ⟨taken, branch_env, .later hmatch htaken, hexplained⟩
      · exact .inr ⟨hfailure, List.forall_mem_cons.mpr ⟨hmatch, hnone⟩⟩

theorem evaluate_spec (hsound : types.Sound t program) (e : Expression) :
    Preserves t program types τ e := by
  induction e with
  | IntLiteral id value =>
    intro locals env T _ hT _
    cases hT
    exact ValueHasType.int
  | Variable id name => exact evaluateVariable_spec hscoped hτ hsound id name
  | BinaryOperator kind id left right ihl ihr => exact evaluateOperator_spec ihl ihr
  | Application id function argument ihf iha => exact evaluateApplication_spec ihf iha
  | CaseExpression id scrutinee branches ihs ihb =>
    intro locals env T hs hT henv
    obtain ⟨hss, _, hsb⟩ := hs
    rcases hT with _ | _ | _ | _ | @⟨_, _, _, S, _, hTs, hS, hTb⟩
    have hscrutinee : Satisfies _
        (Explained t program types τ (.CaseExpression id scrutinee branches) env) _ :=
      (ihs locals env S hss hTs henv).weaken fun _ h => h.of_reaches (.scrutinee .here)
    simp only [evaluate]
    refine hscrutinee.bind_of fun result hevaluated hresult => ?_
    cases result with
    | PartialConstructor ctor =>
      obtain ⟨P, R, rfl⟩ := partial_isFunction hresult
      exact (RaisedAt.functionScrutinee hTs hevaluated).explained
    | Value value =>
      refine (evaluateBranches_spec hscoped hτ ihb hsb hS hTb hresult henv).weaken
        fun failure h => ?_
      rcases h with ⟨body, branch_env, htaken, hexplained⟩ | ⟨rfl, hnone⟩
      · exact hexplained.of_reaches (.branch hevaluated htaken .here)
      · exact (RaisedAt.noMatchingBranch hevaluated hnone).explained

/-! ## What evaluation gets to -/

/-- An expression that evaluation gets to has a type, and so have its locals. -/
theorem Reaches.typed (hsound : types.Sound t program) {e e' : Expression}
    {env env' : Environment Int32} (h : Reaches t types e env e' env') {locals : List SymbolId}
    {T : TypeVariant} (hs : t.WellScoped e locals) (hT : HasType t program τ e T)
    (henv : EnvHasTypes t program τ locals env) :
    ∃ locals' T', t.WellScoped e' locals' ∧ HasType t program τ e' T' ∧
      EnvHasTypes t program τ locals' env' := by
  induction h generalizing locals T with
  | here => exact ⟨locals, T, hs, hT, henv⟩
  | left _ ih =>
    cases hT with
    | BinaryOperator hl hr => exact ih hs.1 hl henv
  | right _ _ ih =>
    cases hT with
    | BinaryOperator hl hr => exact ih hs.2 hr henv
  | function _ ih =>
    cases hT with
    | Application hf ha => exact ih hs.1 hf henv
  | argument _ _ ih =>
    cases hT with
    | Application hf ha => exact ih hs.2 ha henv
  | scrutinee _ ih =>
    cases hT with
    | CaseExpression hscrutinee _ _ => exact ih hs.1 hscrutinee henv
  | branch hvalue htaken _ ih =>
    cases hT with
    | CaseExpression hscrutinee hpatterns hbodies =>
      obtain ⟨hss, _, hsb⟩ := hs
      obtain ⟨b, hb, rfl, hmatch⟩ := htaken.branch
      obtain ⟨hpattern, hbody⟩ := ScopeTree.wellScopedBranches_iff.mp hsb b hb
      have hv := (evaluate_spec hscoped hτ hsound _ _ _ _ hss hscrutinee henv).of_ok hvalue
      have hmatched := (matchPattern_spec (E := fun _ => False) hscoped hτ hpattern
        (hpatterns b hb) hv henv).of_ok hmatch
      exact ih hbody (hbodies b hb) (hmatched _ rfl)

end

/-- What a name that evaluation gets to stands for: a function of the program,
which the evaluator has no value for, or something with a meaning. -/
def NameMeans (t : ScopeTree) (program : Program) (types : TypeTable) (id : NodeId)
    (name : String) (env : Environment Int32) : Prop :=
  ∃ s, t.getResolvedSymbol id = some s ∧
    ((s.kind = .Function ∧ (∃ fd, .FunctionDefinition fd ∈ program.definitions ∧
        fd.name = name ∧ s.declaration = fd.id) ∧
        evaluate t types (.Variable id name) env = fail (.UnboundLocalVariable name)) ∨
      (s.kind ≠ .Function ∧ ∃ r, evaluate t types (.Variable id name) env = .ok r))

theorem nameMeans (hscoped : t.ProgramScoped program) (hτ : IsTyping t program τ)
    (hsound : types.Sound t program) {id : NodeId} {name : String} {env : Environment Int32}
    {locals : List SymbolId} {T : TypeVariant} (hs : t.WellScoped (.Variable id name) locals)
    (hT : HasType t program τ (.Variable id name) T) (henv : EnvHasTypes t program τ locals env)
    (hbinds : BindsPatterns t env) : NameMeans t program types id name env := by
  have hspec := evaluate_spec hscoped hτ hsound _ _ _ _ hs hT henv
  obtain ⟨s, hresolved, hname, hcases⟩ := hs
  refine ⟨s, hresolved, ?_⟩
  by_cases hkind : s.kind = .Function
  · have hglobal : t.getLocalSymbol getRootScopeId name = some s := by
      rcases hcases with ⟨_, hglobal⟩ | ⟨hlocal, _⟩
      · exact hglobal
      · simp [hkind] at hlocal
    obtain ⟨fd, hfd, hfdname, hdeclaration⟩ := function_declared hscoped hglobal hkind
    refine .inl ⟨hkind, ⟨fd, hfd, hfdname, hdeclaration⟩, ?_⟩
    -- a symbol with a value is a pattern variable
    have hunbound : env.find s.id = none := by
      cases hfind : env.find s.id with
      | none => rfl
      | some value =>
        obtain ⟨s', hid, hkind', sid, name', hlocal⟩ := hbinds s.id value hfind
        have hsymbol := (hscoped.named _ _ _ hlocal).1
        rw [hid, (hscoped.named _ _ _ hglobal).1] at hsymbol
        cases hsymbol
        rw [hkind] at hkind'
        cases hkind'
    simp [evaluate, evaluateVariable, hresolved, hkind, hunbound]
  · refine .inr ⟨hkind, ?_⟩
    cases heval : evaluate t types (.Variable id name) env with
    | ok r => exact ⟨r, rfl⟩
    | error failure =>
      obtain ⟨e', env', hreaches, hraised⟩ := hspec.of_error heval
      cases hreaches
      cases hraised with
      | function hresolved' hkind' _ _ _ =>
        rw [hresolved] at hresolved'
        cases hresolved'
        exact absurd hkind' hkind

/-! ## Programs -/

theorem findFunctionById_eq (hnodup : program.ids.Nodup) {fd : FunctionDefinition}
    (hfd : .FunctionDefinition fd ∈ program.definitions) :
    findFunctionById program fd.id = some fd := by
  unfold Program.ids at hnodup
  unfold findFunctionById
  induction hds : program.definitions generalizing program with
  | nil => simp [hds] at hfd
  | cons d ds ih =>
    rw [hds, List.flatMap_cons, List.nodup_append'] at hnodup
    rw [hds] at hfd
    rw [List.findSome?_cons]
    rcases List.mem_cons.mp hfd with rfl | hfd
    · simp
    · have hne : fd.id ∉ d.ids := fun hin => hnodup.2.2 hin
        (List.mem_flatMap.mpr ⟨_, hfd, by simp [Definition.ids]⟩)
      have hrest := @ih ⟨ds⟩ hnodup.2.1 hfd rfl
      cases d with
      | DataTypeDefinition dt => exact hrest
      | FunctionDefinition fd' =>
        have hid : ¬ fd'.id = fd.id := fun h => hne (by simp [Definition.ids, h])
        simpa [hid] using hrest

variable {tokens : TokenVector} {p : ParsedProgram} {result : TypeAnalysisResult}

/-- An accepted program is interpreted by evaluation of its `main`. -/
theorem interpret_eq (hok : (analyze p).ok) (hrun : analyzeTypes p (analyze p) = some result)
    (hresult : result.ok) : interpret p = some (evaluateMain p (analyze p) result.types) := by
  unfold AnalysisResult.ok at hok
  unfold TypeAnalysisResult.ok at hresult
  rw [List.isEmpty_iff] at hok hresult
  unfold interpret interpretWith
  rw [hok, hrun, Option.map_some, hresult]

/-- Interpretation ends in a diagnostic, or as evaluation of `main` does. -/
theorem interpret_cases {outcome : Except InterpretError (Value Int32)}
    (h : interpret p = some outcome) :
    (∃ text, outcome = .error (.Diagnostic text)) ∨
      (analyze p).ok ∧ ∃ result, analyzeTypes p (analyze p) = some result ∧ result.ok ∧
        evaluateMain p (analyze p) result.types = outcome := by
  unfold interpret interpretWith at h
  cases hdiagnostics : (analyze p).diagnostics with
  | cons diagnostic diagnostics =>
    rw [hdiagnostics] at h
    exact .inl ⟨_, (Option.some.inj h).symm⟩
  | nil =>
    rw [hdiagnostics] at h
    obtain ⟨result, hrun, h⟩ := Option.map_eq_some_iff.mp h
    cases hresult : result.diagnostics with
    | cons diagnostic diagnostics =>
      rw [hresult] at h
      exact .inl ⟨_, h.symm⟩
    | nil =>
      rw [hresult] at h
      exact .inr ⟨List.isEmpty_iff.mpr hdiagnostics, result, hrun, List.isEmpty_iff.mpr hresult, h⟩

/-- Evaluation of `main` finds none, or it is that of the body in no environment. -/
theorem evaluateMain_cases (p : ParsedProgram) (types : TypeTable) :
    evaluateMain p (analyze p) types = .error .NoMainFunction ∨
      evaluateMain p (analyze p) types = .error .MainDeclarationMissing ∨
      ∃ s fd, (analyze p).scopes.getLocalSymbol getRootScopeId "main" = some s ∧
        s.kind = .Function ∧ findFunctionById p.ast s.declaration = some fd ∧
        evaluateMain p (analyze p) types =
          (evaluate (analyze p).scopes types fd.body .empty >>= asValue).mapError .Evaluation := by
  unfold evaluateMain
  cases hs : ((analyze p).scopes.getLocalSymbol getRootScopeId "main").filter
      (·.kind = .Function) with
  | none => exact .inl rfl
  | some s =>
    obtain ⟨hmain, hkind⟩ := Option.filter_eq_some_iff.mp hs
    simp only
    cases hfd : findFunctionById p.ast s.declaration with
    | none => exact .inr (.inl rfl)
    | some fd => exact .inr (.inr ⟨s, fd, hmain, of_decide_eq_true hkind, hfd, rfl⟩)

/-- How the interpretation of an accepted program ends, for a typing of it. -/
structure Interprets (p : ParsedProgram) (types : TypeTable) (τ : Typing)
    (outcome : Except InterpretError (Value Int32)) : Prop where
  value : ∀ v, outcome = .ok v → ∃ s signature,
    (analyze p).scopes.getLocalSymbol getRootScopeId "main" = some s ∧
    types.getFunctionSignature s.id = some signature ∧
    ValueHasType (analyze p).scopes p.ast v signature.result
  failure : ∀ error, outcome = .error error →
    (error = .NoMainFunction ∧ ¬ ∃ fd, .FunctionDefinition fd ∈ p.ast.definitions ∧
      fd.name = "main") ∨
    ∃ failure e env, error = .Evaluation failure ∧ InterpretReaches p types e env ∧
      RaisedAt (analyze p).scopes p.ast types τ failure e env

/-- The body of an accepted program's `main`: it has no locals, and is no function. -/
theorem main_body (hl : tokens.Lexed) (hp : parse tokens = .ok p) (hok : (analyze p).ok)
    (hrun : analyzeTypes p (analyze p) = some result) (hresult : result.ok) (hτ : ∀ fd,
      .FunctionDefinition fd ∈ p.ast.definitions → ∃ s signature,
        (analyze p).scopes.getLocalSymbol getRootScopeId fd.name = some s ∧
        result.types.getFunctionSignature s.id = some signature ∧
        FunctionHasType (analyze p).scopes p.ast τ fd signature) {s : Symbol}
    (hs : (analyze p).scopes.getLocalSymbol getRootScopeId "main" = some s)
    (hkind : s.kind = .Function) :
    ∃ fd signature, findFunctionById p.ast s.declaration = some fd ∧
      result.types.getFunctionSignature s.id = some signature ∧
      containsFunctionType signature.result = false ∧
      (analyze p).scopes.WellScoped fd.body [] ∧
      HasType (analyze p).scopes p.ast τ fd.body signature.result := by
  have hscoped := analyze_scoped hl hp hok
  obtain ⟨fd, hfd, hname, hdeclaration⟩ := function_declared hscoped hs hkind
  obtain ⟨s', signature, hs', hsignature, htype⟩ := hτ fd hfd
  rw [hname, hs] at hs'
  cases hs'
  obtain ⟨hnone, _, hground⟩ := analyzeTypes_firstOrder hl hp hok hrun hresult hsignature
  obtain ⟨_, ⟨sid, hsid, hall⟩, hbody⟩ := htype
  rw [hnone s (hscoped.named _ _ _ hs).1 (hscoped.named _ _ _ hs).2] at hall
  have hnoparams : fd.parameters = [] := List.length_eq_zero_iff.mp hall.length_eq
  have hlocals : (analyze p).scopes.parameterSymbols fd = [] := by
    unfold ScopeTree.parameterSymbols
    simp [hsid, hnoparams, symbolsIn]
  obtain ⟨_, _, hbodyscoped⟩ := hscoped.functions fd hfd
  rw [hlocals] at hbodyscoped
  refine ⟨fd, signature, ?_, hsignature, hground, hbodyscoped, hbody⟩
  rw [hdeclaration]
  exact findFunctionById_eq (parse_ids hp).1 hfd

theorem interpret_spec (hl : tokens.Lexed) (hp : parse tokens = .ok p) (hok : (analyze p).ok)
    (hrun : analyzeTypes p (analyze p) = some result) (hresult : result.ok) :
    ∃ τ outcome, IsConcreteTyping (analyze p).scopes p.ast τ ∧ interpret p = some outcome ∧
      Interprets p result.types τ outcome := by
  have hscoped := analyze_scoped hl hp hok
  have hsound := sound_of_ok hl hp hok hrun hresult
  obtain ⟨τ, hτ, hfunctions⟩ := hsound.typing
  refine ⟨τ, _, hτ, interpret_eq hok hrun hresult, ?_⟩
  unfold evaluateMain
  cases hmain : ((analyze p).scopes.getLocalSymbol getRootScopeId "main").filter
      (·.kind = .Function) with
  | none =>
    refine ⟨nofun, fun error herror => ?_⟩
    cases herror
    refine .inl ⟨rfl, ?_⟩
    rintro ⟨fd, hfd, hname⟩
    obtain ⟨s, hs, hkind, _⟩ := (hscoped.functions fd hfd).1
    rw [hname] at hs
    have := Option.filter_eq_none_iff.mp hmain s hs
    simp [hkind] at this
  | some s =>
    obtain ⟨hs, hkind⟩ := Option.filter_eq_some_iff.mp hmain
    simp only [decide_eq_true_eq] at hkind
    obtain ⟨fd, signature, hfind, hsignature, hground, hbody, htype⟩ :=
      main_body hl hp hok hrun hresult hfunctions hs hkind
    have heval := evaluate_spec hscoped hτ.checks hsound fd.body [] .empty _ hbody htype
      (envHasTypes_empty _ _ τ)
    have hvalue := heval.bind fun r hr => asValue_spec hr hground
    have hexplained : Satisfies (Except.mapError InterpretError.Evaluation _)
        (fun error => ∃ failure, error = .Evaluation failure ∧
          Explained (analyze p).scopes p.ast result.types τ fd.body .empty failure) _ :=
      satisfies_mapError.mpr (hvalue.weaken fun failure h => ⟨failure, rfl, h⟩)
    simp only [hfind]
    constructor
    · intro v hv
      exact ⟨s, signature, hs, hsignature, hexplained.of_ok hv⟩
    · intro error herror
      obtain ⟨failure, rfl, e, env, hreaches, hraised⟩ := hexplained.of_error herror
      exact .inr ⟨failure, e, env, rfl, ⟨hok, ⟨result, hrun, hresult, rfl⟩, s, fd, hs, hkind,
        hfind, hreaches⟩, hraised⟩

/-- A name that interpretation gets to has a meaning, if it is no function's. -/
theorem interpret_names (hl : tokens.Lexed) (hp : parse tokens = .ok p) {id : NodeId}
    {name : String} {env : Environment Int32} {types : TypeTable}
    (h : InterpretReaches p types (.Variable id name) env) :
    NameMeans (analyze p).scopes p.ast types id name env := by
  obtain ⟨hok, ⟨result, hrun, hresult, rfl⟩, s, fd, hs, hkind, hfind, hreaches⟩ := h
  have hscoped := analyze_scoped hl hp hok
  have hsound := sound_of_ok hl hp hok hrun hresult
  obtain ⟨τ, hτ, hfunctions⟩ := hsound.typing
  obtain ⟨fd', signature, hfind', _, _, hbody, htype⟩ :=
    main_body hl hp hok hrun hresult hfunctions hs hkind
  rw [hfind] at hfind'
  cases hfind'
  obtain ⟨locals, T, hname, hT, henv⟩ := hreaches.typed hscoped hτ.checks hsound hbody htype
    (envHasTypes_empty _ _ τ)
  exact nameMeans hscoped hτ.checks hsound hname hT henv (hreaches.binds (bindsPatterns_empty _))

/-- The exceptions that types and scopes exclude. -/
def RuntimeError.IsTypeError : RuntimeError → Prop
  | .ExpectedIntegerValue => True
  | .ApplicationOfNonConstructorValue => True
  | .UndefinedVariable _ => True
  | .ExpectedConstructorSymbol => True
  | .ConstructorHasNoTypeSignature => True
  | .PatternVariableHasNoSemanticBinding => True
  | .PatternNameIsNotAVariableBinding => True
  | .ConstructorPatternHasNoSemanticBinding => True
  | .ConstructorPatternHasInvalidBindings => True
  | _ => False

theorem RaisedAt.not_typeError {error : RuntimeError} {e : Expression} {env : Environment Int32}
    (h : RaisedAt t program types τ (.runtimeError error) e env) : ¬ error.IsTypeError := by
  cases h with
  | divisionByZero => exact id
  | noMatchingBranch => exact id
  | function => exact id
  | functionScrutinee => exact id

/-- Type preservation: what the interpreter returns has the inferred result type
of `main`, and no exception that types exclude is thrown. The tokens are the
scanner's. -/
theorem interpret_preserves (hl : tokens.Lexed) (hp : parse tokens = .ok p) (hok : (analyze p).ok)
    (hrun : analyzeTypes p (analyze p) = some result) (hresult : result.ok) :
    (∀ v, interpret p = some (.ok v) → ∃ s signature,
      (analyze p).scopes.getLocalSymbol getRootScopeId "main" = some s ∧
      result.types.getFunctionSignature s.id = some signature ∧
      ValueHasType (analyze p).scopes p.ast v signature.result) ∧
    ∀ error, interpret p = some (.error (.Evaluation (.runtimeError error))) →
      ¬ error.IsTypeError := by
  obtain ⟨τ, outcome, _, hinterpret, hvalue, hfailure⟩ := interpret_spec hl hp hok hrun hresult
  rw [hinterpret]
  constructor
  · intro v hv
    exact hvalue v (Option.some.inj hv)
  · intro error herror
    rcases hfailure _ (Option.some.inj herror) with ⟨h, _⟩ | ⟨failure, e, env, h, _, hraised⟩
    · cases h
    · cases h
      exact hraised.not_typeError

/-- `data B = { W Int } defn main = { W 3 }`. -/
def boxTokens : TokenVector :=
  ⟨[.Data, .UpperVariable "B", .Equal, .LeftBrace, .UpperVariable "W", .UpperVariable "Int",
    .RightBrace, .Function, .LowerVariable "main", .Equal, .LeftBrace, .UpperVariable "W",
    .IntLiteral 3, .RightBrace].map fun load => ⟨load, ⟨1, 1, 1, 1⟩⟩, by decide⟩

def boxProgram : ParsedProgram :=
  ⟨⟨[.DataTypeDefinition ⟨1, "B", [⟨0, "W", ["Int"]⟩]⟩,
    .FunctionDefinition ⟨5, "main", [], .Application 4 (.Variable 2 "W") (.IntLiteral 3 3)⟩]⟩,
    List.replicate 6 ⟨1, 1, 1, 1⟩⟩

theorem boxProgram_parse : parse boxTokens = .ok boxProgram := rfl

theorem boxProgram_accepted :
    ∃ result, analyzeTypes boxProgram (analyze boxProgram) = some result ∧ result.ok :=
  Option.map_eq_some_iff.mp
    (show (analyzeTypes boxProgram (analyze boxProgram)).map (·.ok) = some true by decide +kernel)

theorem boxProgram_value : ∃ v, interpret boxProgram = some (.ok v) := by
  obtain ⟨outcome, houtcome, hok⟩ := Option.map_eq_some_iff.mp
    (show (interpret boxProgram).map Except.isOk = some true by decide +kernel)
  obtain ⟨v, rfl⟩ := exists_of_isOk hok
  exact ⟨v, houtcome⟩

/-- The value of `boxProgram` has the type of its `main`. -/
theorem interpret_preserves_box :
    ∃ result v s signature, analyzeTypes boxProgram (analyze boxProgram) = some result ∧
      interpret boxProgram = some (.ok v) ∧
      (analyze boxProgram).scopes.getLocalSymbol getRootScopeId "main" = some s ∧
      result.types.getFunctionSignature s.id = some signature ∧
      ValueHasType (analyze boxProgram).scopes boxProgram.ast v signature.result ∧
      ∀ error, interpret boxProgram = some (.error (.Evaluation (.runtimeError error))) →
        ¬ error.IsTypeError := by
  obtain ⟨result, hrun, hresult⟩ := boxProgram_accepted
  obtain ⟨v, hv⟩ := boxProgram_value
  obtain ⟨hvalue, herror⟩ := interpret_preserves
    (show boxTokens.Lexed by decide) boxProgram_parse rfl hrun hresult
  obtain ⟨s, signature, hs, hsignature, htype⟩ := hvalue v hv
  exact ⟨result, v, s, signature, hrun, hv, hs, hsignature, htype, herror⟩

/-- The interpreter of an accepted program with a `main` returns a value or fails
at an expression that it gets to: in a division by zero, in a case without a
matching branch, in `int` overflow, at the name of a function of the program, or
in a case that examines a constructor without all its arguments. All other names
that it gets to have a meaning. The tokens are the scanner's. -/
theorem interpret_failures (hl : tokens.Lexed) (hp : parse tokens = .ok p) (hok : (analyze p).ok)
    (hrun : analyzeTypes p (analyze p) = some result) (hresult : result.ok)
    (hmain : ∃ fd, .FunctionDefinition fd ∈ p.ast.definitions ∧ fd.name = "main") :
    ∃ τ outcome, IsConcreteTyping (analyze p).scopes p.ast τ ∧ interpret p = some outcome ∧
      (∀ error, outcome = .error error → ∃ failure e env, error = .Evaluation failure ∧
        InterpretReaches p result.types e env ∧
        RaisedAt (analyze p).scopes p.ast result.types τ failure e env) ∧
      ∀ id name env, InterpretReaches p result.types (.Variable id name) env →
        NameMeans (analyze p).scopes p.ast result.types id name env := by
  obtain ⟨τ, outcome, hτ, hinterpret, _, hfailure⟩ := interpret_spec hl hp hok hrun hresult
  refine ⟨τ, outcome, hτ, hinterpret, fun error herror => ?_, fun id name env h =>
    interpret_names hl hp h⟩
  rcases hfailure error herror with ⟨_, hno⟩ | h
  · exact absurd hmain hno
  · exact h

/-- `defn f x = { x } defn main = { f 1 }`. -/
def callTokens : TokenVector :=
  ⟨[.Function, .LowerVariable "f", .LowerVariable "x", .Equal, .LeftBrace, .LowerVariable "x",
    .RightBrace, .Function, .LowerVariable "main", .Equal, .LeftBrace, .LowerVariable "f",
    .IntLiteral 1, .RightBrace].map fun load => ⟨load, ⟨1, 1, 1, 1⟩⟩, by decide⟩

def callProgram : ParsedProgram :=
  ⟨⟨[.FunctionDefinition ⟨1, "f", ["x"], .Variable 0 "x"⟩,
    .FunctionDefinition ⟨5, "main", [], .Application 4 (.Variable 2 "f") (.IntLiteral 3 1)⟩]⟩,
    List.replicate 6 ⟨1, 1, 1, 1⟩⟩

theorem callProgram_parse : parse callTokens = .ok callProgram := rfl

/-- The exception that a run throws. -/
def thrown {ε α : Type} : Except ε α → Option ε
  | .ok _ => none
  | .error e => some e

theorem eq_error_of_thrown {ε α : Type} {x : Option (Except ε α)} {e : ε}
    (h : x.map thrown = some (some e)) : x = some (.error e) := by
  obtain ⟨y, rfl, hy⟩ := Option.map_eq_some_iff.mp h
  cases y with
  | ok a => cases hy
  | error e' =>
    cases hy
    rfl

/-- `data P = { Q Int Int } defn main = { case Q 1 of { f -> { 3 } } }`. -/
def partialTokens : TokenVector :=
  ⟨[.Data, .UpperVariable "P", .Equal, .LeftBrace, .UpperVariable "Q", .UpperVariable "Int",
    .UpperVariable "Int", .RightBrace, .Function, .LowerVariable "main", .Equal, .LeftBrace,
    .Case, .UpperVariable "Q", .IntLiteral 1, .Of, .LeftBrace, .LowerVariable "f", .Arrow,
    .LeftBrace, .IntLiteral 3, .RightBrace, .RightBrace,
    .RightBrace].map fun load => ⟨load, ⟨1, 1, 1, 1⟩⟩, by decide⟩

def partialProgram : ParsedProgram :=
  ⟨⟨[.DataTypeDefinition ⟨1, "P", [⟨0, "Q", ["Int", "Int"]⟩]⟩,
    .FunctionDefinition ⟨9, "main", [], .CaseExpression 8
      (.Application 4 (.Variable 2 "Q") (.IntLiteral 3 1))
      [⟨7, .VariablePattern 5 "f", .IntLiteral 6 3⟩]⟩]⟩, List.replicate 10 ⟨1, 1, 1, 1⟩⟩

/-- The accepted program is interpreted to the exception. -/
def InterpretsTo (tokens : TokenVector) (p : ParsedProgram) (error : RuntimeError) : Prop :=
  tokens.Lexed ∧ parse tokens = .ok p ∧ (analyze p).ok ∧
    (∃ result, analyzeTypes p (analyze p) = some result ∧ result.ok) ∧
    interpret p = some (.error (.Evaluation (.runtimeError error)))

/-- Accepted programs that call a function, and that examine a constructor
without all its arguments, cannot be interpreted. -/
theorem interpret_failures_escapes :
    InterpretsTo callTokens callProgram (.UnboundLocalVariable "f") ∧
      InterpretsTo partialTokens partialProgram .UnexpectedPartialConstructor := by
  constructor
  · refine ⟨by decide, callProgram_parse, by decide +kernel, ?_, eq_error_of_thrown ?_⟩
    · exact Option.map_eq_some_iff.mp (by decide +kernel)
    · decide +kernel
  · refine ⟨by decide, by decide +kernel, by decide +kernel, ?_, eq_error_of_thrown ?_⟩
    · exact Option.map_eq_some_iff.mp (by decide +kernel)
    · decide +kernel

/-- The failure of `callProgram` is raised at the name `f`, which is a function's. -/
theorem interpret_failures_call :
    ∃ result τ, analyzeTypes callProgram (analyze callProgram) = some result ∧
      (∃ id env, InterpretReaches callProgram result.types (.Variable id "f") env ∧
        RaisedAt (analyze callProgram).scopes callProgram.ast result.types τ
          (.runtimeError (.UnboundLocalVariable "f")) (.Variable id "f") env) ∧
      ∀ id name env, InterpretReaches callProgram result.types (.Variable id name) env →
        NameMeans (analyze callProgram).scopes callProgram.ast result.types id name env := by
  have hrun : ∃ result, analyzeTypes callProgram (analyze callProgram) = some result ∧
      result.ok = true := Option.map_eq_some_iff.mp
    (show (analyzeTypes callProgram (analyze callProgram)).map (·.ok) = some true by decide +kernel)
  obtain ⟨result, hrun, hresult⟩ := hrun
  have hthrown : interpret callProgram =
      some (.error (.Evaluation (.runtimeError (.UnboundLocalVariable "f")))) :=
    eq_error_of_thrown (by decide +kernel)
  obtain ⟨τ, outcome, _, houtcome, hfailure, hnames⟩ := interpret_failures
    (show callTokens.Lexed by decide) callProgram_parse (by decide +kernel) hrun hresult
    ⟨_, List.mem_cons_of_mem _ List.mem_cons_self, rfl⟩
  rw [hthrown] at houtcome
  cases houtcome
  obtain ⟨failure, e, env, heq, hreaches, hraised⟩ := hfailure _ rfl
  cases heq
  refine ⟨result, τ, hrun, ?_, hnames⟩
  cases hraised with
  | function hresolved hkind hfd hname hdeclaration =>
    exact ⟨_, env, hreaches, .function hresolved hkind hfd hname hdeclaration⟩

/-! ## A program that is compiled -/

/-- `data B = { W Int, N } defn f b y = { case b of { W x -> { x + y } N -> { y } } }
defn main = { f (W 3) 1 }`. -/
def choiceTokens : TokenVector :=
  ⟨[.Data, .UpperVariable "B", .Equal, .LeftBrace, .UpperVariable "W", .UpperVariable "Int",
    .Comma, .UpperVariable "N", .RightBrace, .Function, .LowerVariable "f", .LowerVariable "b",
    .LowerVariable "y", .Equal, .LeftBrace, .Case, .LowerVariable "b", .Of, .LeftBrace,
    .UpperVariable "W", .LowerVariable "x", .Arrow, .LeftBrace, .LowerVariable "x", .Plus,
    .LowerVariable "y", .RightBrace, .UpperVariable "N", .Arrow, .LeftBrace, .LowerVariable "y",
    .RightBrace, .RightBrace, .RightBrace, .Function, .LowerVariable "main", .Equal, .LeftBrace,
    .LowerVariable "f", .LeftParentheses, .UpperVariable "W", .IntLiteral 3, .RightParentheses,
    .IntLiteral 1, .RightBrace].map fun load => ⟨load, ⟨1, 1, 1, 1⟩⟩, by decide⟩

def choiceBranches : List Branch :=
  [⟨8, .ConstructorPattern 4 "W" ["x"],
      .BinaryOperator .Addition 6 (.Variable 5 "x") (.Variable 7 "y")⟩,
    ⟨11, .ConstructorPattern 9 "N" [], .Variable 10 "y"⟩]

def choiceFunction : FunctionDefinition :=
  ⟨13, "f", ["b", "y"], .CaseExpression 12 (.Variable 3 "b") choiceBranches⟩

def choiceMain : FunctionDefinition :=
  ⟨21, "main", [], .Application 20 (.Application 18 (.Variable 14 "f")
    (.Application 17 (.Variable 15 "W") (.IntLiteral 16 3))) (.IntLiteral 19 1)⟩

def choiceProgram : ParsedProgram :=
  ⟨⟨[.DataTypeDefinition ⟨2, "B", [⟨0, "W", ["Int"]⟩, ⟨1, "N", []⟩]⟩,
    .FunctionDefinition choiceFunction, .FunctionDefinition choiceMain]⟩,
    List.replicate 22 ⟨1, 1, 1, 1⟩⟩

theorem choiceProgram_parse : parse choiceTokens = .ok choiceProgram := by decide +kernel

theorem choiceProgram_ok : (analyze choiceProgram).ok := by decide +kernel

def choiceResult : TypeAnalysisResult :=
  (analyzeTypes choiceProgram (analyze choiceProgram)).get (by decide +kernel)

theorem choiceProgram_analyzed :
    analyzeTypes choiceProgram (analyze choiceProgram) = some choiceResult :=
  (Option.some_get _).symm

theorem choiceResult_ok : choiceResult.ok := by decide +kernel

end mf.visitors
