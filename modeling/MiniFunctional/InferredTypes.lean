-- The types that inference gives to the expressions of a program: no table
-- holds them, but every expression is inferred once, to a node of the store.
-- Read off at the end, the node has the expression's one type.
import MiniFunctional.CheckedProgram

open mf.ast mf.parsing mf.tokenization

namespace mf.semantics

open StateOption ScopeTree

namespace TypeAnalyzer

open TypeStore

section

variable (t : ScopeTree) (program : Program)

/-- The run of the analyzer comes to the expression, in the state. -/
inductive Inferring : Expression → TypeAnalyzer → Prop
  | body {before fd after st st' symbol signature} :
    program.definitions = before ++ .FunctionDefinition fd :: after →
    Runs (prepareProgram t program) initial ⟨⟩ st →
    Runs (before.forM (inferFunctionBody t)) st ⟨⟩ st' →
    getRootSymbol t fd.name .Function = some symbol →
    st'.function_signatures.find symbol.id = some signature → Inferring fd.body st'
  | left {kind id left right st} : Inferring (.BinaryOperator kind id left right) st →
    Inferring left st
  | right {kind id left right st left_type st1} :
    Inferring (.BinaryOperator kind id left right) st →
    Runs (inferExpression t left) st left_type st1 → Inferring right st1
  | function {id function argument st} : Inferring (.Application id function argument) st →
    Inferring function st
  | argument {id function argument st function_type st1} :
    Inferring (.Application id function argument) st →
    Runs (inferExpression t function) st function_type st1 → Inferring argument st1
  | scrutinee {id scrutinee branches st} : Inferring (.CaseExpression id scrutinee branches) st →
    Inferring scrutinee st
  | branch {id scrutinee before bid pattern body after st scrutinee_type st1 result st2 st3 st4} :
    Inferring (.CaseExpression id scrutinee (before ++ ⟨bid, pattern, body⟩ :: after)) st →
    Runs (inferExpression t scrutinee) st scrutinee_type st1 → Runs makeVariable st1 result st2 →
    Runs (inferBranches t before scrutinee_type result) st2 ⟨⟩ st3 →
    Runs (inferPattern t scrutinee_type pattern) st3 ⟨⟩ st4 → Inferring body st4

/-- Once all unifications are done, the node is materialized to the type. -/
def FinalType (id : TypeId) (T : TypeVariant) : Prop :=
  ∃ st types, Runs (inferProgram t program) initial ⟨⟩ st ∧
    Runs (materialize id) st.types (some T) types

/-- Inference gives the expression the type. -/
def InferredType (e : Expression) (T : TypeVariant) : Prop :=
  ∃ st id st', Inferring t program e st ∧ Runs (inferExpression t e) st id st' ∧
    FinalType t program id T

/-- Inference gives the symbol the type. -/
def SymbolType (s : SymbolId) (T : TypeVariant) : Prop :=
  ∃ st id, Runs (inferProgram t program) initial ⟨⟩ st ∧ st.symbol_types.find s = some id ∧
    FinalType t program id T

end

variable {t : ScopeTree} {program : Program}

/-! ## Types of expressions -/

theorem hasType_unique {τ : Typing} {locals : List SymbolId} {e : Expression}
    {T T' : TypeVariant} (hs : t.WellScoped e locals) (h : HasType t program τ e T)
    (h' : HasType t program τ e T') : T = T' := by
  induction e generalizing locals T T' with
  | IntLiteral id value =>
    cases h
    cases h'
    rfl
  | Variable id name =>
    rcases h with _ | ⟨hresolved⟩
    rcases h' with _ | ⟨hresolved'⟩
    rw [hresolved] at hresolved'
    cases hresolved'
    rfl
  | BinaryOperator kind id l r ihl ihr =>
    cases h
    cases h'
    rfl
  | Application id f a ihf iha =>
    rcases h with _ | _ | _ | ⟨hf, _⟩
    rcases h' with _ | _ | _ | ⟨hf', _⟩
    have heq := ihf hs.1 hf hf'
    simp only [functionType, TypeVariant.FunctionType.injEq] at heq
    exact heq.2
  | CaseExpression id scrutinee branches ihs ihb =>
    obtain ⟨_, hne, hbranches⟩ := hs
    rcases h with _ | _ | _ | _ | ⟨_, _, hbodies⟩
    rcases h' with _ | _ | _ | _ | ⟨_, _, hbodies'⟩
    obtain ⟨b, hb⟩ := List.exists_mem_of_ne_nil branches hne
    exact ihb b hb (ScopeTree.wellScopedBranches_iff.mp hbranches b hb).2 (hbodies b hb)
      (hbodies' b hb)

theorem boundInBranches_append (bs bs' : List Branch) :
    t.boundInBranches (bs ++ bs') = t.boundInBranches bs ++ t.boundInBranches bs' := by
  induction bs with
  | nil => rfl
  | cons b bs ih =>
    obtain ⟨id, pattern, body⟩ := b
    simp only [List.cons_append, ScopeTree.boundInBranches, ih, List.append_assoc]

theorem inferBranches_append (bs bs' : List Branch) (scrutinee result : TypeId) :
    inferBranches t (bs ++ bs') scrutinee result =
      (do inferBranches t bs scrutinee result; inferBranches t bs' scrutinee result) := by
  induction bs with
  | nil => simp only [List.nil_append, inferBranches, pure_bind]
  | cons b bs ih =>
    obtain ⟨id, pattern, body⟩ := b
    simp only [List.cons_append, inferBranches, ih, bind_assoc]

/-! ## From a state to the last one -/

/-- What comes after `st` gives types to symbols that have none yet. -/
def Continues (t : ScopeTree) (last st : TypeAnalyzer) : Prop :=
  ∃ changed, Step t changed st last ∧ st.Fresh changed

section

variable {last st st' : TypeAnalyzer} {changed symbols : List SymbolId}

theorem Fresh.of_step (hstep : Step t changed st st') (hfresh : st.Fresh changed)
    (h : st'.Fresh symbols) : st.Fresh symbols := by
  intro s hs
  cases hfind : st.symbol_types.find s with
  | none => rfl
  | some id =>
    have hnone := h s hs
    rw [hstep.find hfresh hfind] at hnone
    cases hnone

theorem Continues.before (h : Continues t last st') (hstep : Step t changed st st')
    (hfresh : st.Fresh changed) : Continues t last st := by
  obtain ⟨changed', hstep', hfresh'⟩ := h
  refine ⟨changed ++ changed', hstep.trans hstep', fun s hs => ?_⟩
  rcases List.mem_append.mp hs with hs | hs
  · exact hfresh s hs
  · exact Fresh.of_step hstep hfresh hfresh' s hs

theorem Continues.silent (h : Continues t last st) (hlast : last.diagnostics = []) :
    st.diagnostics = [] := by
  obtain ⟨_, hstep, _⟩ := h
  have hreports := hstep.reports
  rw [hlast] at hreports
  exact List.prefix_nil.mp hreports

theorem Continues.solves (h : Continues t last st) {ρ : TypeId → TypeVariant} {τ : Typing}
    (hsol : last.Solves ρ τ) : st.Solves ρ τ := by
  obtain ⟨_, hstep, hfresh⟩ := h
  exact hstep.solves hfresh hsol

end

/-- The expression is inferred in a state in which all its names have types,
and the run goes on from there to the state `last`. -/
structure Inside (t : ScopeTree) (program : Program) (last : TypeAnalyzer)
    (locals : List SymbolId) (e : Expression) (st : TypeAnalyzer) : Prop where
  valid : st.Valid t
  names : t.WellScoped e locals
  nodup : (t.boundIn e).Nodup
  fresh : st.Fresh (t.boundIn e)
  ready : Ready t program locals st
  continues : ∀ id st', Runs (inferExpression t e) st id st' → Continues t last st'

section

variable (hscoped : t.ProgramScoped program) {last st st1 : TypeAnalyzer}
  {locals : List SymbolId}

include hscoped

theorem Inside.infers {e : Expression} (h : Inside t program last locals e st) :
    Returns (inferExpression t e) st (Infers t program e locals st) :=
  inferExpression_spec hscoped e h.valid h.names h.nodup h.fresh

/-- In every solution of the last state, the expression has the type of its node. -/
theorem Inside.hasType {e : Expression} (h : Inside t program last locals e st)
    (hlast : last.diagnostics = []) {id : TypeId} (hrun : Runs (inferExpression t e) st id st1)
    {ρ : TypeId → TypeVariant} {τ : Typing} (hsol : last.Solves ρ τ) :
    HasType t program τ e (ρ id) := by
  have hinfers := (h.infers hscoped).of_runs hrun
  have hcontinues := h.continues id st1 hrun
  refine hinfers.sound h.ready ?_ ρ τ (hcontinues.solves hsol)
  rw [hcontinues.silent hlast]
  have hreports := hinfers.step.reports
  rw [hcontinues.silent hlast] at hreports
  exact (List.prefix_nil.mp hreports).symm

omit hscoped in
/-- The checks of an operator after its operands. -/
theorem operatorRest_spec (hv : st.Valid t) {left right : Nat} (hleft : left < st.types.length)
    (hright : right < st.types.length) (left_id right_id : NodeId) :
    Returns (do
      let integer ← makeInt
      let _ ← unify t left integer left_id "arithmetic left operand"
      let _ ← unify t right integer right_id "arithmetic right operand"
      makeInt) st fun _ st' => Step t [] st st' := by
  refine returns_bind ((makeInt_spec hv).mono fun integer st3 h3 => ?_)
  refine returns_bind ((unify_spec h3.step.valid (Nat.lt_of_lt_of_le hleft h3.step.length)
    h3.inRange _ _).mono fun _ st4 h4 => ?_)
  have hlen := Nat.le_trans h3.step.length h4.step.length
  refine returns_bind ((unify_spec h4.step.valid (Nat.lt_of_lt_of_le hright hlen)
    (Nat.lt_of_lt_of_le h3.inRange h4.step.length) _ _).mono fun _ st5 h5 => ?_)
  exact (makeInt_spec h5.step.valid).mono fun _ st6 h6 =>
    ((h3.step.trans h4.step).trans h5.step).trans h6.step

theorem Inside.right {kind : BinaryOperatorKind} {id : NodeId} {l r : Expression}
    (h : Inside t program last locals (.BinaryOperator kind id l r) st) {left : TypeId}
    (hrun : Runs (inferExpression t l) st left st1) : Inside t program last locals r st1 := by
  have hnodup := h.nodup
  simp only [boundIn, List.nodup_append'] at hnodup
  have hfl : st.Fresh (t.boundIn l) := fun s hs => h.fresh s (List.mem_append_left _ hs)
  have hfr : st.Fresh (t.boundIn r) := fun s hs => h.fresh s (List.mem_append_right _ hs)
  have h1 := (inferExpression_spec hscoped l h.valid h.names.1 hnodup.1 hfl).of_runs hrun
  refine ⟨h1.step.valid, h.names.2, hnodup.2.1, hfr.step h1.step hnodup.2.2,
    h.ready.step h1.step hfl, fun right st2 hrun2 => ?_⟩
  have h2 := (inferExpression_spec hscoped r h1.step.valid h.names.2 hnodup.2.1
    (hfr.step h1.step hnodup.2.2)).of_runs hrun2
  obtain ⟨result, st', hrest, hstep⟩ := (operatorRest_spec h2.step.valid
    (Nat.lt_of_lt_of_le h1.inRange h2.step.length) h2.inRange l.id r.id).run
  refine (h.continues result st' ?_).before hstep (by simp [Fresh])
  simp only [inferExpression]
  exact hrun.bind (hrun2.bind hrest)

theorem Inside.left {kind : BinaryOperatorKind} {id : NodeId} {l r : Expression}
    (h : Inside t program last locals (.BinaryOperator kind id l r) st) :
    Inside t program last locals l st := by
  have hnodup := h.nodup
  simp only [boundIn, List.nodup_append'] at hnodup
  have hfl : st.Fresh (t.boundIn l) := fun s hs => h.fresh s (List.mem_append_left _ hs)
  refine ⟨h.valid, h.names.1, hnodup.1, hfl, h.ready, fun left st1 hrun => ?_⟩
  have hright := h.right hscoped hrun
  obtain ⟨right, st2, hrun2, h2⟩ := (hright.infers hscoped).run
  exact (hright.continues right st2 hrun2).before h2.step hright.fresh

omit hscoped in
/-- The checks of an application after the function and the argument. -/
theorem applicationRest_spec (hv : st.Valid t) {function argument : Nat}
    (hfunction : function < st.types.length) (hargument : argument < st.types.length)
    (id : NodeId) :
    Returns (do
      let result ← makeVariable
      let expected_function ← makeFunction argument result
      let _ ← unify t function expected_function id "function application"
      return result) st fun _ st' => Step t [] st st' := by
  refine returns_bind ((makeVariable_spec hv).mono fun result st3 h3 => ?_)
  refine returns_bind ((makeFunction_spec h3.step.valid
    (Nat.lt_of_lt_of_le hargument h3.step.length) h3.inRange).mono fun expected st4 h4 => ?_)
  have hlen := Nat.le_trans h3.step.length h4.step.length
  exact returns_bind ((unify_spec h4.step.valid (Nat.lt_of_lt_of_le hfunction hlen)
    h4.inRange _ _).mono fun _ st5 h5 => returns_pure ((h3.step.trans h4.step).trans h5.step))

theorem Inside.argument {id : NodeId} {f a : Expression}
    (h : Inside t program last locals (.Application id f a) st) {function : TypeId}
    (hrun : Runs (inferExpression t f) st function st1) :
    Inside t program last locals a st1 := by
  have hnodup := h.nodup
  simp only [boundIn, List.nodup_append'] at hnodup
  have hff : st.Fresh (t.boundIn f) := fun s hs => h.fresh s (List.mem_append_left _ hs)
  have hfa : st.Fresh (t.boundIn a) := fun s hs => h.fresh s (List.mem_append_right _ hs)
  have h1 := (inferExpression_spec hscoped f h.valid h.names.1 hnodup.1 hff).of_runs hrun
  refine ⟨h1.step.valid, h.names.2, hnodup.2.1, hfa.step h1.step hnodup.2.2,
    h.ready.step h1.step hff, fun argument st2 hrun2 => ?_⟩
  have h2 := (inferExpression_spec hscoped a h1.step.valid h.names.2 hnodup.2.1
    (hfa.step h1.step hnodup.2.2)).of_runs hrun2
  obtain ⟨result, st', hrest, hstep⟩ := (applicationRest_spec h2.step.valid
    (Nat.lt_of_lt_of_le h1.inRange h2.step.length) h2.inRange id).run
  refine (h.continues result st' ?_).before hstep (by simp [Fresh])
  simp only [inferExpression]
  exact hrun.bind (hrun2.bind hrest)

theorem Inside.function {id : NodeId} {f a : Expression}
    (h : Inside t program last locals (.Application id f a) st) :
    Inside t program last locals f st := by
  have hnodup := h.nodup
  simp only [boundIn, List.nodup_append'] at hnodup
  have hff : st.Fresh (t.boundIn f) := fun s hs => h.fresh s (List.mem_append_left _ hs)
  refine ⟨h.valid, h.names.1, hnodup.1, hff, h.ready, fun function st1 hrun => ?_⟩
  have hargument := h.argument hscoped hrun
  obtain ⟨argument, st2, hrun2, h2⟩ := (hargument.infers hscoped).run
  exact (hargument.continues argument st2 hrun2).before h2.step hargument.fresh

theorem Inside.scrutinee_infers {id : NodeId} {scrutinee : Expression} {branches : List Branch}
    (h : Inside t program last locals (.CaseExpression id scrutinee branches) st) :
    Returns (inferExpression t scrutinee) st (Infers t program scrutinee locals st) := by
  have hnodup := h.nodup
  simp only [boundIn, List.nodup_append'] at hnodup
  exact inferExpression_spec hscoped scrutinee h.valid h.names.1 hnodup.1
    fun s hs => h.fresh s (List.mem_append_left _ hs)

/-- The loop over the branches of a case expression, in its state. -/
structure InsideBranches (t : ScopeTree) (program : Program) (last : TypeAnalyzer)
    (locals : List SymbolId) (branches : List Branch) (scrutinee result : TypeId)
    (st : TypeAnalyzer) : Prop where
  valid : st.Valid t
  names : t.WellScopedBranches branches locals
  nodup : (t.boundInBranches branches).Nodup
  fresh : st.Fresh (t.boundInBranches branches)
  ready : Ready t program locals st
  scrutineeInRange : scrutinee < st.types.length
  resultInRange : result < st.types.length
  continues : ∀ st', Runs (inferBranches t branches scrutinee result) st ⟨⟩ st' →
    Continues t last st'

theorem InsideBranches.infers {branches : List Branch} {scrutinee result : TypeId}
    (h : InsideBranches t program last locals branches scrutinee result st) :
    Returns (inferBranches t branches scrutinee result) st fun _ st' =>
      InfersBranches t program branches locals scrutinee result st st' :=
  inferBranches_spec hscoped (fun b _ => inferExpression_spec hscoped b.body) h.valid h.names
    h.nodup h.fresh h.scrutineeInRange h.resultInRange

theorem Inside.branches {id : NodeId} {scrutinee : Expression} {branches : List Branch}
    {scrutinee_type result : TypeId} {st2 : TypeAnalyzer}
    (h : Inside t program last locals (.CaseExpression id scrutinee branches) st)
    (hrun : Runs (inferExpression t scrutinee) st scrutinee_type st1)
    (hvariable : Runs makeVariable st1 result st2) :
    InsideBranches t program last locals branches scrutinee_type result st2 := by
  have hnodup := h.nodup
  simp only [boundIn, List.nodup_append'] at hnodup
  have hfs : st.Fresh (t.boundIn scrutinee) := fun s hs => h.fresh s (List.mem_append_left _ hs)
  have hfb : st.Fresh (t.boundInBranches branches) :=
    fun s hs => h.fresh s (List.mem_append_right _ hs)
  have h1 := (h.scrutinee_infers hscoped).of_runs hrun
  have h2 := (makeVariable_spec h1.step.valid).of_runs hvariable
  have hready := (h.ready.step h1.step hfs).step h2.step (by simp)
  refine ⟨h2.step.valid, h.names.2.2, hnodup.2.1,
    (hfb.step h1.step hnodup.2.2).step h2.step (by simp), hready,
    Nat.lt_of_lt_of_le h1.inRange h2.step.length, h2.inRange, fun st3 hrun3 => ?_⟩
  refine h.continues result st3 ?_
  simp only [inferExpression]
  exact hrun.bind (hvariable.bind (hrun3.bind ⟨[], rfl⟩))

theorem Inside.scrutinee {id : NodeId} {scrutinee : Expression} {branches : List Branch}
    (h : Inside t program last locals (.CaseExpression id scrutinee branches) st) :
    Inside t program last locals scrutinee st := by
  have hnodup := h.nodup
  simp only [boundIn, List.nodup_append'] at hnodup
  refine ⟨h.valid, h.names.1, hnodup.1, fun s hs => h.fresh s (List.mem_append_left _ hs), h.ready,
    fun scrutinee_type st1 hrun => ?_⟩
  have h1 := (h.scrutinee_infers hscoped).of_runs hrun
  obtain ⟨result, st2, hvariable, h2⟩ := (makeVariable_spec h1.step.valid).run
  have hbranches := h.branches hscoped hrun hvariable
  obtain ⟨_, st3, hrun3, h3⟩ := (hbranches.infers hscoped).run
  refine Continues.before ?_ h2.step (by simp [Fresh])
  exact (hbranches.continues st3 hrun3).before h3.step hbranches.fresh

/-- The branches before others. -/
theorem InsideBranches.take {before branches : List Branch} {scrutinee result : TypeId}
    (h : InsideBranches t program last locals (before ++ branches) scrutinee result st) :
    Returns (inferBranches t before scrutinee result) st fun _ st' =>
      InfersBranches t program before locals scrutinee result st st' := by
  have hnodup := h.nodup
  have hfresh := h.fresh
  rw [boundInBranches_append, List.nodup_append'] at hnodup
  rw [boundInBranches_append] at hfresh
  have hnames := ScopeTree.wellScopedBranches_iff.mp h.names
  exact inferBranches_spec hscoped (fun b _ => inferExpression_spec hscoped b.body) h.valid
    (ScopeTree.wellScopedBranches_iff.mpr fun b hb => hnames b (List.mem_append_left _ hb))
    hnodup.1 (fun s hs => hfresh s (List.mem_append_left _ hs)) h.scrutineeInRange h.resultInRange

/-- The rest of the branches. -/
theorem InsideBranches.drop {before branches : List Branch} {scrutinee result : TypeId}
    (h : InsideBranches t program last locals (before ++ branches) scrutinee result st)
    (hrun : Runs (inferBranches t before scrutinee result) st ⟨⟩ st1) :
    InsideBranches t program last locals branches scrutinee result st1 := by
  have hnodup := h.nodup
  have hfresh := h.fresh
  rw [boundInBranches_append, List.nodup_append'] at hnodup
  rw [boundInBranches_append] at hfresh
  have hnames := ScopeTree.wellScopedBranches_iff.mp h.names
  have h1 := (h.take hscoped).of_runs hrun
  refine ⟨h1.step.valid,
    ScopeTree.wellScopedBranches_iff.mpr fun b hb => hnames b (List.mem_append_right _ hb),
    hnodup.2.1, Fresh.step (fun s hs => hfresh s (List.mem_append_right _ hs)) h1.step hnodup.2.2,
    h.ready.step h1.step fun s hs => hfresh s (List.mem_append_left _ hs),
    Nat.lt_of_lt_of_le h.scrutineeInRange h1.step.length,
    Nat.lt_of_lt_of_le h.resultInRange h1.step.length, fun st2 hrun2 => h.continues st2 ?_⟩
  rw [inferBranches_append]
  exact hrun.bind hrun2

theorem InsideBranches.pattern {id : NodeId} {pattern : Pattern} {body : Expression}
    {branches : List Branch} {scrutinee result : TypeId}
    (h : InsideBranches t program last locals (⟨id, pattern, body⟩ :: branches) scrutinee result
      st) : Returns (inferPattern t scrutinee pattern) st fun _ st' =>
        Matches t program pattern scrutinee st st' := by
  have hnodup := h.nodup
  simp only [boundInBranches, List.nodup_append'] at hnodup
  exact inferPattern_spec hscoped h.valid h.names.1 hnodup.1 (fun s hs => h.fresh s (by simp [hs]))
    h.scrutineeInRange

/-- The first of the branches. -/
theorem InsideBranches.body {id : NodeId} {pattern : Pattern} {body : Expression}
    {branches : List Branch} {scrutinee result : TypeId} (hlast : last.diagnostics = [])
    (h : InsideBranches t program last locals (⟨id, pattern, body⟩ :: branches) scrutinee result st)
    (hrun : Runs (inferPattern t scrutinee pattern) st ⟨⟩ st1) :
    Inside t program last (t.patternSymbols pattern ++ locals) body st1 := by
  have hnodup := h.nodup
  simp only [boundInBranches, List.nodup_append', List.disjoint_append_right] at hnodup
  obtain ⟨hnp, ⟨hne, hnbs, hdeb⟩, hdpe, hdpb⟩ := hnodup
  obtain ⟨hp, he, hbs⟩ := h.names
  have hfp : st.Fresh (t.patternSymbols pattern) := fun s hs => h.fresh s (by simp [hs])
  have hfe : st.Fresh (t.boundIn body) := fun s hs => h.fresh s (by simp [hs])
  have hfb : st.Fresh (t.boundInBranches branches) := fun s hs => h.fresh s (by simp [hs])
  have h1 := (h.pattern hscoped).of_runs hrun
  have hfe1 := hfe.step h1.step hdpe
  have hfb1 := hfb.step h1.step hdpb
  -- from the end of the body to the end of the run
  have hcontinues : ∀ body_type st2, Runs (inferExpression t body) st1 body_type st2 →
      Step t (t.boundIn body) st1 st2 ∧ Continues t last st2 := by
    intro body_type st2 hrun2
    have h2 := (inferExpression_spec hscoped body h1.step.valid he hne hfe1).of_runs hrun2
    have hlen := Nat.le_trans h1.step.length h2.step.length
    obtain ⟨unified, st3, hrun3, h3⟩ := (unify_spec h2.step.valid h2.inRange
      (Nat.lt_of_lt_of_le h.resultInRange hlen) body.id "case branch result").run
    have hlen3 := Nat.le_trans hlen h3.step.length
    have hfb3 : st3.Fresh (t.boundInBranches branches) :=
      (hfb1.step h2.step hdeb).step h3.step (by simp)
    obtain ⟨_, st4, hrun4, h4⟩ := (inferBranches_spec hscoped
      (fun b _ => inferExpression_spec hscoped b.body) h3.step.valid hbs hnbs hfb3
      (Nat.lt_of_lt_of_le h.scrutineeInRange hlen3) (Nat.lt_of_lt_of_le h.resultInRange hlen3)).run
    refine ⟨h2.step, Continues.before ?_ h3.step (by simp [Fresh])⟩
    refine (h.continues st4 ?_).before h4.step hfb3
    simp only [inferBranches]
    refine hrun.bind ?_
    exact hrun2.bind (hrun3.bind hrun4)
  obtain ⟨body_type, st2, hrun2, _⟩ :=
    (inferExpression_spec hscoped body h1.step.valid he hne hfe1).run
  obtain ⟨hstep2, hcontinues2⟩ := hcontinues body_type st2 hrun2
  -- nothing was reported, so the pattern's variables have types
  have hsilent1 := (hcontinues2.before hstep2 hfe1).silent hlast
  have hreports := h1.step.reports
  rw [hsilent1] at hreports
  have hsilent : st1.diagnostics = st.diagnostics := by
    rw [hsilent1, List.prefix_nil.mp hreports]
  have hready := h.ready.step h1.step hfp
  refine ⟨h1.step.valid, he, hne, hfe1, ⟨hready.registered, fun s hs => ?_⟩,
    fun body_type st2 hrun2 => (hcontinues body_type st2 hrun2).2⟩
  rcases List.mem_append.mp hs with hs | hs
  · exact h1.bound h.ready.registered hsilent s hs
  · exact hready.locals s hs

/-! ## The run of the analyzer -/

/-- The loop over some of the definitions. -/
theorem bodies_spec {definitions : List Definition}
    (hmem : ∀ d ∈ definitions, d ∈ program.definitions) (hv : st.Valid t)
    (hnodup : (definitions.flatMap (bodySymbols t)).Nodup)
    (hfresh : st.Fresh (definitions.flatMap (bodySymbols t))) :
    Returns (definitions.forM (inferFunctionBody t)) st fun _ st' =>
      Outcome t (definitions.flatMap (bodySymbols t)) (Prepared t program st)
        (fun st => ∀ d ∈ definitions, BodyBound t d st)
        (fun τ => ∀ d ∈ definitions, BodyTyped t program d τ) st st' :=
  forM_outcome prepared_persists bodyBound_persists
    (fun d hd _ hv hfresh => inferFunctionBody_spec hscoped (hmem d hd) hv
      ((List.nodup_flatMap.mp hnodup).1 d hd) hfresh) hv hnodup hfresh

section

variable {before after : List Definition} {fd : FunctionDefinition} {symbol : Symbol}
  {signature : InternalFunctionSignature} {st' : TypeAnalyzer}
  (hsplit : program.definitions = before ++ .FunctionDefinition fd :: after)
  (hprepare : Runs (prepareProgram t program) initial ⟨⟩ st)
  (hbefore : Runs (before.forM (inferFunctionBody t)) st ⟨⟩ st')

include hsplit hprepare hbefore

/-- The state in which a function body is inferred. -/
theorem body_state : st'.Valid t ∧ (t.boundIn fd.body).Nodup ∧
    (program.definitions.flatMap (bodySymbols t)).Nodup ∧
    st'.Fresh (t.boundIn fd.body ++ after.flatMap (bodySymbols t)) ∧
    (st'.diagnostics = [] → Prepared t program st') := by
  have hnodup := phases_nodup hscoped
  simp only [List.nodup_append'] at hnodup
  obtain ⟨_, ⟨_, ⟨_, hnbody, _⟩, _⟩, _⟩ := hnodup
  obtain ⟨h0, hfresh0⟩ := (prepareProgram_spec hscoped).of_runs hprepare
  have hall := hnbody
  rw [hsplit, List.flatMap_append, List.flatMap_cons] at hall hfresh0
  obtain ⟨hnbefore, hnrest, hdisjoint⟩ := List.nodup_append'.mp hall
  have hfbefore : st.Fresh (before.flatMap (bodySymbols t)) :=
    fun s hs => hfresh0 s (List.mem_append_left _ hs)
  have h1 := (bodies_spec hscoped (fun d hd => by rw [hsplit]; exact List.mem_append_left _ hd)
    h0.step.valid hnbefore hfbefore).of_runs hbefore
  refine ⟨h1.step.valid, (List.nodup_append'.mp hnrest).1, hnbody,
    Fresh.step (fun s hs => hfresh0 s (List.mem_append_right _ hs)) h1.step hdisjoint,
    fun hsilent => ?_⟩
  have hreports := h1.step.reports
  rw [hsilent] at hreports
  have hentered := h0.facts trivial (List.prefix_nil.mp hreports)
  exact prepared_persists h1.step hfbefore
    ⟨registered hscoped h0.step.valid hentered.1.2 hentered.2, hentered.2⟩

theorem body_inside (hsymbol : getRootSymbol t fd.name .Function = some symbol)
    (hsignature : st'.function_signatures.find symbol.id = some signature)
    (hlast : last.diagnostics = []) (hrun : Runs (inferProgram t program) initial ⟨⟩ last) :
    Inside t program last (t.parameterSymbols fd) fd.body st' := by
  obtain ⟨hv, hnodup, hnbody, hfresh, hprepared⟩ := body_state hscoped hsplit hprepare hbefore
  have hfd : Definition.FunctionDefinition fd ∈ program.definitions := by
    rw [hsplit]
    simp
  obtain ⟨_, ⟨sid, hsid, _⟩, hnames⟩ := hscoped.functions fd hfd
  have hfe : st'.Fresh (t.boundIn fd.body) := fun s hs => hfresh s (List.mem_append_left _ hs)
  have hinfers := inferExpression_spec hscoped fd.body hv hnames hnodup hfe
  obtain ⟨_, hresult, _⟩ := hv.functions symbol.id signature hsignature
  rw [hsplit, List.flatMap_append, List.flatMap_cons] at hnbody
  obtain ⟨_, hnrest, _⟩ := List.nodup_append'.mp hnbody
  obtain ⟨_, hnafter, hdafter⟩ := List.nodup_append'.mp hnrest
  -- from the end of the body to the end of the run
  have hcontinues : ∀ body_type st1, Runs (inferExpression t fd.body) st' body_type st1 →
      Continues t last st1 := by
    intro body_type st1 hrun1
    have h1 := hinfers.of_runs hrun1
    obtain ⟨_, st2, hrun2, h2⟩ := (unify_spec h1.step.valid h1.inRange
      (Nat.lt_of_lt_of_le hresult h1.step.length) fd.body.id ("function '" ++ fd.name ++ "'")).run
    have hfa2 : st2.Fresh (after.flatMap (bodySymbols t)) := by
      refine Fresh.step ?_ h2.step (by simp)
      exact Fresh.step (fun s hs => hfresh s (List.mem_append_right _ hs)) h1.step hdafter
    obtain ⟨_, st3, hrun3, h3⟩ := (bodies_spec hscoped
      (fun d hd => by rw [hsplit]; exact List.mem_append_right _ (List.mem_cons_of_mem _ hd))
      h2.step.valid hnafter hfa2).run
    have hbody : Runs (inferFunctionBody t (.FunctionDefinition fd)) st' ⟨⟩ st2 := by
      have hget : Runs get st' st' st' := ⟨[], rfl⟩
      simp only [inferFunctionBody, hsymbol]
      refine hget.bind ?_
      simp only [hsignature]
      exact hrun1.bind (hrun2.bind ⟨[], rfl⟩)
    have hbodies : Runs (inferFunctionBodies t program) st ⟨⟩ st3 := by
      unfold inferFunctionBodies
      rw [hsplit, List.forM_eq_forM, List.forM_append]
      refine hbefore.bind ?_
      rw [List.forM_cons]
      exact hbody.bind hrun3
    obtain ⟨_, rfl⟩ := (Runs.bind hprepare hbodies).unique hrun
    exact Continues.before ⟨_, h3.step, hfa2⟩ h2.step (by simp [Fresh])
  obtain ⟨body_type, st1, hrun1, h1⟩ := hinfers.run
  have hsilent := ((hcontinues body_type st1 hrun1).before h1.step hfe).silent hlast
  obtain ⟨hregistered, hentered⟩ := hprepared hsilent
  refine ⟨hv, hnames, hnodup, hfe, ⟨hregistered, fun s hs => ?_⟩, hcontinues⟩
  obtain ⟨_, sid', _, _, _, hsid', _, hps, _⟩ := hentered _ hfd fd rfl
  rw [hsid] at hsid'
  cases hsid'
  unfold ScopeTree.parameterSymbols at hs
  rw [hsid] at hs
  exact forall₂_bound hps s hs

end

/-- The analyzer comes to the body of every function. -/
theorem body_inferring {fd : FunctionDefinition} (hlast : last.diagnostics = [])
    (hrun : Runs (inferProgram t program) initial ⟨⟩ last)
    (hfd : .FunctionDefinition fd ∈ program.definitions) :
    ∃ st', Inferring t program fd.body st' := by
  obtain ⟨before, after, hsplit⟩ := List.mem_iff_append.mp hfd
  have hnodup := phases_nodup hscoped
  simp only [List.nodup_append'] at hnodup
  obtain ⟨_, ⟨_, ⟨_, hnbody, _⟩, _⟩, _⟩ := hnodup
  obtain ⟨_, st, hprepare, h0, hfresh0⟩ := (prepareProgram_spec hscoped).run
  rw [hsplit, List.flatMap_append] at hnbody hfresh0
  obtain ⟨hnbefore, hnrest, _⟩ := List.nodup_append'.mp hnbody
  obtain ⟨_, st', hbefore, _⟩ := (bodies_spec hscoped
    (fun d hd => by rw [hsplit]; exact List.mem_append_left _ hd) h0.step.valid hnbefore
    fun s hs => hfresh0 s (List.mem_append_left _ hs)).run
  obtain ⟨hv, _, _, hfresh, hprepared⟩ := body_state hscoped hsplit hprepare hbefore
  -- the rest of the run reports nothing either
  obtain ⟨_, st2, hrest, h2⟩ := (bodies_spec hscoped
    (fun d hd => by rw [hsplit]; exact List.mem_append_right _ hd) hv hnrest
    (by rw [List.flatMap_cons]; exact hfresh)).run
  have hbodies : Runs (inferFunctionBodies t program) st ⟨⟩ st2 := by
    unfold inferFunctionBodies
    rw [hsplit, List.forM_eq_forM, List.forM_append]
    exact hbefore.bind hrest
  obtain ⟨_, rfl⟩ := (Runs.bind hprepare hbodies).unique hrun
  have hreports := h2.step.reports
  rw [hlast] at hreports
  obtain ⟨_, hentered⟩ := hprepared (List.prefix_nil.mp hreports)
  obtain ⟨s, _, signature, _, hs, _, hsignature, _⟩ := hentered _ hfd fd rfl
  obtain ⟨⟨s', hs', hkind, _⟩, _⟩ := hscoped.functions fd hfd
  rw [hs] at hs'
  cases hs'
  have hsymbol : getRootSymbol t fd.name .Function = some s :=
    Option.filter_eq_some_iff.mpr ⟨hs, by simpa using hkind⟩
  exact ⟨st', .body hsplit hprepare hbefore hsymbol hsignature⟩

theorem Inferring.inside {e : Expression} (h : Inferring t program e st)
    (hlast : last.diagnostics = []) (hrun : Runs (inferProgram t program) initial ⟨⟩ last) :
    ∃ locals, Inside t program last locals e st := by
  induction h with
  | body hsplit hprepare hbefore hsymbol hsignature =>
    exact ⟨_, body_inside hscoped hsplit hprepare hbefore hsymbol hsignature hlast hrun⟩
  | left _ ih =>
    obtain ⟨locals, h⟩ := ih
    exact ⟨locals, h.left hscoped⟩
  | right _ hleft ih =>
    obtain ⟨locals, h⟩ := ih
    exact ⟨locals, h.right hscoped hleft⟩
  | function _ ih =>
    obtain ⟨locals, h⟩ := ih
    exact ⟨locals, h.function hscoped⟩
  | argument _ hfunction ih =>
    obtain ⟨locals, h⟩ := ih
    exact ⟨locals, h.argument hscoped hfunction⟩
  | scrutinee _ ih =>
    obtain ⟨locals, h⟩ := ih
    exact ⟨locals, h.scrutinee hscoped⟩
  | branch _ hscrutinee hvariable hbefore hpattern ih =>
    obtain ⟨locals, h⟩ := ih
    exact ⟨_, ((h.branches hscoped hscrutinee hvariable).drop hscoped hbefore).body hscoped hlast
      hpattern⟩

end

/-! ## Accepted programs -/

/-- The last state of the inference of an accepted program. -/
structure Solved (t : ScopeTree) (program : Program) (last : TypeAnalyzer) : Prop where
  run : Runs (inferProgram t program) initial ⟨⟩ last
  analyzed : Analyzed t program last
  silent : last.diagnostics = []
  determined : ∀ s id, last.symbol_types.find s = some id → ∃ T, Determined last.types id T

section

variable (hscoped : t.ProgramScoped program) {last st st1 : TypeAnalyzer}
  (h : Solved t program last)

include h

/-- What is read off of a node is its type in all solutions. -/
theorem FinalType.eq {id : Nat} (hid : id < last.types.length) {T : TypeVariant}
    (hT : FinalType t program id T) {ρ : TypeId → TypeVariant} (hm : last.types.Models ρ) :
    ρ id = T := by
  obtain ⟨last', types, hrun, hmaterialize⟩ := hT
  obtain ⟨_, rfl⟩ := h.run.unique hrun
  exact ((materialize_spec h.analyzed.step.valid.acyclic hid).of_runs hmaterialize).1 ρ hm

theorem finalType_of_determined {id : Nat} (hid : id < last.types.length) {T : TypeVariant}
    (hT : Determined last.types id T) : FinalType t program id T := by
  have ha := h.analyzed.step.valid.acyclic
  obtain ⟨T', types, hmaterialize, hT', _⟩ := (materialize_spec ha hid).run
  obtain ⟨ρ, hm, -⟩ := exists_model ha fun _ => .IntType
  cases T' with
  | none => exact absurd hT (not_determined ha hT' T)
  | some T' =>
    have heq : T' = T := (hT' ρ hm).symm.trans (hT ρ hm)
    subst heq
    exact ⟨last, types, h.run, hmaterialize⟩

/-- All solutions give the symbols the same types. -/
theorem Solved.readTyping_eq {ρ ρ' : TypeId → TypeVariant} (hm : last.types.Models ρ)
    (hm' : last.types.Models ρ') : last.readTyping ρ = last.readTyping ρ' := by
  funext s
  unfold readTyping
  cases hs : last.symbol_types.find s with
  | none => rfl
  | some id =>
    obtain ⟨T, hT⟩ := h.determined s id hs
    simp only
    rw [hT ρ hm, hT ρ' hm']

theorem SymbolType.eq {s : SymbolId} {T : TypeVariant} (hT : SymbolType t program s T)
    (hfields : FieldsNameTypes t program) {τ : Typing} (hτ : IsTyping t program τ) : τ s = T := by
  obtain ⟨last', id, hrun, hs, hfinal⟩ := hT
  obtain ⟨_, rfl⟩ := h.run.unique hrun
  obtain ⟨ρ, hsol, -⟩ := h.analyzed.complete hfields τ hτ
  rw [hsol.2 s id hs]
  exact hfinal.eq h (h.analyzed.step.valid.symbols s id hs).1 hsol.1

theorem symbolType_of_find {s : SymbolId} {id : TypeId} (hs : last.symbol_types.find s = some id) :
    ∃ T, SymbolType t program s T := by
  obtain ⟨T, hT⟩ := h.determined s id hs
  exact ⟨T, last, id, h.run, hs,
    finalType_of_determined h (h.analyzed.step.valid.symbols s id hs).1 hT⟩

include hscoped

theorem Inferring.node {e : Expression} (he : Inferring t program e st) :
    ∃ id st1, Runs (inferExpression t e) st id st1 := by
  obtain ⟨locals, hinside⟩ := he.inside hscoped h.silent h.run
  obtain ⟨id, st1, hrun, _⟩ := (hinside.infers hscoped).run
  exact ⟨id, st1, hrun⟩

/-- The node of an expression has the expression's type in all solutions. -/
theorem Inferring.hasType {e : Expression} (he : Inferring t program e st) {id : Nat}
    (hrun : Runs (inferExpression t e) st id st1) : id < last.types.length ∧
    ∀ ρ τ, last.Solves ρ τ → HasType t program τ e (ρ id) := by
  obtain ⟨locals, hinside⟩ := he.inside hscoped h.silent h.run
  obtain ⟨_, hstep, _⟩ := hinside.continues id st1 hrun
  exact ⟨Nat.lt_of_lt_of_le ((hinside.infers hscoped).of_runs hrun).inRange hstep.length,
    fun ρ τ hsol => hinside.hasType hscoped h.silent hrun hsol⟩

theorem Inferring.right_operand {kind : BinaryOperatorKind} {id : NodeId} {l r : Expression}
    (he : Inferring t program (.BinaryOperator kind id l r) st) :
    ∃ st1, Inferring t program r st1 := by
  obtain ⟨left, st1, hrun⟩ := he.left.node hscoped h
  exact ⟨st1, he.right hrun⟩

theorem Inferring.applied_argument {id : NodeId} {f a : Expression}
    (he : Inferring t program (.Application id f a) st) : ∃ st1, Inferring t program a st1 := by
  obtain ⟨function, st1, hrun⟩ := he.function.node hscoped h
  exact ⟨st1, he.argument hrun⟩

theorem Inferring.branch_body {id bid : NodeId} {scrutinee body : Expression} {pattern : Pattern}
    {before after : List Branch}
    (he : Inferring t program
      (.CaseExpression id scrutinee (before ++ ⟨bid, pattern, body⟩ :: after)) st) :
    ∃ st1, Inferring t program body st1 := by
  obtain ⟨locals, hinside⟩ := he.inside hscoped h.silent h.run
  obtain ⟨scrutinee_type, st1, hscrutinee, h1⟩ := (hinside.scrutinee_infers hscoped).run
  obtain ⟨result, st2, hvariable, _⟩ := (makeVariable_spec h1.step.valid).run
  have hbranches := hinside.branches hscoped hscrutinee hvariable
  obtain ⟨_, st3, hbefore, _⟩ := (hbranches.take hscoped).run
  obtain ⟨_, st4, hpattern, _⟩ := ((hbranches.drop hscoped hbefore).pattern hscoped).run
  exact ⟨st4, he.branch hscrutinee hvariable hbefore hpattern⟩

/-- The inferred type is the expression's type in every typing of the program. -/
theorem InferredType.hasType {e : Expression} {T : TypeVariant} (hT : InferredType t program e T)
    (hfields : FieldsNameTypes t program) {τ : Typing} (hτ : IsTyping t program τ) :
    HasType t program τ e T := by
  obtain ⟨st, id, st1, he, hrun, hfinal⟩ := hT
  obtain ⟨hid, htype⟩ := he.hasType hscoped h hrun
  obtain ⟨ρ, hsol, -⟩ := h.analyzed.complete hfields τ hτ
  have hρ := htype ρ τ hsol
  rw [hfinal.eq h hid hsol.1] at hρ
  exact hρ

/-- Every expression that the analyzer comes to has an inferred type. -/
theorem Inferring.inferredType {e : Expression} (he : Inferring t program e st) :
    ∃ T, InferredType t program e T := by
  obtain ⟨id, st1, hrun⟩ := he.node hscoped h
  obtain ⟨hid, htype⟩ := he.hasType hscoped h hrun
  obtain ⟨locals, hinside⟩ := he.inside hscoped h.silent h.run
  obtain ⟨ρ0, hρ0, -⟩ := exists_model h.analyzed.step.valid.acyclic fun _ => .IntType
  have hdetermined : Determined last.types id (ρ0 id) := by
    intro ρ hρ
    have h1 := htype ρ _ (solves_readTyping hρ)
    have h2 := htype ρ0 _ (solves_readTyping hρ0)
    rw [h.readTyping_eq hρ0 hρ] at h2
    exact hasType_unique hinside.names h1 h2
  exact ⟨ρ0 id, st, id, st1, he, hrun, finalType_of_determined h hid hdetermined⟩

/-- So do the local symbols that its names stand for. -/
theorem Inferring.symbolType {id : NodeId} {name : String} {s : Symbol}
    (he : Inferring t program (.Variable id name) st) (hs : t.getResolvedSymbol id = some s)
    (hkind : s.kind = .Parameter ∨ s.kind = .PatternVariable) :
    ∃ T, SymbolType t program s.id T := by
  obtain ⟨locals, hinside⟩ := he.inside hscoped h.silent h.run
  obtain ⟨type, st1, hrun⟩ := he.node hscoped h
  obtain ⟨s', hs', _, hcases⟩ := hinside.names
  rw [hs] at hs'
  cases hs'
  have hmem : s.id ∈ locals := by
    rcases hcases with ⟨hglobal, _⟩ | ⟨_, hmem⟩
    · rcases hkind with hkind | hkind <;> simp [hkind] at hglobal
    · exact hmem
  obtain ⟨node, hnode⟩ := hinside.ready.locals s.id hmem
  have hstep1 := ((hinside.infers hscoped).of_runs hrun).step
  obtain ⟨_, hstep, hfresh⟩ := hinside.continues type st1 hrun
  exact symbolType_of_find h (hstep.find hfresh (hstep1.find hinside.fresh hnode))

end

end TypeAnalyzer

open TypeAnalyzer

variable {tokens : TokenVector} {p : ParsedProgram} {result : TypeAnalysisResult}

/-- Inference of an accepted program leaves one type to every symbol. -/
theorem solved (hl : tokens.Lexed) (hp : parse tokens = .ok p) (hok : (analyze p).ok)
    (hrun : analyzeTypes p (analyze p) = some result) (hresult : result.ok) :
    ∃ last, Solved (analyze p).scopes p.ast last := by
  obtain ⟨last, result', hrun', hinfer, hanalyzed, hsettled⟩ := analyzeTypes_run hl hp hok
  rw [hrun] at hrun'
  cases hrun'
  obtain ⟨hsilent, hdetermined, -⟩ := hsettled.ok.mp hresult
  exact ⟨last, hinfer, hanalyzed, hsilent, hdetermined⟩

end mf.semantics
