-- Inference of expressions against the typing rules: it always returns; when
-- it reports nothing, every solution of the state that it leaves types the
-- expression; and a solution that types the expression is never lost.
import MiniFunctional.AnalyzerSteps

open mf.ast

namespace mf.semantics

open StateOption ScopeTree

namespace TypeAnalyzer

open TypeStore

variable {t : ScopeTree} {program : Program}

/-- The constructors and functions of the program are entered. -/
structure Registered (t : ScopeTree) (program : Program) (st : TypeAnalyzer) : Prop where
  constructors : ∀ c signature, Declares t program c signature →
    ∃ internal, st.constructor_signatures.find c = some internal ∧
      internal.data_type = signature.data_type ∧
      internal.fields.length = signature.fields.length ∧
      ∀ ρ, st.types.Models ρ → internal.fields.map ρ = signature.fields
  declared : ∀ name s, t.getLocalSymbol getRootScopeId name = some s → s.kind = .Constructor →
    ∃ signature, Declares t program s.id signature
  globals : ∀ name s, t.getLocalSymbol getRootScopeId name = some s →
    s.kind = .Constructor ∨ s.kind = .Function → ∃ id, st.symbol_types.find s.id = some id

/-- And so are the variables in scope. -/
structure Ready (t : ScopeTree) (program : Program) (locals : List SymbolId) (st : TypeAnalyzer) :
    Prop where
  registered : Registered t program st
  locals : ∀ s ∈ locals, ∃ id, st.symbol_types.find s = some id

theorem Registered.step {st st' : TypeAnalyzer} {changed : List SymbolId}
    (h : Registered t program st) (hstep : Step t changed st st')
    (hfresh : ∀ s ∈ changed, st.symbol_types.find s = none) : Registered t program st' := by
  refine ⟨fun c signature hc => ?_, h.declared, fun name s hs hk => ?_⟩
  · obtain ⟨internal, hfind, hdata, hlen, hfields⟩ := h.constructors c signature hc
    exact ⟨internal, hstep.constructors c internal hfind, hdata, hlen,
      fun ρ hm => hfields ρ (hstep.models ρ hm)⟩
  · obtain ⟨id, hid⟩ := h.globals name s hs hk
    exact ⟨id, hstep.find hfresh hid⟩

theorem Ready.step {st st' : TypeAnalyzer} {changed locals : List SymbolId}
    (h : Ready t program locals st) (hstep : Step t changed st st')
    (hfresh : ∀ s ∈ changed, st.symbol_types.find s = none) : Ready t program locals st' := by
  refine ⟨h.registered.step hstep hfresh, fun s hs => ?_⟩
  obtain ⟨id, hid⟩ := h.locals s hs
  exact ⟨id, hstep.find hfresh hid⟩

def Fresh (st : TypeAnalyzer) (symbols : List SymbolId) : Prop :=
  ∀ s ∈ symbols, st.symbol_types.find s = none

theorem Fresh.step {st st' : TypeAnalyzer} {changed symbols : List SymbolId}
    (h : st.Fresh symbols) (hstep : Step t changed st st') (hdisj : List.Disjoint changed symbols) :
    st'.Fresh symbols := by
  intro s hs
  rw [hstep.symbols s fun hin => hdisj hin hs]
  exact h s hs

/-! ## Patterns -/

/-- The arguments of a pattern got the types of the fields. -/
structure Bound (t : ScopeTree) (sid : ScopeId) (arguments : List String) (fields : List TypeId)
    (st st' : TypeAnalyzer) : Prop where
  step : Step t (t.symbolsIn sid arguments) st st'
  types : st'.types = st.types
  silent : st'.diagnostics = st.diagnostics
  bound : ∀ s ∈ t.symbolsIn sid arguments, ∃ id, st'.symbol_types.find s = some id
  sound : ∀ ρ τ, st'.Agrees ρ τ →
    List.Forall₂ (fun name T => ∃ s, t.getLocalSymbol sid name = some s ∧ τ s.id = T)
      arguments (fields.map ρ)
  complete : ∀ ρ τ, st.Solves ρ τ →
    List.Forall₂ (fun name T => ∃ s, t.getLocalSymbol sid name = some s ∧ τ s.id = T)
      arguments (fields.map ρ) → Extends st st' τ ρ ρ

section

variable (hscoped : t.ProgramScoped program)

include hscoped

theorem bindArguments_spec {st : TypeAnalyzer} (hv : st.Valid t) {sid : Nat}
    {arguments : List String} {fields : List TypeId}
    (hlen : arguments.length = fields.length)
    (hsymbols : ∀ name ∈ arguments, ∃ s, t.getLocalSymbol sid name = some s ∧
      s.kind = .PatternVariable)
    (hnodup : (t.symbolsIn sid arguments).Nodup) (hfresh : st.Fresh (t.symbolsIn sid arguments))
    (hfields : ∀ (f : Nat), f ∈ fields → f < st.types.length) :
    Returns (bindArguments t sid arguments fields) st fun _ st' =>
      Bound t sid arguments fields st st' := by
  induction arguments generalizing st fields with
  | nil =>
    cases fields with
    | cons f fs => simp at hlen
    | nil =>
      exact returns_pure ⟨.refl hv, rfl, rfl, by simp [symbolsIn], fun _ _ _ => .nil,
        fun ρ τ hs _ => .refl hs⟩
  | cons a as ih =>
    cases fields with
    | nil => simp at hlen
    | cons f fs =>
      obtain ⟨s, hs, hkind⟩ := hsymbols a List.mem_cons_self
      have hcons : t.symbolsIn sid (a :: as) = s.id :: t.symbolsIn sid as := by
        simp [symbolsIn, hs]
      rw [hcons] at hnodup hfresh
      rw [List.nodup_cons] at hnodup
      simp only [bindArguments, hs, Option.filter, hkind, decide_true, if_true]
      refine returns_bind ((setSymbolType_spec hv (hfresh s.id List.mem_cons_self)
        (hfields f List.mem_cons_self) ⟨s, (hscoped.named _ _ _ hs).1⟩).mono ?_)
      intro _ st1 h1
      have hfresh1 : st1.Fresh (t.symbolsIn sid as) :=
        Fresh.step (fun x hx => hfresh x (List.mem_cons_of_mem _ hx)) h1.step
          (by simpa using hnodup.1)
      refine (ih h1.step.valid (by simpa using hlen)
        (fun name hname => hsymbols name (List.mem_cons_of_mem _ hname)) hnodup.2 hfresh1
        (fun f' hf' => by rw [h1.types]; exact hfields f' (List.mem_cons_of_mem _ hf'))).mono ?_
      intro _ st2 h2
      have hfind := h2.step.find hfresh1 h1.find
      refine ⟨by rw [hcons]; exact h1.step.trans h2.step, h2.types.trans h1.types,
        h2.silent.trans h1.silent, fun x hx => ?_, fun ρ τ hagree => ?_, fun ρ τ hsol hall => ?_⟩
      · rw [hcons] at hx
        rcases List.mem_cons.mp hx with rfl | hx
        · exact ⟨f, hfind⟩
        · exact h2.bound x hx
      · exact .cons ⟨s, hs, hagree _ _ hfind⟩ (h2.sound ρ τ hagree)
      · rw [List.map_cons] at hall
        rcases hall with _ | ⟨⟨s', hs', hτ⟩, hrest⟩
        rw [hs] at hs'
        cases hs'
        have he1 := h1.complete ρ τ hsol hτ
        exact he1.trans (h2.complete ρ τ he1.solves hrest) h1.step.length

/-- The pattern was checked against a scrutinee of the type `expected`. -/
structure Matches (t : ScopeTree) (program : Program) (p : Pattern) (expected : TypeId)
    (st st' : TypeAnalyzer) : Prop where
  step : Step t (t.patternSymbols p) st st'
  bound : Registered t program st → st'.diagnostics = st.diagnostics →
    ∀ s ∈ t.patternSymbols p, ∃ id, st'.symbol_types.find s = some id
  sound : Registered t program st → st'.diagnostics = st.diagnostics → ∀ ρ τ, st'.Solves ρ τ →
    PatternHasType t program τ (ρ expected) p
  complete : Registered t program st → ∀ ρ τ, st.Solves ρ τ →
    PatternHasType t program τ (ρ expected) p → ∃ ρ', Extends st st' τ ρ ρ'

theorem inferVariablePattern_spec {st : TypeAnalyzer} (hv : st.Valid t) {id : NodeId}
    {name : String} (hp : t.PatternScoped (.VariablePattern id name))
    (hfresh : st.Fresh (t.patternSymbols (.VariablePattern id name))) {expected : Nat}
    (hexpected : expected < st.types.length) :
    Returns (inferVariablePattern t id name expected) st fun _ st' =>
      Matches t program (.VariablePattern id name) expected st st' := by
  obtain ⟨⟨sid, hsid, hnames⟩, -⟩ := hp
  obtain ⟨s, hs, hkind⟩ := hnames name (by simp [Pattern.names])
  have hsymbols : t.patternSymbols (.VariablePattern id name) = [s.id] := by
    unfold ScopeTree.patternSymbols
    rw [hsid]
    simp [symbolsIn, Pattern.names, hs]
  rw [hsymbols] at hfresh
  have hget : getSymbolInNodeScope t id name .PatternVariable = some s := by
    unfold getSymbolInNodeScope
    rw [show t.getScopeId id = some sid from hsid, Option.bind_some, hs]
    simp [Option.filter, hkind]
  unfold inferVariablePattern
  rw [hget]
  refine (setSymbolType_spec hv (hfresh s.id (by simp)) hexpected
    ⟨s, (hscoped.named _ _ _ hs).1⟩).mono ?_
  intro _ st1 h1
  refine ⟨by rw [hsymbols]; exact h1.step, fun _ _ x hx => ?_, fun _ _ ρ τ hsol => ?_,
    fun _ ρ τ hsol hpat => ?_⟩
  · rw [hsymbols, List.mem_singleton] at hx
    exact ⟨expected, by rw [hx]; exact h1.find⟩
  · exact ⟨sid, s, hsid, hs, h1.sound ρ τ hsol.2⟩
  · obtain ⟨sid', s', hsid', hs', hτ⟩ := hpat
    rw [show t.getScopeId id = some sid from hsid] at hsid'
    cases hsid'
    rw [hs] at hs'
    cases hs'
    exact ⟨ρ, h1.complete ρ τ hsol hτ⟩

omit hscoped in
/-- A constructor pattern that never comes to its arguments. -/
theorem Matches.stop {st st' : TypeAnalyzer} {p : Pattern} {expected : TypeId}
    (hstep : Step t [] st st')
    (hne : Registered t program st → st'.diagnostics ≠ st.diagnostics)
    (hcomplete : Registered t program st → ∀ ρ τ, st.Solves ρ τ →
      ¬ PatternHasType t program τ (ρ expected) p) : Matches t program p expected st st' :=
  ⟨hstep.mono (by simp), fun hr heq => absurd heq (hne hr), fun hr heq => absurd heq (hne hr),
    fun hr ρ τ hsol hp => absurd hp (hcomplete hr ρ τ hsol)⟩

theorem inferConstructorPattern_spec {st : TypeAnalyzer} (hv : st.Valid t) {id : NodeId}
    {name : String} {arguments : List String}
    (hp : t.PatternScoped (.ConstructorPattern id name arguments))
    (hnodup : (t.patternSymbols (.ConstructorPattern id name arguments)).Nodup)
    (hfresh : st.Fresh (t.patternSymbols (.ConstructorPattern id name arguments))) {expected : Nat}
    (hexpected : expected < st.types.length) :
    Returns (inferConstructorPattern t id name arguments expected) st fun _ st' =>
      Matches t program (.ConstructorPattern id name arguments) expected st st' := by
  obtain ⟨⟨sid, hsid, hnames⟩, c, hc, hkind, hroot⟩ := hp
  have hsid' : t.getScopeId id = some sid := hsid
  have hsymbols : t.patternSymbols (.ConstructorPattern id name arguments) =
      t.symbolsIn sid arguments := by
    unfold ScopeTree.patternSymbols
    rw [hsid]
    rfl
  rw [hsymbols] at hnodup hfresh
  unfold inferConstructorPattern
  rw [hc]
  refine returns_bind (returns_get ?_)
  cases hfind : st.constructor_signatures.find c.id with
  | none =>
    have hnot : ¬ Registered t program st := by
      intro hr
      obtain ⟨signature, hd⟩ := hr.declared name c hroot hkind
      obtain ⟨internal, hinternal, _⟩ := hr.constructors c.id signature hd
      rw [hfind] at hinternal
      cases hinternal
    exact returns_pure (.stop (.refl hv) (fun hr => absurd hr hnot) fun hr => absurd hr hnot)
  | some internal =>
    obtain ⟨hfields, hdata, _⟩ := hv.constructors c.id internal hfind
    refine returns_bind ((makeData_spec hv hdata).mono fun data st1 h1 => ?_)
    refine returns_bind ((unify_spec h1.step.valid
      (Nat.lt_of_lt_of_le hexpected h1.step.length) h1.inRange id "constructor pattern").mono
      fun _ st2 h2 => ?_)
    have hstep2 := h1.step.trans h2.step
    -- a typing of the pattern goes by the constructor's one signature
    have hpattern : Registered t program st → ∀ {τ S},
        PatternHasType t program τ S (.ConstructorPattern id name arguments) →
        S = .DataType internal.data_type ∧ arguments.length = internal.fields.length ∧
          ∀ ρ, st.types.Models ρ → List.Forall₂
            (fun name T => ∃ s, t.getLocalSymbol sid name = some s ∧ τ s.id = T)
            arguments (internal.fields.map ρ) := by
      rintro hr τ S ⟨c', signature, hc', hd, rfl, sid', hsid'', hall⟩
      rw [hc] at hc'
      cases hc'
      rw [hsid'] at hsid''
      cases hsid''
      obtain ⟨internal', hinternal, hdatatype, hlen, hmodel⟩ := hr.constructors c.id signature hd
      rw [hfind] at hinternal
      cases hinternal
      refine ⟨by rw [hdatatype]; rfl, by rw [hlen]; exact hall.length_eq, fun ρ hm => ?_⟩
      rw [hmodel ρ hm]
      exact hall
    by_cases hlen : arguments.length = internal.fields.length
    · rw [if_neg (by simpa using hlen), hsid']
      have hfresh2 : st2.Fresh (t.symbolsIn sid arguments) := hfresh.step hstep2 (by simp)
      refine (bindArguments_spec hscoped h2.step.valid hlen hnames hnodup hfresh2
        (fun f hf => Nat.lt_of_lt_of_le (hfields f hf) hstep2.length)).mono fun _ st3 h3 => ?_
      have hstep3 := hstep2.trans h3.step
      refine ⟨by rw [hsymbols]; exact hstep3, fun _ _ s hs => h3.bound s (by rwa [← hsymbols]),
        fun hr heq ρ τ hsol => ?_, fun hr ρ τ hsol hp => ?_⟩
      · obtain ⟨signature, hd⟩ := hr.declared name c hroot hkind
        obtain ⟨internal', hinternal, hdatatype, _, hmodel⟩ := hr.constructors c.id signature hd
        rw [hfind] at hinternal
        cases hinternal
        have hm2 := h3.step.models ρ hsol.1
        have hsilent := (h1.step.silent h2.step (by rw [← h3.silent, heq])).2
        have hexp := h2.sound hsilent ρ hm2
        have hdat := h1.sound ρ (h2.step.models ρ hm2)
        refine ⟨c, signature, hc, hd, ?_, sid, hsid', ?_⟩
        · rw [hexp, hdat, hdatatype]
          rfl
        · rw [← hmodel ρ (hstep2.models ρ hm2)]
          exact h3.sound ρ τ hsol.2
      · obtain ⟨hS, _, hall⟩ := hpattern hr hp
        obtain ⟨ρ1, he1, hρ1⟩ := h1.complete ρ τ _ hsol rfl
        have he2 := h2.complete ρ1 τ he1.solves (by rw [he1.same expected hexpected, hS, hρ1])
        have he := he1.trans he2 h1.step.length
        refine ⟨ρ1, he.trans (h3.complete ρ1 τ he.solves ?_) hstep2.length⟩
        have hmap : internal.fields.map ρ1 = internal.fields.map ρ :=
          List.map_congr_left fun f hf => he.same f (hfields f hf)
        rw [hmap]
        exact hall ρ hsol.1
    · rw [if_pos (by simpa using hlen)]
      refine (addError_spec h2.step.valid _ _).mono ?_
      rintro _ st3 ⟨hstep3, hne⟩
      refine .stop (hstep2.trans hstep3) (fun _ heq => hne ?_) fun hr ρ τ hsol hp =>
        hlen (hpattern hr hp).2.1
      exact (hstep2.silent hstep3 heq).2

theorem inferPattern_spec {st : TypeAnalyzer} (hv : st.Valid t) {p : Pattern}
    (hp : t.PatternScoped p) (hnodup : (t.patternSymbols p).Nodup)
    (hfresh : st.Fresh (t.patternSymbols p)) {expected : Nat}
    (hexpected : expected < st.types.length) :
    Returns (inferPattern t expected p) st fun _ st' => Matches t program p expected st st' := by
  cases p with
  | VariablePattern id name => exact inferVariablePattern_spec hscoped hv hp hfresh hexpected
  | ConstructorPattern id name arguments =>
    exact inferConstructorPattern_spec hscoped hv hp hnodup hfresh hexpected

/-! ## Expressions -/

/-- The expression was inferred to have the type of the node `result`. -/
structure Infers (t : ScopeTree) (program : Program) (e : Expression) (locals : List SymbolId)
    (st : TypeAnalyzer) (result : TypeId) (st' : TypeAnalyzer) : Prop where
  step : Step t (t.boundIn e) st st'
  inRange : result < st'.types.length
  bound : Ready t program locals st → st'.diagnostics = st.diagnostics →
    ∀ s ∈ t.boundIn e, ∃ id, st'.symbol_types.find s = some id
  sound : Ready t program locals st → st'.diagnostics = st.diagnostics → ∀ ρ τ, st'.Solves ρ τ →
    HasType t program τ e (ρ result)
  complete : Ready t program locals st → ∀ ρ τ T, st.Solves ρ τ → HasType t program τ e T →
    ∃ ρ', Extends st st' τ ρ ρ' ∧ ρ' result = T

/-- What is to be shown of the expression `e`. -/
def Inferred (t : ScopeTree) (program : Program) (e : Expression) : Prop :=
  ∀ {st : TypeAnalyzer} {locals : List SymbolId}, st.Valid t → t.WellScoped e locals →
    (t.boundIn e).Nodup → st.Fresh (t.boundIn e) →
    Returns (inferExpression t e) st (Infers t program e locals st)

omit hscoped in
theorem inferVariable_spec (id : NodeId) (name : String) :
    Inferred t program (.Variable id name) := by
  intro st locals hv hscope _ _
  obtain ⟨s, hs, hname, hkind⟩ := hscope
  simp only [inferExpression, inferVariable, hs]
  refine returns_bind (returns_get ?_)
  cases hfind : st.symbol_types.find s.id with
  | some type =>
    refine returns_pure ⟨.refl hv, (hv.symbols _ _ hfind).1, by simp, fun _ _ ρ τ hsol => ?_,
      fun _ ρ τ T hsol hT => ?_⟩
    · rw [← hsol.2 s.id type hfind]
      exact .Variable hs
    · cases hT with
      | Variable hs' =>
        rw [hs] at hs'
        cases hs'
        exact ⟨ρ, .refl hsol, (hsol.2 s.id type hfind).symm⟩
  | none =>
    have hnot : ¬ Ready t program locals st := by
      intro hr
      rcases hkind with ⟨hk, hroot⟩ | ⟨_, hmem⟩
      · obtain ⟨id, hid⟩ := hr.registered.globals name s hroot hk
        rw [hfind] at hid
        cases hid
      · obtain ⟨id, hid⟩ := hr.locals s.id hmem
        rw [hfind] at hid
        cases hid
    refine (makeVariable_spec hv).mono fun result st1 h1 => ?_
    exact ⟨h1.step, h1.inRange, by simp, fun hr => absurd hr hnot, fun hr => absurd hr hnot⟩

omit hscoped in
theorem inferBinaryOperator_spec {kind : BinaryOperatorKind} {id : NodeId} {l r : Expression}
    (ihl : Inferred t program l) (ihr : Inferred t program r) :
    Inferred t program (.BinaryOperator kind id l r) := by
  intro st locals hv hscope hnodup hfresh
  simp only [boundIn, List.nodup_append'] at hnodup
  have hfl : st.Fresh (t.boundIn l) := fun s hs => hfresh s (List.mem_append_left _ hs)
  have hfr : st.Fresh (t.boundIn r) := fun s hs => hfresh s (List.mem_append_right _ hs)
  simp only [inferExpression]
  refine returns_bind ((ihl hv hscope.1 hnodup.1 hfl).mono fun left st1 h1 => ?_)
  have hf1 := hfr.step h1.step hnodup.2.2
  refine returns_bind ((ihr h1.step.valid hscope.2 hnodup.2.1 hf1).mono fun right st2 h2 => ?_)
  refine returns_bind ((makeInt_spec h2.step.valid).mono fun integer st3 h3 => ?_)
  have hleft : left < st3.types.length :=
    Nat.lt_of_lt_of_le h1.inRange (Nat.le_trans h2.step.length h3.step.length)
  have hright : right < st3.types.length := Nat.lt_of_lt_of_le h2.inRange h3.step.length
  refine returns_bind ((unify_spec h3.step.valid hleft h3.inRange _ _).mono fun _ st4 h4 => ?_)
  refine returns_bind ((unify_spec h4.step.valid (Nat.lt_of_lt_of_le hright h4.step.length)
    (Nat.lt_of_lt_of_le h3.inRange h4.step.length) _ _).mono fun _ st5 h5 => ?_)
  refine (makeInt_spec h5.step.valid).mono fun result st6 h6 => ?_
  have h26 := ((h3.step.trans h4.step).trans h5.step).trans h6.step
  have h16 := h2.step.trans h26
  refine ⟨(h1.step.trans h16).mono (by simp), h6.inRange, fun hr heq => ?_,
    fun hr heq ρ τ hsol => ?_, fun hr ρ τ T hsol hT => ?_⟩
  · obtain ⟨heq1, heq16⟩ := h1.step.silent h16 heq
    obtain ⟨heq2, _⟩ := h2.step.silent h26 heq16
    intro s hs
    rcases List.mem_append.mp hs with hs | hs
    · obtain ⟨id, hid⟩ := h1.bound hr heq1 s hs
      exact ⟨id, h26.find (by simp) (h2.step.find hf1 hid)⟩
    · obtain ⟨id, hid⟩ := h2.bound (hr.step h1.step hfl) heq2 s hs
      exact ⟨id, h26.find (by simp) hid⟩
  · obtain ⟨heq1, heq16⟩ := h1.step.silent h16 heq
    obtain ⟨heq2, heq26⟩ := h2.step.silent h26 heq16
    have hr1 := hr.step h1.step hfl
    obtain ⟨heq35, _⟩ := ((h3.step.trans h4.step).trans h5.step).silent h6.step heq26
    obtain ⟨heq34, heq5⟩ := (h3.step.trans h4.step).silent h5.step heq35
    obtain ⟨_, heq4⟩ := h3.step.silent h4.step heq34
    have hsol5 := h6.step.solves (by simp) hsol
    have hsol4 := h5.step.solves (by simp) hsol5
    have hsol3 := h4.step.solves (by simp) hsol4
    have hsol2 := h3.step.solves (by simp) hsol3
    have hint := h3.sound ρ hsol3.1
    have htl := h1.sound hr heq1 ρ τ (h2.step.solves hf1 hsol2)
    have htr := h2.sound hr1 heq2 ρ τ hsol2
    rw [h4.sound heq4 ρ hsol4.1, hint] at htl
    rw [h5.sound heq5 ρ hsol5.1, hint] at htr
    rw [show ρ result = intType from h6.sound ρ hsol.1]
    exact .BinaryOperator htl htr
  · cases hT with
    | BinaryOperator htl htr =>
      obtain ⟨ρ1, he1, hl⟩ := h1.complete hr ρ τ _ hsol htl
      obtain ⟨ρ2, he2, hri⟩ := h2.complete (hr.step h1.step hfl) ρ1 τ _ he1.solves htr
      obtain ⟨ρ3, he3, hint⟩ := h3.complete ρ2 τ _ he2.solves rfl
      have hl3 : ρ3 left = ρ3 integer := by
        rw [he3.same left (Nat.lt_of_lt_of_le h1.inRange h2.step.length),
          he2.same left h1.inRange, hl, hint]
        rfl
      have hr3 : ρ3 right = ρ3 integer := by
        rw [he3.same right h2.inRange, hri, hint]
        rfl
      have he4 := h4.complete ρ3 τ he3.solves hl3
      have he5 := h5.complete ρ3 τ he4.solves hr3
      obtain ⟨ρ6, he6, hres⟩ := h6.complete ρ3 τ _ he5.solves rfl
      have he35 := ((he3.trans he4 h3.step.length).trans he5
        (Nat.le_trans h3.step.length h4.step.length)).trans he6
        (Nat.le_trans h3.step.length (Nat.le_trans h4.step.length h5.step.length))
      exact ⟨ρ6, he1.trans (he2.trans he35 h2.step.length) h1.step.length, hres⟩

omit hscoped in
theorem inferApplication_spec {id : NodeId} {f a : Expression}
    (ihf : Inferred t program f) (iha : Inferred t program a) :
    Inferred t program (.Application id f a) := by
  intro st locals hv hscope hnodup hfresh
  simp only [boundIn, List.nodup_append'] at hnodup
  have hff : st.Fresh (t.boundIn f) := fun s hs => hfresh s (List.mem_append_left _ hs)
  have hfa : st.Fresh (t.boundIn a) := fun s hs => hfresh s (List.mem_append_right _ hs)
  simp only [inferExpression]
  refine returns_bind ((ihf hv hscope.1 hnodup.1 hff).mono fun function st1 h1 => ?_)
  have hf1 := hfa.step h1.step hnodup.2.2
  refine returns_bind ((iha h1.step.valid hscope.2 hnodup.2.1 hf1).mono fun argument st2 h2 => ?_)
  refine returns_bind ((makeVariable_spec h2.step.valid).mono fun result st3 h3 => ?_)
  refine returns_bind ((makeFunction_spec h3.step.valid
    (Nat.lt_of_lt_of_le h2.inRange h3.step.length) h3.inRange).mono fun expected st4 h4 => ?_)
  have hlen24 := Nat.le_trans h3.step.length h4.step.length
  refine returns_bind ((unify_spec h4.step.valid
    (Nat.lt_of_lt_of_le h1.inRange (Nat.le_trans h2.step.length hlen24)) h4.inRange _ _).mono
    fun _ st5 h5 => returns_pure ?_)
  have h35 := (h3.step.trans h4.step).trans h5.step
  have h25 := h2.step.trans h35
  refine ⟨(h1.step.trans h25).mono (by simp),
    Nat.lt_of_lt_of_le h3.inRange (Nat.le_trans h4.step.length h5.step.length), fun hr heq => ?_,
    fun hr heq ρ τ hsol => ?_, fun hr ρ τ T hsol hT => ?_⟩
  · obtain ⟨heq1, heq25⟩ := h1.step.silent h25 heq
    obtain ⟨heq2, _⟩ := h2.step.silent h35 heq25
    intro s hs
    rcases List.mem_append.mp hs with hs | hs
    · obtain ⟨id, hid⟩ := h1.bound hr heq1 s hs
      exact ⟨id, h35.find (by simp) (h2.step.find hf1 hid)⟩
    · obtain ⟨id, hid⟩ := h2.bound (hr.step h1.step hff) heq2 s hs
      exact ⟨id, h35.find (by simp) hid⟩
  · obtain ⟨heq1, heq25⟩ := h1.step.silent h25 heq
    obtain ⟨heq2, heq35⟩ := h2.step.silent h35 heq25
    obtain ⟨_, heq5⟩ := (h3.step.trans h4.step).silent h5.step heq35
    have hsol4 := h5.step.solves (by simp) hsol
    have hsol3 := h4.step.solves (by simp) hsol4
    have hsol2 := h3.step.solves (by simp) hsol3
    have htf := h1.sound hr heq1 ρ τ (h2.step.solves hf1 hsol2)
    have hta := h2.sound (hr.step h1.step hff) heq2 ρ τ hsol2
    rw [h5.sound heq5 ρ hsol.1, h4.sound ρ hsol4.1] at htf
    exact .Application htf hta
  · cases hT with
    | @Application _ _ _ P R htf hta =>
      obtain ⟨ρ1, he1, hf⟩ := h1.complete hr ρ τ _ hsol htf
      obtain ⟨ρ2, he2, ha⟩ := h2.complete (hr.step h1.step hff) ρ1 τ _ he1.solves hta
      obtain ⟨ρ3, he3, hres⟩ := h3.complete ρ2 τ T he2.solves trivial
      obtain ⟨ρ4, he4, hexp⟩ := h4.complete ρ3 τ _ he3.solves rfl
      have hf4 : ρ4 function = ρ4 expected := by
        have hlt2 := Nat.lt_of_lt_of_le h1.inRange h2.step.length
        rw [he4.same function (Nat.lt_of_lt_of_le hlt2 h3.step.length), he3.same function hlt2,
          he2.same function h1.inRange, hf, hexp, he3.same argument h2.inRange, ha, hres]
        rfl
      have he5 := h5.complete ρ4 τ he4.solves hf4
      have he35 := he3.trans (he4.trans he5 h4.step.length) h3.step.length
      refine ⟨ρ4, he1.trans (he2.trans he35 h2.step.length) h1.step.length, ?_⟩
      rw [he4.same result h3.inRange, hres]

/-- The branches were checked to take the scrutinee's type to the result's. -/
structure InfersBranches (t : ScopeTree) (program : Program) (bs : List Branch)
    (locals : List SymbolId) (scrutinee result : TypeId) (st st' : TypeAnalyzer) : Prop where
  step : Step t (t.boundInBranches bs) st st'
  bound : Ready t program locals st → st'.diagnostics = st.diagnostics →
    ∀ s ∈ t.boundInBranches bs, ∃ id, st'.symbol_types.find s = some id
  sound : Ready t program locals st → st'.diagnostics = st.diagnostics → ∀ ρ τ, st'.Solves ρ τ →
    (∀ b ∈ bs, PatternHasType t program τ (ρ scrutinee) b.pattern) ∧
      ∀ b ∈ bs, HasType t program τ b.body (ρ result)
  complete : Ready t program locals st → ∀ ρ τ, st.Solves ρ τ →
    (∀ b ∈ bs, PatternHasType t program τ (ρ scrutinee) b.pattern) →
    (∀ b ∈ bs, HasType t program τ b.body (ρ result)) → ∃ ρ', Extends st st' τ ρ ρ'

theorem inferBranches_spec {bs : List Branch} (ih : ∀ b ∈ bs, Inferred t program b.body)
    {st : TypeAnalyzer} {locals : List SymbolId} (hv : st.Valid t)
    (hscope : t.WellScopedBranches bs locals) (hnodup : (t.boundInBranches bs).Nodup)
    (hfresh : st.Fresh (t.boundInBranches bs)) {scrutinee result : Nat}
    (hscrutinee : scrutinee < st.types.length) (hresult : result < st.types.length) :
    Returns (inferBranches t bs scrutinee result) st fun _ st' =>
      InfersBranches t program bs locals scrutinee result st st' := by
  induction bs generalizing st with
  | nil => exact returns_pure ⟨.refl hv, by simp, by simp, fun _ ρ τ hsol _ _ => ⟨ρ, .refl hsol⟩⟩
  | cons b bs ihbs =>
    obtain ⟨bid, p, e⟩ := b
    obtain ⟨hp, he, hbs⟩ := hscope
    simp only [boundInBranches, List.nodup_append', List.disjoint_append_right] at hnodup
    obtain ⟨hnp, ⟨hne, hnbs, hdeb⟩, hdpe, hdpb⟩ := hnodup
    have hfp : st.Fresh (t.patternSymbols p) := fun s hs => hfresh s (by simp [hs])
    have hfe : st.Fresh (t.boundIn e) := fun s hs => hfresh s (by simp [hs])
    have hfb : st.Fresh (t.boundInBranches bs) := fun s hs => hfresh s (by simp [hs])
    simp only [inferBranches]
    refine returns_bind ((inferPattern_spec hscoped hv hp hnp hfp hscrutinee).mono
      fun _ st1 h1 => ?_)
    have hfe1 := hfe.step h1.step hdpe
    refine returns_bind ((ih _ List.mem_cons_self h1.step.valid he hne hfe1).mono
      fun body st2 h2 => ?_)
    have hlen := Nat.le_trans h1.step.length h2.step.length
    refine returns_bind ((unify_spec h2.step.valid h2.inRange (Nat.lt_of_lt_of_le hresult hlen)
      _ _).mono fun _ st3 h3 => ?_)
    have hfb1 := hfb.step h1.step hdpb
    have hfb2 := hfb1.step h2.step hdeb
    have hfb3 : st3.Fresh (t.boundInBranches bs) := hfb2.step h3.step (by simp)
    have hlen3 := Nat.le_trans hlen h3.step.length
    refine (ihbs (fun b hb => ih b (List.mem_cons_of_mem _ hb)) h3.step.valid hbs hnbs hfb3
      (Nat.lt_of_lt_of_le hscrutinee hlen3) (Nat.lt_of_lt_of_le hresult hlen3)).mono
      fun _ st4 h4 => ?_
    have h34 := h3.step.trans h4.step
    have h24 := h2.step.trans h34
    have hready1 : Ready t program locals st → st1.diagnostics = st.diagnostics →
        Ready t program (t.patternSymbols p ++ locals) st1 := by
      intro hr heq1
      have hr1 := hr.step h1.step hfp
      refine ⟨hr1.registered, fun s hs => ?_⟩
      rcases List.mem_append.mp hs with hs | hs
      · exact h1.bound hr.registered heq1 s hs
      · exact hr1.locals s hs
    have hready3 : Ready t program locals st → Ready t program locals st3 := fun hr =>
      ((hr.step h1.step hfp).step h2.step hfe1).step h3.step (by simp)
    refine ⟨(h1.step.trans h24).mono (by simp), fun hr heq => ?_, fun hr heq ρ τ hsol => ?_,
      fun hr ρ τ hsol hpats hbodies => ?_⟩
    · obtain ⟨heq1, heq24⟩ := h1.step.silent h24 heq
      obtain ⟨heq2, heq34⟩ := h2.step.silent h34 heq24
      obtain ⟨_, heq4⟩ := h3.step.silent h4.step heq34
      intro s hs
      simp only [boundInBranches, List.mem_append] at hs
      rcases hs with hs | hs | hs
      · obtain ⟨id, hid⟩ := h1.bound hr.registered heq1 s hs
        exact ⟨id, h4.step.find hfb3 (h3.step.find (by simp) (h2.step.find hfe1 hid))⟩
      · obtain ⟨id, hid⟩ := h2.bound (hready1 hr heq1) heq2 s hs
        exact ⟨id, h4.step.find hfb3 (h3.step.find (by simp) hid)⟩
      · exact h4.bound (hready3 hr) heq4 s hs
    · obtain ⟨heq1, heq24⟩ := h1.step.silent h24 heq
      obtain ⟨heq2, heq34⟩ := h2.step.silent h34 heq24
      obtain ⟨heq3, heq4⟩ := h3.step.silent h4.step heq34
      have hsol3 := h4.step.solves hfb3 hsol
      have hsol2 := h3.step.solves (by simp) hsol3
      have hsol1 := h2.step.solves hfe1 hsol2
      have hpat := h1.sound hr.registered heq1 ρ τ hsol1
      have hbody := h2.sound (hready1 hr heq1) heq2 ρ τ hsol2
      rw [h3.sound heq3 ρ hsol3.1] at hbody
      obtain ⟨hpats, hbodies⟩ := h4.sound (hready3 hr) heq4 ρ τ hsol
      refine ⟨fun b hb => ?_, fun b hb => ?_⟩
      · rcases List.mem_cons.mp hb with rfl | hb
        · exact hpat
        · exact hpats b hb
      · rcases List.mem_cons.mp hb with rfl | hb
        · exact hbody
        · exact hbodies b hb
    · obtain ⟨ρ1, he1⟩ := h1.complete hr.registered ρ τ hsol (hpats _ List.mem_cons_self)
      obtain ⟨ρ2, he2, hbody⟩ := h2.complete (hready1 hr he1.silent) ρ1 τ _ he1.solves
        (hbodies _ List.mem_cons_self)
      have he12 := he1.trans he2 h1.step.length
      have he3 := h3.complete ρ2 τ he2.solves (by rw [hbody, he12.same result hresult])
      have he13 := he12.trans he3 hlen
      obtain ⟨ρ4, he4⟩ := h4.complete (hready3 hr) ρ2 τ he3.solves
        (fun b hb => by
          rw [he13.same scrutinee hscrutinee]
          exact hpats b (List.mem_cons_of_mem _ hb))
        (fun b hb => by
          rw [he13.same result hresult]
          exact hbodies b (List.mem_cons_of_mem _ hb))
      exact ⟨ρ4, he13.trans he4 hlen3⟩

theorem inferCaseExpression_spec {id : NodeId} {s : Expression} {bs : List Branch}
    (ihs : Inferred t program s) (ihbs : ∀ b ∈ bs, Inferred t program b.body) :
    Inferred t program (.CaseExpression id s bs) := by
  intro st locals hv hscope hnodup hfresh
  obtain ⟨hss, _, hsb⟩ := hscope
  simp only [boundIn, List.nodup_append'] at hnodup
  have hfs : st.Fresh (t.boundIn s) := fun x hx => hfresh x (List.mem_append_left _ hx)
  have hfb : st.Fresh (t.boundInBranches bs) := fun x hx => hfresh x (List.mem_append_right _ hx)
  simp only [inferExpression]
  refine returns_bind ((ihs hv hss hnodup.1 hfs).mono fun scrutinee st1 h1 => ?_)
  refine returns_bind ((makeVariable_spec h1.step.valid).mono fun result st2 h2 => ?_)
  have hfb1 := hfb.step h1.step hnodup.2.2
  have hfb2 : st2.Fresh (t.boundInBranches bs) := hfb1.step h2.step (by simp)
  refine returns_bind ((inferBranches_spec hscoped ihbs h2.step.valid hsb hnodup.2.1 hfb2
    (Nat.lt_of_lt_of_le h1.inRange h2.step.length) h2.inRange).mono
    fun _ st3 h3 => returns_pure ?_)
  have h13 := h2.step.trans h3.step
  have hready2 : Ready t program locals st → Ready t program locals st2 := fun hr =>
    (hr.step h1.step hfs).step h2.step (by simp)
  refine ⟨(h1.step.trans h13).mono (by simp), Nat.lt_of_lt_of_le h2.inRange h3.step.length,
    fun hr heq => ?_, fun hr heq ρ τ hsol => ?_, fun hr ρ τ T hsol hT => ?_⟩
  · obtain ⟨heq1, heq13⟩ := h1.step.silent h13 heq
    obtain ⟨_, heq3⟩ := h2.step.silent h3.step heq13
    intro x hx
    rcases List.mem_append.mp hx with hx | hx
    · obtain ⟨id, hid⟩ := h1.bound hr heq1 x hx
      exact ⟨id, h3.step.find hfb2 (h2.step.find (by simp) hid)⟩
    · exact h3.bound (hready2 hr) heq3 x hx
  · obtain ⟨heq1, heq13⟩ := h1.step.silent h13 heq
    obtain ⟨_, heq3⟩ := h2.step.silent h3.step heq13
    have hsol1 := h2.step.solves (by simp) (h3.step.solves hfb2 hsol)
    obtain ⟨hpats, hbodies⟩ := h3.sound (hready2 hr) heq3 ρ τ hsol
    exact .CaseExpression (h1.sound hr heq1 ρ τ hsol1) hpats hbodies
  · cases hT with
    | CaseExpression hS hpats hbodies =>
      obtain ⟨ρ1, he1, hscrutinee⟩ := h1.complete hr ρ τ _ hsol hS
      obtain ⟨ρ2, he2, hres⟩ := h2.complete ρ1 τ T he1.solves trivial
      obtain ⟨ρ3, he3⟩ := h3.complete (hready2 hr) ρ2 τ he2.solves
        (fun b hb => by
          rw [he2.same scrutinee h1.inRange, hscrutinee]
          exact hpats b hb)
        (fun b hb => by
          rw [hres]
          exact hbodies b hb)
      refine ⟨ρ3, he1.trans (he2.trans he3 h2.step.length) h1.step.length, ?_⟩
      rw [he3.same result h2.inRange, hres]

theorem inferExpression_spec (e : Expression) : Inferred t program e := by
  induction e with
  | IntLiteral id value =>
    intro st locals hv _ _ _
    simp only [inferExpression]
    refine (makeInt_spec hv).mono fun result st1 h1 => ?_
    refine ⟨h1.step, h1.inRange, by simp, fun _ _ ρ τ hsol => ?_, fun _ ρ τ T hsol hT => ?_⟩
    · rw [show ρ result = intType from h1.sound ρ hsol.1]
      exact .IntLiteral
    · cases hT
      exact h1.complete ρ τ _ hsol rfl
  | Variable id name => exact inferVariable_spec id name
  | BinaryOperator kind id l r ihl ihr => exact inferBinaryOperator_spec ihl ihr
  | Application id f a ihf iha => exact inferApplication_spec ihf iha
  | CaseExpression id s bs ihs ihbs => exact inferCaseExpression_spec hscoped ihs ihbs

end

end TypeAnalyzer

end mf.semantics
