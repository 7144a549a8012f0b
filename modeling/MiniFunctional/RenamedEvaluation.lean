-- The interpreter on a program and on the same program with its definitions
-- in another order: environments differ in the ids of their symbols only, and
-- values do not have any.
import MiniFunctional.PairedSymbols
import MiniFunctional.InterpreterSafety

open mf.util mf.ast mf.parsing mf.semantics

namespace mf.visitors

open ScopeTree

section

variable {t t' : ScopeTree} {π : Equiv.Perm NodeId}

/-- Paired symbols have the same values. -/
def EnvironmentPaired (t t' : ScopeTree) (π : NodeId → NodeId) (env env' : Environment Int32) :
    Prop := ∀ s s', Paired t t' π s s' → env.find s.id = env'.find s'.id

/-- Paired constructors have signatures of the same length. -/
def ConstructorsPaired (t t' : ScopeTree) (π : NodeId → NodeId) (types types' : TypeTable) : Prop :=
  ∀ s s', Paired t t' π s s' → s.kind = .Constructor →
    (types.getConstructorSignature s.id).map (·.fields.length) =
      (types'.getConstructorSignature s'.id).map (·.fields.length)

/-- The same exception, or results that `R` relates. -/
inductive SameEvaluation {α : Type} (R : α → α → Prop) : Evaluation α → Evaluation α → Prop
  | error (failure : Failure) : SameEvaluation R (.error failure) (.error failure)
  | ok {a a' : α} : R a a' → SameEvaluation R (.ok a) (.ok a')

theorem environmentPaired_empty (t t' : ScopeTree) (π : NodeId → NodeId) :
    EnvironmentPaired t t' π .empty .empty := fun _ _ _ => rfl

variable (hw : t.WellFormed) (hw' : t'.WellFormed)

include hw hw'

theorem EnvironmentPaired.insert {env env' : Environment Int32}
    (henv : EnvironmentPaired t t' π env env') {s s' : Symbol} (hs : Paired t t' π s s')
    (value : Value Int32) :
    EnvironmentPaired t t' π (env.insert s.id value) (env'.insert s'.id value) := by
  intro q q' hq
  rw [AssocMap.find_insert, AssocMap.find_insert]
  have hiff := hq.id_eq_iff hw hw' hs
  by_cases hid : q.id = s.id
  · rw [if_pos hid, if_pos (hiff.mp hid)]
  · rw [if_neg hid, if_neg fun h => hid (hiff.mpr h)]
    exact henv q q' hq

theorem bindFields_paired {sid sid' : ScopeId} (hscope : SymbolsPaired t t' π sid sid')
    (arguments : List String) (fields : List (Value Int32)) {env env' : Environment Int32}
    (henv : EnvironmentPaired t t' π env env') :
    SameEvaluation (EnvironmentPaired t t' π) (bindFields t sid arguments fields env)
      (bindFields t' sid' arguments fields env') := by
  induction arguments generalizing fields env env' with
  | nil => exact .ok henv
  | cons argument arguments ih =>
    cases fields with
    | nil => exact .ok henv
    | cons field fields =>
      have hrel := rel_filter (·.kind = .PatternVariable) (hscope argument)
        fun s s' hs => by rw [hs.kind]
      unfold bindFields
      cases hs : (t.getLocalSymbol sid argument).filter (·.kind = .PatternVariable) with
      | none =>
        rw [hs] at hrel
        rw [rel_none hrel]
        exact .error _
      | some s =>
        rw [hs] at hrel
        obtain ⟨s', hs', hpaired⟩ := rel_some hrel
        rw [hs']
        exact ih fields (henv.insert hw hw' hpaired field)

theorem matchVariablePattern_paired {id : NodeId} (hscope : ScopePaired t t' π id) (name : String)
    (value : Value Int32) {env env' : Environment Int32}
    (henv : EnvironmentPaired t t' π env env') :
    SameEvaluation (Option.Rel (EnvironmentPaired t t' π))
      (matchVariablePattern t id name value env)
      (matchVariablePattern t' (π id) name value env') := by
  obtain ⟨sid, sid', hsid, hsid', hnames⟩ := hscope
  have hrel := hnames name
  unfold matchVariablePattern
  rw [hsid, hsid', Option.bind_some, Option.bind_some]
  cases hs : t.getLocalSymbol sid name with
  | none =>
    rw [hs] at hrel
    rw [rel_none hrel]
    exact .error _
  | some s =>
    rw [hs] at hrel
    obtain ⟨s', hs', hpaired⟩ := rel_some hrel
    simp only [hs', hpaired.kind]
    by_cases hkind : s.kind = .PatternVariable
    · rw [if_neg (not_not.mpr hkind), if_neg (not_not.mpr hkind)]
      exact .ok (.some (henv.insert hw hw' hpaired value))
    · rw [if_pos hkind, if_pos hkind]
      exact .error _

theorem matchConstructorPattern_paired {id : NodeId} (hscope : ScopePaired t t' π id)
    (huse : UsePaired t t' π id) (arguments : List String) (value : Value Int32)
    {env env' : Environment Int32} (henv : EnvironmentPaired t t' π env env') :
    SameEvaluation (Option.Rel (EnvironmentPaired t t' π))
      (matchConstructorPattern t id arguments value env)
      (matchConstructorPattern t' (π id) arguments value env') := by
  obtain ⟨sid, sid', hsid, hsid', hnames⟩ := hscope
  have hrel := rel_filter (·.kind = .Constructor) huse fun s s' hs => by rw [hs.kind]
  unfold matchConstructorPattern
  rw [hsid, hsid']
  cases hctor : (t.getResolvedSymbol id).filter (·.kind = .Constructor) with
  | none =>
    rw [hctor] at hrel
    rw [rel_none hrel]
    exact .error _
  | some ctor =>
    rw [hctor] at hrel
    obtain ⟨ctor', hctor', hpaired⟩ := rel_some hrel
    rw [hctor']
    cases value with
    | int n => exact .ok .none
    | ConstructedValue name fields =>
      simp only [hpaired.name]
      by_cases hname : name = ctor.name
      · rw [if_neg (not_not.mpr hname), if_neg (not_not.mpr hname)]
        by_cases hlen : fields.length = arguments.length
        · rw [if_neg (not_not.mpr hlen), if_neg (not_not.mpr hlen)]
          by_cases hempty : fields.isEmpty
          · rw [if_pos hempty, if_pos hempty]
            exact .ok (.some henv)
          · rw [if_neg hempty, if_neg hempty]
            have hfields := bindFields_paired hw hw' hnames arguments fields henv
            generalize bindFields t sid arguments fields env = outcome at hfields ⊢
            generalize bindFields t' sid' arguments fields env' = outcome' at hfields ⊢
            cases hfields with
            | error failure => exact .error failure
            | ok hres => exact .ok (.some hres)
        · rw [if_pos hlen, if_pos hlen]
          exact .ok .none
      · rw [if_pos hname, if_pos hname]
        exact .ok .none

theorem matchPattern_paired {pattern : Pattern} (h : PatternPaired t t' π pattern)
    (value : Value Int32) {env env' : Environment Int32}
    (henv : EnvironmentPaired t t' π env env') :
    SameEvaluation (Option.Rel (EnvironmentPaired t t' π)) (matchPattern t pattern value env)
      (matchPattern t' (pattern.mapIds π) value env') := by
  cases pattern with
  | VariablePattern id name => exact matchVariablePattern_paired hw hw' h.1 name value henv
  | ConstructorPattern id name arguments =>
    exact matchConstructorPattern_paired hw hw' h.1 h.2 arguments value henv

variable {types types' : TypeTable} (htypes : ConstructorsPaired t t' π types types')

include htypes

omit hw hw' in
theorem evaluateVariable_paired {id : NodeId} (huse : UsePaired t t' π id) (name : String)
    {env env' : Environment Int32} (henv : EnvironmentPaired t t' π env env') :
    evaluateVariable t types id name env = evaluateVariable t' types' (π id) name env' := by
  unfold UsePaired at huse
  unfold evaluateVariable
  cases hs : t.getResolvedSymbol id with
  | none =>
    rw [hs] at huse
    rw [rel_none huse]
  | some s =>
    rw [hs] at huse
    obtain ⟨s', hs', hpaired⟩ := rel_some huse
    rw [hs']
    simp only [hpaired.kind, hpaired.name, ← henv s s' hpaired]
    by_cases hkind : s.kind = .Constructor
    · have harity : constructorArity s' types' = constructorArity s types := by
        have hlen := htypes s s' hpaired hkind
        unfold constructorArity
        rw [hpaired.kind, if_neg (not_not.mpr hkind), if_neg (not_not.mpr hkind)]
        cases hsig : types.getConstructorSignature s.id with
        | none =>
          rw [hsig, Option.map_none, eq_comm, Option.map_eq_none_iff] at hlen
          rw [hlen]
        | some signature =>
          rw [hsig, Option.map_some, eq_comm, Option.map_eq_some_iff] at hlen
          obtain ⟨signature', hsig', hlen⟩ := hlen
          simp only [hsig', hlen]
      rw [if_pos hkind, if_pos hkind, harity]
    · rw [if_neg hkind, if_neg hkind]

/-- Evaluation in paired scope trees gives the same values and the same
exceptions. -/
theorem evaluate_paired {e : Expression} (he : ExpressionPaired t t' π e)
    {env env' : Environment Int32} (henv : EnvironmentPaired t t' π env env') :
    evaluate t types e env = evaluate t' types' (e.mapIds π) env' := by
  induction e generalizing env env' with
  | IntLiteral id value => rfl
  | Variable id name => exact evaluateVariable_paired htypes he name henv
  | BinaryOperator kind id l r ihl ihr =>
    simp only [evaluate, Expression.mapIds, ihl he.1 henv, ihr he.2 henv]
  | Application id f a ihf iha =>
    simp only [evaluate, Expression.mapIds, ihf he.1 henv, iha he.2 henv]
  | CaseExpression id s bs ihs ihbs =>
    obtain ⟨hes, hebs⟩ := he
    have hbranches : ∀ value, evaluateBranches t types bs value env =
        evaluateBranches t' types' (mapIdsBranches π bs) value env' := by
      intro value
      clear ihs hes
      induction bs with
      | nil => rfl
      | cons b bs ih =>
        obtain ⟨bid, pattern, body⟩ := b
        obtain ⟨hpattern, hbody, hrest⟩ := hebs
        have hmatch := matchPattern_paired hw hw' hpattern value henv
        simp only [evaluateBranches, mapIdsBranches]
        generalize matchPattern t pattern value env = outcome at hmatch ⊢
        generalize matchPattern t' (pattern.mapIds π) value env' = outcome' at hmatch ⊢
        cases hmatch with
        | error failure => rfl
        | ok hres =>
          cases hres with
          | none => exact ih (fun b hb => ihbs b (List.mem_cons_of_mem _ hb)) hrest
          | some hbound => exact ihbs _ List.mem_cons_self hbody hbound
    simp only [evaluate, Expression.mapIds, ihs hes henv, hbranches]

end

end mf.visitors
