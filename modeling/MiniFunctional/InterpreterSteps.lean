-- The steps of the interpreter between its expressions: which exceptions they
-- throw, and what matching a pattern puts into the environment.
import MiniFunctional.ExceptLaws
import MiniFunctional.Interpreter

open mf.util mf.ast mf.semantics

namespace mf.visitors

open ExceptLaws

/-- The exceptions of the steps. A division by zero and a case without a matching
branch are the evaluator's own. -/
def Failure.OfStep : Failure → Prop
  | .runtimeError .DivisionByZero => False
  | .runtimeError .NoMatchingBranch => False
  | .runtimeError _ => True
  | .intOverflow => False

variable {I : Type} {scopes : ScopeTree} {types : TypeTable}

theorem asValue_step (result : EvalResult I) :
    Satisfies (asValue result) Failure.OfStep fun value => result = .Value value := by
  cases result with
  | Value value => exact rfl
  | PartialConstructor ctor => exact trivial

theorem asInt_step (value : Value I) :
    Satisfies (asInt value) Failure.OfStep fun n => value = .int n := by
  cases value with
  | int n => exact rfl
  | ConstructedValue name fields => exact trivial

theorem applyPartial_step (function : EvalResult I) (argument : Value I) :
    Satisfies (applyPartial function argument) Failure.OfStep fun _ => True := by
  cases function with
  | Value value => exact trivial
  | PartialConstructor ctor =>
    unfold applyPartial
    simp only
    split_ifs
    · exact trivial
    · exact trivial

theorem constructorArity_step (symbol : Symbol) :
    Satisfies (constructorArity symbol types) Failure.OfStep fun _ => True := by
  unfold constructorArity
  split_ifs
  · exact trivial
  · cases types.getConstructorSignature symbol.id with
    | none => exact trivial
    | some signature => exact trivial

theorem evaluateVariable_step (id : NodeId) (name : String) (env : Environment I) :
    Satisfies (evaluateVariable scopes types id name env) Failure.OfStep fun _ => True := by
  unfold evaluateVariable
  cases scopes.getResolvedSymbol id with
  | none => exact trivial
  | some symbol =>
    simp only
    split_ifs
    · refine (constructorArity_step symbol).bind fun arity _ => ?_
      split_ifs
      · exact trivial
      · exact trivial
    · cases env.find symbol.id with
      | none => exact trivial
      | some value => exact trivial

/-! ## Matching a pattern -/

section

variable {Q : Environment I → Prop}
  (hinsert : ∀ {env : Environment I} {s : Symbol} {sid : ScopeId} {name : String}, Q env →
    scopes.getLocalSymbol sid name = some s → s.kind = .PatternVariable →
    ∀ value, Q (env.insert s.id value))

include hinsert

/-- Fields are bound to pattern variables. -/
theorem bindFields_step (sid : ScopeId) {arguments : List String} {fields : List (Value I)}
    {env : Environment I} (henv : Q env) :
    Satisfies (bindFields scopes sid arguments fields env) Failure.OfStep Q := by
  induction arguments generalizing fields env with
  | nil => exact henv
  | cons argument arguments ih =>
    cases fields with
    | nil => exact henv
    | cons field fields =>
      unfold bindFields
      cases hs : (scopes.getLocalSymbol sid argument).filter (·.kind = .PatternVariable) with
      | none => exact trivial
      | some s =>
        obtain ⟨hlocal, hkind⟩ := Option.filter_eq_some_iff.mp hs
        exact ih (hinsert henv hlocal (of_decide_eq_true hkind) field)

/-- What holds of environments and is kept when a pattern variable gets a value,
holds of the environment of the branch. -/
theorem matchPattern_step (pattern : Pattern) (value : Value I) {env : Environment I}
    (henv : Q env) :
    Satisfies (matchPattern scopes pattern value env) Failure.OfStep
      fun matched => ∀ env', matched = some env' → Q env' := by
  cases pattern with
  | VariablePattern id name =>
    unfold matchPattern matchVariablePattern
    simp only
    cases hs : (scopes.getScopeId id).bind (scopes.getLocalSymbol · name) with
    | none => exact trivial
    | some s =>
      obtain ⟨sid, _, hlocal⟩ := Option.bind_eq_some_iff.mp hs
      simp only
      split_ifs with hkind
      · exact trivial
      · rintro env' ⟨⟩
        exact hinsert henv hlocal (not_not.mp hkind) value
  | ConstructorPattern id name arguments =>
    unfold matchPattern matchConstructorPattern
    simp only
    cases (scopes.getResolvedSymbol id).filter (·.kind = .Constructor) with
    | none => exact trivial
    | some ctor =>
      cases value with
      | int n => exact nofun
      | ConstructedValue vname fields =>
        simp only
        split_ifs
        · exact nofun
        · exact nofun
        · rintro env' ⟨⟩
          exact henv
        · cases scopes.getScopeId id with
          | none => exact trivial
          | some sid =>
            refine satisfies_map.mpr ((bindFields_step hinsert sid henv).mono fun env1 h1 => ?_)
            rintro env' ⟨⟩
            exact h1

end

end mf.visitors
