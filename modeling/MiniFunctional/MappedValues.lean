-- Values with other integers. What the interpreter does without looking at an
-- integer, it does the same way to the values of another type of integers.
import MiniFunctional.ExceptLaws
import MiniFunctional.Interpreter

open mf.util mf.ast mf.semantics

namespace mf.visitors

open ExceptLaws

variable {I J : Type} (f : I → J)

mutual

/-- The value with other integers. -/
@[simp] def mapValue : Value I → Value J
  | .int n => .int (f n)
  | .ConstructedValue name fields => .ConstructedValue name (mapValues fields)

@[simp] def mapValues : List (Value I) → List (Value J)
  | [] => []
  | value :: values => mapValue value :: mapValues values

end

theorem mapValues_eq (values : List (Value I)) : mapValues f values = values.map (mapValue f) := by
  induction values with
  | nil => rfl
  | cons value values ih => simp [ih]

def mapResult : EvalResult I → EvalResult J
  | .Value value => .Value (mapValue f value)
  | .PartialConstructor ⟨name, arity, applied⟩ =>
    .PartialConstructor ⟨name, arity, applied.map (mapValue f)⟩

abbrev mapEnvironment : Environment I → Environment J := AssocMap.map (mapValue f)

/-! ## Steps of the interpreter -/

variable {f} {scopes : ScopeTree} {types : TypeTable}

theorem asValue_map (result : EvalResult I) :
    asValue (mapResult f result) = (asValue result).map (mapValue f) := by
  cases result with
  | Value value => rfl
  | PartialConstructor ctor => rfl

theorem asInt_map (value : Value I) : asInt (mapValue f value) = (asInt value).map f := by
  cases value with
  | int n => rfl
  | ConstructedValue name fields => rfl

theorem applyPartial_map (function : EvalResult I) (argument : Value I) :
    applyPartial (mapResult f function) (mapValue f argument) =
      (applyPartial function argument).map (mapResult f) := by
  cases function with
  | Value value => rfl
  | PartialConstructor ctor =>
    obtain ⟨name, arity, applied⟩ := ctor
    simp only [mapResult, applyPartial, List.length_append, List.length_map, List.length_cons,
      List.length_nil]
    split
    · simp [Except.map, mapResult, mapValues_eq, pure, Except.pure]
    · simp [Except.map, mapResult, pure, Except.pure]

theorem evaluateVariable_map (id : NodeId) (name : String) (env : Environment I) :
    evaluateVariable scopes types id name (mapEnvironment f env) =
      (evaluateVariable scopes types id name env).map (mapResult f) := by
  unfold evaluateVariable
  cases scopes.getResolvedSymbol id with
  | none => rfl
  | some symbol =>
    simp only [AssocMap.find_map]
    by_cases hkind : symbol.kind = .Constructor
    · simp only [hkind, if_true]
      cases constructorArity symbol types with
      | error failure => rfl
      | ok arity =>
        simp only [ok_bind]
        split
        · rfl
        · rfl
    · simp only [hkind, if_false]
      cases env.find symbol.id with
      | none => rfl
      | some value => rfl

/-! ## Patterns -/

theorem bindFields_map (sid : ScopeId) (arguments : List String) (fields : List (Value I))
    (env : Environment I) :
    bindFields scopes sid arguments (fields.map (mapValue f)) (mapEnvironment f env) =
      (bindFields scopes sid arguments fields env).map (mapEnvironment f) := by
  induction arguments generalizing fields env with
  | nil => rfl
  | cons argument arguments ih =>
    cases fields with
    | nil => rfl
    | cons field fields =>
      unfold bindFields
      simp only [List.map_cons]
      cases (scopes.getLocalSymbol sid argument).filter (·.kind = .PatternVariable) with
      | none => rfl
      | some s =>
        simp only
        rw [← AssocMap.map_insert]
        exact ih fields _

theorem matchPattern_map (pattern : Pattern) (value : Value I) (env : Environment I) :
    matchPattern scopes pattern (mapValue f value) (mapEnvironment f env) =
      (matchPattern scopes pattern value env).map (Option.map (mapEnvironment f)) := by
  cases pattern with
  | VariablePattern id name =>
    simp only [matchPattern, matchVariablePattern]
    cases (scopes.getScopeId id).bind (scopes.getLocalSymbol · name) with
    | none => rfl
    | some s =>
      simp only
      rw [← AssocMap.map_insert]
      split
      · rfl
      · rfl
  | ConstructorPattern id name arguments =>
    simp only [matchPattern, matchConstructorPattern]
    cases (scopes.getResolvedSymbol id).filter (·.kind = .Constructor) with
    | none => rfl
    | some ctor =>
      cases value with
      | int n => rfl
      | ConstructedValue vname fields =>
        simp only [mapValue, mapValues_eq, List.length_map, List.isEmpty_map]
        split
        · rfl
        · split
          · rfl
          · split
            · rfl
            · cases scopes.getScopeId id with
              | none => rfl
              | some sid =>
                simp only [bindFields_map]
                cases bindFields scopes sid arguments fields env with
                | error failure => rfl
                | ok env' => rfl

end mf.visitors
