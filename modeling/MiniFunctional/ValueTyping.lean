-- What it means that a run-time value has a type, and how the values of an
-- environment do. The integers are of any type.
import MiniFunctional.Interpreter
import MiniFunctional.Typing

open mf.ast mf.semantics

namespace mf.visitors

open ScopeTree

variable {I : Type} {t : ScopeTree} {program : Program} {τ : Typing}

/-! ## Function types -/

/-- A type of several parameters determines them when the result is no function. -/
theorem functionTypes_ground {Ps Ps' : List TypeVariant} {R R' : TypeVariant}
    (hR : containsFunctionType R = false) (hR' : containsFunctionType R' = false)
    (h : functionTypes Ps R = functionTypes Ps' R') : Ps = Ps' ∧ R = R' := by
  have hlen : Ps.length = Ps'.length := by
    induction Ps generalizing Ps' with
    | nil =>
      cases Ps' with
      | nil => rfl
      | cons P Ps' =>
        rw [show R = functionTypes (P :: Ps') R' from h] at hR
        simp [functionTypes, functionType, containsFunctionType] at hR
    | cons P Ps ih =>
      cases Ps' with
      | nil =>
        rw [← show functionTypes (P :: Ps) R = R' from h] at hR'
        simp [functionTypes, functionType, containsFunctionType] at hR'
      | cons P' Ps' =>
        simp only [functionTypes, List.foldr_cons, functionType,
          TypeVariant.FunctionType.injEq] at h
        rw [List.length_cons, List.length_cons, ih h.2]
  exact functionTypes_inj hlen h

/-- The declared signature of a constructor is unique. -/
theorem declares_unique (hτ : IsTyping t program τ) {id : SymbolId}
    {signature signature' : ConstructorSignature} (h : Declares t program id signature)
    (h' : Declares t program id signature') : signature = signature' := by
  have heq := (hτ.constructors id signature h).symm.trans (hτ.constructors id signature' h')
  obtain ⟨hfields, hdata⟩ := functionTypes_ground rfl rfl heq
  unfold dataType at hdata
  obtain ⟨data_type, fields⟩ := signature
  obtain ⟨data_type', fields'⟩ := signature'
  cases hfields
  cases hdata
  rfl

theorem namesTypes_ground {names : List String} {Ts : List TypeVariant}
    (h : List.Forall₂ t.NamesType names Ts) {T : TypeVariant} (hT : T ∈ Ts) :
    containsFunctionType T = false := by
  induction h with
  | nil => simp at hT
  | cons hname _ ih =>
    rcases List.mem_cons.mp hT with rfl | hT
    · obtain ⟨s, _, ⟨_, rfl⟩ | ⟨_, rfl⟩⟩ := hname
      · rfl
      · rfl
    · exact ih hT

/-- A field of a constructor is no function. -/
theorem field_ground {id : SymbolId} {signature : ConstructorSignature}
    (h : Declares t program id signature) {P : TypeVariant} (hP : P ∈ signature.fields) :
    containsFunctionType P = false := by
  obtain ⟨dt, _, ctor, _, ds, _, _, _, hfields⟩ := h
  exact namesTypes_ground hfields hP

/-! ## Values -/

/-- An integer, or a constructor of the data type with a value for each of its
declared fields. -/
inductive ValueHasType (t : ScopeTree) (program : Program) : Value I → TypeVariant → Prop
  | int {n : I} : ValueHasType t program (.int n) intType
  | ConstructedValue {name : String} {fields : List (Value I)} {ctor : Symbol}
      {signature : ConstructorSignature} :
    t.getLocalSymbol getRootScopeId name = some ctor → Declares t program ctor.id signature →
    List.Forall₂ (ValueHasType t program) fields signature.fields →
    ValueHasType t program (.ConstructedValue name fields) (dataType signature.data_type)

theorem ValueHasType.ground {v : Value I} {T : TypeVariant} (h : ValueHasType t program v T) :
    containsFunctionType T = false := by
  cases h with
  | int => rfl
  | ConstructedValue => rfl

/-- A value of type `Int` is an integer. -/
theorem ValueHasType.isInt {v : Value I} (h : ValueHasType t program v intType) :
    ∃ n, v = .int n := by
  generalize hT : intType = T at h
  cases h with
  | int => exact ⟨_, rfl⟩
  | ConstructedValue => cases hT

/-- A value of a data type is one of its constructors with its fields. -/
theorem ValueHasType.isConstructed {v : Value I} {d : SymbolId}
    (h : ValueHasType t program v (dataType d)) :
    ∃ name fields ctor signature, v = .ConstructedValue name fields ∧
      t.getLocalSymbol getRootScopeId name = some ctor ∧ Declares t program ctor.id signature ∧
      signature.data_type = d ∧ List.Forall₂ (ValueHasType t program) fields signature.fields := by
  generalize hT : dataType d = T at h
  cases h with
  | int => cases hT
  | ConstructedValue hname hdeclares hfields =>
    simp only [dataType, TypeVariant.DataType.injEq] at hT
    exact ⟨_, _, _, _, rfl, hname, hdeclares, hT.symm, hfields⟩

/-- A constructor applied to the first of its arguments has the type of what
is left. -/
def PartialHasType (t : ScopeTree) (program : Program) (ctor : PartialConstructor I)
    (T : TypeVariant) : Prop :=
  ∃ symbol signature before P after, t.getLocalSymbol getRootScopeId ctor.name = some symbol ∧
    Declares t program symbol.id signature ∧ signature.fields = before ++ P :: after ∧
    ctor.arity = signature.fields.length ∧
    List.Forall₂ (ValueHasType t program) ctor.applied before ∧
    T = functionTypes (P :: after) (dataType signature.data_type)

def ResultHasType (t : ScopeTree) (program : Program) (result : EvalResult I) (T : TypeVariant) :
    Prop :=
  match result with
  | .Value value => ValueHasType t program value T
  | .PartialConstructor ctor => PartialHasType t program ctor T

/-! ## Environments -/

/-- The symbols of `locals` have values, and all values have the types of their symbols. -/
structure EnvHasTypes (t : ScopeTree) (program : Program) (τ : Typing) (locals : List SymbolId)
    (env : Environment I) : Prop where
  bound : ∀ s ∈ locals, ∃ v, env.find s = some v
  typed : ∀ s v, env.find s = some v → ValueHasType t program v (τ s)

variable {locals : List SymbolId} {env : Environment I}

theorem EnvHasTypes.insert (h : EnvHasTypes t program τ locals env) {s : SymbolId} {v : Value I}
    (hv : ValueHasType t program v (τ s)) :
    EnvHasTypes t program τ (s :: locals) (env.insert s v) := by
  constructor
  · intro s' hs'
    rw [AssocMap.find_insert]
    by_cases heq : s' = s
    · exact ⟨v, by rw [if_pos heq]⟩
    · rw [if_neg heq]
      exact h.bound s' ((List.mem_cons.mp hs').resolve_left heq)
  · intro s' v' hs'
    rw [AssocMap.find_insert] at hs'
    by_cases heq : s' = s
    · rw [if_pos heq] at hs'
      cases hs'
      rw [heq]
      exact hv
    · rw [if_neg heq] at hs'
      exact h.typed s' v' hs'

theorem EnvHasTypes.mono {locals' : List SymbolId} (h : EnvHasTypes t program τ locals env)
    (hsub : ∀ s ∈ locals', s ∈ locals) : EnvHasTypes t program τ locals' env :=
  ⟨fun s hs => h.bound s (hsub s hs), h.typed⟩

theorem envHasTypes_empty (t : ScopeTree) (program : Program) (τ : Typing) :
    EnvHasTypes t program τ [] (.empty : Environment I) := by
  constructor
  · intro s hs
    simp at hs
  · intro s v hs
    simp at hs

end mf.visitors
