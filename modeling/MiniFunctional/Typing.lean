-- The declarative monomorphic typing of a program: what it means that an
-- assignment of types to its symbols checks, with no inference in it. Names
-- are those that the scope tree resolves.
import MiniFunctional.TypeTable
import MiniFunctional.WellScoped

open mf.ast

namespace mf.semantics

open ScopeTree

/-- The types of the symbols: a parameter's, a pattern variable's, and the
whole type of a function or a constructor. -/
abbrev Typing := SymbolId → TypeVariant

/-- The type of a function of several parameters. -/
def functionTypes (parameters : List TypeVariant) (result : TypeVariant) : TypeVariant :=
  parameters.foldr functionType result

theorem functionTypes_inj {Ps Ps' : List TypeVariant} {R R' : TypeVariant}
    (hlen : Ps.length = Ps'.length) (h : functionTypes Ps R = functionTypes Ps' R') :
    Ps = Ps' ∧ R = R' := by
  induction Ps generalizing Ps' with
  | nil =>
    cases Ps' with
    | nil => exact ⟨rfl, h⟩
    | cons P Ps' => simp at hlen
  | cons P Ps ih =>
    cases Ps' with
    | nil => simp at hlen
    | cons P' Ps' =>
      simp only [functionTypes, List.foldr_cons, functionType,
        TypeVariant.FunctionType.injEq] at h
      obtain ⟨rfl, rfl⟩ := ih (by simpa using hlen) h.2
      exact ⟨by rw [h.1], rfl⟩

/-- A field's name is `Int` or a declared data type. -/
def ScopeTree.NamesType (t : ScopeTree) (field : String) (T : TypeVariant) : Prop :=
  ∃ s, t.getLocalSymbol getRootScopeId field = some s ∧
    ((s.kind = .BuiltinType ∧ T = intType) ∨ (s.kind = .DataType ∧ T = dataType s.id))

/-- A data type definition declares the constructor `id` with the signature. -/
def Declares (t : ScopeTree) (program : Program) (id : SymbolId)
    (signature : ConstructorSignature) : Prop :=
  ∃ dt, .DataTypeDefinition dt ∈ program.definitions ∧ ∃ ctor ∈ dt.constructors,
    ∃ data_symbol, t.getLocalSymbol getRootScopeId dt.name = some data_symbol ∧
    signature.data_type = data_symbol.id ∧
    (∃ s, t.getLocalSymbol getRootScopeId ctor.name = some s ∧ s.id = id) ∧
    List.Forall₂ t.NamesType ctor.fields signature.fields

section

variable (t : ScopeTree) (program : Program) (τ : Typing)

/-- The pattern fits a scrutinee of the type `S`, and its variables have the
types that they then bind. -/
def PatternHasType (S : TypeVariant) : Pattern → Prop
  | .VariablePattern id name =>
    ∃ sid s, t.getScopeId id = some sid ∧ t.getLocalSymbol sid name = some s ∧ τ s.id = S
  | .ConstructorPattern id _ arguments =>
    ∃ ctor signature, t.getResolvedSymbol id = some ctor ∧ Declares t program ctor.id signature ∧
      S = dataType signature.data_type ∧
      ∃ sid, t.getScopeId id = some sid ∧
        List.Forall₂ (fun name T => ∃ s, t.getLocalSymbol sid name = some s ∧ τ s.id = T)
          arguments signature.fields

inductive HasType : Expression → TypeVariant → Prop
  | IntLiteral {id value} : HasType (.IntLiteral id value) intType
  | Variable {id name s} : t.getResolvedSymbol id = some s →
    HasType (.Variable id name) (τ s.id)
  | BinaryOperator {kind id left right} : HasType left intType → HasType right intType →
    HasType (.BinaryOperator kind id left right) intType
  | Application {id function argument P R} : HasType function (functionType P R) →
    HasType argument P → HasType (.Application id function argument) R
  | CaseExpression {id scrutinee branches S T} : HasType scrutinee S →
    (∀ b ∈ branches, PatternHasType t program τ S b.pattern) →
    (∀ b ∈ branches, HasType b.body T) → HasType (.CaseExpression id scrutinee branches) T

/-- The function and its parameters have the types of the signature, and its
body has the signature's result type. -/
def FunctionHasType (fd : FunctionDefinition) (signature : FunctionSignature) : Prop :=
  (∃ s, t.getLocalSymbol getRootScopeId fd.name = some s ∧
    τ s.id = functionTypes signature.parameters signature.result) ∧
  (∃ sid, t.getScopeId fd.id = some sid ∧
    List.Forall₂ (fun name T => ∃ p, t.getLocalSymbol sid name = some p ∧ τ p.id = T)
      fd.parameters signature.parameters) ∧
  HasType t program τ fd.body signature.result

/-- The assignment checks: types and constructors have the types that they are
declared with, and every function has a signature that its body keeps. -/
structure IsTyping : Prop where
  types : ∀ name s T, t.getLocalSymbol getRootScopeId name = some s → t.NamesType name T →
    τ s.id = T
  constructors : ∀ id signature, Declares t program id signature →
    τ id = functionTypes signature.fields (dataType signature.data_type)
  functions : ∀ fd, .FunctionDefinition fd ∈ program.definitions →
    ∃ signature, FunctionHasType t program τ fd signature

/-- Every field of every constructor names a type. -/
def FieldsNameTypes : Prop :=
  ∀ dt, .DataTypeDefinition dt ∈ program.definitions → ∀ ctor ∈ dt.constructors,
    ∀ field ∈ ctor.fields, ∃ T, t.NamesType field T

/-- The symbols that a typing chooses types for: functions, parameters and
pattern variables. -/
def Typed (id : SymbolId) : Prop :=
  ∃ fd, .FunctionDefinition fd ∈ program.definitions ∧
    ((∃ s, t.getLocalSymbol getRootScopeId fd.name = some s ∧ s.id = id) ∨
      id ∈ t.parameterSymbols fd ∨ id ∈ t.boundIn fd.body)

/-- The assignment checks, and chooses among `Int`, the data types and the
functions of such. -/
structure IsConcreteTyping : Prop where
  checks : IsTyping t program τ
  concrete : ∀ id, Typed t program id → (τ id).Concrete t

end

/-- The signature of a function is determined by the types of the symbols. -/
theorem functionHasType_unique {t : ScopeTree} {program : Program} {τ : Typing}
    {fd : FunctionDefinition} {signature signature' : FunctionSignature}
    (h : FunctionHasType t program τ fd signature)
    (h' : FunctionHasType t program τ fd signature') : signature = signature' := by
  obtain ⟨⟨s, hs, hτ⟩, ⟨_, _, hall⟩, _⟩ := h
  obtain ⟨⟨s', hs', hτ'⟩, ⟨_, _, hall'⟩, _⟩ := h'
  rw [hs] at hs'
  cases hs'
  obtain ⟨hparams, hresult⟩ := functionTypes_inj (hall.length_eq.symm.trans hall'.length_eq)
    (hτ.symm.trans hτ')
  obtain ⟨parameters, result⟩ := signature
  obtain ⟨parameters', result'⟩ := signature'
  cases hparams
  cases hresult
  rfl

end mf.semantics
