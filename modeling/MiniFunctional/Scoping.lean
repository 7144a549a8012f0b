-- Lexical scoping, without a scope tree: the places of a program where a
-- name is declared or used, each with the scopes around it, and what is wrong
-- at such a place.
import MiniFunctional.SymbolTable

open mf.util mf.ast mf.parsing

namespace mf.semantics

structure Binder where
  name : String
  kind : SymbolKind
  declaration : NodeId
deriving DecidableEq, Repr

/-- The declarations of one scope, in order. -/
abbrev Frame := List Binder

/-- The first declaration of the name. -/
def Frame.lookup (frame : Frame) (name : String) : Option Binder := frame.find? (·.name = name)

/-- The scopes around a place, the innermost first. -/
abbrev Context := List Frame

def Context.lookup : Context → String → Option Binder
  | [], _ => none
  | frame :: outer, name => (Frame.lookup frame name).or (Context.lookup outer name)

inductive Site
  /-- The declarations of the same scope before this one are `earlier`. -/
  | declaration (earlier : Frame) (binder : Binder)
  | variableUse (context : Context) (id : NodeId) (name : String)
  | constructorPattern (globals : Frame) (id : NodeId) (name : String)

/-! ## The sites of a program -/

/-- The declarations of one scope, after those of `earlier`. -/
def declarations (earlier : Frame) : List Binder → List Site
  | [] => []
  | binder :: binders => .declaration earlier binder :: declarations (earlier ++ [binder]) binders

def Pattern.binders : Pattern → Frame
  | .VariablePattern id name => [⟨name, .PatternVariable, id⟩]
  | .ConstructorPattern id _ arguments => arguments.map fun name => ⟨name, .PatternVariable, id⟩

def Pattern.sites (globals : Frame) (pattern : Pattern) : List Site :=
  match pattern with
  | .VariablePattern _ _ => declarations [] (binders pattern)
  | .ConstructorPattern id name _ =>
    .constructorPattern globals id name :: declarations [] (binders pattern)

mutual

/-- A branch's pattern makes a scope for its body. -/
@[simp] def expressionSites (globals : Frame) : Expression → Context → List Site
  | .IntLiteral _ _, _ => []
  | .Variable id name, context => [.variableUse context id name]
  | .BinaryOperator _ _ left right, context =>
    expressionSites globals left context ++ expressionSites globals right context
  | .Application _ function argument, context =>
    expressionSites globals function context ++ expressionSites globals argument context
  | .CaseExpression _ scrutinee branches, context =>
    expressionSites globals scrutinee context ++ branchSites globals branches context

@[simp] def branchSites (globals : Frame) : List Branch → Context → List Site
  | [], _ => []
  | ⟨_, pattern, body⟩ :: branches, context =>
    Pattern.sites globals pattern ++
      expressionSites globals body (Pattern.binders pattern :: context) ++
      branchSites globals branches context

end

theorem mem_branchSites {globals : Frame} {bs : List Branch} {context : Context} {site : Site} :
    site ∈ branchSites globals bs context ↔ ∃ b ∈ bs, site ∈ Pattern.sites globals b.pattern ∨
      site ∈ expressionSites globals b.body (Pattern.binders b.pattern :: context) := by
  induction bs with
  | nil => simp
  | cons b bs ih =>
    obtain ⟨id, p, e⟩ := b
    simp [ih, or_assoc]

def Definition.binders : Definition → Frame
  | .FunctionDefinition fd => [⟨fd.name, .Function, fd.id⟩]
  | .DataTypeDefinition dt =>
    ⟨dt.name, .DataType, dt.id⟩ :: dt.constructors.map fun c => ⟨c.name, .Constructor, c.id⟩

/-- The global scope, where `Int` stands before the program's definitions. -/
def globalFrame (program : Program) : Frame :=
  ⟨"Int", .BuiltinType, kInvalidNodeId⟩ :: program.definitions.flatMap Definition.binders

def parameterFrame (fd : FunctionDefinition) : Frame :=
  fd.parameters.map fun name => ⟨name, .Parameter, fd.id⟩

def Definition.sites (globals : Frame) : Definition → List Site
  | .FunctionDefinition fd =>
    declarations [] (parameterFrame fd) ++
      expressionSites globals fd.body [parameterFrame fd, globals]
  | .DataTypeDefinition _ => []

def programSites (program : Program) : List Site :=
  declarations [] (globalFrame program) ++
    program.definitions.flatMap (Definition.sites (globalFrame program))

/-! ## Violations -/

/-- The name is declared again, is unbound or names a type, or is the name of
no constructor. -/
def Site.violates : Site → Bool
  | .declaration earlier binder => (earlier.lookup binder.name).isSome
  | .variableUse context _ name =>
    match context.lookup name with
    | none => true
    | some binder => isTypeSymbol binder.kind
  | .constructorPattern globals _ name =>
    match globals.lookup name with
    | none => true
    | some binder => binder.kind ≠ .Constructor

/-- The node that the diagnostic of a violation points at. -/
def Site.node : Site → NodeId
  | .declaration _ binder => binder.declaration
  | .variableUse _ id _ => id
  | .constructorPattern _ id _ => id

def Symbol.binder (symbol : Symbol) : Binder := ⟨symbol.name, symbol.kind, symbol.declaration⟩

/-- What the place's node is bound to, when nothing is wrong there: the
innermost declaration of the name, or its global declaration. -/
def Site.target : Site → Option Binder
  | .declaration _ _ => none
  | .variableUse context _ name => context.lookup name
  | .constructorPattern globals _ name => globals.lookup name

/-- The diagnostic of the analyzer at a site. -/
def Site.diagnostic (positions : List Position) : Site → Option Diagnostic
  | .declaration earlier binder =>
    (earlier.lookup binder.name).map fun previous =>
      makeDiagnostic binder.declaration
        ("Redefinition of '" ++ binder.name ++ "'; previous " ++ toText previous.kind ++
          " declared at " ++ positionOf positions previous.declaration)
  | .variableUse context id name =>
    match context.lookup name with
    | none => some (makeDiagnostic id ("Undefined symbol '" ++ name ++ "'"))
    | some binder => (variableError name binder.kind).map (makeDiagnostic id)
  | .constructorPattern globals id name =>
    match globals.lookup name with
    | none => some (makeDiagnostic id ("Undefined constructor '" ++ name ++ "'"))
    | some binder =>
      if binder.kind ≠ .Constructor then
        some (makeDiagnostic id ("Undefined constructor '" ++ name ++ "'"))
      else none

theorem Site.diagnostic_node {positions : List Position} {site : Site} {d : Diagnostic}
    (h : site.diagnostic positions = some d) : d.node_id = site.node := by
  unfold diagnostic at h
  split at h
  · obtain ⟨previous, _, rfl⟩ := Option.map_eq_some_iff.mp h
    rfl
  · split at h
    · cases h
      rfl
    · obtain ⟨message, _, rfl⟩ := Option.map_eq_some_iff.mp h
      rfl
  · split at h
    · cases h
      rfl
    · split at h <;> cases h
      rfl

theorem Frame.lookup_append (frame : Frame) (binder : Binder) (name : String) :
    Frame.lookup (frame ++ [binder]) name =
      (Frame.lookup frame name).or (if binder.name = name then some binder else none) := by
  simp only [Frame.lookup, List.find?_append, List.find?_cons, List.find?_nil]
  by_cases h : binder.name = name <;> simp [h]

end mf.semantics
