-- What the module does where evaluation fails. A case without a matching branch
-- comes to the trap; the `sdiv` of a division has no test of its divisor.
import MiniFunctional.CompilerCorrectness

open mf.util mf.ast mf.parsing mf.tokenization mf.evaluation llvm
open mf.semantics hiding Frame

namespace llvm

/-- The state after so many steps, or where there are no more. -/
def advance (M : Module) : Nat → State → State
  | 0, S => S
  | n + 1, S =>
    match step M S with
    | none => S
    | some S' => advance M n S'

theorem advance_steps (M : Module) (n : Nat) (S : State) : Steps M S (advance M n S) := by
  induction n generalizing S with
  | zero => exact .refl
  | succ n ih =>
    unfold advance
    cases hstep : step M S with
    | none => exact .refl
    | some S' => exact .head hstep (ih S')

/-- After so many steps the machine runs and has no next step. -/
def undefinedAfter (M : Module) (n : Nat) (S : State) : Bool :=
  match advance M n S with
  | .running frame callers m output => (step M (.running frame callers m output)).isNone
  | _ => false

theorem dead_of_undefinedAfter {M : Module} {n : Nat} {S : State}
    (h : undefinedAfter M n S = true) : Dead M S := by
  apply Dead.of_steps (advance_steps M n S)
  unfold undefinedAfter at h
  cases hadvance : advance M n S with
  | running frame callers m output =>
    rw [hadvance] at h
    exact .of_stuck id (Option.isNone_iff_eq_none.mp h)
  | finished v m output =>
    rw [hadvance] at h
    cases h
  | trapped output =>
    rw [hadvance] at h
    cases h

end llvm

namespace mf.visitors

open ScopeTree

variable {t : ScopeTree} {program : Program} {types : TypeTable} {M : Module}

/-! ## Failures and the trap -/

/-- The call of the module's `main`. -/
def startState (M : Module) : State := .running (.enter (mainIndex M) []) [] [] ""

/-- The run of `main` comes to the trap with nothing printed, and no step on the
way is undefined. -/
structure MainTraps (M : Module) : Prop where
  traps : Steps M (startState M) (.trapped "")
  defined : ∀ S, Steps M (startState M) S → S = .trapped "" ∨ (step M S).isSome = true

theorem MainTraps.of_steps (h : Steps M (startState M) (.trapped "")) : MainTraps M := by
  constructor
  · exact h
  · intro S hrun
    rcases Relation.ReflTransGen.cases_head (Steps.through (by simp) h hrun) with
      heq | ⟨S', hstep, _⟩
    · exact .inl heq
    · right
      rw [hstep]
      rfl

/-- The failures of the source: those for which the interpreter has an error. -/
def Fault.IsFailure (fault : Fault) : Prop := fault = .DivisionByZero ∨ fault = .NoMatchingBranch

/-- The call of `main` ends so. -/
def MainEnds (t : ScopeTree) (program : Program) (types : TypeTable)
    (outcome : Evaluated Datum) : Prop :=
  ∃ s, t.getLocalSymbol getRootScopeId "main" = some s ∧ Calls program t types s [] outcome

/-- Where the evaluation of `main` fails, the module traps. -/
def FailuresTrap (t : ScopeTree) (program : Program) (types : TypeTable) (M : Module) : Prop :=
  ∀ fault, Fault.IsFailure fault → MainEnds t program types (.error fault) → MainTraps M

variable {tokens : TokenVector} {p : ParsedProgram} {result : TypeAnalysisResult}

/-- Where evaluation gets to no division by zero, its failures are traps. The
tokens are the scanner's. -/
theorem failures_trap (hl : tokens.Lexed) (hp : parse tokens = .ok p)
    (hok : (analyze p).ok) (hrun : analyzeTypes p (analyze p) = some result) (hresult : result.ok)
    (hgenerate : generateModule p.ast (analyze p).scopes result.types = .ok M)
    (hdivision : ¬ MainEnds (analyze p).scopes p.ast result.types (.error .DivisionByZero)) :
    FailuresTrap (analyze p).scopes p.ast result.types M := by
  intro fault hfailure hends
  rcases hfailure with rfl | rfl
  · exact absurd hends hdivision
  · obtain ⟨s, hs, hcall⟩ := hends
    obtain ⟨τ, h⟩ := checked hl hp hok hrun hresult
    obtain ⟨functions, functions_, _, hgenerated⟩ := generated h hgenerate
    have hfollows := mainFollows h (layouts h) hgenerated (generateModule_bodies h hgenerate)
      hs hcall
    exact .of_steps (hfollows rfl)

/-- `data A = { B, C } defn main = { case B of { C -> { 1 } } }`. -/
def unmatchedTokens : TokenVector :=
  ⟨[.Data, .UpperVariable "A", .Equal, .LeftBrace, .UpperVariable "B", .Comma, .UpperVariable "C",
    .RightBrace, .Function, .LowerVariable "main", .Equal, .LeftBrace, .Case, .UpperVariable "B",
    .Of, .LeftBrace, .UpperVariable "C", .Arrow, .LeftBrace, .IntLiteral 1, .RightBrace,
    .RightBrace, .RightBrace].map fun load => ⟨load, ⟨1, 1, 1, 1⟩⟩, by decide⟩

def unmatchedProgram : ParsedProgram :=
  ⟨⟨[.DataTypeDefinition ⟨2, "A", [⟨0, "B", []⟩, ⟨1, "C", []⟩]⟩,
    .FunctionDefinition ⟨8, "main", [], .CaseExpression 7 (.Variable 3 "B")
      [⟨6, .ConstructorPattern 4 "C" [], .IntLiteral 5 1⟩]⟩]⟩, List.replicate 9 ⟨1, 1, 1, 1⟩⟩

theorem unmatched_parse : parse unmatchedTokens = .ok unmatchedProgram := rfl

/-- How the call of `main` ends with the fuel. -/
def mainWithin (t : ScopeTree) (program : Program) (types : TypeTable) (fuel : Nat) :
    Evaluated Datum :=
  match t.getLocalSymbol getRootScopeId "main" with
  | none => .error .stuck
  | some s => callWithin program t types fuel s []

theorem MainEnds.of_mainWithin {fuel : Nat} {fault : Fault} (hfuel : fault ≠ .outOfFuel)
    (hstuck : fault ≠ .stuck) (h : mainWithin t program types fuel = .error fault) :
    MainEnds t program types (.error fault) := by
  unfold mainWithin at h
  cases hs : t.getLocalSymbol getRootScopeId "main" with
  | none =>
    rw [hs] at h
    cases h
    exact absurd rfl hstuck
  | some s =>
    rw [hs] at h
    exact ⟨s, hs, by simpa using hfuel, fuel, h⟩

theorem MainEnds.unique {outcome outcome' : Evaluated Datum}
    (h : MainEnds t program types outcome) (h' : MainEnds t program types outcome') :
    outcome = outcome' := by
  obtain ⟨s, hs, hcall⟩ := h
  obtain ⟨s', hs', hcall'⟩ := h'
  rw [hs] at hs'
  cases hs'
  exact hcall.unique hcall'

/-- The program is accepted, its module is as `check` asks, and its evaluation
fails so. -/
def failsWith (p : ParsedProgram) (fault : Fault) (check : Module → Bool)
    (result : TypeAnalysisResult) : Bool :=
  result.ok && (generateModule p.ast (analyze p).scopes result.types).toOption.any check &&
    decide (thrown (mainWithin (analyze p).scopes p.ast result.types 3) = some fault)

theorem of_failsWith (p : ParsedProgram) (fault : Fault) (check : Module → Bool)
    (hfuel : fault ≠ .outOfFuel)
    (hstuck : fault ≠ .stuck)
    (h : (analyzeTypes p (analyze p)).map (failsWith p fault check) = some true) :
    ∃ result M, analyzeTypes p (analyze p) = some result ∧ result.ok = true ∧
      generateModule p.ast (analyze p).scopes result.types = .ok M ∧ check M = true ∧
      MainEnds (analyze p).scopes p.ast result.types (.error fault) := by
  obtain ⟨result, hrun, hfails⟩ := Option.map_eq_some_iff.mp h
  unfold failsWith at hfails
  obtain ⟨hboth, hthrown⟩ := Bool.and_eq_true_iff.mp hfails
  obtain ⟨hresult, hcheck⟩ := Bool.and_eq_true_iff.mp hboth
  have hends := eq_error_of_thrown (x := some _) (congrArg some (of_decide_eq_true hthrown))
  cases hM : generateModule p.ast (analyze p).scopes result.types with
  | ok M =>
    rw [hM] at hcheck
    exact ⟨result, M, hrun, hresult, hM, hcheck,
      .of_mainWithin hfuel hstuck (Option.some.inj hends)⟩
  | error e =>
    rw [hM] at hcheck
    cases hcheck

/-- The case of `unmatchedProgram` has no matching branch, and the module traps. -/
theorem failures_trap_unmatched : ∃ result M,
    analyzeTypes unmatchedProgram (analyze unmatchedProgram) = some result ∧
      generateModule unmatchedProgram.ast (analyze unmatchedProgram).scopes result.types = .ok M ∧
      MainEnds (analyze unmatchedProgram).scopes unmatchedProgram.ast result.types
        (.error .NoMatchingBranch) ∧
      FailuresTrap (analyze unmatchedProgram).scopes unmatchedProgram.ast result.types M := by
  obtain ⟨result, M, hrun, hresult, hgenerate, _, hends⟩ :=
    of_failsWith unmatchedProgram .NoMatchingBranch (fun _ => true) (by simp) (by simp)
      (by decide +kernel)
  refine ⟨result, M, hrun, hgenerate, hends, ?_⟩
  apply failures_trap (show unmatchedTokens.Lexed by decide) unmatched_parse (by decide +kernel)
    hrun hresult hgenerate
  intro hdivision
  cases hends.unique hdivision

/-- `defn d x = { 1 / x } defn main = { d 0 }`. -/
def divisionTokens : TokenVector :=
  ⟨[.Function, .LowerVariable "d", .LowerVariable "x", .Equal, .LeftBrace, .IntLiteral 1, .Slash,
    .LowerVariable "x", .RightBrace, .Function, .LowerVariable "main", .Equal, .LeftBrace,
    .LowerVariable "d", .IntLiteral 0, .RightBrace].map fun load => ⟨load, ⟨1, 1, 1, 1⟩⟩,
    by decide⟩

def divisionProgram : ParsedProgram :=
  ⟨⟨[.FunctionDefinition ⟨3, "d", ["x"],
      .BinaryOperator .Division 1 (.IntLiteral 0 1) (.Variable 2 "x")⟩,
    .FunctionDefinition ⟨7, "main", [], .Application 6 (.Variable 4 "d") (.IntLiteral 5 0)⟩]⟩,
    List.replicate 8 ⟨1, 1, 1, 1⟩⟩

theorem division_parse : parse divisionTokens = .ok divisionProgram := rfl

/-- The module of `divisionProgram` executes an `sdiv` by zero and never traps. -/
theorem failures_trap_division : parse divisionTokens = .ok divisionProgram ∧
    (analyze divisionProgram).ok ∧ ∃ result M,
      analyzeTypes divisionProgram (analyze divisionProgram) = some result ∧ result.ok ∧
      generateModule divisionProgram.ast (analyze divisionProgram).scopes result.types = .ok M ∧
      ¬ FailuresTrap (analyze divisionProgram).scopes divisionProgram.ast result.types M := by
  obtain ⟨result, M, hrun, hresult, hgenerate, hundefined, hends⟩ :=
    of_failsWith divisionProgram .DivisionByZero (fun M => undefinedAfter M 5 (startState M))
      (by simp) (by simp) (by decide +kernel)
  refine ⟨division_parse, by decide +kernel, result, M, hrun, hresult, hgenerate, fun h => ?_⟩
  have htraps := (h .DivisionByZero (.inl rfl) hends).traps
  exact dead_of_undefinedAfter hundefined (.trapped "") trivial htraps

end mf.visitors
