-- The interpreter and the generator agree on failures: where the interpreter
-- finds no branch of a case, the generated module traps, and where it divides
-- by zero, so does evaluation with functions.
import MiniFunctional.BackEnds
import MiniFunctional.RuntimeFailures

open mf.util mf.ast mf.parsing mf.tokenization mf.evaluation llvm
open mf.semantics hiding Frame

namespace mf.visitors

open ScopeTree ExceptLaws

variable {program : Program} {t : ScopeTree} {types : TypeTable}
  {calls : Symbol → List Datum → Evaluated Datum}

/-! ## Failures -/

/-- The fault of evaluation that the interpreter has an error for. -/
def Failure.asFault : Failure → Option Fault
  | .runtimeError .DivisionByZero => some .DivisionByZero
  | .runtimeError .NoMatchingBranch => some .NoMatchingBranch
  | _ => none

/-- Where `x` fails so, `y` has the fault. -/
def FailsAlike {α β : Type} (x : Evaluation α) (y : Evaluated β) : Prop :=
  ∀ failure fault, x = .error failure → failure.asFault = some fault → y = .error fault

/-- `x` does not fail so. -/
def Unfailing {α : Type} (x : Evaluation α) : Prop :=
  ∀ failure, x = .error failure → failure.asFault = none

section

variable {α β γ δ : Type} {x : Evaluation α} {y : Evaluated β}

theorem FailsAlike.ok (a : α) (y : Evaluated β) : FailsAlike (.ok a) y := by
  intro failure fault h
  cases h

theorem Unfailing.failsAlike (h : Unfailing x) (y : Evaluated β) : FailsAlike x y := by
  intro failure fault hx hfault
  rw [h failure hx] at hfault
  cases hfault

/-- A step after steps that are alike, whether they fail or not. -/
theorem FailsAlike.bind {f : α → Evaluation γ} {g : β → Evaluated δ} (h : FailsAlike x y)
    (hok : ∀ a, x = .ok a → ∃ b, y = .ok b ∧ FailsAlike (f a) (g b)) :
    FailsAlike (x >>= f) (y >>= g) := by
  cases x with
  | error failure =>
    intro failure' fault hx hfault
    cases hx
    rw [h failure fault rfl hfault]
    rfl
  | ok a =>
    obtain ⟨b, rfl, hf⟩ := hok a rfl
    exact hf

/-- A step that the other computation does not take. -/
theorem FailsAlike.after {f : α → Evaluation γ} (h : Unfailing x)
    (hok : ∀ a, x = .ok a → FailsAlike (f a) y) : FailsAlike (x >>= f) y := by
  cases x with
  | error failure =>
    intro failure' fault hx hfault
    cases hx
    rw [h failure rfl] at hfault
    cases hfault
  | ok a => exact hok a rfl

end

/-! ## Steps that fail in other ways only -/

theorem Failure.OfStep.asFault {failure : Failure} (h : failure.OfStep) :
    failure.asFault = none := by
  cases failure with
  | intOverflow => rfl
  | runtimeError error =>
    cases error with
    | DivisionByZero => cases h
    | NoMatchingBranch => cases h
    | _ => rfl

theorem Unfailing.step {α : Type} {x : Evaluation α} {Q : α → Prop}
    (h : Satisfies x Failure.OfStep Q) : Unfailing x :=
  fun _ hx => (h.of_error hx).asFault

theorem unfailing_matchPattern (pattern : Pattern) (v : Value Int32) (env : Environment Int32) :
    Unfailing (matchPattern t pattern v env) :=
  .step (matchPattern_step (Q := fun _ => True) (fun _ _ _ _ => trivial) pattern v trivial)

/-! ## Expressions -/

theorem failsAlike_arithmetic (kind : BinaryOperatorKind) (a b : Int32) :
    FailsAlike (applyBinaryOp kind a b) (arithmetic kind (widenInt a) (widenInt b)) := by
  have hresult : ∀ n, Unfailing (intResult n) := by
    intro n failure h
    unfold intResult at h
    by_cases hrange : Int32.minValue.toInt ≤ n ∧ n ≤ Int32.maxValue.toInt
    · rw [if_pos hrange] at h
      cases h
    · rw [if_neg hrange] at h
      cases h
      rfl
  cases kind with
  | Division =>
    unfold applyBinaryOp arithmetic
    simp only
    by_cases hb : b = 0
    · subst hb
      intro failure fault h hfault
      rw [if_pos rfl] at h
      cases h
      cases hfault
      rfl
    · rw [if_neg hb]
      exact (hresult _).failsAlike _
  | _ => exact (hresult _).failsAlike _

section

variable (program t types calls)

/-- Evaluation of the expression fails as the interpreter does. -/
def EvalFails (e : Expression) : Prop :=
  ∀ env env', Widens env env' →
    FailsAlike (evaluate t types e env) (eval program t types calls e env')

end

theorem operator_fails {kind : BinaryOperatorKind} {id : NodeId} {left right : Expression}
    (hl : EvalFails program t types calls left) (hr : EvalFails program t types calls right) :
    EvalFails program t types calls (.BinaryOperator kind id left right) := by
  intro env env' henv
  simp only [evaluate, eval]
  refine (hl env env' henv).bind fun r hleft => ?_
  obtain ⟨r', hleft', hwidens⟩ := eval_widens left env env' r henv hleft
  refine ⟨r', hleft', .after (.step (asValue_step r)) fun v hv => ?_⟩
  refine .after (.step (asInt_step v)) fun a ha => ?_
  rw [datum_widens hwidens hv, ok_bind, integer_widens ha, ok_bind]
  refine (hr env env' henv).bind fun r hright => ?_
  obtain ⟨r', hright', hwidens⟩ := eval_widens right env env' r henv hright
  refine ⟨r', hright', .after (.step (asValue_step r)) fun v hv => ?_⟩
  refine .after (.step (asInt_step v)) fun b hb => ?_
  rw [datum_widens hwidens hv, ok_bind, integer_widens hb, ok_bind]
  refine (failsAlike_arithmetic kind a b).bind fun c hc => ?_
  exact ⟨_, arithmetic_widenInt hc, .ok _ _⟩

theorem application_fails {id : NodeId} {f a : Expression}
    (hf : EvalFails program t types calls f) (ha : EvalFails program t types calls a) :
    EvalFails program t types calls (.Application id f a) := by
  intro env env' henv
  simp only [evaluate, eval]
  refine (hf env env' henv).bind fun r hfunction => ?_
  obtain ⟨r', hfunction', _⟩ := eval_widens f env env' r henv hfunction
  refine ⟨r', hfunction', ?_⟩
  refine (ha env env' henv).bind fun ra hargument => ?_
  obtain ⟨ra', hargument', hwidens⟩ := eval_widens a env env' ra henv hargument
  refine ⟨ra', hargument', .after (.step (asValue_step ra)) fun v hv => ?_⟩
  exact (Unfailing.step (applyPartial_step r v)).failsAlike _

theorem branches_fail {branches : List Branch}
    (hb : ∀ b ∈ branches, EvalFails program t types calls b.body) (v : Value Int32)
    {env : Environment Int32} {env' : Environment (BitVec 64)} (henv : Widens env env') :
    FailsAlike (evaluateBranches t types branches v env)
      (evalBranches program t types calls branches (widen v) env') := by
  induction branches with
  | nil =>
    intro failure fault h hfault
    cases h
    cases hfault
    rfl
  | cons b branches ih =>
    obtain ⟨bid, pattern, body⟩ := b
    rw [List.forall_mem_cons] at hb
    simp only [evaluateBranches, evalBranches]
    refine ((unfailing_matchPattern pattern v env).failsAlike _).bind fun o hmatch => ?_
    obtain ⟨o', hmatch', hrel⟩ := matchValue_widens henv hmatch
    refine ⟨o', hmatch', ?_⟩
    cases hrel with
    | none => exact ih hb.2
    | some henv1 => exact hb.1 _ _ henv1

/-- Evaluation fails where the interpreter finds no branch or divides by zero,
whatever calls do: the interpreter has none. -/
theorem eval_fails (e : Expression) : EvalFails program t types calls e := by
  induction e with
  | IntLiteral id value => exact fun env env' _ => .ok _ _
  | Variable id name =>
    exact fun env env' _ => (Unfailing.step (evaluateVariable_step id name env)).failsAlike _
  | BinaryOperator kind id left right ihl ihr => exact operator_fails ihl ihr
  | Application id f a ihf iha => exact application_fails ihf iha
  | CaseExpression id scrutinee branches ihs ihb =>
    intro env env' henv
    simp only [evaluate, eval]
    refine (ihs env env' henv).bind fun r hscrutinee => ?_
    obtain ⟨r', hscrutinee', hwidens⟩ := eval_widens scrutinee env env' r henv hscrutinee
    refine ⟨r', hscrutinee', .after (.step (asValue_step r)) fun v hv => ?_⟩
    rw [datum_widens hwidens hv, ok_bind]
    exact branches_fail ihb v henv

/-! ## Programs -/

variable {tokens : TokenVector} {p : ParsedProgram} {result : TypeAnalysisResult} {M : Module}

/-- The body of `main` fails so. -/
theorem evaluateMain_error {types : TypeTable} {failure : Failure}
    (h : evaluateMain p (analyze p) types = .error (.Evaluation failure)) :
    ∃ s fd, (analyze p).scopes.getLocalSymbol getRootScopeId "main" = some s ∧
      findFunctionById p.ast s.declaration = some fd ∧
      evaluate (analyze p).scopes types fd.body .empty >>= asValue = .error failure := by
  rcases evaluateMain_cases p types with hnone | hnone | ⟨s, fd, hmain, _, hfd, hbody⟩
  · rw [h] at hnone
    cases hnone
  · rw [h] at hnone
    cases hnone
  · rw [h] at hbody
    refine ⟨s, fd, hmain, hfd, ?_⟩
    cases heval : evaluate (analyze p).scopes types fd.body .empty >>= asValue with
    | error failure' =>
      rw [heval] at hbody
      cases hbody
      rfl
    | ok v =>
      rw [heval] at hbody
      cases hbody

/-- The call of `main` fails as the interpreter does. -/
theorem calls_main_error {s : Symbol} {fd : FunctionDefinition} {failure : Failure} {fault : Fault}
    (hfd : findFunctionById program s.declaration = some fd) (hparameters : fd.parameters = [])
    (heval : evaluate t types fd.body .empty >>= asValue = .error failure)
    (hfault : failure.asFault = some fault) : Calls program t types s [] (.error fault) := by
  have hfuel : fault ≠ .outOfFuel := by
    rintro rfl
    unfold Failure.asFault at hfault
    split at hfault
    · cases hfault
    · cases hfault
    · cases hfault
  have hbody : FailsAlike (evaluate t types fd.body .empty)
      (eval program t types (callWithin program t types 0) fd.body .empty) :=
    eval_fails fd.body _ _ (widens_empty _)
  have hfails : eval program t types (callWithin program t types 0) fd.body .empty =
      .error fault := by
    cases hr : evaluate t types fd.body .empty with
    | error failure' =>
      rw [hr] at heval
      cases heval
      exact hbody failure fault hr hfault
    | ok r =>
      rw [hr] at heval
      rw [Unfailing.step (asValue_step r) failure heval] at hfault
      cases hfault
  refine ⟨by simpa using hfuel, 1, ?_⟩
  unfold callWithin
  simp only [hfd, hparameters, bindNames, ok_bind, hfails]
  rfl

/-- Where the interpreter divides by zero or finds no branch, evaluation comes to
the same fault, and the module traps when it is for want of a branch. The tokens
are the scanner's. -/
theorem failures_agree (hl : tokens.Lexed) (hp : parse tokens = .ok p) {failure : Failure}
    {fault : Fault} (hfault : failure.asFault = some fault)
    (hinterpret : interpret p = some (.error (.Evaluation failure)))
    {verifyModule : Module → Option String}
    (hgenerate : generateLlvmIr verifyModule p = some (.ok M)) :
    ∃ result, analyzeTypes p (analyze p) = some result ∧
      MainEnds (analyze p).scopes p.ast result.types (.error fault) ∧
      (fault = .NoMatchingBranch → MainTraps M) := by
  obtain ⟨_, h⟩ | ⟨hok, result, hrun, hresult, hmain⟩ := interpret_cases hinterpret
  · cases h
  have hmodule := generateModule_of_generateLlvmIr hok hrun hgenerate
  obtain ⟨s, fd, hs, hdeclaration, heval⟩ := evaluateMain_error hmain
  obtain ⟨τ, h⟩ := checked hl hp hok hrun hresult
  obtain ⟨functions, functions_, _, hgenerated⟩ := generated h hmodule
  have hbodies := generateModule_bodies h hmodule
  -- `main` has no parameters
  obtain ⟨s', _, signature, _, hs', hkind, _, hsignature, hnone, _⟩ := hgenerated.main
  rw [hs] at hs'
  cases hs'
  obtain ⟨fd', hfd', hname, hdeclaration'⟩ := function_declared h.scopes hs hkind
  rw [hdeclaration', findFunctionById_eq h.ids hfd'] at hdeclaration
  cases hdeclaration
  obtain ⟨s', signature', hs', hsignature', _, ⟨_, _, hparameters⟩, _⟩ := h.functions fd hfd'
  rw [hname, hs] at hs'
  cases hs'
  rw [hsignature] at hsignature'
  cases hsignature'
  rw [hnone] at hparameters
  have hcall := calls_main_error (by rw [hdeclaration', findFunctionById_eq h.ids hfd'])
    (List.length_eq_zero_iff.mp hparameters.length_eq) heval hfault
  refine ⟨result, hrun, ⟨s, hs, hcall⟩, ?_⟩
  rintro rfl
  have hfollows := mainFollows h (layouts h) hgenerated hbodies hs hcall
  exact .of_steps (hfollows rfl)

/-- `unmatchedProgram` has no branch for its scrutinee. -/
theorem failures_agree_unmatched : ∃ M result,
    interpret unmatchedProgram =
      some (.error (.Evaluation (.runtimeError .NoMatchingBranch))) ∧
      generateLlvmIr (fun _ => none) unmatchedProgram = some (.ok M) ∧
      analyzeTypes unmatchedProgram (analyze unmatchedProgram) = some result ∧
      MainEnds (analyze unmatchedProgram).scopes unmatchedProgram.ast result.types
        (.error .NoMatchingBranch) ∧ MainTraps M := by
  have hinterpret : interpret unmatchedProgram =
      some (.error (.Evaluation (.runtimeError .NoMatchingBranch))) :=
    eq_error_of_thrown (by decide +kernel)
  have hgenerate : ∃ outcome, generateLlvmIr (fun _ => none) unmatchedProgram = some outcome ∧
      outcome.isOk = true :=
    Option.map_eq_some_iff.mp
      (show (generateLlvmIr (fun _ => none) unmatchedProgram).map _ = some true by decide +kernel)
  obtain ⟨outcome, hgenerate, hok⟩ := hgenerate
  cases outcome with
  | error e => cases hok
  | ok M =>
    obtain ⟨result, hrun, hends, htraps⟩ := failures_agree
      (show unmatchedTokens.Lexed by decide) unmatched_parse rfl hinterpret hgenerate
    exact ⟨M, result, hinterpret, hgenerate, hrun, hends, htraps rfl⟩

end mf.visitors
