-- The interpreter and the generator agree: where the interpreter returns a
-- value, the generated module runs to its end and returns a representation.
import MiniFunctional.CompilerCorrectness
import MiniFunctional.Widening

open mf.util mf.ast mf.parsing mf.tokenization mf.evaluation llvm
open mf.semantics hiding Frame

namespace mf.visitors

open ScopeTree ExceptLaws

variable {p : ParsedProgram} {result : TypeAnalysisResult} {M : Module} {v : Value Int32}

/-! ## What returns -/

/-- The body of `main` has the value that the interpreter returns. -/
theorem evaluateMain_ok {types : TypeTable}
    (h : evaluateMain p (analyze p) types = .ok v) :
    ∃ s fd r, (analyze p).scopes.getLocalSymbol getRootScopeId "main" = some s ∧
      s.kind = .Function ∧ findFunctionById p.ast s.declaration = some fd ∧
      evaluate (analyze p).scopes types fd.body .empty = .ok r ∧ asValue r = .ok v := by
  rcases evaluateMain_cases p types with hnone | hnone | ⟨s, fd, hmain, hkind, hfd, hbody⟩
  · rw [h] at hnone
    cases hnone
  · rw [h] at hnone
    cases hnone
  · rw [h] at hbody
    cases heval : evaluate (analyze p).scopes types fd.body .empty >>= asValue with
    | error failure =>
      rw [heval] at hbody
      cases hbody
    | ok v' =>
      rw [heval] at hbody
      cases hbody
      obtain ⟨r, hr, hv⟩ := bind_eq_ok.mp heval
      exact ⟨s, fd, r, hmain, hkind, hfd, hr, hv⟩

/-- The generator makes its module of the types that it is given. -/
theorem generateModule_of_generateLlvmIr {verifyModule : Module → Option String}
    (hok : (analyze p).ok) (hrun : analyzeTypes p (analyze p) = some result)
    (h : generateLlvmIr verifyModule p = some (.ok M)) :
    generateModule p.ast (analyze p).scopes result.types = .ok M := by
  unfold generateLlvmIr at h
  simp only [List.isEmpty_iff.mp hok, hrun, Option.map_some, Option.some.injEq] at h
  cases hresult : result.diagnostics with
  | cons diagnostic diagnostics =>
    rw [hresult] at h
    cases h
  | nil =>
    rw [hresult] at h
    obtain ⟨M', hgenerate, h⟩ := bind_eq_ok.mp h
    unfold verify at h
    cases hverify : verifyModule M' with
    | some message =>
      rw [hverify] at h
      cases h
    | none =>
      rw [hverify] at h
      cases h
      exact hgenerate

/-- The generator throws for a program that either analysis rejects. -/
theorem accepted_of_generateLlvmIr {verifyModule : Module → Option String}
    (h : generateLlvmIr verifyModule p = some (.ok M)) :
    (analyze p).ok ∧ ∃ result, analyzeTypes p (analyze p) = some result ∧ result.ok := by
  unfold generateLlvmIr at h
  cases hdiagnostics : (analyze p).diagnostics with
  | cons diagnostic diagnostics =>
    simp only [hdiagnostics] at h
    cases h
  | nil =>
    simp only [hdiagnostics] at h
    obtain ⟨result, hrun, h⟩ := Option.map_eq_some_iff.mp h
    refine ⟨List.isEmpty_iff.mpr hdiagnostics, result, hrun, ?_⟩
    cases hresult : result.diagnostics with
    | cons diagnostic diagnostics =>
      rw [hresult] at h
      cases h
    | nil => exact List.isEmpty_iff.mpr hresult

/-! ## Agreement -/

/-- The module runs to its end, prints what is to be printed of the value, and
the function of `main` returns a representation of the value. -/
structure Agrees (t : ScopeTree) (types : TypeTable) (program : Program) (M : Module)
    (v : Value Int32) : Prop where
  completes : ∃ line m, shown t (registerConstructors t types program) (widen v) = some line ∧
    Runs M (mainIndex M) [] [] (.int32 0) m (line ++ "\n")
  untrapped : ∀ output, ¬ Steps M (.running (.enter (mainIndex M) []) [] [] "") (.trapped output)
  returns : ∃ functions functions_ s n w m,
    declareFunctions t types program = .ok (functions, functions_) ∧
    t.getLocalSymbol getRootScopeId "main" = some s ∧ functions_.find s.id = some n ∧
    Runs M n [] [] w m "" ∧ Represents t (registerConstructors t types program) m (widen v) w

variable {tokens : TokenVector}

/-- The call of `main` ends as the interpreter does. -/
theorem calls_main {t : ScopeTree} {program : Program} {types : TypeTable} {s : Symbol}
    {fd : FunctionDefinition} {r : EvalResult Int32}
    (hfd : findFunctionById program s.declaration = some fd) (hparameters : fd.parameters = [])
    (heval : evaluate t types fd.body .empty = .ok r) (hv : asValue r = .ok v) :
    Calls program t types s [] (.ok (widen v)) := by
  have hall : EvalWidens program t types (callWithin program t types 0) fd.body := eval_widens _
  obtain ⟨r', heval', hwidens⟩ := hall _ .empty r (widens_empty _) heval
  refine ⟨(by simp), 1, ?_⟩
  unfold callWithin
  simp only [hfd, hparameters, bindNames, ok_bind, heval', datum_widens hwidens hv]

/-- The two back ends agree. The tokens are the scanner's. -/
theorem backEnds_agree (hl : tokens.Lexed) (hp : parse tokens = .ok p)
    (hinterpret : interpret p = some (.ok v)) {verifyModule : Module → Option String}
    (hgenerate : generateLlvmIr verifyModule p = some (.ok M)) :
    ∃ result, analyzeTypes p (analyze p) = some result ∧
      Agrees (analyze p).scopes result.types p.ast M v := by
  obtain ⟨_, h⟩ | ⟨hok, result, hrun, hresult, hmain⟩ := interpret_cases hinterpret
  · cases h
  have hmodule := generateModule_of_generateLlvmIr hok hrun hgenerate
  obtain ⟨s, fd, r, hs, hkind, hdeclaration, heval, hv⟩ := evaluateMain_ok hmain
  obtain ⟨τ, h⟩ := checked hl hp hok hrun hresult
  obtain ⟨functions, functions_, hdeclare, hgenerated⟩ := generated h hmodule
  have hbodies := generateModule_bodies h hmodule
  -- `main` has no parameters
  obtain ⟨s', n, signature, _, hs', _, hn, hsignature, hnone, _⟩ := hgenerated.main
  rw [hs] at hs'
  cases hs'
  obtain ⟨fd', hfd', hname, hdeclaration'⟩ := function_declared h.scopes hs hkind
  rw [hdeclaration', findFunctionById_eq h.ids hfd'] at hdeclaration
  cases hdeclaration
  obtain ⟨s', signature', hs', hsignature', _, ⟨_, _, hparameters⟩, _⟩ := h.functions fd hfd'
  rw [hname, hs] at hs'
  cases hs'
  rw [hsignature] at hsignature'
  cases hsignature'
  rw [hnone] at hparameters
  have hcall := calls_main (by rw [hdeclaration', findFunctionById_eq h.ids hfd'])
    (List.length_eq_zero_iff.mp hparameters.length_eq) heval hv
  obtain ⟨line, m, hline, hcompletes⟩ := mainFollows h (layouts h) hgenerated hbodies hs hcall
  refine ⟨result, hrun, ⟨line, m, hline, hcompletes⟩, ?_, ?_⟩
  · intro output htrapped
    have hfinished : (State.finished (.int32 0) m (line ++ "\n")).Halted := trivial
    have htrap : (State.trapped output).Halted := trivial
    cases Steps.halted_unique hfinished htrap hcompletes htrapped
  · obtain ⟨_, fuel, hfuel⟩ := hcall
    have hfollows := callsFollow h (layouts h) hgenerated hbodies fuel _ s n signature hs hkind hn
      hsignature [] "" [] [] (by rw [hnone]; exact .nil) .nil
    rw [hfuel] at hfollows
    obtain ⟨w, m', hreturns, _, hw⟩ := hfollows
    exact ⟨functions, functions_, s, n, w, m', hdeclare, hs, hn,
      callBehaviour_returns_iff.mp hreturns, hw.represents⟩

/-- `data B = { W Int, N } defn main = { case W 3 of { W x -> { x + 1 } N -> { 0 } } }`. -/
def caseTokens : TokenVector :=
  ⟨[.Data, .UpperVariable "B", .Equal, .LeftBrace, .UpperVariable "W", .UpperVariable "Int",
    .Comma, .UpperVariable "N", .RightBrace, .Function, .LowerVariable "main", .Equal, .LeftBrace,
    .Case, .UpperVariable "W", .IntLiteral 3, .Of, .LeftBrace, .UpperVariable "W",
    .LowerVariable "x", .Arrow, .LeftBrace, .LowerVariable "x", .Plus, .IntLiteral 1, .RightBrace,
    .UpperVariable "N", .Arrow, .LeftBrace, .IntLiteral 0, .RightBrace, .RightBrace,
    .RightBrace].map fun load => ⟨load, ⟨1, 1, 1, 1⟩⟩, by decide⟩

def caseProgram : ParsedProgram :=
  ⟨⟨[.DataTypeDefinition ⟨2, "B", [⟨0, "W", ["Int"]⟩, ⟨1, "N", []⟩]⟩,
    .FunctionDefinition ⟨15, "main", [], .CaseExpression 14
      (.Application 5 (.Variable 3 "W") (.IntLiteral 4 3))
      [⟨10, .ConstructorPattern 6 "W" ["x"],
          .BinaryOperator .Addition 8 (.Variable 7 "x") (.IntLiteral 9 1)⟩,
        ⟨13, .ConstructorPattern 11 "N" [], .IntLiteral 12 0⟩]⟩]⟩,
    List.replicate 16 ⟨1, 1, 1, 1⟩⟩

theorem caseProgram_parse : parse caseTokens = .ok caseProgram := by decide +kernel

/-- The interpreter and the module of `caseProgram` agree on `4`. -/
theorem backEnds_agree_case : ∃ M result,
    interpret caseProgram = some (.ok (.int 4)) ∧
      generateLlvmIr (fun _ => none) caseProgram = some (.ok M) ∧
      analyzeTypes caseProgram (analyze caseProgram) = some result ∧
      Agrees (analyze caseProgram).scopes result.types caseProgram.ast M (.int 4) := by
  have hinterpret : ∃ outcome, interpret caseProgram = some outcome ∧
      (outcome.toOption.any fun
        | .int n => n == 4
        | .ConstructedValue _ _ => false) = true :=
    Option.map_eq_some_iff.mp (show (interpret caseProgram).map _ = some true by decide +kernel)
  have hgenerate : ∃ outcome, generateLlvmIr (fun _ => none) caseProgram = some outcome ∧
      outcome.isOk = true :=
    Option.map_eq_some_iff.mp
      (show (generateLlvmIr (fun _ => none) caseProgram).map _ = some true by decide +kernel)
  obtain ⟨outcome, hinterpret, hok⟩ := hinterpret
  obtain ⟨outcome', hgenerate, hok'⟩ := hgenerate
  cases outcome with
  | error e => cases hok
  | ok v =>
    cases v with
    | ConstructedValue name fields => cases hok
    | int n =>
      cases beq_iff_eq.mp hok
      cases outcome' with
      | error e => cases hok'
      | ok M =>
        obtain ⟨result, hrun, hagrees⟩ := backEnds_agree (show caseTokens.Lexed by decide)
          caseProgram_parse hinterpret hgenerate
        exact ⟨M, result, hinterpret, hgenerate, hrun, hagrees⟩

end mf.visitors
