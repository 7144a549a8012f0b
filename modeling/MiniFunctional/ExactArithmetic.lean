-- The arithmetic of the interpreter against that of the integers: evaluation
-- over integers without bounds, and what `int` evaluation makes of it.
import MiniFunctional.InterpreterSafety
import MiniFunctional.MappedValues

open mf.util mf.ast mf.parsing mf.tokenization mf.semantics

namespace mf.visitors

open ExceptLaws ScopeTree

/-! ## Evaluation over the integers -/

/-- An evaluation, with the results of its arithmetic in their order. -/
structure ExactEvaluation (α : Type) where
  results : List Int
  outcome : Evaluation α

instance : Monad ExactEvaluation where
  pure a := ⟨[], .ok a⟩
  bind x f :=
    match x.outcome with
    | .ok a => ⟨x.results ++ (f a).results, (f a).outcome⟩
    | .error failure => ⟨x.results, .error failure⟩

/-- What does no arithmetic has no results. -/
instance : MonadLift Evaluation ExactEvaluation where
  monadLift x := ⟨[], x⟩

/-- What the operator computes of the integers, which have no bounds. -/
def exactResult (kind : BinaryOperatorKind) (left right : Int) : Option Int :=
  match kind with
  | .Addition => some (left + right)
  | .Subtraction => some (left - right)
  | .Multiplication => some (left * right)
  | .Division => if right = 0 then none else some (left.tdiv right)

def exactBinaryOp (kind : BinaryOperatorKind) (left right : Int) : ExactEvaluation Int :=
  match exactResult kind left right with
  | none => ⟨[], fail .DivisionByZero⟩
  | some n => ⟨[n], .ok n⟩

section

variable (scopes : ScopeTree) (types : TypeTable)

mutual

/-- The evaluator with integers in place of `int`. -/
@[simp] def evaluateExact : Expression → Environment Int → ExactEvaluation (EvalResult Int)
  | .IntLiteral _ value, _ => return .Value (.int value.toInt)
  | .Variable id name, env => evaluateVariable scopes types id name env
  | .BinaryOperator kind _ left_operand right_operand, env => do
    let left ← asInt (← asValue (← evaluateExact left_operand env))
    let right ← asInt (← asValue (← evaluateExact right_operand env))
    return .Value (.int (← exactBinaryOp kind left right))
  | .Application _ function argument, env => do
    let func ← evaluateExact function env
    let arg ← asValue (← evaluateExact argument env)
    applyPartial func arg
  | .CaseExpression _ scrutinee branches, env => do
    let value ← asValue (← evaluateExact scrutinee env)
    evaluateExactBranches branches value env

@[simp] def evaluateExactBranches : List Branch → Value Int → Environment Int →
    ExactEvaluation (EvalResult Int)
  | [], _, _ => (fail .NoMatchingBranch : Evaluation _)
  | ⟨_, pattern, body⟩ :: branches, scrutinee, env => do
    match ← matchPattern scopes pattern scrutinee env with
    | some branch_env => evaluateExact body branch_env
    | none => evaluateExactBranches branches scrutinee env

end

end

/-- The results of the arithmetic of `main`, over the integers. -/
def mainResults (p : ParsedProgram) (types : TypeTable) : List Int :=
  match ((analyze p).scopes.getLocalSymbol getRootScopeId "main").filter (·.kind = .Function) with
  | none => []
  | some main_symbol =>
    match findFunctionById p.ast main_symbol.declaration with
    | none => []
    | some main_fn => (evaluateExact (analyze p).scopes types main_fn.body .empty).results

/-- An `int` can hold the integer. -/
def FitsInt (n : Int) : Prop := Int32.minValue.toInt ≤ n ∧ n ≤ Int32.maxValue.toInt

/-- If the program is accepted, every result that its arithmetic has over the
integers fits in `int`. -/
def ResultsFit (p : ParsedProgram) : Prop :=
  ∀ result, (analyze p).ok → analyzeTypes p (analyze p) = some result → result.ok →
    ∀ n ∈ mainResults p result.types, FitsInt n

/-! ## Exact arithmetic of the interpreter -/

/-- The operator yields the exact result of its operands' values, or raises. -/
def ExactOrRaises (scopes : ScopeTree) (types : TypeTable) (kind : BinaryOperatorKind)
    (id : NodeId) (left right : Expression) (env : Environment Int32) : Prop :=
  (∃ a b c, YieldsInt scopes types left env a ∧ YieldsInt scopes types right env b ∧
    YieldsInt scopes types (.BinaryOperator kind id left right) env c ∧
    exactResult kind a.toInt b.toInt = some c.toInt) ∨
  ∃ error, evaluate scopes types (.BinaryOperator kind id left right) env =
    .error (.runtimeError error)

/-- Arithmetic is exact or fails: no result is too large for `int`, and every
operator that the interpreter gets to yields the exact result or raises. -/
structure ExactArithmetic (p : ParsedProgram) : Prop where
  noOverflow : interpret p ≠ some (.error (.Evaluation .intOverflow))
  operators : ∀ types kind id left right env,
    InterpretReaches p types (.BinaryOperator kind id left right) env →
    ExactOrRaises (analyze p).scopes types kind id left right env

/-! ## One operator -/

variable {scopes : ScopeTree} {types : TypeTable}

/-- What `applyBinaryOp` does, by the exact result. -/
theorem applyBinaryOp_eq (kind : BinaryOperatorKind) (left right : Int32) :
    applyBinaryOp kind left right =
      match exactResult kind left.toInt right.toInt with
      | none => fail .DivisionByZero
      | some n => intResult n := by
  unfold applyBinaryOp exactResult
  cases kind
  case Division =>
    have hzero : right.toInt = 0 ↔ right = 0 := by
      rw [← Int32.toInt_zero, Int32.toInt_inj]
    by_cases h : right = 0
    · simp [h]
    · simp [h, hzero]
  all_goals rfl

theorem intResult_fits {n : Int} (h : FitsInt n) : ∃ c, intResult n = .ok c ∧ c.toInt = n := by
  unfold FitsInt at h
  unfold intResult
  rw [if_pos h]
  exact ⟨_, rfl, Int32.toInt_ofInt_of_le h.1 (Int.lt_add_one_of_le h.2)⟩

theorem intResult_overflow {n : Int} (h : ¬ FitsInt n) : intResult n = .error .intOverflow := by
  unfold FitsInt at h
  unfold intResult
  rw [if_neg h]

/-- The value of an operand of an operator. -/
def operand (result : Evaluation (EvalResult Int32)) : Evaluation Int32 :=
  result >>= asValue >>= asInt

theorem operand_cases (result : Evaluation (EvalResult Int32)) :
    (∃ n, result = .ok (.Value (.int n))) ∨
      (∃ error, operand result = .error (.runtimeError error)) ∨
      result = .error .intOverflow := by
  rcases result with (error | _) | (value | ctor)
  · exact .inr (.inl ⟨error, rfl⟩)
  · exact .inr (.inr rfl)
  · cases value with
    | int n => exact .inl ⟨n, rfl⟩
    | ConstructedValue name fields => exact .inr (.inl ⟨.ExpectedIntegerValue, rfl⟩)
  · exact .inr (.inl ⟨.UnexpectedPartialConstructor, rfl⟩)

theorem evaluate_operator (scopes : ScopeTree) (types : TypeTable) (kind : BinaryOperatorKind)
    (id : NodeId) (left right : Expression) (env : Environment Int32) :
    evaluate scopes types (.BinaryOperator kind id left right) env =
      operand (evaluate scopes types left env) >>= fun a =>
        operand (evaluate scopes types right env) >>= fun b =>
          (fun c => .Value (.int c)) <$> applyBinaryOp kind a b := by
  simp only [evaluate, operand, bind_assoc, map_eq_pure_bind]

/-- An operator yields the exact result or raises, or there is an overflow. -/
theorem operator_cases (kind : BinaryOperatorKind) (id : NodeId) (left right : Expression)
    (env : Environment Int32) :
    ExactOrRaises scopes types kind id left right env ∨
      evaluate scopes types (.BinaryOperator kind id left right) env = .error .intOverflow := by
  unfold ExactOrRaises
  have heval := evaluate_operator scopes types kind id left right env
  rcases operand_cases (evaluate scopes types left env) with ⟨a, ha⟩ | ⟨error, hleft⟩ | hleft
  · have hvalue : operand (evaluate scopes types left env) = .ok a := by
      rw [ha]
      rfl
    rw [hvalue, ok_bind] at heval
    rcases operand_cases (evaluate scopes types right env) with ⟨b, hb⟩ | ⟨error, hright⟩ | hright
    · have hvalue : operand (evaluate scopes types right env) = .ok b := by
        rw [hb]
        rfl
      rw [hvalue, ok_bind, applyBinaryOp_eq] at heval
      cases hexact : exactResult kind a.toInt b.toInt with
      | none =>
        rw [hexact] at heval
        exact .inl (.inr ⟨_, heval⟩)
      | some n =>
        rw [hexact] at heval
        by_cases hfits : FitsInt n
        · obtain ⟨c, hc, hn⟩ := intResult_fits hfits
          simp only [hc] at heval
          exact .inl (.inl ⟨a, b, c, ha, hb, heval, by rw [hexact, hn]⟩)
        · simp only [intResult_overflow hfits] at heval
          exact .inr heval
    · rw [hright] at heval
      exact .inl (.inr ⟨error, heval⟩)
    · rw [hright] at heval
      exact .inr heval
  · rw [hleft] at heval
    exact .inl (.inr ⟨error, heval⟩)
  · rw [hleft] at heval
    exact .inr heval

/-! ## The two evaluations -/

/-- While the results fit in `int`, the `int` evaluation has the outcome of the
exact one; where one does not, it overflows. -/
structure Tracks {α β : Type} (f : α → β) (x : Evaluation α) (y : ExactEvaluation β) : Prop where
  fits : (∀ n ∈ y.results, FitsInt n) → x ≠ .error .intOverflow ∧ y.outcome = x.map f
  overflows : ∀ n ∈ y.results, ¬ FitsInt n → x = .error .intOverflow

section

variable {α β γ δ : Type} {f : α → β} {x : Evaluation α} {y : ExactEvaluation β}

theorem results_bind (y : ExactEvaluation β) (k : β → ExactEvaluation δ) :
    (y >>= k).results = y.results ++
      match y.outcome with
      | .ok b => (k b).results
      | .error _ => [] := by
  obtain ⟨results, outcome⟩ := y
  cases outcome with
  | ok b => rfl
  | error failure => exact (List.append_nil results).symm

theorem outcome_bind (y : ExactEvaluation β) (k : β → ExactEvaluation δ) :
    (y >>= k).outcome = y.outcome >>= fun b => (k b).outcome := by
  obtain ⟨results, outcome⟩ := y
  cases outcome with
  | ok b => rfl
  | error failure => rfl

theorem Tracks.overflow_iff (h : Tracks f x y) :
    x = .error .intOverflow ↔ ∃ n ∈ y.results, ¬ FitsInt n := by
  constructor
  · intro hx
    by_contra hall
    push Not at hall
    exact (h.fits hall).1 hx
  · rintro ⟨n, hn, hnot⟩
    exact h.overflows n hn hnot

/-- A step without arithmetic. -/
theorem Tracks.lift {x : Evaluation α} {y : Evaluation β} (heq : y = x.map f)
    (hfits : x ≠ .error .intOverflow) : Tracks f x (y : ExactEvaluation β) :=
  ⟨fun _ => ⟨hfits, heq⟩, nofun⟩

theorem Tracks.step {x : Evaluation α} {y : Evaluation β} (heq : y = x.map f) {Q : α → Prop}
    (h : Satisfies x Failure.OfStep Q) : Tracks f x (y : ExactEvaluation β) :=
  .lift heq fun hx => h.of_error hx

theorem Tracks.bind {g : γ → δ} {k : α → Evaluation γ} {k' : β → ExactEvaluation δ}
    (h : Tracks f x y) (hk : ∀ a, x = .ok a → Tracks g (k a) (k' (f a))) :
    Tracks g (x >>= k) (y >>= k') := by
  by_cases hall : ∀ n ∈ y.results, FitsInt n
  · obtain ⟨hnot, houtcome⟩ := h.fits hall
    have hresults := results_bind y k'
    have hbind := outcome_bind y k'
    rw [houtcome] at hresults hbind
    cases x with
    | ok a =>
      have ha := hk a rfl
      constructor
      · intro hfits
        rw [hresults] at hfits
        rw [hbind]
        exact ha.fits fun n hn => hfits n (List.mem_append_right _ hn)
      · intro n hn hnot
        rw [hresults] at hn
        rcases List.mem_append.mp hn with hn | hn
        · exact absurd (hall n hn) hnot
        · exact ha.overflows n hn hnot
    | error failure =>
      constructor
      · intro _
        rw [hbind]
        refine ⟨fun h => hnot ?_, rfl⟩
        cases h
        rfl
      · intro n hn hnot
        rw [hresults] at hn
        exact absurd (hall n (by simpa [Except.map] using hn)) hnot
  · -- the first computation overflows, and so the second does not run
    obtain ⟨n, hn, hnot⟩ : ∃ n ∈ y.results, ¬ FitsInt n := by
      simpa using hall
    have hover : x >>= k = .error .intOverflow := by
      rw [h.overflows n hn hnot]
      rfl
    constructor
    · intro hfits
      refine absurd (hfits n ?_) hnot
      rw [results_bind]
      exact List.mem_append_left _ hn
    · intro _ _ _
      exact hover

end

theorem exactBinaryOp_tracks (kind : BinaryOperatorKind) (left right : Int32) :
    Tracks Int32.toInt (applyBinaryOp kind left right)
      (exactBinaryOp kind left.toInt right.toInt) := by
  rw [applyBinaryOp_eq]
  unfold exactBinaryOp
  cases exactResult kind left.toInt right.toInt with
  | none => exact .lift rfl nofun
  | some n =>
    simp only
    constructor
    · intro hfits
      obtain ⟨c, hc, rfl⟩ := intResult_fits (hfits n List.mem_cons_self)
      rw [hc]
      exact ⟨nofun, rfl⟩
    · intro m hm hnot
      obtain rfl := List.mem_singleton.mp hm
      exact intResult_overflow hnot

theorem asValue_tracks (result : EvalResult Int32) :
    Tracks (mapValue Int32.toInt) (asValue result)
      (asValue (mapResult Int32.toInt result) : Evaluation (Value Int)) :=
  .step (asValue_map result) (asValue_step result)

theorem asInt_tracks (value : Value Int32) :
    Tracks Int32.toInt (asInt value) (asInt (mapValue Int32.toInt value) : Evaluation Int) :=
  .step (asInt_map value) (asInt_step value)

theorem branches_track {branches : List Branch} {value : Value Int32} {env : Environment Int32}
    (h : ∀ b ∈ branches, ∀ env, Tracks (mapResult Int32.toInt) (evaluate scopes types b.body env)
      (evaluateExact scopes types b.body (mapEnvironment Int32.toInt env))) :
    Tracks (mapResult Int32.toInt) (evaluateBranches scopes types branches value env)
      (evaluateExactBranches scopes types branches (mapValue Int32.toInt value)
        (mapEnvironment Int32.toInt env)) := by
  induction branches with
  | nil =>
    simp only [evaluateBranches, evaluateExactBranches]
    exact .lift rfl nofun
  | cons b branches ih =>
    obtain ⟨id, pattern, body⟩ := b
    simp only [evaluateBranches, evaluateExactBranches]
    have hmatch : Satisfies (matchPattern scopes pattern value env) Failure.OfStep fun _ => True :=
      (matchPattern_step (Q := fun _ => True) (fun _ _ _ _ => trivial) pattern value trivial).mono
        fun _ _ => trivial
    refine Tracks.bind (.step (matchPattern_map pattern value env) hmatch) fun matched _ => ?_
    cases matched with
    | some branch_env => exact h _ List.mem_cons_self branch_env
    | none => exact ih fun b hb => h b (List.mem_cons_of_mem _ hb)

/-- Evaluation in `int` tracks the exact one. -/
theorem evaluate_tracks (e : Expression) : ∀ env,
    Tracks (mapResult Int32.toInt) (evaluate scopes types e env)
      (evaluateExact scopes types e (mapEnvironment Int32.toInt env)) := by
  induction e with
  | IntLiteral id value =>
    intro env
    simp only [evaluate, evaluateExact]
    exact ⟨fun _ => ⟨nofun, rfl⟩, nofun⟩
  | Variable id name =>
    intro env
    simp only [evaluate, evaluateExact]
    exact .step (evaluateVariable_map id name env) (evaluateVariable_step id name env)
  | BinaryOperator kind id left right ihl ihr =>
    intro env
    simp only [evaluate, evaluateExact]
    refine (ihl env).bind fun l _ => (asValue_tracks l).bind fun lvalue _ =>
      (asInt_tracks lvalue).bind fun a _ => (ihr env).bind fun r _ =>
        (asValue_tracks r).bind fun rvalue _ => (asInt_tracks rvalue).bind fun b _ =>
          (exactBinaryOp_tracks kind a b).bind fun c _ => ?_
    exact ⟨fun _ => ⟨nofun, rfl⟩, nofun⟩
  | Application id function argument ihf iha =>
    intro env
    simp only [evaluate, evaluateExact]
    exact (ihf env).bind fun func _ => (iha env).bind fun arg _ =>
      (asValue_tracks arg).bind fun value _ =>
        .step (applyPartial_map func value) (applyPartial_step func value)
  | CaseExpression id scrutinee branches ihs ihb =>
    intro env
    simp only [evaluate, evaluateExact]
    exact (ihs env).bind fun result _ => (asValue_tracks result).bind fun value _ =>
      branches_track ihb

/-! ## Programs -/

variable {p : ParsedProgram}

theorem evaluateMain_overflow_iff (p : ParsedProgram) (types : TypeTable) :
    evaluateMain p (analyze p) types = .error (.Evaluation .intOverflow) ↔
      ∃ n ∈ mainResults p types, ¬ FitsInt n := by
  unfold evaluateMain mainResults
  cases ((analyze p).scopes.getLocalSymbol getRootScopeId "main").filter (·.kind = .Function) with
  | none => simp
  | some s =>
    simp only
    cases findFunctionById p.ast s.declaration with
    | none => simp
    | some main_fn =>
      simp only
      have htracks : Tracks (mapResult Int32.toInt)
          (evaluate (analyze p).scopes types main_fn.body .empty)
          (evaluateExact (analyze p).scopes types main_fn.body .empty) :=
        evaluate_tracks main_fn.body .empty
      rw [← htracks.overflow_iff]
      cases evaluate (analyze p).scopes types main_fn.body .empty with
      | error failure =>
        constructor
        · intro h
          cases h
          rfl
        · intro h
          cases h
          rfl
      | ok r =>
        constructor
        · intro h
          cases r with
          | Value value => cases h
          | PartialConstructor ctor => cases h
        · intro h
          cases h

/-- The interpreter overflows just where a result over the integers does not fit. -/
theorem interpret_overflow_iff :
    interpret p ≠ some (.error (.Evaluation .intOverflow)) ↔ ResultsFit p := by
  constructor
  · intro h result hok hrun hresult n hn
    by_contra hnot
    apply h
    rw [interpret_eq hok hrun hresult, (evaluateMain_overflow_iff p _).mpr ⟨n, hn, hnot⟩]
  · intro h hover
    obtain ⟨_, h⟩ | ⟨hok, result, hrun, hresult, hmain⟩ := interpret_cases hover
    · cases h
    obtain ⟨n, hn, hnot⟩ := (evaluateMain_overflow_iff p _).mp hmain
    exact hnot (h result hok hrun hresult n hn)

/-- An overflow of what interpretation gets to is the interpretation's. -/
theorem InterpretReaches.overflows {e : Expression} {env : Environment Int32}
    (h : InterpretReaches p types e env)
    (hover : evaluate (analyze p).scopes types e env = .error .intOverflow) :
    interpret p = some (.error (.Evaluation .intOverflow)) := by
  obtain ⟨hok, ⟨result, hrun, hresult, rfl⟩, s, main_fn, hs, hkind, hfind, hreaches⟩ := h
  have hmain : ((analyze p).scopes.getLocalSymbol getRootScopeId "main").filter
      (·.kind = .Function) = some s :=
    Option.filter_eq_some_iff.mpr ⟨hs, decide_eq_true hkind⟩
  rw [interpret_eq hok hrun hresult]
  unfold evaluateMain
  simp only [hmain, hfind, hreaches.fails hover]
  rfl

/-- The arithmetic of the interpreter is exact just when, in the evaluation of
`main` over the integers, every result of an operator fits in `int`. -/
theorem interpret_exact (p : ParsedProgram) : ExactArithmetic p ↔ ResultsFit p := by
  constructor
  · intro h
    exact interpret_overflow_iff.mp h.noOverflow
  · intro h
    have hover := interpret_overflow_iff.mpr h
    refine ⟨hover, fun types kind id left right env hreaches => ?_⟩
    rcases operator_cases kind id left right env with hexact | hoverflow
    · exact hexact
    · exact absurd (hreaches.overflows hoverflow) hover

/-- `defn main = { 2147483647 + 1 }`. -/
def sumTokens : TokenVector :=
  ⟨[.Function, .LowerVariable "main", .Equal, .LeftBrace, .IntLiteral 2147483647, .Plus,
    .IntLiteral 1, .RightBrace].map fun load => ⟨load, ⟨1, 1, 1, 1⟩⟩, by decide⟩

def sumProgram : ParsedProgram :=
  ⟨⟨[.FunctionDefinition ⟨3, "main", [],
      .BinaryOperator .Addition 1 (.IntLiteral 0 2147483647) (.IntLiteral 2 1)⟩]⟩,
    List.replicate 4 ⟨1, 1, 1, 1⟩⟩

/-- An accepted program with a sum that is too large. -/
theorem interpret_exact_sum : parse sumTokens = .ok sumProgram ∧ (analyze sumProgram).ok ∧
    (∃ result, analyzeTypes sumProgram (analyze sumProgram) = some result ∧ result.ok) ∧
    ¬ ExactArithmetic sumProgram := by
  refine ⟨rfl, rfl, Option.map_eq_some_iff.mp ?_, fun h => h.noOverflow (eq_error_of_thrown ?_)⟩
  · decide +kernel
  · decide +kernel

end mf.visitors
