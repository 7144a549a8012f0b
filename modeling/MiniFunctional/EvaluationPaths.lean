-- Which expressions an evaluation of the interpreter gets to, and with which
-- locals. A failure of one of them is the failure of the evaluation.
import MiniFunctional.InterpreterSteps

open mf.util mf.ast mf.parsing mf.semantics

namespace mf.visitors

open ExceptLaws ScopeTree

section

variable (scopes : ScopeTree) (types : TypeTable)

/-- The expression has the value of an integer. -/
def YieldsInt (e : Expression) (env : Environment Int32) (n : Int32) : Prop :=
  evaluate scopes types e env = .ok (.Value (.int n))

/-- The branch whose pattern is the first to match, and its environment. -/
inductive Taken : List Branch → Value Int32 → Environment Int32 → Expression →
    Environment Int32 → Prop
  | first {id pattern body branches value env branch_env} :
    matchPattern scopes pattern value env = .ok (some branch_env) →
    Taken (⟨id, pattern, body⟩ :: branches) value env body branch_env
  | later {id pattern body branches value env taken branch_env} :
    matchPattern scopes pattern value env = .ok none →
    Taken branches value env taken branch_env →
    Taken (⟨id, pattern, body⟩ :: branches) value env taken branch_env

/-- Evaluation of the first expression gets to the second one, in the second environment. -/
inductive Reaches : Expression → Environment Int32 → Expression → Environment Int32 → Prop
  | here {e env} : Reaches e env e env
  | left {kind id left right env e env'} : Reaches left env e env' →
    Reaches (.BinaryOperator kind id left right) env e env'
  | right {kind id left right env e env' n} : YieldsInt scopes types left env n →
    Reaches right env e env' → Reaches (.BinaryOperator kind id left right) env e env'
  | function {id function argument env e env'} : Reaches function env e env' →
    Reaches (.Application id function argument) env e env'
  | argument {id function argument env e env' func} :
    evaluate scopes types function env = .ok func → Reaches argument env e env' →
    Reaches (.Application id function argument) env e env'
  | scrutinee {id scrutinee branches env e env'} : Reaches scrutinee env e env' →
    Reaches (.CaseExpression id scrutinee branches) env e env'
  | branch {id scrutinee branches env e env' value body branch_env} :
    evaluate scopes types scrutinee env = .ok (.Value value) →
    Taken scopes branches value env body branch_env → Reaches body branch_env e env' →
    Reaches (.CaseExpression id scrutinee branches) env e env'

end

/-- Interpretation of the accepted program evaluates the expression. -/
def InterpretReaches (p : ParsedProgram) (types : TypeTable) (e : Expression)
    (env : Environment Int32) : Prop :=
  (analyze p).ok ∧
  (∃ result, analyzeTypes p (analyze p) = some result ∧ result.ok ∧ result.types = types) ∧
  ∃ s main_fn, (analyze p).scopes.getLocalSymbol getRootScopeId "main" = some s ∧
    s.kind = .Function ∧ findFunctionById p.ast s.declaration = some main_fn ∧
    Reaches (analyze p).scopes types main_fn.body .empty e env

variable {scopes : ScopeTree} {types : TypeTable}

theorem Reaches.trans {e₁ e₂ e₃ : Expression} {env₁ env₂ env₃ : Environment Int32}
    (h : Reaches scopes types e₁ env₁ e₂ env₂) (h' : Reaches scopes types e₂ env₂ e₃ env₃) :
    Reaches scopes types e₁ env₁ e₃ env₃ := by
  induction h with
  | here => exact h'
  | left _ ih => exact .left (ih h')
  | right hn _ ih => exact .right hn (ih h')
  | function _ ih => exact .function (ih h')
  | argument hfunc _ ih => exact .argument hfunc (ih h')
  | scrutinee _ ih => exact .scrutinee (ih h')
  | branch hvalue htaken _ ih => exact .branch hvalue htaken (ih h')

theorem InterpretReaches.of_reaches {p : ParsedProgram} {e e' : Expression}
    {env env' : Environment Int32} (h : InterpretReaches p types e env)
    (hreaches : Reaches (analyze p).scopes types e env e' env') :
    InterpretReaches p types e' env' := by
  obtain ⟨hok, hresult, s, main_fn, hs, hkind, hmain, hbody⟩ := h
  exact ⟨hok, hresult, s, main_fn, hs, hkind, hmain, hbody.trans hreaches⟩

/-- The branch that is taken is one whose pattern matches. -/
theorem Taken.branch {branches : List Branch} {value : Value Int32}
    {env branch_env : Environment Int32} {body : Expression}
    (h : Taken scopes branches value env body branch_env) :
    ∃ b ∈ branches, b.body = body ∧
      matchPattern scopes b.pattern value env = .ok (some branch_env) := by
  induction h with
  | first hmatch => exact ⟨_, List.mem_cons_self, rfl, hmatch⟩
  | later _ _ ih =>
    obtain ⟨b, hb, hbody, hmatch⟩ := ih
    exact ⟨b, List.mem_cons_of_mem _ hb, hbody, hmatch⟩

theorem Taken.evaluates {branches : List Branch} {value : Value Int32}
    {env branch_env : Environment Int32} {body : Expression}
    (h : Taken scopes branches value env body branch_env) :
    evaluateBranches scopes types branches value env = evaluate scopes types body branch_env := by
  induction h with
  | first hmatch => simp only [evaluateBranches, hmatch, ok_bind]
  | later hmatch _ ih => simp only [evaluateBranches, hmatch, ok_bind, ih]

/-- What fails where evaluation gets to, fails. -/
theorem Reaches.fails {e e' : Expression} {env env' : Environment Int32} {failure : Failure}
    (h : Reaches scopes types e env e' env')
    (hfails : evaluate scopes types e' env' = .error failure) :
    evaluate scopes types e env = .error failure := by
  induction h with
  | here => exact hfails
  | left _ ih =>
    simp only [evaluate, ih hfails]
    rfl
  | right hn _ ih =>
    unfold YieldsInt at hn
    simp only [evaluate, hn, ih hfails]
    rfl
  | function _ ih =>
    simp only [evaluate, ih hfails]
    rfl
  | argument hfunc _ ih =>
    simp only [evaluate, hfunc, ih hfails]
    rfl
  | scrutinee _ ih =>
    simp only [evaluate, ih hfails]
    rfl
  | branch hvalue htaken _ ih =>
    simp only [evaluate, hvalue, ok_bind]
    exact htaken.evaluates.trans (ih hfails)

/-! ## What is bound -/

/-- Nothing but pattern variables have values. -/
def BindsPatterns (scopes : ScopeTree) (env : Environment Int32) : Prop :=
  ∀ id value, env.find id = some value →
    ∃ s, s.id = id ∧ s.kind = .PatternVariable ∧
      ∃ sid name, scopes.getLocalSymbol sid name = some s

theorem bindsPatterns_empty (scopes : ScopeTree) : BindsPatterns scopes .empty := by
  intro id value h
  cases h

theorem BindsPatterns.insert {env : Environment Int32} (h : BindsPatterns scopes env) {s : Symbol}
    {sid : ScopeId} {name : String} (hs : scopes.getLocalSymbol sid name = some s)
    (hkind : s.kind = .PatternVariable) (value : Value Int32) :
    BindsPatterns scopes (env.insert s.id value) := by
  intro id value' hfind
  rw [AssocMap.find_insert] at hfind
  by_cases hid : id = s.id
  · exact ⟨s, hid.symm, hkind, sid, name, hs⟩
  · rw [if_neg hid] at hfind
    exact h id value' hfind

theorem matchPattern_binds {pattern : Pattern} {value : Value Int32}
    {env env' : Environment Int32} (h : BindsPatterns scopes env)
    (hmatch : matchPattern scopes pattern value env = .ok (some env')) :
    BindsPatterns scopes env' :=
  (matchPattern_step (fun henv hlocal hkind value => henv.insert hlocal hkind value) pattern value
    h).of_ok hmatch env' rfl

theorem Reaches.binds {e e' : Expression} {env env' : Environment Int32}
    (h : Reaches scopes types e env e' env') (henv : BindsPatterns scopes env) :
    BindsPatterns scopes env' := by
  induction h with
  | here => exact henv
  | left _ ih => exact ih henv
  | right _ _ ih => exact ih henv
  | function _ ih => exact ih henv
  | argument _ _ ih => exact ih henv
  | scrutinee _ ih => exact ih henv
  | branch _ htaken _ ih =>
    obtain ⟨_, _, _, hmatch⟩ := htaken.branch
    exact ih (matchPattern_binds henv hmatch)

end mf.visitors
