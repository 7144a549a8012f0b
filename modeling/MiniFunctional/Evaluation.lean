-- Call-by-value evaluation of a program with its functions: what it is that
-- the generated code has to do. Operands and arguments are evaluated from the
-- left, the first branch that matches is taken, and integers have 64 bits.
import MiniFunctional.Interpreter

open mf.util mf.ast mf.semantics mf.visitors

namespace mf.evaluation

abbrev Datum := Value (BitVec 64)

/-- Why an evaluation has no value. -/
inductive Fault
  | DivisionByZero
  /-- The least integer by -1. -/
  | DivisionOverflow
  | NoMatchingBranch
  | outOfFuel
  /-- What evaluation of an accepted program does not come to. -/
  | stuck
deriving DecidableEq, Repr

abbrev Evaluated := Except Fault

/-- A function or a constructor that lacks arguments is no value yet. -/
inductive Result
  | value (datum : Datum)
  | applied (symbol : Symbol) (arguments : List Datum)

def Result.datum : Result → Evaluated Datum
  | .value datum => .ok datum
  | .applied _ _ => .error .stuck

def integer : Datum → Evaluated (BitVec 64)
  | .int n => .ok n
  | .ConstructedValue _ _ => .error .stuck

/-- The sum, difference and product wrap around; the quotient is truncated. -/
def arithmetic (kind : BinaryOperatorKind) (left right : BitVec 64) : Evaluated (BitVec 64) :=
  match kind with
  | .Addition => .ok (left + right)
  | .Subtraction => .ok (left - right)
  | .Multiplication => .ok (left * right)
  | .Division =>
    if right = 0 then .error .DivisionByZero
    else if left = BitVec.intMin 64 ∧ right = -1 then .error .DivisionOverflow
    else .ok (left.sdiv right)

section

variable (program : Program) (scopes : ScopeTree) (types : TypeTable)

/-- How many arguments the symbol takes. -/
def arity (symbol : Symbol) : Option Nat :=
  match symbol.kind with
  | .Constructor => (types.getConstructorSignature symbol.id).map (·.fields.length)
  | .Function => (findFunctionById program symbol.declaration).map (·.parameters.length)
  | _ => none

/-- The symbols of the names in the node's scope get the values. -/
def bindNames (id : NodeId) : List String → List Datum → Environment (BitVec 64) →
    Evaluated (Environment (BitVec 64))
  | [], [], env => .ok env
  | name :: names, value :: values, env =>
    match (scopes.getScopeId id).bind (scopes.getLocalSymbol · name) with
    | none => .error .stuck
    | some symbol => bindNames id names values (env.insert symbol.id value)
  | _, _, _ => .error .stuck

/-- `none` where the value does not match. -/
def matchValue (pattern : Pattern) (value : Datum) (env : Environment (BitVec 64)) :
    Evaluated (Option (Environment (BitVec 64))) :=
  match pattern with
  | .VariablePattern id name => some <$> bindNames scopes id [name] [value] env
  | .ConstructorPattern id _ arguments =>
    match scopes.getResolvedSymbol id with
    | none => .error .stuck
    | some ctor =>
      match value with
      | .int _ => .ok none
      | .ConstructedValue name fields =>
        if name = ctor.name ∧ fields.length = arguments.length then
          some <$> bindNames scopes id arguments fields env
        else .ok none

variable (calls : Symbol → List Datum → Evaluated Datum)

/-- With the last argument, a constructor makes a value and a function is called. -/
def complete (symbol : Symbol) (arguments : List Datum) : Evaluated Result :=
  match arity program types symbol with
  | none => .error .stuck
  | some n =>
    if arguments.length = n then
      if symbol.kind = .Constructor then .ok (.value (.ConstructedValue symbol.name arguments))
      else .value <$> calls symbol arguments
    else .ok (.applied symbol arguments)

def apply (function : Result) (argument : Datum) : Evaluated Result :=
  match function with
  | .value _ => .error .stuck
  | .applied symbol arguments => complete program types calls symbol (arguments ++ [argument])

def evalVariable (id : NodeId) (env : Environment (BitVec 64)) : Evaluated Result :=
  match scopes.getResolvedSymbol id with
  | none => .error .stuck
  | some symbol =>
    if symbol.kind = .Constructor then complete program types calls symbol []
    else
      match env.find symbol.id with
      | some value => .ok (.value value)
      | none => complete program types calls symbol []

mutual

@[simp] def eval : Expression → Environment (BitVec 64) → Evaluated Result
  | .IntLiteral _ value, _ => .ok (.value (.int (value.toBitVec.signExtend 64)))
  | .Variable id _, env => evalVariable program scopes types calls id env
  | .BinaryOperator kind _ left_operand right_operand, env => do
    let left ← integer (← (← eval left_operand env).datum)
    let right ← integer (← (← eval right_operand env).datum)
    return .value (.int (← arithmetic kind left right))
  | .Application _ function argument, env => do
    let func ← eval function env
    let arg ← (← eval argument env).datum
    apply program types calls func arg
  | .CaseExpression _ scrutinee branches, env => do
    let value ← (← eval scrutinee env).datum
    evalBranches branches value env

/-- The first branch whose pattern matches. -/
@[simp] def evalBranches : List Branch → Datum → Environment (BitVec 64) → Evaluated Result
  | [], _, _ => .error .NoMatchingBranch
  | ⟨_, pattern, body⟩ :: branches, scrutinee, env => do
    match ← matchValue scopes pattern scrutinee env with
    | some branch_env => eval body branch_env
    | none => evalBranches branches scrutinee env

end

end

section

variable (program : Program) (scopes : ScopeTree) (types : TypeTable)

/-- A call of a function, when no more than `fuel` calls are open at once. -/
def callWithin : Nat → Symbol → List Datum → Evaluated Datum
  | 0, _, _ => .error .outOfFuel
  | fuel + 1, symbol, arguments =>
    match findFunctionById program symbol.declaration with
    | none => .error .stuck
    | some fd => do
      let env ← bindNames scopes fd.id fd.parameters arguments .empty
      (← eval program scopes types (callWithin fuel) fd.body env).datum

/-- The call of the function ends so. -/
def Calls (symbol : Symbol) (arguments : List Datum) (outcome : Evaluated Datum) : Prop :=
  outcome ≠ .error .outOfFuel ∧
    ∃ fuel, callWithin program scopes types fuel symbol arguments = outcome

end

/-! ## Fuel -/

theorem Result.datum_fuel (r : Result) : r.datum ≠ .error .outOfFuel := by
  cases r with
  | value datum => simp [Result.datum]
  | applied symbol arguments => simp [Result.datum]

theorem integer_fuel (datum : Datum) : integer datum ≠ .error .outOfFuel := by
  cases datum with
  | int n => simp [integer]
  | ConstructedValue name fields => simp [integer]

theorem arithmetic_fuel (kind : BinaryOperatorKind) (left right : BitVec 64) :
    arithmetic kind left right ≠ .error .outOfFuel := by
  cases kind with
  | Division =>
    unfold arithmetic
    simp only
    by_cases hzero : right = 0
    · rw [if_pos hzero]
      simp
    · by_cases hleast : left = BitVec.intMin 64 ∧ right = -1
      · rw [if_neg hzero, if_pos hleast]
        simp
      · rw [if_neg hzero, if_neg hleast]
        simp
  | _ => simp [arithmetic]

theorem bindNames_fuel (scopes : ScopeTree) (id : NodeId) (names : List String)
    (values : List Datum) (env : Environment (BitVec 64)) :
    bindNames scopes id names values env ≠ .error .outOfFuel := by
  induction names generalizing values env with
  | nil =>
    cases values with
    | nil => simp [bindNames]
    | cons value values => simp [bindNames]
  | cons name names ih =>
    cases values with
    | nil => simp [bindNames]
    | cons value values =>
      unfold bindNames
      cases (scopes.getScopeId id).bind (scopes.getLocalSymbol · name) with
      | none => simp
      | some symbol => exact ih values _

theorem map_fuel {α β : Type} {x : Evaluated α} (f : α → β) (h : x ≠ .error .outOfFuel) :
    f <$> x ≠ .error .outOfFuel := by
  cases x with
  | ok a => simp
  | error fault =>
    intro heq
    cases heq
    exact h rfl

theorem matchValue_fuel (scopes : ScopeTree) (pattern : Pattern) (value : Datum)
    (env : Environment (BitVec 64)) : matchValue scopes pattern value env ≠ .error .outOfFuel := by
  cases pattern with
  | VariablePattern id name => exact map_fuel some (bindNames_fuel scopes id _ _ env)
  | ConstructorPattern id name arguments =>
    unfold matchValue
    simp only
    cases scopes.getResolvedSymbol id with
    | none => simp
    | some ctor =>
      cases value with
      | int n => simp
      | ConstructedValue name' fields =>
        simp only
        by_cases hmatch : name' = ctor.name ∧ fields.length = arguments.length
        · rw [if_pos hmatch]
          exact map_fuel some (bindNames_fuel scopes id _ _ env)
        · rw [if_neg hmatch]
          simp

/-! ## Two evaluations -/

/-- A relation between computations that composition keeps. -/
structure Compositional (R : (α : Type) → Evaluated α → Evaluated α → Prop) : Prop where
  same : ∀ {α : Type} {x : Evaluated α}, x ≠ .error .outOfFuel → R α x x
  bind : ∀ {α β : Type} {x y : Evaluated α} {f g : α → Evaluated β}, R α x y →
    (∀ a, R β (f a) (g a)) → R β (x >>= f) (y >>= g)

section

variable {program : Program} {scopes : ScopeTree} {types : TypeTable}
  {calls calls' : Symbol → List Datum → Evaluated Datum}
  {R : (α : Type) → Evaluated α → Evaluated α → Prop} (hR : Compositional R)
  (h : ∀ symbol arguments, R Datum (calls symbol arguments) (calls' symbol arguments))

include hR h

theorem complete_related (symbol : Symbol) (arguments : List Datum) :
    R Result (complete program types calls symbol arguments)
      (complete program types calls' symbol arguments) := by
  unfold complete
  cases arity program types symbol with
  | none => exact hR.same (by simp)
  | some n =>
    by_cases hn : arguments.length = n
    · by_cases hkind : symbol.kind = .Constructor
      · simp only [hn, hkind, if_true]
        exact hR.same (by simp)
      · simp only [hn, hkind, if_true, if_false]
        exact hR.bind (h symbol arguments) fun _ => hR.same (by simp)
    · simp only [hn, if_false]
      exact hR.same (by simp)

/-- What is so of the calls, is so of all expressions. -/
theorem eval_related (e : Expression) : ∀ env,
    R Result (eval program scopes types calls e env) (eval program scopes types calls' e env) := by
  induction e with
  | IntLiteral id value => exact fun _ => hR.same (by simp)
  | Variable id name =>
    intro env
    simp only [eval]
    unfold evalVariable
    cases scopes.getResolvedSymbol id with
    | none => exact hR.same (by simp)
    | some symbol =>
      by_cases hkind : symbol.kind = .Constructor
      · simp only [hkind, if_true]
        exact complete_related hR h symbol []
      · simp only [hkind, if_false]
        cases env.find symbol.id with
        | none => exact complete_related hR h symbol []
        | some value => exact hR.same (by simp)
  | BinaryOperator kind id left right ihl ihr =>
    intro env
    simp only [eval]
    refine hR.bind (ihl env) fun a => hR.bind (hR.same a.datum_fuel) fun a' =>
      hR.bind (hR.same (integer_fuel a')) fun a'' => ?_
    refine hR.bind (ihr env) fun b => hR.bind (hR.same b.datum_fuel) fun b' =>
      hR.bind (hR.same (integer_fuel b')) fun b'' => ?_
    refine hR.bind (hR.same (arithmetic_fuel kind a'' b'')) fun c => hR.same ?_
    intro hfuel
    cases hfuel
  | Application id function argument ihf iha =>
    intro env
    simp only [eval]
    refine hR.bind (ihf env) fun func => hR.bind (iha env) fun r =>
      hR.bind (hR.same r.datum_fuel) fun arg => ?_
    cases func with
    | value datum => exact hR.same (by simp [apply])
    | applied symbol arguments => exact complete_related hR h symbol _
  | CaseExpression id scrutinee branches ihs ihb =>
    intro env
    simp only [eval]
    refine hR.bind (ihs env) fun r => hR.bind (hR.same r.datum_fuel) fun value => ?_
    induction branches with
    | nil => exact hR.same (by simp)
    | cons b bs ih =>
      obtain ⟨branch, pattern, body⟩ := b
      simp only [evalBranches]
      refine hR.bind (hR.same (matchValue_fuel scopes pattern value env)) fun matched => ?_
      cases matched with
      | none => exact ih fun b hb => ihb b (List.mem_cons_of_mem _ hb)
      | some branch_env => exact ihb _ List.mem_cons_self branch_env

end

/-! ## One outcome -/

/-- The outcome is the same, unless the fuel ran out. -/
def Settles {α : Type} (x y : Evaluated α) : Prop := x ≠ .error .outOfFuel → y = x

theorem Settles.refl {α : Type} (x : Evaluated α) : Settles x x := fun _ => rfl

theorem Settles.bind {α β : Type} {x y : Evaluated α} {f g : α → Evaluated β} (h : Settles x y)
    (hf : ∀ a, Settles (f a) (g a)) : Settles (x >>= f) (y >>= g) := by
  intro hfuel
  cases x with
  | error fault =>
    have hfault : fault ≠ .outOfFuel := by
      rintro rfl
      exact hfuel rfl
    rw [h (by simpa using hfault)]
    rfl
  | ok a =>
    rw [h (by simp)]
    exact hf a hfuel

theorem settles_compositional : Compositional fun _ => Settles := by
  constructor
  · exact fun _ => .refl _
  · exact fun h hf => h.bind hf

section

variable {program : Program} {scopes : ScopeTree} {types : TypeTable}

theorem callWithin_succ (fuel : Nat) (symbol : Symbol) (arguments : List Datum) :
    Settles (callWithin program scopes types fuel symbol arguments)
      (callWithin program scopes types (fuel + 1) symbol arguments) := by
  induction fuel generalizing symbol arguments with
  | zero => exact fun h => absurd rfl h
  | succ fuel ih =>
    rw [callWithin, callWithin]
    cases findFunctionById program symbol.declaration with
    | none => exact .refl _
    | some fd =>
      refine .bind (.refl _) fun env => .bind ?_ fun _ => .refl _
      exact eval_related settles_compositional ih fd.body env

theorem callWithin_le {fuel fuel' : Nat} (hle : fuel ≤ fuel') (symbol : Symbol)
    (arguments : List Datum) : Settles (callWithin program scopes types fuel symbol arguments)
      (callWithin program scopes types fuel' symbol arguments) := by
  induction hle with
  | refl => exact .refl _
  | @step fuel' _ ih =>
    intro h
    have heq := ih h
    rw [← heq] at h ⊢
    exact callWithin_succ fuel' symbol arguments h

/-- A call ends in one way only. -/
theorem Calls.unique {symbol : Symbol} {arguments : List Datum} {outcome outcome' : Evaluated Datum}
    (h : Calls program scopes types symbol arguments outcome)
    (h' : Calls program scopes types symbol arguments outcome') : outcome = outcome' := by
  obtain ⟨hfuel, fuel, rfl⟩ := h
  obtain ⟨hfuel', fuel', rfl⟩ := h'
  rcases Nat.le_total fuel fuel' with hle | hle
  · exact (callWithin_le hle symbol arguments hfuel).symm
  · exact callWithin_le hle symbol arguments hfuel'

end

end mf.evaluation
