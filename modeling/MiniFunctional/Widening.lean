-- What the interpreter returns, evaluation with functions returns as well: the
-- integers are wider there, and no `int` overflows.
import MiniFunctional.Evaluation
import MiniFunctional.MappedValues

open mf.util mf.ast mf.semantics mf.visitors

namespace mf.evaluation

open ExceptLaws

variable {program : Program} {t : ScopeTree} {types : TypeTable}
  {calls : Symbol → List Datum → Evaluated Datum}

/-! ## Values -/

def widenInt (n : Int32) : BitVec 64 := n.toBitVec.signExtend 64

/-- The value with integers of 64 bits. -/
abbrev widen : Value Int32 → Datum := mapValue widenInt

/-- The variables that have values have the wider ones. -/
def Widens (env : Environment Int32) (env' : Environment (BitVec 64)) : Prop :=
  ∀ s v, env.find s = some v → env'.find s = some (widen v)

theorem Widens.insert {env : Environment Int32} {env' : Environment (BitVec 64)}
    (h : Widens env env') (s : SymbolId) (v : Value Int32) :
    Widens (env.insert s v) (env'.insert s (widen v)) := by
  intro s' v' hv'
  rw [AssocMap.find_insert] at hv' ⊢
  by_cases heq : s' = s
  · rw [if_pos heq] at hv' ⊢
    cases hv'
    rfl
  · rw [if_neg heq] at hv' ⊢
    exact h s' v' hv'

theorem widens_empty (env' : Environment (BitVec 64)) : Widens .empty env' := by
  intro s v hv
  simp at hv

/-- A partial constructor is a constructor that lacks arguments. -/
inductive WidensResult (types : TypeTable) : EvalResult Int32 → Result → Prop
  | value {v : Value Int32} : WidensResult types (.Value v) (.value (widen v))
  | applied {symbol : Symbol} {n : Nat} {arguments : List (Value Int32)} :
    constructorArity symbol types = .ok n →
    WidensResult types (.PartialConstructor ⟨symbol.name, n, arguments⟩)
      (.applied symbol (arguments.map widen))

/-! ## Arithmetic -/

theorem toInt_widenInt (n : Int32) : (widenInt n).toInt = n.toInt := by
  unfold widenInt
  rw [BitVec.toInt_signExtend_of_le (by decide)]
  rfl

theorem widenInt_bounds (n : Int32) :
    -2147483648 ≤ (widenInt n).toInt ∧ (widenInt n).toInt ≤ 2147483647 := by
  rw [toInt_widenInt]
  exact ⟨Int32.minValue_le_toInt n, Int32.toInt_le n⟩

/-- The result of `int` arithmetic is that of the wider arithmetic. -/
theorem widenInt_result {n : Int} {c : Int32} (h : intResult n = .ok c) {w : BitVec 64}
    (hw : w.toInt = n.bmod 0x10000000000000000) : w = widenInt c := by
  unfold intResult at h
  by_cases hrange : Int32.minValue.toInt ≤ n ∧ n ≤ Int32.maxValue.toInt
  · rw [if_pos hrange] at h
    cases h
    apply BitVec.eq_of_toInt_eq
    rw [hw, toInt_widenInt, Int32.toInt_ofInt_of_le hrange.1 (Int.lt_add_one_of_le hrange.2)]
    have hmin : Int32.minValue.toInt = -2147483648 := by decide
    have hmax : Int32.maxValue.toInt = 2147483647 := by decide
    rw [hmin, hmax] at hrange
    apply Int.bmod_eq_of_le
    · omega
    · omega
  · rw [if_neg hrange] at h
    cases h

theorem arithmetic_widenInt {kind : BinaryOperatorKind} {a b c : Int32}
    (h : applyBinaryOp kind a b = .ok c) :
    arithmetic kind (widenInt a) (widenInt b) = .ok (widenInt c) := by
  cases kind with
  | Addition =>
    refine congrArg Except.ok (widenInt_result h ?_)
    rw [BitVec.toInt_add, toInt_widenInt, toInt_widenInt]
  | Subtraction =>
    refine congrArg Except.ok (widenInt_result h ?_)
    rw [BitVec.toInt_sub, toInt_widenInt, toInt_widenInt]
  | Multiplication =>
    refine congrArg Except.ok (widenInt_result h ?_)
    rw [BitVec.toInt_mul, toInt_widenInt, toInt_widenInt]
  | Division =>
    unfold applyBinaryOp at h
    unfold arithmetic
    simp only at h ⊢
    by_cases hb : b = 0
    · rw [if_pos hb] at h
      cases h
    · rw [if_neg hb] at h
      have hdivisor : widenInt b ≠ 0 := by
        intro hzero
        have hint := toInt_widenInt b
        rw [hzero] at hint
        exact hb (Int32.toInt_inj.mp hint.symm)
      have hoverflow : ¬ (widenInt a = BitVec.intMin 64 ∧ widenInt b = -1) := by
        intro hboth
        have hbound := (widenInt_bounds a).1
        rw [hboth.1] at hbound
        exact absurd hbound (by decide)
      rw [if_neg hdivisor, if_neg hoverflow]
      refine congrArg Except.ok (widenInt_result h ?_)
      rw [BitVec.toInt_sdiv, toInt_widenInt, toInt_widenInt]

/-! ## Steps -/

theorem datum_widens {r : EvalResult Int32} {r' : Result} (h : WidensResult types r r')
    {v : Value Int32} (hv : asValue r = .ok v) : r'.datum = .ok (widen v) := by
  cases h with
  | value =>
    cases hv
    rfl
  | applied => cases hv

theorem integer_widens {v : Value Int32} {n : Int32} (h : asInt v = .ok n) :
    integer (widen v) = .ok (widenInt n) := by
  cases v with
  | int =>
    cases h
    rfl
  | ConstructedValue => cases h

variable (program) in
theorem arity_constructor {symbol : Symbol} {n : Nat} (h : constructorArity symbol types = .ok n) :
    symbol.kind = .Constructor ∧ arity program types symbol = some n := by
  unfold constructorArity at h
  by_cases hkind : symbol.kind = .Constructor
  · rw [if_neg (not_not_intro hkind)] at h
    refine ⟨hkind, ?_⟩
    unfold arity
    simp only [hkind]
    cases hsignature : types.getConstructorSignature symbol.id with
    | none =>
      rw [hsignature] at h
      cases h
    | some signature =>
      rw [hsignature] at h
      cases h
      rfl
  · rw [if_pos hkind] at h
    cases h

variable (program calls) in
/-- A constructor with as many arguments as the interpreter has applied it to. -/
theorem complete_widens {symbol : Symbol} {n : Nat} (h : constructorArity symbol types = .ok n)
    (arguments : List (Value Int32)) :
    ∃ r', complete program types calls symbol (arguments.map widen) = .ok r' ∧
      WidensResult types (if arguments.length = n then .Value (.ConstructedValue symbol.name
        arguments) else .PartialConstructor ⟨symbol.name, n, arguments⟩) r' := by
  obtain ⟨hkind, harity⟩ := arity_constructor program h
  unfold complete
  simp only [harity, List.length_map, hkind, if_true]
  by_cases hlen : arguments.length = n
  · rw [if_pos hlen, if_pos hlen, ← mapValues_eq]
    exact ⟨_, rfl, .value⟩
  · rw [if_neg hlen, if_neg hlen]
    exact ⟨_, rfl, .applied h⟩

variable (program calls) in
theorem apply_widens {f r : EvalResult Int32} {f' : Result} {v : Value Int32}
    (hf : WidensResult types f f') (h : applyPartial f v = .ok r) :
    ∃ r', apply program types calls f' (widen v) = .ok r' ∧ WidensResult types r r' := by
  cases hf with
  | value => cases h
  | @applied symbol n arguments harity =>
    have hcomplete := complete_widens program calls harity (arguments ++ [v])
    rw [List.map_append] at hcomplete
    unfold applyPartial at h
    by_cases hlen : (arguments ++ [v]).length = n
    · simp only [hlen, if_true] at h hcomplete
      cases h
      exact hcomplete
    · simp only [hlen, if_false] at h hcomplete
      cases h
      exact hcomplete

theorem variable_widens {id : NodeId} {name : String} {env : Environment Int32}
    {env' : Environment (BitVec 64)} {r : EvalResult Int32} (henv : Widens env env')
    (h : evaluateVariable t types id name env = .ok r) :
    ∃ r', evalVariable program t types calls id env' = .ok r' ∧ WidensResult types r r' := by
  unfold evaluateVariable at h
  unfold evalVariable
  cases hresolved : t.getResolvedSymbol id with
  | none =>
    rw [hresolved] at h
    cases h
  | some symbol =>
    rw [hresolved] at h
    simp only at h ⊢
    by_cases hkind : symbol.kind = .Constructor
    · rw [if_pos hkind] at h ⊢
      obtain ⟨n, harity, h⟩ := bind_eq_ok.mp h
      have hcomplete := complete_widens program calls harity []
      rw [List.length_nil] at hcomplete
      by_cases hn : n = 0
      · rw [if_pos hn] at h
        rw [if_pos hn.symm] at hcomplete
        cases h
        exact hcomplete
      · rw [if_neg hn] at h
        rw [if_neg (Ne.symm hn)] at hcomplete
        cases h
        exact hcomplete
    · rw [if_neg hkind] at h ⊢
      cases hv : env.find symbol.id with
      | none =>
        rw [hv] at h
        cases h
      | some v =>
        rw [hv] at h
        cases h
        rw [henv _ _ hv]
        exact ⟨_, rfl, .value⟩

/-! ## Patterns -/

theorem bindFields_widens {id : NodeId} {sid : ScopeId} (hid : t.getScopeId id = some sid)
    {names : List String} {fields : List (Value Int32)} {env env1 : Environment Int32}
    {env' : Environment (BitVec 64)} (henv : Widens env env')
    (hlen : fields.length = names.length)
    (h : bindFields t sid names fields env = .ok env1) :
    ∃ env1', bindNames t id names (fields.map widen) env' = .ok env1' ∧ Widens env1 env1' := by
  induction names generalizing fields env env' with
  | nil =>
    obtain rfl := List.length_eq_zero_iff.mp hlen
    cases h
    exact ⟨env', rfl, henv⟩
  | cons name names ih =>
    cases fields with
    | nil => cases hlen
    | cons field fields =>
      unfold bindFields at h
      cases hs : (t.getLocalSymbol sid name).filter (·.kind = .PatternVariable) with
      | none =>
        rw [hs] at h
        cases h
      | some s =>
        rw [hs] at h
        obtain ⟨env1', hbind, h1⟩ := ih (henv.insert s.id field) (Nat.succ.inj hlen) h
        refine ⟨env1', ?_, h1⟩
        unfold bindNames
        simp only [List.map_cons, hid, Option.bind_some, (Option.filter_eq_some_iff.mp hs).1]
        exact hbind

/-- What the interpreter matches, matches; what it does not, does not. -/
theorem matchValue_widens {pattern : Pattern} {v : Value Int32} {env : Environment Int32}
    {env' : Environment (BitVec 64)} {o : Option (Environment Int32)} (henv : Widens env env')
    (h : matchPattern t pattern v env = .ok o) :
    ∃ o', matchValue t pattern (widen v) env' = .ok o' ∧ Option.Rel Widens o o' := by
  cases pattern with
  | VariablePattern id name =>
    simp only [matchPattern, matchVariablePattern] at h
    simp only [matchValue, bindNames]
    cases hs : (t.getScopeId id).bind (t.getLocalSymbol · name) with
    | none =>
      simp only [hs] at h
      cases h
    | some s =>
      simp only [hs] at h ⊢
      by_cases hkind : s.kind = .PatternVariable
      · rw [if_neg (not_not_intro hkind)] at h
        cases h
        exact ⟨_, rfl, .some (henv.insert s.id v)⟩
      · rw [if_pos hkind] at h
        cases h
  | ConstructorPattern id name arguments =>
    simp only [matchPattern, matchConstructorPattern] at h
    simp only [matchValue]
    cases hs : (t.getResolvedSymbol id).filter (·.kind = .Constructor) with
    | none =>
      simp only [hs] at h
      cases h
    | some ctor =>
      simp only [hs] at h
      simp only [(Option.filter_eq_some_iff.mp hs).1]
      cases v with
      | int n =>
        cases h
        exact ⟨_, rfl, .none⟩
      | ConstructedValue vname fields =>
        simp only [mapValue, mapValues_eq, List.length_map] at h ⊢
        by_cases hname : vname = ctor.name
        · by_cases hlen : fields.length = arguments.length
          · rw [if_neg (not_not_intro hname), if_neg (not_not_intro hlen)] at h
            rw [if_pos ⟨hname, hlen⟩]
            by_cases hempty : fields.isEmpty = true
            · rw [if_pos hempty] at h
              cases h
              obtain rfl := List.isEmpty_iff.mp hempty
              obtain rfl := List.length_eq_zero_iff.mp hlen.symm
              exact ⟨_, rfl, .some henv⟩
            · rw [if_neg hempty] at h
              cases hid : t.getScopeId id with
              | none =>
                rw [hid] at h
                cases h
              | some sid =>
                simp only [hid, map_eq_pure_bind] at h
                obtain ⟨env1, hfields, h⟩ := bind_eq_ok.mp h
                cases h
                obtain ⟨env1', hbind, h1⟩ := bindFields_widens hid henv hlen hfields
                rw [hbind]
                exact ⟨_, rfl, .some h1⟩
          · rw [if_neg (not_not_intro hname), if_pos hlen] at h
            rw [if_neg fun hboth => hlen hboth.2]
            cases h
            exact ⟨_, rfl, .none⟩
        · rw [if_pos hname] at h
          rw [if_neg fun hboth => hname hboth.1]
          cases h
          exact ⟨_, rfl, .none⟩

/-! ## Expressions -/

section

variable (program t types calls)

/-- Where the interpreter returns a result, evaluation does. -/
def EvalWidens (e : Expression) : Prop :=
  ∀ env env' r, Widens env env' → evaluate t types e env = .ok r →
    ∃ r', eval program t types calls e env' = .ok r' ∧ WidensResult types r r'

end

theorem evalInt_widens {e : Expression} (h : EvalWidens program t types calls e)
    {env : Environment Int32} {env' : Environment (BitVec 64)} (henv : Widens env env')
    {r : EvalResult Int32} (hr : evaluate t types e env = .ok r) {v : Value Int32}
    (hv : asValue r = .ok v) :
    ∃ r', eval program t types calls e env' = .ok r' ∧ r'.datum = .ok (widen v) := by
  obtain ⟨r', heval, hwidens⟩ := h env env' r henv hr
  exact ⟨r', heval, datum_widens hwidens hv⟩

theorem operator_widens {kind : BinaryOperatorKind} {id : NodeId} {left right : Expression}
    (hl : EvalWidens program t types calls left) (hr : EvalWidens program t types calls right) :
    EvalWidens program t types calls (.BinaryOperator kind id left right) := by
  intro env env' r henv h
  simp only [evaluate] at h
  obtain ⟨rl, hleft, h⟩ := bind_eq_ok.mp h
  obtain ⟨vl, hvl, h⟩ := bind_eq_ok.mp h
  obtain ⟨a, ha, h⟩ := bind_eq_ok.mp h
  obtain ⟨rr, hright, h⟩ := bind_eq_ok.mp h
  obtain ⟨vr, hvr, h⟩ := bind_eq_ok.mp h
  obtain ⟨b, hb, h⟩ := bind_eq_ok.mp h
  obtain ⟨c, hc, h⟩ := bind_eq_ok.mp h
  cases h
  obtain ⟨rl', hleft', hdatum⟩ := evalInt_widens hl henv hleft hvl
  obtain ⟨rr', hright', hdatum'⟩ := evalInt_widens hr henv hright hvr
  refine ⟨_, ?_, .value⟩
  simp only [eval, hleft', hdatum, integer_widens ha, hright', hdatum', integer_widens hb,
    arithmetic_widenInt hc, ok_bind]
  rfl

theorem application_widens {id : NodeId} {f a : Expression}
    (hf : EvalWidens program t types calls f) (ha : EvalWidens program t types calls a) :
    EvalWidens program t types calls (.Application id f a) := by
  intro env env' r henv h
  simp only [evaluate] at h
  obtain ⟨rf, hfunction, h⟩ := bind_eq_ok.mp h
  obtain ⟨ra, hargument, h⟩ := bind_eq_ok.mp h
  obtain ⟨v, hv, h⟩ := bind_eq_ok.mp h
  obtain ⟨rf', hfunction', hwidens⟩ := hf env env' rf henv hfunction
  obtain ⟨ra', hargument', hdatum⟩ := evalInt_widens ha henv hargument hv
  obtain ⟨r', happly, hr⟩ := apply_widens program calls hwidens h
  refine ⟨r', ?_, hr⟩
  simp only [eval, hfunction', hargument', hdatum, ok_bind]
  exact happly

theorem branches_widens {branches : List Branch}
    (hb : ∀ b ∈ branches, EvalWidens program t types calls b.body) {v : Value Int32}
    {env : Environment Int32} {env' : Environment (BitVec 64)} {r : EvalResult Int32}
    (henv : Widens env env') (h : evaluateBranches t types branches v env = .ok r) :
    ∃ r', evalBranches program t types calls branches (widen v) env' = .ok r' ∧
      WidensResult types r r' := by
  induction branches with
  | nil => cases h
  | cons b branches ih =>
    obtain ⟨bid, pattern, body⟩ := b
    rw [List.forall_mem_cons] at hb
    simp only [evaluateBranches] at h
    obtain ⟨o, hmatch, h⟩ := bind_eq_ok.mp h
    obtain ⟨o', hmatch', hrel⟩ := matchValue_widens henv hmatch
    simp only [evalBranches, hmatch']
    cases hrel with
    | none => exact ih hb.2 h
    | some henv1 => exact hb.1 _ _ r henv1 h

/-- Evaluation returns what the interpreter returns, whatever calls do: the
interpreter has none. -/
theorem eval_widens (e : Expression) : EvalWidens program t types calls e := by
  induction e with
  | IntLiteral id value =>
    intro env env' r _ h
    cases h
    exact ⟨_, rfl, .value⟩
  | Variable id name => exact fun env env' r henv h => variable_widens henv h
  | BinaryOperator kind id left right ihl ihr => exact operator_widens ihl ihr
  | Application id f a ihf iha => exact application_widens ihf iha
  | CaseExpression id scrutinee branches ihs ihb =>
    intro env env' r henv h
    simp only [evaluate] at h
    obtain ⟨rs, hscrutinee, h⟩ := bind_eq_ok.mp h
    obtain ⟨v, hv, h⟩ := bind_eq_ok.mp h
    obtain ⟨rs', hscrutinee', hdatum⟩ := evalInt_widens ihs henv hscrutinee hv
    obtain ⟨r', hbranches, hr⟩ := branches_widens ihb henv h
    refine ⟨r', ?_, hr⟩
    simp only [eval, hscrutinee', hdatum, ok_bind]
    exact hbranches

end mf.evaluation
