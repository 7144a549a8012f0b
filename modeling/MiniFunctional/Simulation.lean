-- The meaning of the generated code follows evaluation: the locals represent
-- the environment, and what the code returns represents the value.
import MiniFunctional.ArgumentCounts
import MiniFunctional.CaseLowering
import MiniFunctional.Follows
import MiniFunctional.Representation

open mf.util mf.ast mf.tokenization mf.evaluation llvm
open mf.semantics hiding Frame

namespace mf.visitors

open ScopeTree ExceptLaws

variable {t : ScopeTree} {program : Program} {types : TypeTable} {τ : Typing}
  {functions_ : AssocMap SymbolId Nat} {constructors_ : AssocMap SymbolId ConstructorLayout}
  {m m' : Memory} {output : String}

/-- The fault that the generated code traps at. -/
abbrev Trapped (fault : Fault) : Prop := fault = .NoMatchingBranch

section

variable (t program constructors_)

/-- The value has the type, and `w` represents it. -/
structure Yields (T : TypeVariant) (v : Datum) (w : Val) (m : Memory) : Prop where
  typed : ValueHasType t program v T
  represents : Represents t constructors_ m v w

/-- The symbols of `locals` have values of their types, and cells that represent them. -/
structure Environs (τ : Typing) (m : Memory) (locals : List SymbolId)
    (env : Environment (BitVec 64)) (cells : Cells) : Prop where
  typed : EnvHasTypes t program τ locals env
  represented : ∀ s ∈ locals, ∀ v, env.find s = some v →
    ∃ cell, cells s = some cell ∧ Represents t constructors_ m v cell.value

end

theorem Yields.mono {T : TypeVariant} {v : Datum} {w : Val}
    (h : Yields t program constructors_ T v w m) (hm : m <+: m') :
    Yields t program constructors_ T v w m' :=
  ⟨h.typed, h.represents.mono hm⟩

/-! ## Environments -/

section

variable {locals locals' : List SymbolId} {env : Environment (BitVec 64)} {cells : Cells}

theorem Environs.later (h : Environs t program constructors_ τ m locals env cells)
    (hm : m <+: m') : Environs t program constructors_ τ m' locals env cells := by
  refine ⟨h.typed, fun s hs v hv => ?_⟩
  obtain ⟨cell, hcell, hrep⟩ := h.represented s hs v hv
  exact ⟨cell, hcell, hrep.mono hm⟩

theorem Environs.mono (h : Environs t program constructors_ τ m locals env cells)
    (hsub : ∀ s ∈ locals', s ∈ locals) : Environs t program constructors_ τ m locals' env cells :=
  ⟨h.typed.mono hsub, fun s hs => h.represented s (hsub s hs)⟩

theorem Environs.insert (h : Environs t program constructors_ τ m locals env cells) {s : SymbolId}
    {v : Datum} (cell : Cell) (hv : Yields t program constructors_ (τ s) v cell.value m) :
    Environs t program constructors_ τ m (s :: locals) (env.insert s v) (cells.insert s cell) := by
  refine ⟨h.typed.insert hv.typed, fun s' hs' v' hv' => ?_⟩
  rw [AssocMap.find_insert] at hv'
  unfold Cells.insert
  by_cases heq : s' = s
  · rw [if_pos heq] at hv' ⊢
    cases hv'
    exact ⟨cell, rfl, hv.represents⟩
  · rw [if_neg heq] at hv' ⊢
    exact h.represented s' ((List.mem_cons.mp hs').resolve_left heq) v' hv'

theorem environs_empty (m : Memory) (cells : Cells) :
    Environs t program constructors_ τ m [] .empty cells :=
  ⟨envHasTypes_empty t program τ, fun s hs => absurd hs (by simp)⟩

/-! ## Patterns -/

/-- The symbols of a pattern's variables. -/
abbrev NamesTyped (t : ScopeTree) (τ : Typing) (sid : ScopeId) (names : List String)
    (Ts : List TypeVariant) : Prop :=
  List.Forall₂ (fun name T => ∃ s, t.getLocalSymbol sid name = some s ∧ τ s.id = T) names Ts

theorem follows_variablePattern {id : NodeId} {name : String} {S : TypeVariant}
    (hp : t.PatternScoped (.VariablePattern id name))
    (hS : PatternHasType t program τ S (.VariablePattern id name)) {v : Datum} {scrutinee : Cell}
    (hv : Yields t program constructors_ S v scrutinee.value m)
    (h : Environs t program constructors_ τ m locals env cells) :
    ∃ env' cells', matchValue t (.VariablePattern id name) v env = .ok (some env') ∧
      Meaning.variablePattern t id name scrutinee cells = some cells' ∧
      Environs t program constructors_ τ m (t.patternSymbols (.VariablePattern id name) ++ locals)
        env' cells' := by
  obtain ⟨⟨sid, hsid, hnames⟩, -⟩ := hp
  obtain ⟨sid', s, hsid', hs, rfl⟩ := hS
  have hid : t.getScopeId id = some sid := hsid
  rw [hid] at hsid'
  cases hsid'
  obtain ⟨s', hs', hkind⟩ := hnames name List.mem_cons_self
  rw [hs] at hs'
  cases hs'
  have hsymbols : t.patternSymbols (.VariablePattern id name) = [s.id] := by
    simp [ScopeTree.patternSymbols, Pattern.id, Pattern.names, ScopeTree.symbolsIn, hid, hs]
  have hsymbol : getSymbolInNodeScope t id name .PatternVariable = some s := by
    unfold getSymbolInNodeScope
    rw [hid, Option.bind_some, hs]
    simp [Option.filter, hkind]
  refine ⟨env.insert s.id v, cells.insert s.id scrutinee, ?_, ?_, ?_⟩
  · unfold matchValue bindNames
    simp only [hid, Option.bind_some, hs]
    rfl
  · unfold Meaning.variablePattern
    rw [hsymbol]
    rfl
  · rw [hsymbols]
    exact h.insert scrutinee hv

theorem follows_patternFields (output : String) {id : NodeId} {sid : ScopeId}
    (hid : t.getScopeId id = some sid)
    {names : List String} {Ts : List TypeVariant}
    (hkinds : ∀ name ∈ names, ∃ s, t.getLocalSymbol sid name = some s ∧ s.kind = .PatternVariable)
    (hTs : NamesTyped t τ sid names Ts) {b : Nat} {tag arity pointer : Val}
    (done : List Val) {values : List Val} {fields : List Datum}
    (hb : m[b]? = some [tag, arity, pointer])
    (hpointer : FieldsAt m pointer ((done ++ values).map pack))
    (hfields : List.Forall₂ (Represents t constructors_ m) fields values)
    (htyped : List.Forall₂ (ValueHasType t program) fields Ts)
    (hlt : done.length + values.length < 0x8000000000000000)
    (h : Environs t program constructors_ τ m locals env cells) :
    Follows Trapped (bindNames t id names fields env)
      (Meaning.patternFields t sid (.ptr ⟨b, 0⟩) done.length names Ts cells) m output
      fun env' cells' m' => Environs t program constructors_ τ m' (t.symbolsIn sid names ++ locals)
        env' cells' := by
  induction hTs generalizing done values fields locals env cells with
  | nil =>
    cases htyped
    exact .pure h
  | @cons name T names Ts hT _ ih =>
    rcases htyped with _ | ⟨hv, htyped⟩
    rcases hfields with _ | ⟨hw, hfields⟩
    rename_i v fields w values
    obtain ⟨s, hs, hkind⟩ := hkinds name List.mem_cons_self
    obtain ⟨s', hs', rfl⟩ := hT
    rw [hs] at hs'
    cases hs'
    have hfilter : (t.getLocalSymbol sid name).filter (·.kind = .PatternVariable) = some s := by
      rw [hs]
      simp [Option.filter, hkind]
    have hfield : (done ++ w :: values)[done.length]? = some w := by simp
    rw [List.length_cons] at hlt
    have hload := loadField_run output hb hpointer hfield (hw.packs hv) (by omega)
    have hbind : bindNames t id (name :: names) (v :: fields) env =
        bindNames t id names fields (env.insert s.id v) := by
      simp only [bindNames, hid, Option.bind_some, hs]
    rw [hbind]
    simp only [Meaning.patternFields, hfilter]
    rw [List.append_cons] at hpointer
    have hlen : (done ++ [w]).length = done.length + 1 := by simp
    have hrest := ih (fun name hname => hkinds name (List.mem_cons_of_mem _ hname))
      (done ++ [w]) hpointer hfields htyped (by rw [hlen]; omega)
      (h.insert ⟨w, false⟩ ⟨hv, hw⟩)
    rw [hlen] at hrest
    refine Follows.later hload List.prefix_rfl rfl ?_
    refine hrest.mono fun env' cells' m' _ h' => h'.mono ?_
    intro x hx
    simp only [ScopeTree.symbolsIn, List.filterMap_cons, hs, Option.map_some, List.cons_append,
      List.mem_cons, List.mem_append] at hx ⊢
    tauto

end

theorem bindNames_total {id : NodeId} {sid : ScopeId} (hid : t.getScopeId id = some sid)
    {names : List String} {Ts : List TypeVariant} (hTs : NamesTyped t τ sid names Ts)
    {vs : List Datum} (hvs : List.Forall₂ (ValueHasType t program) vs Ts)
    (env : Environment (BitVec 64)) : ∃ env', bindNames t id names vs env = .ok env' := by
  induction hTs generalizing vs env with
  | nil =>
    cases hvs
    exact ⟨env, rfl⟩
  | cons hT _ ih =>
    rcases hvs with _ | ⟨_, hvs⟩
    obtain ⟨s, hs, _⟩ := hT
    unfold bindNames
    simp only [hid, Option.bind_some, hs]
    exact ih hvs _

/-! ## Tags -/

/-- A node of a data type, and what it has in the heap. -/
structure NodeOf (t : ScopeTree) (program : Program)
    (constructors_ : AssocMap SymbolId ConstructorLayout) (m : Memory) (d : SymbolId) (v : Datum)
    (w : Val) (ctor : Symbol) (layout : ConstructorLayout) (b : Nat) (arity pointer : Val)
    (fields : List Datum) (values : List Val) : Prop where
  datum : v = .ConstructedValue ctor.name fields
  value : w = .ptr ⟨b, 0⟩
  named : t.getLocalSymbol getRootScopeId ctor.name = some ctor
  laidOut : constructors_.find ctor.id = some layout
  node : m[b]? = some [.int (BitVec.ofNat 64 layout.tag), arity, pointer]
  fieldsAt : FieldsAt m pointer (values.map pack)
  represents : List.Forall₂ (Represents t constructors_ m) fields values
  typed : ∃ signature, Declares t program ctor.id signature ∧ signature.data_type = d ∧
    List.Forall₂ (ValueHasType t program) fields signature.fields

theorem Yields.node (hscoped : t.ProgramScoped program) {d : SymbolId} {v : Datum} {w : Val}
    (h : Yields t program constructors_ (dataType d) v w m) :
    ∃ ctor layout b arity pointer fields values,
      NodeOf t program constructors_ m d v w ctor layout b arity pointer fields values := by
  obtain ⟨name, fields, ctor, signature, rfl, hctor, hdeclares, hd, htyped⟩ := h.typed.isConstructed
  obtain rfl := (hscoped.named _ _ _ hctor).2
  have hw := h.represents
  rcases hw with _ | ⟨hctor', hlayout, hb, hpointer, hlen, hfields⟩
  rw [hctor] at hctor'
  cases hctor'
  refine ⟨ctor, _, _, _, _, fields, _, rfl, rfl, hctor, hlayout, hb, hpointer, ?_, signature,
    hdeclares, hd, htyped⟩
  rw [List.forall₂_iff_get]
  exact ⟨hlen.symm, fun i hf hv => hfields i hf hv⟩

/-! ## Expressions -/

variable {M : Module} {calls : Symbol → List Datum → Evaluated Datum}
  {locals : List SymbolId} {env : Environment (BitVec 64)} {cells : Cells}

section

variable (M t program types τ functions_ constructors_ calls)

/-- Calls by the code follow those of evaluation. -/
def CallsFollow : Prop :=
  ∀ name s n signature, t.getLocalSymbol getRootScopeId name = some s → s.kind = .Function →
    functions_.find s.id = some n → types.getFunctionSignature s.id = some signature →
    ∀ (m : Memory) (output : String) vs ws,
      List.Forall₂ (ValueHasType t program) vs signature.parameters →
      List.Forall₂ (Represents t constructors_ m) vs ws →
      Follows Trapped (calls s vs) (callBehaviour M n ws) m output
        (Yields t program constructors_ signature.result)

/-- The value of the expression. -/
def evalDatum (e : Expression) (env : Environment (BitVec 64)) : Evaluated Datum :=
  eval program t types calls e env >>= Result.datum

/-- What the code of the expression does. -/
noncomputable abbrev codeOf (e : Expression) (cells : Cells) : Behaviour Cell :=
  Meaning.expression (callBehaviour M) t functions_ constructors_ e cells

/-- The code of the expression follows its evaluation, wherever it stands. -/
def Simulated (e : Expression) : Prop :=
  ∀ locals env cells T (m : Memory) (output : String), t.WellScoped e locals →
    HasType t program τ e T → compilable t types e = true → fits e →
    Environs t program constructors_ τ m locals env cells →
    Follows Trapped (evalDatum t program types calls e env)
      (codeOf t functions_ constructors_ M e cells) m output
      fun v cell => Yields t program constructors_ T v cell.value

end

/-! ### Operators -/

theorem apply_arithmetic {kind : BinaryOperatorKind} {a b c : BitVec 64}
    (h : arithmetic kind a b = .ok c) : (opcode kind).apply a b = some c := by
  cases kind with
  | Division =>
    unfold arithmetic at h
    unfold opcode BinaryOp.apply
    simp only at h ⊢
    by_cases hb : b = 0
    · rw [if_pos hb] at h
      cases h
    · by_cases ha : a = BitVec.intMin 64 ∧ b = -1
      · rw [if_neg hb, if_pos ha] at h
        cases h
      · rw [if_neg hb, if_neg ha] at h
        rw [if_neg (not_or.mpr ⟨hb, ha⟩)]
        cases h
        rfl
  | _ =>
    cases h
    rfl

theorem arithmetic_fault {kind : BinaryOperatorKind} {a b : BitVec 64} {fault : Fault}
    (h : arithmetic kind a b = .error fault) : ¬ Trapped fault := by
  cases kind with
  | Division =>
    unfold arithmetic at h
    simp only at h
    by_cases hb : b = 0
    · rw [if_pos hb] at h
      cases h
      simp [Trapped]
    · by_cases ha : a = BitVec.intMin 64 ∧ b = -1
      · rw [if_neg hb, if_pos ha] at h
        cases h
        simp [Trapped]
      · rw [if_neg hb, if_neg ha] at h
        cases h
  | _ => cases h

/-- The builder and the instruction compute what evaluation does. -/
theorem follows_binaryOperator (kind : BinaryOperatorKind) {left right : Cell} {a b : BitVec 64}
    (hl : left.value = .int a) (hr : right.value = .int b) :
    Follows Trapped (arithmetic kind a b >>= fun c => Except.ok (Value.int c))
      (Meaning.binaryOperator (opcode kind) left right) m output
      fun v cell => Yields t program constructors_ intType v cell.value := by
  refine Follows.silent (fun fault h => arithmetic_fault h) fun c hc => ?_
  have happly := apply_arithmetic hc
  have hint : Yields t program constructors_ intType (.int c) (.int c) m := ⟨.int, .int⟩
  unfold Meaning.binaryOperator
  rw [hl, hr]
  by_cases hconstant : (left.constant && right.constant) = true
  · simp only [hconstant, if_true, happly, Option.elim_some]
    exact .pure hint
  · simp only [hconstant, if_false, Bool.false_eq_true]
    unfold Behaviour.binary BinaryOp.applyVal
    simp only [happly, Option.map_some]
    exact .pure hint

theorem evalDatum_operator (kind : BinaryOperatorKind) (id : NodeId) (l r : Expression)
    (env : Environment (BitVec 64)) :
    evalDatum t program types calls (.BinaryOperator kind id l r) env =
      evalDatum t program types calls l env >>= fun x => integer x >>= fun left =>
      evalDatum t program types calls r env >>= fun y => integer y >>= fun right =>
      arithmetic kind left right >>= fun c => Except.ok (Value.int c) := by
  simp only [evalDatum, eval, bind_assoc]
  rfl

theorem simulated_operator {kind : BinaryOperatorKind} {id : NodeId} {l r : Expression}
    (ihl : Simulated t program types τ functions_ constructors_ M calls l)
    (ihr : Simulated t program types τ functions_ constructors_ M calls r) :
    Simulated t program types τ functions_ constructors_ M calls (.BinaryOperator kind id l r) := by
  intro locals env cells T m output hs hT hc hf h
  rcases hT with _ | _ | ⟨hTl, hTr⟩
  simp only [compilable, Bool.and_eq_true] at hc
  rw [evalDatum_operator]
  unfold codeOf
  simp only [Meaning.expression]
  refine Follows.bind (ihl locals env cells _ m output hs.1 hTl hc.1 hf.1 h)
    fun x left m1 hm1 hx => ?_
  obtain ⟨a, rfl⟩ := hx.typed.isInt
  have hleft : left.value = .int a := by
    have hrep := hx.represents
    generalize left.value = w at hrep
    cases hrep
    rfl
  rw [show integer (Value.int a) = .ok a from rfl, ok_bind]
  refine Follows.bind (ihr locals env cells _ m1 output hs.2 hTr hc.2 hf.2 (h.later hm1))
    fun y right m2 hm2 hy => ?_
  obtain ⟨b, rfl⟩ := hy.typed.isInt
  have hright : right.value = .int b := by
    have hrep := hy.represents
    generalize right.value = w at hrep
    cases hrep
    rfl
  exact follows_binaryOperator kind hleft hright

/-! ### Arguments -/

/-- All values, from the left. -/
def evalAll : List (Evaluated Datum) → Evaluated (List Datum)
  | [] => .ok []
  | x :: xs => x >>= fun v => evalAll xs >>= fun vs => .ok (v :: vs)

/-- The values have the types, and `ws` represents them. -/
structure YieldsAll (t : ScopeTree) (program : Program)
    (constructors_ : AssocMap SymbolId ConstructorLayout) (Ts : List TypeVariant)
    (vs : List Datum) (ws : List Val) (m : Memory) : Prop where
  typed : List.Forall₂ (ValueHasType t program) vs Ts
  represents : List.Forall₂ (Represents t constructors_ m) vs ws

theorem simulated_arguments (output : String) {arguments : List Expression} {Ps : List TypeVariant}
    (ih : ∀ a ∈ arguments, Simulated t program types τ functions_ constructors_ M calls a)
    (hs : ∀ a ∈ arguments, t.WellScoped a locals)
    (hT : List.Forall₂ (HasType t program τ) arguments Ps)
    (hc : arguments.all (compilable t types) = true) (hf : ∀ a ∈ arguments, fits a)
    (h : Environs t program constructors_ τ m locals env cells) :
    Follows Trapped (evalAll (arguments.map (evalDatum t program types calls · env)))
      (Meaning.evaluateArguments (arguments.map (codeOf t functions_ constructors_ M · cells)))
      m output (YieldsAll t program constructors_ Ps) := by
  induction hT generalizing m with
  | nil => exact .pure ⟨.nil, .nil⟩
  | @cons a P arguments Ps hTa _ ihrest =>
    rw [List.forall_mem_cons] at ih hs hf
    rw [List.all_cons, Bool.and_eq_true] at hc
    simp only [List.map_cons, evalAll, Meaning.evaluateArguments]
    refine Follows.bind (ih.1 locals env cells P m output hs.1 hTa hc.1 hf.1 h)
      fun v cell m1 hm1 hv => ?_
    refine Follows.bind (ihrest ih.2 hs.2 hc.2 hf.2 (h.later hm1)) fun vs ws m2 hm2 hvs => ?_
    exact .pure ⟨.cons hv.typed hvs.typed, .cons (hv.represents.mono hm2) hvs.represents⟩

/-! ### Applications -/

section

variable (program types calls)

/-- The application of a result to arguments that have still to be evaluated. -/
def applyAll : Result → List (Evaluated Datum) → Evaluated Result
  | r, [] => .ok r
  | r, x :: xs => x >>= fun v => apply program types calls r v >>= fun r => applyAll r xs

end

/-- With its last argument, what lacked arguments is complete. -/
theorem applyAll_complete {symbol : Symbol} {done : List Datum} {xs : List (Evaluated Datum)}
    (hxs : xs ≠ []) (harity : arity program types symbol = some (done.length + xs.length)) :
    applyAll program types calls (.applied symbol done) xs =
      evalAll xs >>= fun vs => complete program types calls symbol (done ++ vs) := by
  induction xs generalizing done with
  | nil => exact absurd rfl hxs
  | cons x xs ih =>
    simp only [applyAll, evalAll, bind_assoc, apply]
    cases x with
    | error e => rfl
    | ok v =>
      simp only [ok_bind]
      cases xs with
      | nil =>
        simp only [applyAll, evalAll, ok_bind]
        exact bind_pure _
      | cons y ys =>
        have hlen : (done ++ [v]).length = done.length + 1 := by simp
        have hlack : complete program types calls symbol (done ++ [v]) =
            .ok (.applied symbol (done ++ [v])) := by
          unfold complete
          simp only [harity, hlen, List.length_cons]
          rw [if_neg (by omega)]
        rw [hlack, ok_bind, ih (by simp) (by rw [harity, hlen, List.length_cons]; congr 1; omega)]
        simp

section

variable (t program types τ functions_ constructors_ M calls)

/-- The code of the application of the expression to arguments follows its evaluation. -/
def SimulatedCallee (e : Expression) : Prop :=
  ∀ (arguments : List Expression) (Ps : List TypeVariant) locals env cells T (m : Memory)
    (output : String), arguments ≠ [] →
    (∀ a ∈ arguments, Simulated t program types τ functions_ constructors_ M calls a) →
    t.WellScoped e locals → (∀ a ∈ arguments, t.WellScoped a locals) →
    HasType t program τ e (functionTypes Ps T) → List.Forall₂ (HasType t program τ) arguments Ps →
    compilableCallee t types e arguments.length = true →
    arguments.all (compilable t types) = true → fitsCallee e arguments.length →
    (∀ a ∈ arguments, fits a) → Environs t program constructors_ τ m locals env cells →
    Follows Trapped
      (eval program t types calls e env >>= fun r =>
        applyAll program types calls r (arguments.map (evalDatum t program types calls · env)) >>=
          Result.datum)
      (Meaning.application (callBehaviour M) t functions_ constructors_ e
        (arguments.map (codeOf t functions_ constructors_ M · cells)) cells) m output
      fun v cell => Yields t program constructors_ T v cell.value

end

theorem eval_application (id : NodeId) (f a : Expression) (env : Environment (BitVec 64))
    (xs : List (Evaluated Datum)) :
    (eval program t types calls (.Application id f a) env >>= fun r =>
      applyAll program types calls r xs >>= Result.datum) =
      eval program t types calls f env >>= fun r =>
        applyAll program types calls r (evalDatum t program types calls a env :: xs) >>=
          Result.datum := by
  simp only [eval, applyAll, evalDatum, bind_assoc]

theorem evalDatum_application (id : NodeId) (f a : Expression) (env : Environment (BitVec 64)) :
    evalDatum t program types calls (.Application id f a) env =
      eval program t types calls f env >>= fun r =>
        applyAll program types calls r [evalDatum t program types calls a env] >>=
          Result.datum := by
  rw [← eval_application id]
  rfl

theorem simulatedCallee_application {id : NodeId} {f a : Expression}
    (ihf : SimulatedCallee t program types τ functions_ constructors_ M calls f)
    (iha : Simulated t program types τ functions_ constructors_ M calls a) :
    SimulatedCallee t program types τ functions_ constructors_ M calls (.Application id f a) := by
  intro arguments Ps locals env cells T m output _ ih hs hsargs hT hTargs hc hcargs hf hfargs h
  rcases hT with _ | _ | _ | @⟨_, _, _, P, _, hTf, hTa⟩
  simp only [compilableCallee, Bool.and_eq_true] at hc
  have hcall := ihf (a :: arguments) (P :: Ps) locals env cells T m output (by simp)
    (List.forall_mem_cons.mpr ⟨iha, ih⟩) hs.1 (List.forall_mem_cons.mpr ⟨hs.2, hsargs⟩) hTf
    (.cons hTa hTargs) hc.1 (by rw [List.all_cons, hc.2, hcargs]; rfl) hf.1
    (List.forall_mem_cons.mpr ⟨hf.2, hfargs⟩) h
  rw [eval_application]
  exact hcall

theorem simulated_application {id : NodeId} {f a : Expression}
    (ihf : SimulatedCallee t program types τ functions_ constructors_ M calls f)
    (iha : Simulated t program types τ functions_ constructors_ M calls a) :
    Simulated t program types τ functions_ constructors_ M calls (.Application id f a) := by
  intro locals env cells T m output hs hT hc hf h
  rcases hT with _ | _ | _ | @⟨_, _, _, P, _, hTf, hTa⟩
  simp only [compilable, Bool.and_eq_true] at hc
  have hcall := ihf [a] [P] locals env cells T m output (by simp) (by simpa using iha) hs.1
    (by simpa using hs.2) hTf (.cons hTa .nil) hc.1 (by simpa using hc.2) hf.1
    (by simpa using hf.2) h
  rw [evalDatum_application]
  exact hcall

/-! ### Names -/

/-- What is no value yet, evaluates its arguments and is complete. -/
theorem eval_lacking {s : Symbol} {id : NodeId} (name : String)
    (hresolved : t.getResolvedSymbol id = some s)
    (hcases : s.kind = .Constructor ∨ env.find s.id = none) {xs : List (Evaluated Datum)}
    (hxs : xs ≠ []) (harity : arity program types s = some xs.length) :
    (eval program t types calls (.Variable id name) env >>= fun r =>
      applyAll program types calls r xs >>= Result.datum) =
      evalAll xs >>= fun vs => complete program types calls s vs >>= Result.datum := by
  have hpos : xs.length ≠ 0 := fun hzero => hxs (List.length_eq_zero_iff.mp hzero)
  have hlack : complete program types calls s [] = .ok (.applied s []) := by
    unfold complete
    simp only [harity, List.length_nil]
    rw [if_neg (Ne.symm hpos)]
  have hvariable : eval program t types calls (.Variable id name) env = .ok (.applied s []) := by
    simp only [eval, evalVariable, hresolved]
    by_cases hkind : s.kind = .Constructor
    · rw [if_pos hkind, hlack]
    · rw [if_neg hkind, hcases.resolve_left hkind]
      exact hlack
  rw [hvariable, ok_bind, applyAll_complete hxs (by simpa using harity), bind_assoc]
  rfl

/-- A constructor with all its arguments. -/
theorem follows_constructed {s : Symbol} {layout : ConstructorLayout}
    (hs : t.getLocalSymbol getRootScopeId s.name = some s) (hkind : s.kind = .Constructor)
    (hlayout : constructors_.find s.id = some layout)
    (hfacts : ConstructorFacts t types program τ s.id layout) {vs : List Datum} {ws : List Val}
    (hvs : YieldsAll t program constructors_ layout.fields vs ws m)
    (hlen : vs.length ≤ maxPointers) :
    Follows Trapped (complete program types calls s vs >>= Result.datum)
      (Meaning.constructedValue layout ws >>= fun node => pure ⟨node, false⟩) m output
      fun v (cell : Cell) => Yields t program constructors_ (dataType layout.data_type) v
        cell.value := by
  have harity : arity program types s = some vs.length := by
    unfold arity
    simp only [hkind, hfacts.found, Option.map_some, hvs.typed.length_eq]
  have hcomplete : complete program types calls s vs >>= Result.datum =
      .ok (.ConstructedValue s.name vs) := by
    unfold complete
    simp only [harity, hkind, if_true]
    rfl
  have hpacks : List.Forall₂ Packs ws layout.fields := by
    rw [List.forall₂_iff_get]
    refine ⟨hvs.represents.length_eq.symm.trans hvs.typed.length_eq, fun i hw hT => ?_⟩
    have hv : i < vs.length := by rw [hvs.represents.length_eq]; exact hw
    exact (hvs.represents.get hv hw).packs (hvs.typed.get hv hT)
  have hbound : ws.length < 0x2000000000000000 := by
    rw [← hvs.represents.length_eq]
    exact Nat.lt_of_le_of_lt hlen (by decide)
  obtain ⟨pointer, m1, hrun, hm, hnode, hfields⟩ :=
    constructedValue_run m output layout hpacks hbound
  rw [← hvs.represents.length_eq] at hnode
  rw [hcomplete]
  refine .later hrun hm rfl (.pure ⟨?_, ?_⟩)
  · exact .ConstructedValue hs hfacts.declares hvs.typed
  · refine .node hs hlayout hnode hfields hvs.represents.length_eq.symm fun i hv hw => ?_
    exact (hvs.represents.get hv hw).mono hm

section

variable (h : Checked t program types τ) (hlayouts : Layouts t types program constructors_)

include h

include hlayouts in
theorem simulated_variable (id : NodeId) (name : String) :
    Simulated t program types τ functions_ constructors_ M calls (.Variable id name) := by
  intro locals env cells T m output hs hT hc _ henv
  obtain ⟨s, hresolved, hname, hkinds⟩ := hs
  rcases hT with _ | @⟨_, _, s', hresolved'⟩
  rw [hresolved] at hresolved'
  cases hresolved'
  unfold evalDatum codeOf
  simp only [eval, Meaning.expression, evalVariable, Meaning.localOrConstructor, hresolved]
  simp only [compilable, namesValue, saturates, hresolved] at hc
  rcases hkinds with ⟨hkind | hkind, hlocal⟩ | ⟨hkind, hmem⟩
  · rw [← hname] at hlocal
    obtain ⟨layout, hlayout, hfacts⟩ := constructor_facts h hlayouts hlocal hkind
    simp only [hkind, hfacts.found, Option.any_some, decide_eq_true_eq] at hc
    have hnil := List.length_eq_zero_iff.mp hc
    simp only [hkind, if_true, Meaning.constructorCall, hlayout]
    rw [hfacts.type, hnil]
    exact follows_constructed hlocal hkind hlayout hfacts (by rw [hnil]; exact ⟨.nil, .nil⟩)
      (Nat.zero_le _)
  · rw [hkind] at hc
    cases hc
  · obtain ⟨v, hv⟩ := henv.typed.bound s.id hmem
    obtain ⟨cell, hcell, hrep⟩ := henv.represented s.id hmem v hv
    have htyped := henv.typed.typed s.id v hv
    rcases hkind with hkind | hkind
    all_goals
      simp only [hkind, hv, hcell, reduceCtorEq, if_false]
      exact .pure ⟨htyped, hrep⟩

/-- A function takes as many arguments as its signature says. -/
theorem arity_function {s : Symbol} (hs : t.getLocalSymbol getRootScopeId s.name = some s)
    (hkind : s.kind = .Function) {signature : FunctionSignature}
    (hsignature : types.getFunctionSignature s.id = some signature) :
    arity program types s = some signature.parameters.length := by
  obtain ⟨fd, hfd, hname, hdeclaration⟩ := function_declared h.scopes hs hkind
  obtain ⟨s', signature', hs', hsignature', _, ⟨_, _, hparameters⟩, _⟩ := h.functions fd hfd
  rw [hname, hs] at hs'
  cases hs'
  rw [hsignature] at hsignature'
  cases hsignature'
  unfold arity
  simp only [hkind, hdeclaration, findFunctionById_eq h.ids hfd, Option.map_some,
    hparameters.length_eq]

section

variable (t program types τ constructors_)

/-- What a name with all its arguments may be: their types and that of the value. -/
inductive Saturated (s : Symbol) : List TypeVariant → TypeVariant → Prop
  | constructor {layout : ConstructorLayout} : s.kind = .Constructor →
    t.getLocalSymbol getRootScopeId s.name = some s → constructors_.find s.id = some layout →
    ConstructorFacts t types program τ s.id layout →
    Saturated s layout.fields (dataType layout.data_type)
  | function {signature : FunctionSignature} : s.kind = .Function →
    t.getLocalSymbol getRootScopeId s.name = some s → FunctionFacts types τ s.id signature →
    arity program types s = some signature.parameters.length →
    Saturated s signature.parameters signature.result

end

include hlayouts in
/-- A name that is applied to all its arguments evaluates them and is complete. -/
theorem saturated_callee {id : NodeId} {name : String}
    (hs : t.WellScoped (.Variable id name) locals) {Ps : List TypeVariant} {T : TypeVariant}
    (hT : HasType t program τ (.Variable id name) (functionTypes Ps T))
    {xs : List (Evaluated Datum)} (hne : xs ≠ []) (hlength : xs.length = Ps.length)
    (hc : compilableCallee t types (.Variable id name) xs.length = true)
    (henv : EnvHasTypes t program τ locals env) :
    ∃ s, t.getResolvedSymbol id = some s ∧ Saturated t program types τ constructors_ s Ps T ∧
      (eval program t types calls (.Variable id name) env >>= fun r =>
        applyAll program types calls r xs >>= Result.datum) =
        evalAll xs >>= fun vs => complete program types calls s vs >>= Result.datum := by
  obtain ⟨s, hresolved, hname, hkinds⟩ := hs
  generalize hS : functionTypes Ps T = S at hT
  rcases hT with _ | @⟨_, _, s', hresolved'⟩
  rw [hresolved] at hresolved'
  cases hresolved'
  simp only [compilableCallee, saturates, hresolved] at hc
  rcases hkinds with ⟨hkind | hkind, hlocal⟩ | ⟨hkind, hmem⟩
  · rw [← hname] at hlocal
    obtain ⟨layout, hlayout, hfacts⟩ := constructor_facts h hlayouts hlocal hkind
    simp only [hkind, hfacts.found, Option.any_some, decide_eq_true_eq] at hc
    obtain ⟨rfl, rfl⟩ := functionTypes_inj (hc.trans hlength) (hfacts.type.symm.trans hS.symm)
    have harity : arity program types s = some xs.length := by
      unfold arity
      simp only [hkind, hfacts.found, Option.map_some, hc]
    exact ⟨s, hresolved, .constructor hkind hlocal hlayout hfacts,
      eval_lacking name hresolved (.inl hkind) hne harity⟩
  · rw [← hname] at hlocal
    obtain ⟨signature, hfacts⟩ := function_facts h hlocal hkind
    simp only [hkind, hfacts.found, Option.any_some, decide_eq_true_eq] at hc
    obtain ⟨rfl, rfl⟩ := functionTypes_inj (hc.trans hlength) (hfacts.type.symm.trans hS.symm)
    have harity := arity_function h hlocal hkind hfacts.found
    -- the environment has values only, and a function is none
    have hnone : env.find s.id = none := by
      cases hv : env.find s.id with
      | none => rfl
      | some v =>
        have hground := (henv.typed s.id v hv).ground
        rw [hfacts.type] at hground
        cases hparameters : signature.parameters with
        | nil =>
          rw [hparameters] at hlength
          exact absurd (List.length_eq_zero_iff.mp hlength) hne
        | cons P Ps =>
          simp [hparameters, functionTypes, functionType, containsFunctionType] at hground
    refine ⟨s, hresolved, .function hkind hlocal hfacts harity, ?_⟩
    rw [hc] at harity
    exact eval_lacking name hresolved (.inr hnone) hne harity
  · rcases hkind with hkind | hkind
    all_goals
      rw [hkind] at hc
      cases hc

omit h in
theorem complete_call {s : Symbol} (hkind : s.kind = .Function) {vs : List Datum}
    (harity : arity program types s = some vs.length) :
    complete program types calls s vs >>= Result.datum = calls s vs := by
  unfold complete
  simp only [harity, hkind, if_true, reduceCtorEq, if_false]
  cases calls s vs with
  | ok v => rfl
  | error e => rfl

include hlayouts in
theorem simulatedCallee_variable
    (hdeclared : ∀ name s, t.getLocalSymbol getRootScopeId name = some s → s.kind = .Function →
      ∃ n, functions_.find s.id = some n)
    (hcalls : CallsFollow t program types functions_ constructors_ M calls) (id : NodeId)
    (name : String) :
    SimulatedCallee t program types τ functions_ constructors_ M calls (.Variable id name) := by
  intro arguments Ps locals env cells T m output hne ih hs hsargs hT hTargs hc hcargs hf hfargs henv
  have hxs : arguments.map (evalDatum t program types calls · env) ≠ [] := by simpa using hne
  have hargs := simulated_arguments output ih hsargs hTargs hcargs hfargs henv
  have hlength : (arguments.map (evalDatum t program types calls · env)).length =
      arguments.length := List.length_map _
  obtain ⟨s, hresolved, hsaturated, heval⟩ := saturated_callee h hlayouts hs hT hxs
    (hlength.trans hTargs.length_eq) (by rw [hlength]; exact hc) henv.typed
  rw [heval]
  simp only [Meaning.application, Meaning.call, hresolved]
  cases hsaturated with
  | constructor hkind hlocal hlayout hfacts =>
    simp only [hkind, Meaning.constructorCall, hlayout]
    refine Follows.bind hargs fun vs ws m1 hm1 hvs => ?_
    refine follows_constructed hlocal hkind hlayout hfacts hvs ?_
    rw [hvs.typed.length_eq, ← hTargs.length_eq]
    exact hf
  | function hkind hlocal hfacts harity =>
    obtain ⟨n, hn⟩ := hdeclared _ s hlocal hkind
    simp only [hkind, Meaning.functionCall, hn]
    refine Follows.bind hargs fun vs ws m1 hm1 hvs => ?_
    rw [complete_call hkind (by rw [harity, hvs.typed.length_eq])]
    exact (hcalls _ s n _ hlocal hkind hn hfacts.found m1 output vs ws hvs.typed
      hvs.represents).returning fun v w m2 hv => hv

/-! ### Cases -/

section

variable (t program types τ functions_ constructors_ M calls)

/-- Evaluation and the code of the branches both go on with the body of `b`. -/
structure TakenBranch (locals : List SymbolId) (T : TypeVariant) (m : Memory) (output : String)
    (branches : List Branch) (v : Datum) (env : Environment (BitVec 64)) (scrutinee : Cell)
    (cells : Cells) (b : Branch) (m1 : Memory) (env' : Environment (BitVec 64)) (cells' : Cells) :
    Prop where
  later : m <+: m1
  wellScoped : t.WellScoped b.body (t.patternSymbols b.pattern ++ locals)
  typed : HasType t program τ b.body T
  lowered : compilable t types b.body = true
  fits : fits b.body
  environs : Environs t program constructors_ τ m1
    (t.patternSymbols b.pattern ++ locals) env' cells'
  eval : evalBranches program t types calls branches v env = eval program t types calls b.body env'
  code : Meaning.sequentialBranches (callBehaviour M) t functions_ constructors_ branches scrutinee
    cells m output = (codeOf t functions_ constructors_ M b.body cells' >>= fun cell =>
      pure cell.value) m1 output

end

variable (functions_ M calls) in
include hlayouts in
/-- Either no branch matches and the code traps, or both go on with the first branch
that matches. -/
theorem branches_taken (output : String) {branches : List Branch} {S T : TypeVariant}
    (hs : t.WellScopedBranches branches locals)
    (hS : ∀ b ∈ branches, PatternHasType t program τ S b.pattern)
    (hT : ∀ b ∈ branches, HasType t program τ b.body T)
    (hc : compilableBranches t types branches = true) (hf : fitsBranches branches) {v : Datum}
    {scrutinee : Cell} (hv : Yields t program constructors_ S v scrutinee.value m)
    (henv : Environs t program constructors_ τ m locals env cells) :
    (evalBranches program t types calls branches v env = .error .NoMatchingBranch ∧
      Meaning.sequentialBranches (callBehaviour M) t functions_ constructors_ branches scrutinee
        cells m output = .traps output) ∨
    ∃ b ∈ branches, ∃ m1 env' cells', TakenBranch t program types τ functions_ constructors_ M
      calls locals T m output branches v env scrutinee cells b m1 env' cells' := by
  induction branches with
  | nil => exact .inl ⟨rfl, rfl⟩
  | cons b branches ihrest =>
    obtain ⟨bid, pattern, body⟩ := b
    rw [List.forall_mem_cons] at hS hT
    obtain ⟨hp, hbody, hrest⟩ := hs
    cases pattern with
    | VariablePattern id name =>
      obtain ⟨env', cells', hmatch, hbind, henv'⟩ := follows_variablePattern hp hS.1 hv henv
      refine .inr ⟨_, List.mem_cons_self, m, env', cells', List.prefix_rfl, hbody, hT.1, hc, hf,
        henv', ?_, ?_⟩
      · simp only [evalBranches, hmatch, ok_bind]
      · simp only [Meaning.sequentialBranches, hbind]
    | ConstructorPattern id name arguments =>
      obtain ⟨⟨sid, hsid, hnames⟩, ctor, hctor, hkind, hlocal⟩ := hp
      obtain ⟨ctor', signature, hctor', hdeclares, rfl, sid', hsid', hTs⟩ := hS.1
      rw [hctor] at hctor'
      cases hctor'
      have hid : t.getScopeId id = some sid := hsid
      rw [hid] at hsid'
      cases hsid'
      obtain rfl := (h.scopes.named _ _ _ hlocal).2
      obtain ⟨layout, hlayout, hfacts⟩ := constructor_facts h hlayouts hlocal hkind
      obtain ⟨vctor, vlayout, p, arity, pointer, fields, values, hnode⟩ := hv.node h.scopes
      obtain ⟨hdatum, hvalue, hvctor, hvlayout, hp, hpointer, hfields, vsignature, hvdeclares, _,
        htyped⟩ := hnode
      simp only [compilableBranches, Bool.and_eq_true] at hc
      have hfound : Meaning.patternLayout t constructors_ id = some layout := by
        simp [Meaning.patternLayout, hctor, hlayout]
      have htag := loadTag_run output hp rfl
      have hcompare := choose_icmpEq (α := Val) (BitVec.ofNat 64 vlayout.tag)
        (BitVec.ofNat 64 layout.tag)
      by_cases hname : vctor.name = ctor.name
      · rw [hname] at hvctor
        rw [hvctor] at hlocal
        cases hlocal
        rw [hlayout] at hvlayout
        cases hvlayout
        obtain rfl := declares_unique h.typing.checks hdeclares hvdeclares
        have hlen : fields.length = arguments.length :=
          htyped.length_eq.trans hTs.length_eq.symm
        have heq := declares_unique h.typing.checks hdeclares hfacts.declares
        have hbound : ([] : List Val).length + values.length < 0x8000000000000000 := by
          rw [← hfields.length_eq, htyped.length_eq, List.length_nil, Nat.zero_add]
          exact Nat.lt_of_le_of_lt (declared_length h hdeclares) (by decide)
        have hkinds : ∀ name ∈ arguments, ∃ s, t.getLocalSymbol sid name = some s ∧
            s.kind = .PatternVariable := hnames
        have hbind := follows_patternFields output hid hkinds hTs [] hp hpointer hfields htyped
          hbound henv
        rw [heq] at hbind
        have hsymbols : t.patternSymbols (.ConstructorPattern id ctor.name arguments) =
            t.symbolsIn sid arguments := by
          simp [ScopeTree.patternSymbols, Pattern.id, Pattern.names, hid]
        obtain ⟨env', henv'⟩ := bindNames_total hid hTs htyped env
        rw [henv'] at hbind
        obtain ⟨cells', m1, hcells, hm, henvirons⟩ := hbind
        rw [← hsymbols] at henvirons
        refine .inr ⟨_, List.mem_cons_self, m1, env', cells', hm, hbody, hT.1, hc.1, hf.1,
          henvirons, ?_, ?_⟩
        · simp only [evalBranches, hdatum, matchValue, hctor]
          rw [if_pos ⟨trivial, hlen⟩, henv']
          rfl
        · simp only [Meaning.sequentialBranches, hfound, hvalue]
          rw [Behaviour.bind_returns htag, (hcompare _ _).1 rfl]
          simp only [Meaning.constructorPattern, hid]
          exact Behaviour.bind_returns hcells _
      · have htags : BitVec.ofNat 64 vlayout.tag ≠ BitVec.ofNat 64 layout.tag := by
          intro heq
          have hid := hlayouts.tag_inj hvlayout hlayout heq
          have hsame := (h.scopes.named _ _ _ hvctor).1
          rw [hid, (h.scopes.named _ _ _ hlocal).1] at hsame
          cases hsame
          exact hname rfl
        have hskip : evalBranches program t types calls
            (⟨bid, .ConstructorPattern id ctor.name arguments, body⟩ :: branches) v env =
            evalBranches program t types calls branches v env := by
          simp only [evalBranches, hdatum, matchValue, hctor]
          rw [if_neg fun hboth => hname hboth.1]
          rfl
        have hnext : Meaning.sequentialBranches (callBehaviour M) t functions_ constructors_
            (⟨bid, .ConstructorPattern id ctor.name arguments, body⟩ :: branches) scrutinee cells
            m output = Meaning.sequentialBranches (callBehaviour M) t functions_ constructors_
            branches scrutinee cells m output := by
          simp only [Meaning.sequentialBranches, hfound, hvalue]
          rw [Behaviour.bind_returns htag, (hcompare _ _).2 htags]
        rw [hskip, hnext]
        rcases ihrest hrest hS.2 hT.2 hc.2 hf.2 with hfail | ⟨b, hb, m1, env', cells', htaken⟩
        · exact .inl hfail
        · refine .inr ⟨b, List.mem_cons_of_mem _ hb, m1, env', cells', { htaken with
            eval := ?_, code := ?_ }⟩
          · rw [hskip]
            exact htaken.eval
          · rw [hnext]
            exact htaken.code

include hlayouts in
/-- The branches, of which the first that matches is taken. -/
theorem simulated_branches {branches : List Branch}
    (ih : ∀ b ∈ branches, Simulated t program types τ functions_ constructors_ M calls b.body)
    {S T : TypeVariant} (hs : t.WellScopedBranches branches locals)
    (hS : ∀ b ∈ branches, PatternHasType t program τ S b.pattern)
    (hT : ∀ b ∈ branches, HasType t program τ b.body T)
    (hc : compilableBranches t types branches = true) (hf : fitsBranches branches) {v : Datum}
    {scrutinee : Cell} (hv : Yields t program constructors_ S v scrutinee.value m)
    (henv : Environs t program constructors_ τ m locals env cells) :
    Follows Trapped (evalBranches program t types calls branches v env >>= Result.datum)
      (Meaning.sequentialBranches (callBehaviour M) t functions_ constructors_ branches scrutinee
        cells) m output (Yields t program constructors_ T) := by
  rcases branches_taken functions_ M calls h hlayouts output hs hS hT hc hf hv henv with
    ⟨heval, hcode⟩ | ⟨b, hb, m1, env', cells', htaken⟩
  · rw [heval]
    exact fun _ => hcode
  · rw [htaken.eval]
    apply Follows.same htaken.code htaken.later
    exact (ih b hb _ env' cells' T m1 output htaken.wellScoped htaken.typed htaken.lowered
      htaken.fits
      htaken.environs).returning fun _ _ _ hw => hw

omit h in
theorem evalDatum_case (id : NodeId) (scrutinee : Expression) (branches : List Branch)
    (env : Environment (BitVec 64)) :
    evalDatum t program types calls (.CaseExpression id scrutinee branches) env =
      evalDatum t program types calls scrutinee env >>= fun v =>
        evalBranches program t types calls branches v env >>= Result.datum := by
  simp only [evalDatum, eval, bind_assoc]

include hlayouts in
/-- The switch does what the chain of comparisons does. -/
theorem codeOf_case (id : NodeId) (scrutinee : Expression) {branches : List Branch}
    (hne : branches ≠ []) (hs : t.WellScopedBranches branches locals) (cells : Cells) :
    codeOf t functions_ constructors_ M (.CaseExpression id scrutinee branches) cells =
      codeOf t functions_ constructors_ M scrutinee cells >>= fun node =>
        Meaning.sequentialBranches (callBehaviour M) t functions_ constructors_ branches node
          cells >>= fun value => pure ⟨value, false⟩ := by
  unfold codeOf
  simp only [Meaning.expression]
  refine congrArg (_ >>= ·) (funext fun node => ?_)
  by_cases hcan : canUseSwitchCase t [] branches = true
  · have hswitchable := switchable h hlayouts hs hcan
    refine (if_pos hcan).trans ((bind_assoc _ _ _).symm.trans (congrArg (· >>= _) ?_))
    exact (switch_caseMeaning hswitchable node.value cells).trans
      (sequential_caseMeaning hswitchable hne node cells).symm
  · exact if_neg hcan

include hlayouts in
theorem simulated_case {id : NodeId} {scrutinee : Expression} {branches : List Branch}
    (ihs : Simulated t program types τ functions_ constructors_ M calls scrutinee)
    (ihb : ∀ b ∈ branches, Simulated t program types τ functions_ constructors_ M calls b.body) :
    Simulated t program types τ functions_ constructors_ M calls
      (.CaseExpression id scrutinee branches) := by
  intro locals env cells T m output hs hT hc hf henv
  obtain ⟨hss, hne, hsb⟩ := hs
  rcases hT with _ | _ | _ | _ | @⟨_, _, _, S, _, hTs, hS, hTb⟩
  simp only [compilable, Bool.and_eq_true] at hc
  rw [evalDatum_case, codeOf_case h hlayouts id scrutinee hne hsb]
  refine Follows.bind (ihs locals env cells S m output hss hTs hc.1 hf.1 henv)
    fun v node m1 hm1 hv => ?_
  exact (simulated_branches h hlayouts ihb hsb hS hTb hc.2 hf.2 hv (henv.later hm1)).returning
    fun _ _ _ hw => hw

include hlayouts in
theorem simulated
    (hdeclared : ∀ name s, t.getLocalSymbol getRootScopeId name = some s → s.kind = .Function →
      ∃ n, functions_.find s.id = some n)
    (hcalls : CallsFollow t program types functions_ constructors_ M calls) (e : Expression) :
    Simulated t program types τ functions_ constructors_ M calls e ∧
      SimulatedCallee t program types τ functions_ constructors_ M calls e := by
  have hnone : ∀ {e : Expression}, (∀ n, compilableCallee t types e n = false) →
      SimulatedCallee t program types τ functions_ constructors_ M calls e := by
    intro e he arguments Ps locals env cells T m output _ _ _ _ _ _ hc
    rw [he] at hc
    cases hc
  induction e with
  | IntLiteral id value =>
    refine ⟨fun locals env cells T m output _ hT _ _ _ => ?_, hnone fun _ => rfl⟩
    cases hT
    exact .pure ⟨.int, .int⟩
  | Variable id name =>
    exact ⟨simulated_variable h hlayouts id name,
      simulatedCallee_variable h hlayouts hdeclared hcalls id name⟩
  | BinaryOperator kind id l r ihl ihr =>
    exact ⟨simulated_operator ihl.1 ihr.1, hnone fun _ => rfl⟩
  | Application id f a ihf iha =>
    exact ⟨simulated_application ihf.2 iha.1, simulatedCallee_application ihf.2 iha.1⟩
  | CaseExpression id scrutinee branches ihs ihb =>
    exact ⟨simulated_case h hlayouts ihs.1 fun b hb => (ihb b hb).1, hnone fun _ => rfl⟩

end

/-! ## Calls -/

/-- The parameters get the arguments. -/
theorem follows_parameters {id : NodeId} {sid : ScopeId} (hid : t.getScopeId id = some sid)
    {names : List String} {Ts : List TypeVariant} (hTs : NamesTyped t τ sid names Ts)
    (done : List Val) {ws : List Val} {vs : List Datum}
    (hvs : YieldsAll t program constructors_ Ts vs ws m)
    (henv : Environs t program constructors_ τ m locals env cells) :
    ∃ env', bindNames t id names vs env = .ok env' ∧
      Environs t program constructors_ τ m (t.symbolsIn sid names ++ locals) env'
        (Meaning.bindParameters t sid (done ++ ws) done.length names cells) := by
  obtain ⟨htyped, hrep⟩ := hvs
  induction hTs generalizing done vs ws locals env cells with
  | nil =>
    cases htyped
    exact ⟨env, rfl, henv⟩
  | @cons name T names Ts hT _ ih =>
    rcases htyped with _ | ⟨hv, htyped⟩
    rcases hrep with _ | ⟨hw, hrep⟩
    rename_i v vs w ws
    obtain ⟨s, hs, rfl⟩ := hT
    have hargument : ((done ++ w :: ws)[done.length]?).getD .poison = w := by simp
    have hnext := ih (done ++ [w]) (henv.insert ⟨w, false⟩ ⟨hv, hw⟩) htyped hrep
    obtain ⟨env', hbind, henv'⟩ := hnext
    refine ⟨env', ?_, ?_⟩
    · unfold bindNames
      simp only [hid, Option.bind_some, hs]
      exact hbind
    · simp only [Meaning.bindParameters, hs, hargument]
      rw [List.append_assoc, List.length_append, List.length_singleton] at henv'
      refine henv'.mono fun x hx => ?_
      simp only [ScopeTree.symbolsIn, List.filterMap_cons, hs, Option.map_some, List.cons_append,
        List.mem_cons, List.mem_append] at hx ⊢
      tauto

/-- Where the body of a function begins. -/
theorem function_entered (h : Checked t program types τ) {fd : FunctionDefinition}
    (hfd : .FunctionDefinition fd ∈ program.definitions) {s : Symbol}
    (hs : t.getLocalSymbol getRootScopeId fd.name = some s) {signature : FunctionSignature}
    (hsignature : types.getFunctionSignature s.id = some signature) {sid : ScopeId}
    (hsid : t.getScopeId fd.id = some sid) {vs : List Datum} {ws : List Val}
    (hvs : YieldsAll t program constructors_ signature.parameters vs ws m) :
    t.WellScoped fd.body (t.parameterSymbols fd) ∧ HasType t program τ fd.body signature.result ∧
    ∃ env, bindNames t fd.id fd.parameters vs .empty = .ok env ∧
      Environs t program constructors_ τ m (t.parameterSymbols fd) env
        (Meaning.bindParameters t sid ws 0 fd.parameters fun _ => none) := by
  obtain ⟨s', signature', hs', hsignature', _, ⟨sid', hsid', hparameters⟩, hbody⟩ :=
    h.functions fd hfd
  rw [hs] at hs'
  cases hs'
  rw [hsignature] at hsignature'
  cases hsignature'
  rw [hsid] at hsid'
  cases hsid'
  obtain ⟨_, _, hscoped⟩ := h.scopes.functions fd hfd
  have hsymbols : t.parameterSymbols fd = t.symbolsIn sid fd.parameters := by
    simp [ScopeTree.parameterSymbols, hsid]
  obtain ⟨env, hbind, henv⟩ := follows_parameters hsid hparameters [] hvs
    (environs_empty m fun _ => none)
  rw [List.append_nil, ← hsymbols] at henv
  exact ⟨hscoped, hbody, env, hbind, henv⟩

/-- The body of a function, where calls follow those of evaluation. -/
theorem body_follows (h : Checked t program types τ)
    (hlayouts : Layouts t types program constructors_)
    (hdeclared : ∀ name s, t.getLocalSymbol getRootScopeId name = some s → s.kind = .Function →
      ∃ n, functions_.find s.id = some n)
    (hcalls : CallsFollow t program types functions_ constructors_ M calls)
    {fd : FunctionDefinition} (hfd : .FunctionDefinition fd ∈ program.definitions)
    (hlowered : compilable t types fd.body = true ∧ fits fd.body) {s : Symbol}
    (hs : t.getLocalSymbol getRootScopeId fd.name = some s) {signature : FunctionSignature}
    (hsignature : types.getFunctionSignature s.id = some signature) {sid : ScopeId}
    (hsid : t.getScopeId fd.id = some sid) {p : Nat} {F : llvm.Function}
    (hF : M.functions[p]? = some F) (hbodyOf : BodyOf M t functions_ constructors_ fd sid F.blocks)
    (output : String) {vs : List Datum} {ws : List Val}
    (hvs : YieldsAll t program constructors_ signature.parameters vs ws m) :
    Follows Trapped (bindNames t fd.id fd.parameters vs .empty >>= fun env =>
        eval program t types calls fd.body env >>= Result.datum)
      (callBehaviour M p ws) m output (Yields t program constructors_ signature.result) := by
  obtain ⟨hscoped, hbody, env, hbind, henv⟩ := function_entered h hfd hs hsignature hsid hvs
  rw [hbodyOf.call hF ws, hbind, ok_bind]
  exact ((simulated h hlayouts hdeclared hcalls fd.body).1 _ env _ _ m output hscoped hbody
    hlowered.1 hlowered.2 henv).returning fun _ _ _ hv => hv

/-- Calls of the module follow calls of the program, however deep they are. -/
theorem callsFollow (h : Checked t program types τ)
    (hlayouts : Layouts t types program constructors_)
    (hgenerated : Generated t types program functions_ constructors_ M)
    (hbodies : ∀ fd, .FunctionDefinition fd ∈ program.definitions →
      compilable t types fd.body = true ∧ fits fd.body) (fuel : Nat) :
    CallsFollow t program types functions_ constructors_ M (callWithin program t types fuel) := by
  have hdeclared : ∀ name s, t.getLocalSymbol getRootScopeId name = some s → s.kind = .Function →
      ∃ n, functions_.find s.id = some n := by
    intro name s hs hkind
    obtain ⟨fd, hfd, hname, _⟩ := function_declared h.scopes hs hkind
    rw [← hname] at hs
    obtain ⟨n, _, _, hn, _⟩ := hgenerated.declared fd hfd s hs
    exact ⟨n, hn⟩
  induction fuel with
  | zero =>
    intro name s n signature _ _ _ _ m output vs ws _ _
    exact .other (by simp [Trapped])
  | succ fuel ih =>
    intro name s n signature hs hkind hn hsignature m output vs ws hvs hws
    obtain ⟨fd, hfd, hname, hdeclaration⟩ := function_declared h.scopes hs hkind
    rw [← hname] at hs
    obtain ⟨n', sid, F, hn', hsid, hF, hbodyOf⟩ := hgenerated.declared fd hfd s hs
    rw [hn] at hn'
    cases hn'
    simp only [callWithin, hdeclaration, findFunctionById_eq h.ids hfd]
    exact body_follows h hlayouts hdeclared ih hfd (hbodies fd hfd) hs hsignature hsid hF hbodyOf
      output ⟨hvs, hws⟩

end mf.visitors
