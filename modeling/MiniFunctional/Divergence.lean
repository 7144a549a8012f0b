-- Code that never halts where evaluation runs out of fuel. The code that calls
-- functions follows evaluation up to the call that does so.
import MiniFunctional.Simulation

open mf.util mf.ast mf.evaluation llvm
open mf.semantics hiding Frame

namespace llvm

variable {ε ρ σ α β : Type} {trapped stalled : ε → Prop}

/-- Where the computation fails so, the code never halts. -/
def Stalls (stalled : ε → Prop) (x : Except ε ρ) (b : Behaviour α) (m : Memory)
    (output : String) : Prop :=
  ∀ e, x = .error e → stalled e → b m output = .dead

variable {m : Memory} {output : String} {x : Except ε ρ} {b : Behaviour α}
  {Q : ρ → α → Memory → Prop}

theorem Stalls.never (h : ∀ e, x = .error e → ¬ stalled e) : Stalls stalled x b m output :=
  fun e he hs => absurd hs (h e he)

theorem Stalls.ok (r : ρ) : Stalls stalled (.ok r) b m output := by
  intro e he
  cases he

/-- Code after code: it is known what the first part comes to, and where. -/
theorem Stalls.bind {f : ρ → Except ε σ} {g : α → Behaviour β}
    (h : Follows trapped x b m output Q) (hx : Stalls stalled x b m output)
    (hf : ∀ r a m', m <+: m' → Q r a m' → Stalls stalled (f r) (g a) m' output) :
    Stalls stalled (x >>= f) (b >>= g) m output := by
  intro e he hs
  rw [Behaviour.bind_run]
  cases x with
  | error e' =>
    cases he
    rw [hx e rfl hs]
  | ok r =>
    obtain ⟨a, m', hrun, hm, hq⟩ := h
    rw [hrun]
    exact hf r a m' hm hq e he hs

theorem Stalls.returning (h : Stalls stalled x b m output) (f : α → β) :
    Stalls stalled x (b >>= fun a => Pure.pure (f a)) m output := by
  intro e he hs
  rw [Behaviour.bind_run, h e he hs]

theorem Stalls.same {b' : Behaviour α} {m' : Memory} (hb : b m output = b' m' output)
    (h : Stalls stalled x b' m' output) : Stalls stalled x b m output := by
  intro e he hs
  rw [hb]
  exact h e he hs

end llvm

namespace mf.visitors

open ScopeTree ExceptLaws

variable {t : ScopeTree} {program : Program} {types : TypeTable} {τ : Typing}
  {functions_ : AssocMap SymbolId Nat} {constructors_ : AssocMap SymbolId ConstructorLayout}
  {M : Module} {calls : Symbol → List Datum → Evaluated Datum} {m : Memory} {output : String}

abbrev OutOfFuel (fault : Fault) : Prop := fault = .outOfFuel

theorem stalls_fuelled {α β : Type} {x : Evaluated α} {b : Behaviour β}
    (h : x ≠ .error .outOfFuel) : Stalls OutOfFuel x b m output := by
  apply Stalls.never
  rintro e he rfl
  exact h he

section

variable (t program types τ functions_ constructors_ M calls)

/-- The calls that run out of fuel never halt. -/
def CallsStall : Prop :=
  ∀ name s n signature, t.getLocalSymbol getRootScopeId name = some s → s.kind = .Function →
    functions_.find s.id = some n → types.getFunctionSignature s.id = some signature →
    ∀ (m : Memory) (output : String) vs ws,
      List.Forall₂ (ValueHasType t program) vs signature.parameters →
      List.Forall₂ (Represents t constructors_ m) vs ws →
      Stalls OutOfFuel (calls s vs) (callBehaviour M n ws) m output

/-- Where evaluation of the expression runs out of fuel, its code never halts. -/
def Stalled (e : Expression) : Prop :=
  ∀ locals env cells T (m : Memory) (output : String), t.WellScoped e locals →
    HasType t program τ e T → compilable t types e = true → fits e →
    Environs t program constructors_ τ m locals env cells →
    Stalls OutOfFuel (evalDatum t program types calls e env)
      (codeOf t functions_ constructors_ M e cells) m output

/-- So it is with its application to arguments. -/
def StalledCallee (e : Expression) : Prop :=
  ∀ (arguments : List Expression) (Ps : List TypeVariant) locals env cells T (m : Memory)
    (output : String), arguments ≠ [] →
    (∀ a ∈ arguments, Stalled t program types τ functions_ constructors_ M calls a) →
    t.WellScoped e locals → (∀ a ∈ arguments, t.WellScoped a locals) →
    HasType t program τ e (functionTypes Ps T) → List.Forall₂ (HasType t program τ) arguments Ps →
    compilableCallee t types e arguments.length = true →
    arguments.all (compilable t types) = true → fitsCallee e arguments.length →
    (∀ a ∈ arguments, fits a) → Environs t program constructors_ τ m locals env cells →
    Stalls OutOfFuel
      (eval program t types calls e env >>= fun r =>
        applyAll program types calls r (arguments.map (evalDatum t program types calls · env)) >>=
          Result.datum)
      (Meaning.application (callBehaviour M) t functions_ constructors_ e
        (arguments.map (codeOf t functions_ constructors_ M · cells)) cells) m output

end

section

variable (hsimulated : ∀ e, Simulated t program types τ functions_ constructors_ M calls e)

include hsimulated

theorem stalled_operator {kind : BinaryOperatorKind} {id : NodeId} {l r : Expression}
    (ihl : Stalled t program types τ functions_ constructors_ M calls l)
    (ihr : Stalled t program types τ functions_ constructors_ M calls r) :
    Stalled t program types τ functions_ constructors_ M calls (.BinaryOperator kind id l r) := by
  intro locals env cells T m output hs hT hc hf h
  rcases hT with _ | _ | ⟨hTl, hTr⟩
  simp only [compilable, Bool.and_eq_true] at hc
  rw [evalDatum_operator]
  unfold codeOf
  simp only [Meaning.expression]
  apply Stalls.bind (hsimulated l locals env cells _ m output hs.1 hTl hc.1 hf.1 h)
    (ihl locals env cells _ m output hs.1 hTl hc.1 hf.1 h)
  intro x left m1 hm1 hx
  obtain ⟨a, rfl⟩ := hx.typed.isInt
  rw [show integer (Value.int a) = .ok a from rfl, ok_bind]
  apply Stalls.bind (hsimulated r locals env cells _ m1 output hs.2 hTr hc.2 hf.2 (h.later hm1))
    (ihr locals env cells _ m1 output hs.2 hTr hc.2 hf.2 (h.later hm1))
  intro y right m2 hm2 hy
  obtain ⟨b, rfl⟩ := hy.typed.isInt
  apply stalls_fuelled
  rw [show integer (Value.int b) = .ok b from rfl, ok_bind]
  exact map_fuel Value.int (arithmetic_fuel kind a b)

theorem stalled_arguments {arguments : List Expression} {Ps : List TypeVariant}
    {locals : List SymbolId} {env : Environment (BitVec 64)} {cells : Cells} (output : String)
    (ih : ∀ a ∈ arguments, Stalled t program types τ functions_ constructors_ M calls a)
    (hs : ∀ a ∈ arguments, t.WellScoped a locals)
    (hT : List.Forall₂ (HasType t program τ) arguments Ps)
    (hc : arguments.all (compilable t types) = true) (hf : ∀ a ∈ arguments, fits a)
    (h : Environs t program constructors_ τ m locals env cells) :
    Stalls OutOfFuel (evalAll (arguments.map (evalDatum t program types calls · env)))
      (Meaning.evaluateArguments (arguments.map (codeOf t functions_ constructors_ M · cells)))
      m output := by
  induction hT generalizing m with
  | nil => exact .ok []
  | @cons a P arguments Ps hTa hTs ihrest =>
    rw [List.forall_mem_cons] at ih hs hf
    rw [List.all_cons, Bool.and_eq_true] at hc
    simp only [List.map_cons, evalAll, Meaning.evaluateArguments]
    apply Stalls.bind (hsimulated a locals env cells P m output hs.1 hTa hc.1 hf.1 h)
      (ih.1 locals env cells P m output hs.1 hTa hc.1 hf.1 h)
    intro v cell m1 hm1 _
    have hrest := simulated_arguments output (fun a _ => hsimulated a) hs.2 hTs hc.2 hf.2
      (h.later hm1)
    apply Stalls.bind hrest (ihrest ih.2 hs.2 hc.2 hf.2 (h.later hm1))
    exact fun vs ws m2 _ _ => .ok _

end

theorem stalledCallee_application {id : NodeId} {f a : Expression}
    (ihf : StalledCallee t program types τ functions_ constructors_ M calls f)
    (iha : Stalled t program types τ functions_ constructors_ M calls a) :
    StalledCallee t program types τ functions_ constructors_ M calls (.Application id f a) := by
  intro arguments Ps locals env cells T m output _ ih hs hsargs hT hTargs hc hcargs hf hfargs h
  rcases hT with _ | _ | _ | @⟨_, _, _, P, _, hTf, hTa⟩
  simp only [compilableCallee, Bool.and_eq_true] at hc
  have hcall := ihf (a :: arguments) (P :: Ps) locals env cells T m output (by simp)
    (List.forall_mem_cons.mpr ⟨iha, ih⟩) hs.1 (List.forall_mem_cons.mpr ⟨hs.2, hsargs⟩) hTf
    (.cons hTa hTargs) hc.1 (by rw [List.all_cons, hc.2, hcargs]; rfl) hf.1
    (List.forall_mem_cons.mpr ⟨hf.2, hfargs⟩) h
  rw [eval_application]
  exact hcall

theorem stalled_application {id : NodeId} {f a : Expression}
    (ihf : StalledCallee t program types τ functions_ constructors_ M calls f)
    (iha : Stalled t program types τ functions_ constructors_ M calls a) :
    Stalled t program types τ functions_ constructors_ M calls (.Application id f a) := by
  intro locals env cells T m output hs hT hc hf h
  rcases hT with _ | _ | _ | @⟨_, _, _, P, _, hTf, hTa⟩
  simp only [compilable, Bool.and_eq_true] at hc
  have hcall := ihf [a] [P] locals env cells T m output (by simp) (by simpa using iha) hs.1
    (by simpa using hs.2) hTf (.cons hTa .nil) hc.1 (by simpa using hc.2) hf.1
    (by simpa using hf.2) h
  rw [evalDatum_application]
  exact hcall

theorem complete_constructor {s : Symbol} (hkind : s.kind = .Constructor) (vs : List Datum) :
    complete program types calls s vs >>= Result.datum ≠ .error .outOfFuel := by
  unfold complete
  cases arity program types s with
  | none =>
    intro hfuel
    cases hfuel
  | some n =>
    by_cases hn : vs.length = n
    · simp only [hn, hkind, if_true, ok_bind]
      exact Result.datum_fuel _
    · simp only [hn, if_false, ok_bind]
      exact Result.datum_fuel _

/-- A name that is a value, is one at once. -/
theorem stalled_variable (id : NodeId) (name : String) :
    Stalled t program types τ functions_ constructors_ M calls (.Variable id name) := by
  intro locals env cells T m output hs _ hc _ henv
  obtain ⟨s, hresolved, hname, hkinds⟩ := hs
  apply stalls_fuelled
  unfold evalDatum
  simp only [eval, evalVariable, hresolved]
  simp only [compilable, namesValue, saturates, hresolved] at hc
  rcases hkinds with ⟨hkind | hkind, _⟩ | ⟨hkind, hmem⟩
  · rw [if_pos hkind]
    exact complete_constructor hkind []
  · rw [hkind] at hc
    cases hc
  · obtain ⟨v, hv⟩ := henv.typed.bound s.id hmem
    rcases hkind with hkind | hkind
    all_goals
      simp only [hkind, hv, reduceCtorEq, if_false, ok_bind]
      exact Result.datum_fuel _

section

variable (h : Checked t program types τ) (hlayouts : Layouts t types program constructors_)
  (hdeclared : ∀ name s, t.getLocalSymbol getRootScopeId name = some s → s.kind = .Function →
    ∃ n, functions_.find s.id = some n)
  (hfollow : CallsFollow t program types functions_ constructors_ M calls)

include h hlayouts hdeclared hfollow

theorem stalledCallee_variable
    (hstall : CallsStall t program types functions_ constructors_ M calls) (id : NodeId)
    (name : String) :
    StalledCallee t program types τ functions_ constructors_ M calls (.Variable id name) := by
  intro arguments Ps locals env cells T m output hne ih hs hsargs hT hTargs hc hcargs hf hfargs henv
  have hsimulated := fun e => (simulated h hlayouts hdeclared hfollow e).1
  have hxs : arguments.map (evalDatum t program types calls · env) ≠ [] := by simpa using hne
  have hlength : (arguments.map (evalDatum t program types calls · env)).length =
      arguments.length := List.length_map _
  obtain ⟨s, hresolved, hsaturated, heval⟩ := saturated_callee h hlayouts hs hT hxs
    (hlength.trans hTargs.length_eq) (by rw [hlength]; exact hc) henv.typed
  have hargs := simulated_arguments output (fun a _ => hsimulated a) hsargs hTargs hcargs hfargs
    henv
  have hstalls := stalled_arguments hsimulated output ih hsargs hTargs hcargs hfargs henv
  rw [heval]
  simp only [Meaning.application, Meaning.call, hresolved]
  cases hsaturated with
  | constructor hkind hlocal hlayout hfacts =>
    simp only [hkind, Meaning.constructorCall, hlayout]
    apply Stalls.bind hargs hstalls
    exact fun vs ws m1 _ _ => stalls_fuelled (complete_constructor hkind vs)
  | function hkind hlocal hfacts harity =>
    obtain ⟨n, hn⟩ := hdeclared _ s hlocal hkind
    simp only [hkind, Meaning.functionCall, hn]
    apply Stalls.bind hargs hstalls
    intro vs ws m1 _ hvs
    rw [complete_call hkind (by rw [harity, hvs.typed.length_eq])]
    apply Stalls.returning
    exact hstall _ s n _ hlocal hkind hn hfacts.found m1 output vs ws hvs.typed hvs.represents

theorem stalled_case {id : NodeId} {scrutinee : Expression} {branches : List Branch}
    (ihs : Stalled t program types τ functions_ constructors_ M calls scrutinee)
    (ihb : ∀ b ∈ branches, Stalled t program types τ functions_ constructors_ M calls b.body) :
    Stalled t program types τ functions_ constructors_ M calls
      (.CaseExpression id scrutinee branches) := by
  intro locals env cells T m output hs hT hc hf henv
  obtain ⟨hss, hne, hsb⟩ := hs
  rcases hT with _ | _ | _ | _ | @⟨_, _, _, S, _, hTs, hS, hTb⟩
  simp only [compilable, Bool.and_eq_true] at hc
  have hsimulated := (simulated h hlayouts hdeclared hfollow scrutinee).1
  rw [evalDatum_case, codeOf_case h hlayouts id scrutinee hne hsb]
  apply Stalls.bind (hsimulated locals env cells S m output hss hTs hc.1 hf.1 henv)
    (ihs locals env cells S m output hss hTs hc.1 hf.1 henv)
  intro v node m1 hm1 hv
  apply Stalls.returning
  rcases branches_taken functions_ M calls h hlayouts output hsb hS hTb hc.2 hf.2 hv
      (henv.later hm1) with ⟨heval, _⟩ | ⟨b, hb, m2, env', cells', htaken⟩
  · rw [heval]
    apply stalls_fuelled
    intro hfuel
    cases hfuel
  · rw [htaken.eval]
    apply Stalls.same htaken.code
    apply Stalls.returning
    exact ihb b hb _ env' cells' T m2 output htaken.wellScoped htaken.typed htaken.lowered
      htaken.fits htaken.environs

/-- By the expression, with what is applied to arguments apart. -/
theorem stalled (hstall : CallsStall t program types functions_ constructors_ M calls)
    (e : Expression) : Stalled t program types τ functions_ constructors_ M calls e ∧
      StalledCallee t program types τ functions_ constructors_ M calls e := by
  have hnone : ∀ {e : Expression}, (∀ n, compilableCallee t types e n = false) →
      StalledCallee t program types τ functions_ constructors_ M calls e := by
    intro e he arguments Ps locals env cells T m output _ _ _ _ _ _ hc
    rw [he] at hc
    cases hc
  have hsimulated := fun e => (simulated h hlayouts hdeclared hfollow e).1
  induction e with
  | IntLiteral id value =>
    exact ⟨fun locals env cells T m output _ _ _ _ _ => .ok _, hnone fun _ => rfl⟩
  | Variable id name =>
    exact ⟨stalled_variable id name,
      stalledCallee_variable h hlayouts hdeclared hfollow hstall id name⟩
  | BinaryOperator kind id l r ihl ihr =>
    exact ⟨stalled_operator hsimulated ihl.1 ihr.1, hnone fun _ => rfl⟩
  | Application id f a ihf iha =>
    exact ⟨stalled_application ihf.2 iha.1, stalledCallee_application ihf.2 iha.1⟩
  | CaseExpression id scrutinee branches ihs ihb =>
    exact ⟨stalled_case h hlayouts hdeclared hfollow ihs.1 fun b hb => (ihb b hb).1,
      hnone fun _ => rfl⟩

theorem body_stalls (hstall : CallsStall t program types functions_ constructors_ M calls)
    {fd : FunctionDefinition} (hfd : .FunctionDefinition fd ∈ program.definitions)
    (hlowered : compilable t types fd.body = true ∧ fits fd.body) {s : Symbol}
    (hs : t.getLocalSymbol getRootScopeId fd.name = some s) {signature : FunctionSignature}
    (hsignature : types.getFunctionSignature s.id = some signature) {sid : ScopeId}
    (hsid : t.getScopeId fd.id = some sid) {p : Nat} {F : llvm.Function}
    (hF : M.functions[p]? = some F) (hbodyOf : BodyOf M t functions_ constructors_ fd sid F.blocks)
    (output : String) {vs : List Datum} {ws : List Val}
    (hvs : YieldsAll t program constructors_ signature.parameters vs ws m) :
    Stalls OutOfFuel (bindNames t fd.id fd.parameters vs .empty >>= fun env =>
        eval program t types calls fd.body env >>= Result.datum)
      (callBehaviour M p ws) m output := by
  obtain ⟨hscoped, hbody, env, hbind, henv⟩ := function_entered h hfd hs hsignature hsid hvs
  rw [hbodyOf.call hF ws, hbind, ok_bind]
  apply Stalls.returning
  exact (stalled h hlayouts hdeclared hfollow hstall fd.body).1 _ env _ _ m output hscoped hbody
    hlowered.1 hlowered.2 henv

end

end mf.visitors
