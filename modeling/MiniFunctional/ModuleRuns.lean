-- What the generated module does, whatever evaluation comes to. On the levels of
-- the module calls follow evaluation with as many calls open; so a run of the
-- module that halts, or has no next step, is one of an evaluation that ends.
import MiniFunctional.CallLevels
import MiniFunctional.Divergence
import MiniFunctional.EvaluationSafety
import MiniFunctional.GeneratedIr

open mf.util mf.ast mf.parsing mf.tokenization mf.evaluation llvm ExceptLaws
open mf.semantics hiding Frame

namespace mf.evaluation

open mf.visitors

variable (program : Program) (scopes : ScopeTree) (types : TypeTable)

/-- The call of a function, where calls in its body are `calls`. -/
def callBody (calls : Symbol → List Datum → Evaluated Datum) (symbol : Symbol)
    (arguments : List Datum) : Evaluated Datum :=
  match findFunctionById program symbol.declaration with
  | none => .error .stuck
  | some fd =>
    bindNames scopes fd.id fd.parameters arguments .empty >>= fun env =>
      eval program scopes types calls fd.body env >>= Result.datum

/-- A call when `k` calls are open at once, and the next ones are `last`. -/
def callAbove (last : Symbol → List Datum → Evaluated Datum) :
    Nat → Symbol → List Datum → Evaluated Datum
  | 0 => last
  | k + 1 => callBody program scopes types (callAbove last k)

/-- The calls that would be too many have no fuel. -/
def noFuel (_ : Symbol) (_ : List Datum) : Evaluated Datum := .error .outOfFuel

/-- The calls that would be too many fail as a case without a matching branch does. -/
def noBranch (_ : Symbol) (_ : List Datum) : Evaluated Datum := .error .NoMatchingBranch

variable {program scopes types}

theorem callAbove_noFuel (k : Nat) (symbol : Symbol) (arguments : List Datum) :
    callAbove program scopes types noFuel k symbol arguments =
      callWithin program scopes types k symbol arguments := by
  induction k generalizing symbol arguments with
  | zero => rfl
  | succ k ih =>
    have hcalls : callAbove program scopes types noFuel k = callWithin program scopes types k := by
      funext symbol arguments
      exact ih symbol arguments
    exact congrArg (callBody program scopes types · symbol arguments) hcalls

/-- The same, with the missing branch in place of the fuel. -/
def BranchForFuel (α : Type) (x y : Evaluated α) : Prop :=
  (x ≠ .error .outOfFuel → y = x) ∧ (x = .error .outOfFuel → y = .error .NoMatchingBranch)

theorem branchForFuel_compositional : Compositional BranchForFuel := by
  constructor
  · exact fun h => ⟨fun _ => rfl, fun hfuel => absurd hfuel h⟩
  · intro α β x y f g h hf
    cases x with
    | ok a =>
      rw [h.1 (by simp)]
      exact hf a
    | error fault =>
      by_cases hfault : fault = .outOfFuel
      · rw [hfault, h.2 (by rw [hfault])]
        exact ⟨fun hfuel => absurd rfl hfuel, fun _ => rfl⟩
      · rw [h.1 (by simpa using hfault)]
        exact ⟨fun _ => rfl, fun hfuel => absurd (Except.error.inj hfuel) hfault⟩

theorem callAbove_noBranch (k : Nat) (symbol : Symbol) (arguments : List Datum) :
    BranchForFuel Datum (callWithin program scopes types k symbol arguments)
      (callAbove program scopes types noBranch k symbol arguments) := by
  induction k generalizing symbol arguments with
  | zero => exact ⟨fun hfuel => absurd rfl hfuel, fun _ => rfl⟩
  | succ k ih =>
    unfold callAbove callBody callWithin
    cases findFunctionById program symbol.declaration with
    | none => exact branchForFuel_compositional.same (by simp)
    | some fd =>
      apply branchForFuel_compositional.bind
      · exact branchForFuel_compositional.same (bindNames_fuel scopes fd.id _ _ _)
      · intro env
        apply branchForFuel_compositional.bind
          (eval_related branchForFuel_compositional ih fd.body env)
        exact fun r => branchForFuel_compositional.same r.datum_fuel

end mf.evaluation

namespace llvm

/-- Of a well formed module the functions that are called are there. -/
theorem Module.WellFormed.closed {M : Module} (h : M.WellFormed) : M.Closed := by
  intro F hF n hcalls
  obtain ⟨block, hblock, id, arguments, hentry⟩ := hcalls
  obtain ⟨p, hp⟩ := List.getElem?_of_mem hblock
  obtain ⟨k, hk⟩ := List.getElem?_of_mem hentry
  obtain ⟨callee, hcallee, _⟩ := (h F hF).code.instructions id p k _ ⟨block, hp, hk⟩
  exact (List.getElem?_eq_some_iff.mp hcallee).1

end llvm

namespace mf.visitors

open ScopeTree

variable {t : ScopeTree} {program : Program} {types : TypeTable} {τ : Typing}
  {functions_ : AssocMap SymbolId Nat} {constructors_ : AssocMap SymbolId ConstructorLayout}
  {M rest : Module} {calls last : Symbol → List Datum → Evaluated Datum}

/-! ## Calls on the levels -/

/-- What is used of a generated module: its code has the meaning of the program in
every module that has functions to call. -/
structure Compiled (t : ScopeTree) (program : Program) (types : TypeTable) (τ : Typing)
    (functions_ : AssocMap SymbolId Nat) (constructors_ : AssocMap SymbolId ConstructorLayout)
    (M : Module) : Prop where
  checked : Checked t program types τ
  layouts : Layouts t types program constructors_
  linked : Linked M types functions_
  code : ∀ M', Linked M' types functions_ →
    HasCode t types program functions_ constructors_ M.functions M'
  lowered : ∀ fd, .FunctionDefinition fd ∈ program.definitions →
    compilable t types fd.body = true ∧ fits fd.body
  closed : M.Closed

theorem compiled (h : Checked t program types τ)
    (hgenerate : generateModule program t types = .ok M) :
    ∃ functions_,
      Compiled t program types τ functions_ (registerConstructors t types program) M := by
  obtain ⟨functions, functions_, _, hlinked, hcode⟩ := generated_code h hgenerate
  have hwell : M.WellFormed := fun F hF => (generated_wellFormed h hgenerate F hF).1
  exact ⟨functions_, h, layouts h, hlinked, hcode, generateModule_bodies h hgenerate, hwell.closed⟩

namespace Compiled

variable (h : Compiled t program types τ functions_ constructors_ M)

include h

theorem declared {name : String} {s : Symbol} (hs : t.getLocalSymbol getRootScopeId name = some s)
    (hkind : s.kind = .Function) : ∃ n, functions_.find s.id = some n := by
  obtain ⟨fd, hfd, hname, _⟩ := function_declared h.checked.scopes hs hkind
  rw [← hname] at hs
  obtain ⟨n, _, _, hn, _⟩ := (h.code M h.linked).declared fd hfd s hs
  exact ⟨n, hn⟩

/-- The functions that may be called are in the module. -/
theorem called {s : SymbolId} {n : Nat} {signature : FunctionSignature}
    (hn : functions_.find s = some n) (hsignature : types.getFunctionSignature s = some signature) :
    n < M.functions.length := by
  obtain ⟨callee, hcallee, _⟩ := h.linked s n signature hn hsignature
  exact (List.getElem?_eq_some_iff.mp hcallee).1

omit h in
theorem over_linked (hlinked : Linked rest types functions_) :
    Linked (onTop M rest) types functions_ := by
  intro s n signature hn hsignature
  obtain ⟨callee, hcallee, hlength⟩ := hlinked s n signature hn hsignature
  refine ⟨callee, ?_, hlength⟩
  exact (List.getElem?_append_left (List.getElem?_eq_some_iff.mp hcallee).1).trans hcallee

theorem levels_linked (body : List BasicBlock) (k : Nat) :
    Linked (levels M body k) types functions_ := by
  intro s n signature hn hsignature
  obtain ⟨callee, hcallee, hlength⟩ := h.linked s n signature hn hsignature
  obtain ⟨F, hF, hparameters⟩ :=
    (levels_copies M body k).parameters 0 (Nat.zero_le k) n callee hcallee
  exact ⟨F, hF, by rw [hparameters, hlength]⟩

section

variable (hrest : rest.Closed) (hlength : M.functions.length ≤ rest.functions.length)
  (hlinked : Linked rest types functions_)
  (hfollow : CallsFollow t program types functions_ constructors_ rest calls)

include hrest hlength hfollow

theorem over_follows :
    CallsFollow t program types functions_ constructors_ (onTop M rest) calls := by
  intro name s n signature hs hkind hn hsignature m output vs ws hvs hws
  rw [over_old hrest (Nat.lt_of_lt_of_le (h.called hn hsignature) hlength)]
  exact hfollow name s n signature hs hkind hn hsignature m output vs ws hvs hws

include hlinked

omit hfollow in
/-- A function of the program, where it is put over the rest. -/
theorem placed {name : String} {s : Symbol} (hs : t.getLocalSymbol getRootScopeId name = some s)
    (hkind : s.kind = .Function) {n : Nat} (hn : functions_.find s.id = some n)
    {signature : FunctionSignature}
    (hsignature : types.getFunctionSignature s.id = some signature) :
    ∃ fd sid F, .FunctionDefinition fd ∈ program.definitions ∧
      findFunctionById program s.declaration = some fd ∧
      t.getLocalSymbol getRootScopeId fd.name = some s ∧ t.getScopeId fd.id = some sid ∧
      (onTop M rest).functions[rest.functions.length + n]? = some F ∧
      BodyOf (onTop M rest) t functions_ constructors_ fd sid F.blocks ∧
      ∀ ws, callBehaviour (stack M rest) n ws =
        callBehaviour (onTop M rest) (rest.functions.length + n) ws := by
  obtain ⟨fd, hfd, hname, hdeclaration⟩ := function_declared h.checked.scopes hs hkind
  rw [← hname] at hs
  obtain ⟨n', sid, F, hn', hsid, hF, hbodyOf⟩ :=
    (h.code _ (over_linked hlinked)).declared fd hfd s hs
  rw [hn] at hn'
  cases hn'
  refine ⟨fd, sid, F, hfd, ?_, hs, hsid, ?_, hbodyOf, ?_⟩
  · rw [hdeclaration]
    exact findFunctionById_eq h.checked.ids hfd
  · show (rest.functions ++ M.functions)[rest.functions.length + n]? = some F
    rw [List.getElem?_append_right (Nat.le_add_right _ _), Nat.add_sub_cancel_left, hF]
  · exact over_top h.closed hrest hlength (h.called hn hsignature)

/-- On one more level, calls follow those with one more call open. -/
theorem stack_follows : CallsFollow t program types functions_ constructors_ (stack M rest)
    (callBody program t types calls) := by
  intro name s n signature hs hkind hn hsignature m output vs ws hvs hws
  obtain ⟨fd, sid, F, hfd, hfound, hname, hsid, hF, hbodyOf, hplaced⟩ :=
    h.placed hrest hlength hlinked hs hkind hn hsignature
  unfold callBody
  rw [hplaced, hfound]
  exact body_follows h.checked h.layouts (fun _ _ => h.declared)
    (h.over_follows hrest hlength hfollow) hfd (h.lowered fd hfd) hname hsignature hsid hF hbodyOf
    output ⟨hvs, hws⟩

theorem stack_stalls (hstall : CallsStall t program types functions_ constructors_ rest calls) :
    CallsStall t program types functions_ constructors_ (stack M rest)
      (callBody program t types calls) := by
  have hover : CallsStall t program types functions_ constructors_ (onTop M rest) calls := by
    intro name s n signature hs hkind hn hsignature m output vs ws hvs hws
    rw [over_old hrest (Nat.lt_of_lt_of_le (h.called hn hsignature) hlength)]
    exact hstall name s n signature hs hkind hn hsignature m output vs ws hvs hws
  intro name s n signature hs hkind hn hsignature m output vs ws hvs hws
  obtain ⟨fd, sid, F, hfd, hfound, hname, hsid, hF, hbodyOf, hplaced⟩ :=
    h.placed hrest hlength hlinked hs hkind hn hsignature
  unfold callBody
  rw [hplaced, hfound]
  exact body_stalls h.checked h.layouts (fun _ _ => h.declared)
    (h.over_follows hrest hlength hfollow) hover hfd (h.lowered fd hfd) hname hsignature hsid hF
    hbodyOf output ⟨hvs, hws⟩

end

/-! ## Levels -/

variable {body : List BasicBlock} (hbody : ∀ F : llvm.Function, F.blocks = body → ∀ n, ¬ F.Calls n)
  (hlast : CallsFollow t program types functions_ constructors_ (stubs M body) last)

include hbody hlast

theorem levels_follow (k : Nat) : CallsFollow t program types functions_ constructors_
    (levels M body k) (callAbove program t types last k) := by
  induction k with
  | zero => exact hlast
  | succ k ih =>
    obtain ⟨hrest, hlength⟩ := levels_closed h.closed hbody k
    exact h.stack_follows hrest hlength (h.levels_linked body k) ih

theorem levels_stall
    (hstall : CallsStall t program types functions_ constructors_ (stubs M body) last) (k : Nat) :
    CallsStall t program types functions_ constructors_ (levels M body k)
      (callAbove program t types last k) := by
  induction k with
  | zero => exact hstall
  | succ k ih =>
    obtain ⟨hrest, hlength⟩ := levels_closed h.closed hbody k
    exact h.stack_stalls hrest hlength (h.levels_linked body k)
      (h.levels_follow hbody hlast k) ih

omit hbody hlast in
/-- The functions `main` of the module and of the program. -/
theorem main_symbol : ∃ s n signature, t.getLocalSymbol getRootScopeId "main" = some s ∧
    s.kind = .Function ∧ functions_.find s.id = some n ∧
    types.getFunctionSignature s.id = some signature ∧ signature.parameters = [] ∧
    mainIndex M < M.functions.length ∧ ∀ M', Linked M' types functions_ →
      ∃ F, M.functions[mainIndex M]? = some F ∧ MainOf M' n signature.result F := by
  obtain ⟨s, n, signature, F, hs, hkind, hn, hsignature, hnone, hlast, _⟩ :=
    (h.code M h.linked).main
  rw [List.getLast?_eq_getElem?] at hlast
  refine ⟨s, n, signature, hs, hkind, hn, hsignature, hnone,
    (List.getElem?_eq_some_iff.mp hlast).1, fun M' hlinked => ?_⟩
  obtain ⟨s', n', signature', F', hs', _, hn', hsignature', _, hlast', hmain⟩ :=
    (h.code M' hlinked).main
  rw [hs] at hs'
  cases hs'
  rw [hn] at hn'
  cases hn'
  rw [hsignature] at hsignature'
  cases hsignature'
  rw [List.getLast?_eq_getElem?] at hlast'
  exact ⟨F', hlast', hmain⟩

theorem levels_shows {s : Symbol} (hs : t.getLocalSymbol getRootScopeId "main" = some s) (k : Nat) :
    Shows t constructors_ (callBehaviour (levels M body (k + 1)) (mainIndex M) [] [] "")
      (callAbove program t types last k s []) := by
  obtain ⟨hrest, hlength⟩ := levels_closed h.closed hbody k
  obtain ⟨s', n, signature, hs', hkind, hn, hsignature, hnone, hlt, hmain⟩ := h.main_symbol
  rw [hs] at hs'
  cases hs'
  obtain ⟨F, hF, hmain⟩ := hmain _ (over_linked (h.levels_linked body k))
  have hover : (onTop M (levels M body k)).functions[(levels M body k).functions.length +
      mainIndex M]? = some F := by
    show (_ ++ M.functions)[_ + mainIndex M]? = some F
    rw [List.getElem?_append_right (Nat.le_add_right _ _), Nat.add_sub_cancel_left, hF]
  have hfollows := h.over_follows hrest hlength (h.levels_follow hbody hlast k) _ s n signature hs
    hkind hn hsignature [] "" [] [] (by rw [hnone]; exact .nil) .nil
  show Shows t constructors_ (callBehaviour (stack M (levels M body k)) _ [] [] "") _
  rw [over_top h.closed hrest hlength hlt]
  exact main_shows h.checked.scopes h.layouts hmain hover hfollows

theorem levels_main_stalls
    (hstall : CallsStall t program types functions_ constructors_ (stubs M body) last) {s : Symbol}
    (hs : t.getLocalSymbol getRootScopeId "main" = some s) {k : Nat}
    (hfuel : callAbove program t types last k s [] = .error .outOfFuel) :
    callBehaviour (levels M body (k + 1)) (mainIndex M) [] [] "" = .dead := by
  obtain ⟨hrest, hlength⟩ := levels_closed h.closed hbody k
  obtain ⟨s', n, signature, hs', hkind, hn, hsignature, hnone, hlt, hmain⟩ := h.main_symbol
  rw [hs] at hs'
  cases hs'
  obtain ⟨F, hF, hmain⟩ := hmain _ (over_linked (h.levels_linked body k))
  obtain ⟨_, _, b, hblocks, hcodes⟩ := hmain
  have hover : (onTop M (levels M body k)).functions[(levels M body k).functions.length +
      mainIndex M]? = some F := by
    show (_ ++ M.functions)[_ + mainIndex M]? = some F
    rw [List.getElem?_append_right (Nat.le_add_right _ _), Nat.add_sub_cancel_left, hF]
  have hstalls := h.levels_stall hbody hlast hstall k _ s n signature hs hkind hn hsignature [] ""
    [] [] (by rw [hnone]; exact .nil) .nil
  show callBehaviour (stack M (levels M body k)) _ [] [] "" = .dead
  rw [over_top h.closed hrest hlength hlt, hcodes.call hover hblocks [], Behaviour.bind_run,
    over_old hrest (Nat.lt_of_lt_of_le (h.called hn hsignature) hlength),
    hstalls .outOfFuel hfuel rfl]

end Compiled

/-! ## Runs of `main` -/

/-- The machine goes on forever, each step defined. -/
def Endless (M : Module) (S : State) : Prop := ∀ S', Steps M S S' → (step M S').isSome = true

namespace Compiled

variable (h : Compiled t program types τ functions_ constructors_ M)

include h

/-- A run that halts is that of an evaluation that ends. -/
theorem main_halts {F : State} (hF : F.Halted) (hrun : Steps M (startState M) F) :
    ∃ outcome, MainEnds t program types outcome ∧ Shows t constructors_ F.outcome outcome := by
  obtain ⟨s, n, signature, hs, hkind, hn, hsignature, hnone, hlt, _⟩ := h.main_symbol
  obtain ⟨l, hl⟩ := steps_iff_stepsFrom.mp hrun
  have hfollow :
      CallsFollow t program types functions_ constructors_ (stubs M loopBody) noFuel := by
    intro name s n signature _ _ _ _ m output vs ws _ _
    exact .other (by simp [Trapped])
  have hstall : CallsStall t program types functions_ constructors_ (stubs M loopBody) noFuel := by
    intro name s n signature _ _ hn hsignature m output vs ws _ _ _ _ _
    exact loopStub_dead (h.called hn hsignature) ws m output
  have houtcome := levels_halts h.closed hlt hl loopBody (Nat.le_succ l) hF
  refine ⟨callWithin program t types l s [], ⟨s, hs, ?_, l, rfl⟩, ?_⟩
  · intro hfuel
    rw [← callAbove_noFuel] at hfuel
    rw [h.levels_main_stalls loopBody_calls hfollow hstall hs hfuel] at houtcome
    cases F with
    | running => exact hF
    | finished v m output => cases houtcome
    | trapped output => cases houtcome
  · rw [← callAbove_noFuel, ← houtcome]
    exact h.levels_shows loopBody_calls hfollow hs l

theorem main_fault {s : Symbol} (hs : t.getLocalSymbol getRootScopeId "main" = some s) {k : Nat}
    {fault : Fault} (hfault : callWithin program t types k s [] = .error fault) :
    fault = .outOfFuel ∨ fault = .NoMatchingBranch ∨ Fault.OfDivision fault := by
  obtain ⟨s', n, signature, hs', hkind, _, hsignature, hnone, _⟩ := h.main_symbol
  rw [hs] at hs'
  cases hs'
  have hvs : List.Forall₂ (ValueHasType t program) ([] : List Datum) signature.parameters := by
    rw [hnone]
    exact .nil
  have hspec := callWithin_spec h.checked (fun fd hfd => (h.lowered fd hfd).1) k hs hkind
    hsignature hvs
  rw [hfault] at hspec
  rcases hspec with heq | hcomes
  · exact .inl heq
  · exact .inr hcomes.fault.symm

/-- Where `main` has no next step, evaluation is at a division. -/
theorem main_stuck {S : State} (hS : ¬ S.Halted) (hrun : Steps M (startState M) S)
    (hstuck : step M S = none) :
    ∃ fault, Fault.OfDivision fault ∧ MainEnds t program types (.error fault) := by
  obtain ⟨s, n, signature, hs, hkind, hn, hsignature, hnone, hlt, _⟩ := h.main_symbol
  obtain ⟨l, hl⟩ := steps_iff_stepsFrom.mp hrun
  have hfollow : CallsFollow t program types functions_ constructors_ (stubs M trapBody)
      noBranch := by
    intro name s n signature _ _ hn hsignature m output vs ws _ _ _
    exact trapStub_traps (h.called hn hsignature) ws m output
  have houtcome := levels_stuck h.closed hlt hl trapBody (Nat.lt_succ_self l) hS hstuck
  have hshows := h.levels_shows trapBody_calls hfollow hs l
  rw [houtcome] at hshows
  have hfuel : BranchForFuel Datum (callWithin program t types l s [])
    (callAbove program t types noBranch l s []) := callAbove_noBranch l s []
  cases hx : callWithin program t types l s [] with
  | ok v =>
    rw [hx] at hfuel
    rw [hfuel.1 (by simp)] at hshows
    obtain ⟨line, m, _, heq⟩ := hshows
    cases heq
  | error fault =>
    rw [hx] at hfuel
    rcases h.main_fault hs hx with rfl | rfl | hdivision
    · rw [hfuel.2 rfl] at hshows
      cases hshows rfl
    · rw [hfuel.1 (by simp)] at hshows
      cases hshows rfl
    · refine ⟨fault, hdivision, s, hs, ?_, l, hx⟩
      intro heq
      cases heq
      rcases hdivision with heq | heq
      · cases heq
      · cases heq

theorem main_follows {outcome : Evaluated Datum} (hends : MainEnds t program types outcome) :
    MainFollows t constructors_ M outcome := by
  obtain ⟨s, hs, hcall⟩ := hends
  obtain ⟨hdeclared, hmain⟩ := h.code M h.linked
  exact mainFollows h.checked h.layouts ⟨h.linked, hdeclared, hmain⟩ h.lowered hs hcall

end Compiled

/-! ## All that `main` does -/

/-- What the run of `main` is for each way in which evaluation of the program's may
go: it prints the value and returns 0, it traps, or it goes on forever. Every
step of it is defined. -/
structure MainBehaves (t : ScopeTree) (program : Program) (types : TypeTable)
    (constructors_ : AssocMap SymbolId ConstructorLayout) (M : Module) : Prop where
  prints : ∀ line, (∃ v, MainEnds t program types (.ok v) ∧ shown t constructors_ v = some line) ↔
    ∃ m, Steps M (startState M) (.finished (.int32 0) m (line ++ "\n"))
  traps : MainEnds t program types (.error .NoMatchingBranch) ↔
    Steps M (startState M) (.trapped "")
  endless : (∀ outcome, ¬ MainEnds t program types outcome) ↔ Endless M (startState M)
  halts : ∀ F, F.Halted → Steps M (startState M) F →
    F = .trapped "" ∨ ∃ m line, F = .finished (.int32 0) m (line ++ "\n")
  defined : ∀ S, Steps M (startState M) S → S.Halted ∨ (step M S).isSome = true

section

variable (h : Compiled t program types τ functions_ constructors_ M)

include h

theorem Compiled.main_outcome {outcome : Evaluated Datum}
    (hends : MainEnds t program types outcome) :
    (∃ v, outcome = .ok v) ∨ outcome = .error .NoMatchingBranch ∨
      ∃ fault, outcome = .error fault ∧ Fault.OfDivision fault := by
  cases outcome with
  | ok v => exact .inl ⟨v, rfl⟩
  | error fault =>
    obtain ⟨s, hs, hfuel, k, hk⟩ := hends
    rcases h.main_fault hs hk with rfl | rfl | hdivision
    · exact absurd rfl hfuel
    · exact .inr (.inl rfl)
    · exact .inr (.inr ⟨fault, rfl, hdivision⟩)

variable (hdivision : ∀ fault, Fault.OfDivision fault → ¬ MainEnds t program types (.error fault))

include hdivision

/-- The run halts with what evaluation comes to. -/
theorem Compiled.halts_with {F : State} (hF : F.Halted) (hrun : Steps M (startState M) F) :
    (∃ v line m, MainEnds t program types (.ok v) ∧ shown t constructors_ v = some line ∧
      F = .finished (.int32 0) m (line ++ "\n")) ∨
    (MainEnds t program types (.error .NoMatchingBranch) ∧ F = .trapped "") := by
  obtain ⟨outcome, hends, hshows⟩ := h.main_halts hF hrun
  rcases h.main_outcome hends with ⟨v, rfl⟩ | rfl | ⟨fault, rfl, hfault⟩
  · obtain ⟨line, m, hline, hout⟩ := hshows
    refine .inl ⟨v, line, m, hends, hline, ?_⟩
    cases F with
    | running => exact absurd hF id
    | finished w m' output =>
      cases hout
      rfl
    | trapped output => cases hout
  · refine .inr ⟨hends, ?_⟩
    have hout := hshows rfl
    cases F with
    | running => exact absurd hF id
    | finished w m' output => cases hout
    | trapped output =>
      cases hout
      rfl
  · exact absurd hends (hdivision fault hfault)

theorem Compiled.defined {S : State} (hrun : Steps M (startState M) S) :
    S.Halted ∨ (step M S).isSome = true := by
  by_cases hS : S.Halted
  · exact .inl hS
  · right
    cases hstep : step M S with
    | some S' => rfl
    | none =>
      obtain ⟨fault, hfault, hends⟩ := h.main_stuck hS hrun hstep
      exact absurd hends (hdivision fault hfault)

theorem Compiled.behaves : MainBehaves t program types constructors_ M := by
  have hhalted : ∀ {outcome}, MainEnds t program types outcome →
      ∃ F, F.Halted ∧ Steps M (startState M) F := by
    intro outcome hends
    have hfollows := h.main_follows hends
    rcases h.main_outcome hends with ⟨v, rfl⟩ | rfl | ⟨fault, rfl, hfault⟩
    · obtain ⟨line, m, _, hrun⟩ := hfollows
      exact ⟨.finished (.int32 0) m (line ++ "\n"), trivial, hrun⟩
    · exact ⟨.trapped "", trivial, hfollows rfl⟩
    · exact absurd hends (hdivision fault hfault)
  constructor
  · intro line
    constructor
    · rintro ⟨v, hends, hline⟩
      obtain ⟨line', m, hline', hrun⟩ := h.main_follows hends
      rw [hline] at hline'
      cases hline'
      exact ⟨m, hrun⟩
    · rintro ⟨m, hrun⟩
      rcases h.halts_with hdivision (F := .finished _ _ _) trivial hrun with
        ⟨v, line', m', hends, hline, heq⟩ | ⟨_, heq⟩
      · have hout := (State.finished.inj heq).2.2
        refine ⟨v, hends, ?_⟩
        rw [hline, (String.append_left_inj "\n").mp hout]
      · cases heq
  · constructor
    · exact fun hends => h.main_follows hends rfl
    · intro hrun
      rcases h.halts_with hdivision (F := .trapped _) trivial hrun with
        ⟨_, _, _, _, _, heq⟩ | ⟨hends, _⟩
      · cases heq
      · exact hends
  · constructor
    · intro hnever S hrun
      rcases h.defined hdivision hrun with hS | hstep
      · obtain ⟨outcome, hends, _⟩ := h.main_halts hS hrun
        exact absurd hends (hnever outcome)
      · exact hstep
    · intro hendless outcome hends
      obtain ⟨F, hF, hrun⟩ := hhalted hends
      have hstep := hendless F hrun
      rw [step_halted hF] at hstep
      cases hstep
  · intro F hF hrun
    rcases h.halts_with hdivision hF hrun with ⟨_, line, m, _, _, rfl⟩ | ⟨_, rfl⟩
    · exact .inr ⟨m, line, rfl⟩
    · exact .inl rfl
  · exact fun S hrun => h.defined hdivision hrun

end

variable {tokens : TokenVector} {p : ParsedProgram} {result : TypeAnalysisResult}

/-- The run of the module of an accepted program, for each way in which evaluation
of `main` may go but to a fault of a division. The tokens are the scanner's. -/
theorem main_behaves (hl : tokens.Lexed) (hp : parse tokens = .ok p) (hok : (analyze p).ok)
    (hrun : analyzeTypes p (analyze p) = some result) (hresult : result.ok)
    (hgenerate : generateModule p.ast (analyze p).scopes result.types = .ok M)
    (hdivision : ∀ fault, Fault.OfDivision fault →
      ¬ MainEnds (analyze p).scopes p.ast result.types (.error fault)) :
    MainBehaves (analyze p).scopes p.ast result.types
      (registerConstructors (analyze p).scopes result.types p.ast) M := by
  obtain ⟨τ, h⟩ := checked hl hp hok hrun hresult
  obtain ⟨functions_, hcompiled⟩ := compiled h hgenerate
  exact hcompiled.behaves hdivision

/-- The module of `callProgram` prints 1. -/
theorem main_behaves_call : ∃ result M,
    analyzeTypes callProgram (analyze callProgram) = some result ∧
      generateModule callProgram.ast (analyze callProgram).scopes result.types = .ok M ∧
      MainBehaves (analyze callProgram).scopes callProgram.ast result.types
        (registerConstructors (analyze callProgram).scopes result.types callProgram.ast) M ∧
      MainEnds (analyze callProgram).scopes callProgram.ast result.types (.ok (.int 1)) := by
  obtain ⟨result, M, hrun, hresult, hgenerate, _⟩ := callProgram_generated
  have hends : MainEnds (analyze callProgram).scopes callProgram.ast result.types
      (.ok (.int 1)) := ⟨⟨2, "main", .Function, 5⟩, rfl, by simp, 2, rfl⟩
  refine ⟨result, M, hrun, hgenerate, ?_, hends⟩
  apply main_behaves (show callTokens.Lexed by decide) callProgram_parse rfl hrun hresult hgenerate
  intro fault _ hfault
  cases hends.unique hfault

end mf.visitors
