-- No call that the generator emits has more arguments than a vector of
-- pointers can hold, so no size in bytes wraps around.
import MiniFunctional.GeneratorRuns

open mf.util mf.ast mf.semantics llvm

namespace mf.visitors

/-- The longest vector of pointers. -/
def maxPointers : Nat := 0xFFFFFFFFFFFFFFF

mutual

@[simp] def fits : Expression → Prop
  | .IntLiteral _ _ => True
  | .Variable _ _ => True
  | .BinaryOperator _ _ left right => fits left ∧ fits right
  | .Application _ function argument => fitsCallee function 1 ∧ fits argument
  | .CaseExpression _ scrutinee branches => fits scrutinee ∧ fitsBranches branches

/-- The expression has `n` arguments. -/
@[simp] def fitsCallee : Expression → Nat → Prop
  | .Application _ function argument, n => fitsCallee function (n + 1) ∧ fits argument
  | .Variable _ _, n => n ≤ maxPointers
  | .IntLiteral _ _, _ => True
  | .BinaryOperator _ _ _ _, _ => True
  | .CaseExpression _ _ _, _ => True

/-- The branches behind one that matches everything are not emitted. -/
@[simp] def fitsBranches : List Branch → Prop
  | [] => True
  | ⟨_, .VariablePattern _ _, body⟩ :: _ => fits body
  | ⟨_, .ConstructorPattern _ _ _, body⟩ :: branches => fits body ∧ fitsBranches branches

end

/-! ## Computations that return only if something holds -/

variable {α β : Type}

def Requires (x : Gen α) (P : Prop) : Prop := ∀ g, Ensures x g (fun _ => True) fun _ _ => P

variable {x : Gen α} {P Q : Prop}

theorem requires_throw (e : GenerateError) : Requires (throw e : Gen α) P :=
  fun _ => ensures_throw trivial

theorem requires_of (h : P) : Requires x P := fun _ => ensures_of_ok fun _ _ _ => h

theorem Requires.left (h : Requires x P) (f : α → Gen β) : Requires (x >>= f) P :=
  fun g => ensures_bind ((h g).mono fun _ _ hp => ensures_of_ok fun _ _ _ => hp)

theorem requires_bind {f : α → Gen β} (h : ∀ a, Requires (f a) P) : Requires (x >>= f) P :=
  fun _ => ensures_bind (ensures_of_ok fun a g1 _ => h a g1)

theorem Requires.and (h : Requires x P) (h' : Requires x Q) : Requires x (P ∧ Q) :=
  fun g => ensures_of_ok fun _ _ hx => ⟨(h g).of_ok hx, (h' g).of_ok hx⟩

theorem Requires.mono (h : Requires x P) (hq : P → Q) : Requires x Q :=
  fun g => (h g).mono fun _ _ => hq

/-! ## Expressions -/

variable {scopes : ScopeTree} {types : TypeTable} {functions_ : AssocMap SymbolId Nat}
  {constructors_ : AssocMap SymbolId ConstructorLayout}

theorem requires_reserve (count : Nat) {bytes : Nat} (hbytes : 8 ≤ bytes) :
    Requires (reserve count bytes) (count ≤ maxPointers) := by
  intro g
  unfold reserve
  split
  · exact ensures_throw trivial
  · rename_i hcount
    apply ensures_pure
    have hle : 0x7FFFFFFFFFFFFFFF / bytes ≤ 0x7FFFFFFFFFFFFFFF / 8 :=
      Nat.div_le_div_left hbytes (by decide)
    exact Nat.le_trans (Nat.le_of_not_lt hcount) hle

section

variable (scopes types functions_ constructors_)

/-- The generator emits the expression only if it fits. -/
def EmitsFitting (e : Expression) : Prop :=
  Requires (emitExpression scopes types functions_ constructors_ e) (fits e)

def EmitsFittingCallee (e : Expression) : Prop :=
  ∀ arguments : List Expression,
    (∀ a ∈ arguments, EmitsFitting scopes types functions_ constructors_ a) →
    Requires (emitApplication scopes types functions_ constructors_ e
        (arguments.map (emitExpression scopes types functions_ constructors_)))
      (fitsCallee e arguments.length ∧ ∀ a ∈ arguments, fits a)

end

theorem requires_arguments {arguments : List Expression}
    (h : ∀ a ∈ arguments, EmitsFitting scopes types functions_ constructors_ a) :
    Requires (emitArguments (arguments.map
        (emitExpression scopes types functions_ constructors_))) (∀ a ∈ arguments, fits a) := by
  induction arguments with
  | nil => exact requires_of (by simp)
  | cons a arguments ih =>
    simp only [List.map_cons, emitArguments, List.forall_mem_cons] at h ⊢
    exact (h.1.left _).and (requires_bind fun _ => (ih h.2).left _)

theorem requires_call (id : NodeId) (name : String) :
    EmitsFittingCallee scopes types functions_ constructors_ (.Variable id name) := by
  intro arguments ih
  have hcall : ∀ {bytes : Nat} {f : List TypedValue → Gen TypedValue}, 8 ≤ bytes →
      Requires (do
        reserve (arguments.map (emitExpression scopes types functions_ constructors_)).length bytes
        let values ← emitArguments (arguments.map
          (emitExpression scopes types functions_ constructors_))
        f values) (arguments.length ≤ maxPointers ∧ ∀ a ∈ arguments, fits a) := by
    intro bytes f hbytes
    have hreserve := requires_reserve arguments.length hbytes
    rw [← List.length_map (emitExpression scopes types functions_ constructors_)] at hreserve
    rw [← List.length_map (emitExpression scopes types functions_ constructors_)]
    exact (hreserve.left _).and (requires_bind fun _ => (requires_arguments ih).left _)
  simp only [emitApplication, emitCall, fitsCallee]
  cases scopes.getResolvedSymbol id with
  | none => exact requires_throw _
  | some symbol =>
    cases hkind : symbol.kind with
    | Function =>
      simp only [hkind, emitFunctionCall]
      cases functions_.find symbol.id with
      | none => exact requires_throw _
      | some function =>
        simp only
        split
        · exact requires_throw _
        · exact hcall (by decide)
    | Constructor =>
      simp only [hkind, emitConstructorCall]
      refine requires_bind fun layout => ?_
      split
      · exact hcall (by decide)
      · exact requires_throw _
    | _ =>
      simp only [hkind]
      exact requires_throw _

theorem requires_switchBranches {branches : List Branch}
    (h : ∀ b ∈ branches, EmitsFitting scopes types functions_ constructors_ b.body)
    (scrutinee : TypedValue) (switch_block merge_block : BlockId)
    (incoming : List (TypedValue × BlockId)) :
    Requires (emitSwitchBranches scopes types functions_ constructors_ branches scrutinee
      switch_block merge_block incoming) (fitsBranches branches) := by
  induction branches generalizing incoming with
  | nil => exact requires_of trivial
  | cons b branches ih =>
    obtain ⟨bid, pattern, body⟩ := b
    rw [List.forall_mem_cons] at h
    cases pattern with
    | VariablePattern id name => exact requires_throw _
    | ConstructorPattern id name arguments =>
      simp only [emitSwitchBranches, fitsBranches]
      refine Requires.and ?_ (requires_bind fun _ => ih h.2 _)
      apply Requires.left
      unfold emitSwitchBranch emitBranchBody
      exact requires_bind fun _ => requires_bind fun _ => requires_bind fun _ =>
        requires_bind fun _ =>
        requires_bind fun _ => requires_bind fun _ => requires_bind fun _ =>
          ((h.1.left _).left _)

theorem requires_sequentialBranches {branches : List Branch}
    (h : ∀ b ∈ branches, EmitsFitting scopes types functions_ constructors_ b.body)
    (scrutinee : TypedValue) (merge_block : BlockId) (incoming : List (TypedValue × BlockId)) :
    Requires (emitSequentialBranches scopes types functions_ constructors_ branches scrutinee
      merge_block incoming) (fitsBranches branches) := by
  induction branches generalizing incoming with
  | nil => exact requires_of trivial
  | cons b branches ih =>
    obtain ⟨bid, pattern, body⟩ := b
    rw [List.forall_mem_cons] at h
    cases pattern with
    | VariablePattern id name =>
      simp only [emitSequentialBranches, fitsBranches]
      unfold emitBranchBody
      exact requires_bind fun _ => ((h.1.left _).left _)
    | ConstructorPattern id name arguments =>
      simp only [emitSequentialBranches, fitsBranches]
      refine Requires.and ?_ (requires_bind fun _ => ih h.2 _)
      apply Requires.left
      unfold emitConstructorCaseBranch emitBranchBody
      exact requires_bind fun _ => requires_bind fun _ => requires_bind fun _ =>
        requires_bind fun _ =>
        requires_bind fun _ => requires_bind fun _ => requires_bind fun _ => requires_bind fun _ =>
        requires_bind fun _ => requires_bind fun _ => ((h.1.left _).left _)

theorem requires_fits (e : Expression) :
    EmitsFitting scopes types functions_ constructors_ e ∧
      EmitsFittingCallee scopes types functions_ constructors_ e := by
  have hthrow : ∀ {e : Expression}, (∀ arguments, emitApplication scopes types functions_
      constructors_ e arguments = throw .OnlyNamedAreCallable) →
      EmitsFittingCallee scopes types functions_ constructors_ e := by
    intro e he arguments _
    rw [he]
    exact requires_throw _
  induction e with
  | IntLiteral id value => exact ⟨requires_of trivial, hthrow fun _ => rfl⟩
  | Variable id name => exact ⟨requires_of trivial, requires_call id name⟩
  | BinaryOperator kind id left right ihl ihr =>
    refine ⟨?_, hthrow fun _ => rfl⟩
    simp only [EmitsFitting, emitExpression, fits]
    exact (ihl.1.left _).and (requires_bind fun _ => ihr.1.left _)
  | Application id f a ihf iha =>
    constructor
    · have hcall := ihf.2 [a] (by simpa using iha.1)
      exact hcall.mono fun hfits => ⟨hfits.1, hfits.2 a List.mem_cons_self⟩
    · intro arguments ih
      have hcall := ihf.2 (a :: arguments) (List.forall_mem_cons.mpr ⟨iha.1, ih⟩)
      refine hcall.mono fun hfits => ?_
      rw [List.forall_mem_cons] at hfits
      exact ⟨⟨hfits.1, hfits.2.1⟩, hfits.2.2⟩
  | CaseExpression id scrutinee branches ihs ihb =>
    refine ⟨?_, hthrow fun _ => rfl⟩
    have hb : ∀ b ∈ branches, EmitsFitting scopes types functions_ constructors_ b.body :=
      fun b hb => (ihb b hb).1
    simp only [EmitsFitting, emitExpression, fits]
    refine (ihs.1.left _).and (requires_bind fun value => ?_)
    split
    · unfold emitSwitchCaseExpression
      exact requires_bind fun _ => requires_bind fun _ => requires_bind fun _ =>
        requires_bind fun _ =>
        requires_bind fun _ => (requires_switchBranches hb value _ _ []).left _
    · unfold emitSequentialCaseExpression
      exact requires_bind fun _ => (requires_sequentialBranches hb value _ []).left _

/-! ## Programs -/

theorem requires_function (fd : FunctionDefinition) {s : Symbol} {n : Nat}
    {signature : FunctionSignature} (hs : getRootSymbol scopes fd.name .Function = some s)
    (hn : functions_.find s.id = some n) (hsignature : types.getFunctionSignature s.id =
      some signature) :
    Requires (defineFunction scopes types functions_ constructors_ fd) (fits fd.body) := by
  unfold defineFunction
  simp only [hs, hn, hsignature]
  refine requires_bind fun _ => ?_
  split
  · exact requires_throw _
  · unfold emitFunctionBody
    exact requires_bind fun _ => requires_bind fun _ => (requires_fits fd.body).1.left _

theorem requires_functions {definitions : List Definition} {fd : FunctionDefinition}
    (hfd : .FunctionDefinition fd ∈ definitions) {s : Symbol} {n : Nat}
    {signature : FunctionSignature} (hs : getRootSymbol scopes fd.name .Function = some s)
    (hn : functions_.find s.id = some n) (hsignature : types.getFunctionSignature s.id =
      some signature) :
    Requires (defineFunctions scopes types functions_ constructors_ definitions)
    (fits fd.body) := by
  induction definitions with
  | nil => simp at hfd
  | cons d definitions ih =>
    rcases List.mem_cons.mp hfd with rfl | hrest
    · exact (requires_function fd hs hn hsignature).left _
    · cases d with
      | DataTypeDefinition dt => exact ih hrest
      | FunctionDefinition fd' => exact requires_bind fun _ => ih hrest

end mf.visitors
