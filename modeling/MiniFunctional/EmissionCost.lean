-- What emitting an expression builds is paid for by the words that the
-- expression is written with: no expression is emitted twice.
import MiniFunctional.GeneratorRuns
import MiniFunctional.GeneratorTables
import MiniFunctional.IrSize

open mf.util mf.ast mf.semantics llvm ExceptLaws

namespace mf.visitors

/-! ## Words -/

def Pattern.words : Pattern → Nat
  | .VariablePattern _ _ => 1
  | .ConstructorPattern _ _ arguments => arguments.length + 1

mutual

/-- The names, literals, operators and `case` keywords of an expression. -/
@[simp] def wordsOf : Expression → Nat
  | .IntLiteral _ _ => 1
  | .Variable _ _ => 1
  | .BinaryOperator _ _ l r => wordsOf l + wordsOf r + 1
  | .Application _ f a => wordsOf f + wordsOf a
  | .CaseExpression _ s bs => wordsOf s + wordsOfBranches bs + 1

@[simp] def wordsOfBranches : List Branch → Nat
  | [] => 0
  | ⟨_, p, e⟩ :: bs => Pattern.words p + wordsOf e + wordsOfBranches bs

end

/-- The names of a function definition and the words of its body. -/
def Definition.words : Definition → Nat
  | .FunctionDefinition fd => fd.parameters.length + wordsOf fd.body + 1
  | .DataTypeDefinition _ => 0

/-! ## What a computation builds -/

section

variable {α β : Type}

/-- Building is paid out of `budget`; what the computation returns says how much is left. -/
def Pays (budget : Nat) (x : Gen α) (rest : α → Nat) : Prop :=
  ∀ g, Ensures x g (fun _ => True) fun a g' =>
    g'.functions = g.functions ∧ g'.builder.size + rest a ≤ g.builder.size + budget

/-- No more than `cost` is built. -/
abbrev Spends (cost : Nat) (x : Gen α) : Prop := Pays cost x fun _ => 0

variable {x : Gen α} {f : α → Gen β} {rest : α → Nat} {n m : Nat}

theorem Pays.mono {n' : Nat} {rest' : α → Nat} (h : Pays n x rest) (hn : n + m ≤ n')
    (hrest : ∀ a, rest' a ≤ rest a + m) : Pays n' x rest' := by
  intro g
  apply (h g).mono
  rintro a g' ⟨hfunctions, hsize⟩
  have := hrest a
  exact ⟨hfunctions, by omega⟩

theorem Pays.bind {rest' : β → Nat} (h : Pays n x rest) (hf : ∀ a, Pays (rest a) (f a) rest') :
    Pays n (x >>= f) rest' := by
  intro g
  apply ensures_bind
  apply (h g).mono
  rintro a g1 ⟨hfunctions, hsize⟩
  apply (hf a g1).mono
  rintro b g2 ⟨hfunctions', hsize'⟩
  exact ⟨hfunctions'.trans hfunctions, by omega⟩

/-- What the first leaves of its budget is for the second. -/
theorem Spends.bind {rest' : β → Nat} (h : Spends n x) (hf : ∀ a, Pays m (f a) rest') :
    Pays (m + n) (x >>= f) rest' :=
  Pays.bind (h.mono (m := m) (by omega) fun _ => by simp) hf

theorem pays_return {a : α} (h : rest a ≤ n) : Pays n (pure a) rest :=
  fun _ => ensures_pure a ⟨rfl, Nat.add_le_add_left h _⟩

theorem pays_pure (a : α) : Pays (rest a) (pure a) rest := pays_return (Nat.le_refl _)

theorem pays_throw (n : Nat) (e : GenerateError) (rest : α → Nat) :
    Pays n (throw e : Gen α) rest :=
  fun _ => ensures_throw trivial

theorem spends_withBuilder {b : Builder → α × Builder}
    (h : ∀ builder, (b builder).2.size ≤ builder.size + n) : Spends n (withBuilder b) :=
  fun g => ensures_withBuilder ⟨rfl, h g.builder⟩

theorem spends_createInstruction (i : Instruction) : Spends i.size (createInstruction i) :=
  spends_withBuilder fun b => b.size_insert i

theorem spends_createTerminator (t : Terminator) : Spends t.size (createTerminator t) :=
  spends_withBuilder fun b => b.size_terminate t

theorem spends_createBlock : Spends 1 createBlock :=
  spends_withBuilder fun b => Nat.le_of_eq b.size_createBlock

theorem spends_setInsertPoint (block : BlockId) : Spends 0 (setInsertPoint block) :=
  spends_withBuilder fun _ => Nat.le_refl _

theorem spends_getInsertBlock : Spends 0 getInsertBlock :=
  spends_withBuilder fun _ => Nat.le_refl _

theorem spends_hasTerminator : Spends 0 hasTerminator :=
  spends_withBuilder fun _ => Nat.le_refl _

theorem spends_getLocals : Spends 0 getLocals := fun _ => ensures_getLocals ⟨rfl, Nat.le_refl _⟩

theorem spends_setLocals (locals_ : AssocMap SymbolId TypedValue) : Spends 0 (setLocals locals_) :=
  fun _ => ensures_setLocals ⟨rfl, Nat.le_refl _⟩

theorem spends_setLocal (id : SymbolId) (value : TypedValue) : Spends 0 (setLocal id value) :=
  fun _ => ensures_setLocal ⟨rfl, Nat.le_refl _⟩

theorem spends_reserve (count bytes : Nat) : Spends 0 (reserve count bytes) :=
  fun _ => ensures_reserve ⟨rfl, Nat.le_refl _⟩ trivial

theorem spends_createStructGEP (node : Operand) (field : Nat) :
    Spends 1 (createStructGEP node field) :=
  spends_createInstruction _

theorem spends_createInBoundsGEP (fields : Operand) (index : Nat) :
    Spends 1 (createInBoundsGEP fields index) :=
  spends_createInstruction _

theorem spends_load (type : Ty) (pointer : Operand) :
    Spends 1 (createInstruction (.load type pointer)) :=
  spends_createInstruction _

theorem spends_createStore (value pointer : Operand) : Spends 1 (createStore value pointer) :=
  (spends_createInstruction (.store value pointer)).bind fun _ => pays_pure ()

theorem spends_packValue (value : Operand) (type : TypeVariant) :
    Spends 1 (packValue value type) := by
  cases type with
  | IntType => exact pays_return (Nat.zero_le 1)
  | DataType d => exact spends_createInstruction _
  | FunctionType P R => exact pays_throw _ _ _

theorem spends_unpackValue (value : Operand) (type : TypeVariant) :
    Spends 1 (unpackValue value type) := by
  cases type with
  | IntType => exact pays_return (Nat.zero_le 1)
  | DataType d => exact spends_createInstruction _
  | FunctionType P R => exact pays_throw _ _ _

theorem spends_loadTag (node : Operand) : Spends 2 (loadTag node) :=
  (spends_createStructGEP node 0).bind fun _ => spends_load _ _

theorem spends_loadField (node : Operand) (index : Nat) (type : TypeVariant) :
    Spends 5 (loadField node index type) := by
  unfold loadField
  apply (spends_createStructGEP node 2).bind
  intro fields_ptr
  apply (spends_load .ptr fields_ptr).bind
  intro fields
  apply (spends_createInBoundsGEP fields index).bind
  intro field_ptr
  apply (spends_load .i64 field_ptr).bind
  intro packed
  exact spends_unpackValue packed type

theorem spends_emitTrap : Spends 2 emitTrap :=
  (spends_createInstruction (.call .trap [])).bind fun _ => spends_createTerminator .unreachable

/-! ## Constructed values -/

theorem spends_storeFields (fields : Operand) (index : Nat) (arguments : List TypedValue)
    (types : List TypeVariant) :
    Spends (3 * arguments.length) (storeFields fields index arguments types) := by
  induction arguments generalizing index types with
  | nil => exact pays_pure ()
  | cons argument arguments ih =>
    cases types with
    | nil => exact pays_throw _ _ _
    | cons type types =>
      unfold storeFields
      rw [List.length_cons, Nat.mul_succ]
      apply (spends_createInBoundsGEP fields index).bind (m := 3 * arguments.length + 2)
      intro slot
      apply (spends_packValue argument.value type).bind (m := 3 * arguments.length + 1)
      intro packed
      apply (spends_createStore packed slot).bind
      intro _
      exact ih (index + 1) types

theorem spends_emitFields (layout : ConstructorLayout) (arguments : List TypedValue) :
    Spends (3 * arguments.length + 3) (emitFields layout arguments) := by
  unfold emitFields
  by_cases hempty : arguments.isEmpty
  · rw [if_pos hempty]
    exact pays_return (Nat.zero_le _)
  · rw [if_neg hempty]
    apply (spends_withBuilder fun b => b.size_createBinary _ _ _).bind
      (m := 3 * arguments.length + 2)
    intro bytes
    apply (spends_createInstruction (.call .malloc [bytes])).bind (m := 3 * arguments.length)
    intro fields
    apply Pays.bind (spends_storeFields fields 0 arguments layout.fields)
    intro _
    exact pays_pure fields

theorem spends_emitConstructedValue {layout : ConstructorLayout} {arguments : List TypedValue}
    {n : Nat} (h : Spends n (emitFields layout arguments)) :
    Spends (n + 8) (emitConstructedValue layout arguments) := by
  unfold emitConstructedValue
  apply (spends_createInstruction (.call .malloc [i64 kNodeBytes])).bind (m := n + 6)
  intro node
  apply (spends_createStructGEP node 0).bind (m := n + 5)
  intro tag_ptr
  apply (spends_createStore _ tag_ptr).bind (m := n + 4)
  intro _
  apply (spends_createStructGEP node 1).bind (m := n + 3)
  intro arity_ptr
  apply (spends_createStore _ arity_ptr).bind (m := n + 2)
  intro _
  rw [Nat.add_comm n 2]
  apply h.bind
  intro fields
  apply (spends_createStructGEP node 2).bind (m := 1)
  intro fields_ptr
  apply (spends_createStore fields fields_ptr).bind (m := 0)
  intro _
  exact pays_pure _

/-! ## Calls -/

/-- An expression of so many words leaves what storing its value as an argument takes. -/
def Affords (words : Nat) (x : Gen TypedValue) : Prop := Pays (14 * words) x fun _ => 3

theorem affords_succ {words : Nat} {x : Gen TypedValue}
    (h : Pays (14 * words + 14) x fun _ => 3) : Affords (words + 1) x := h

inductive AffordsAll : Nat → List (Gen TypedValue) → Prop
  | nil : AffordsAll 0 []
  | cons {words words' : Nat} {x : Gen TypedValue} {xs : List (Gen TypedValue)} :
      Affords words x → AffordsAll words' xs → AffordsAll (words + words') (x :: xs)

theorem AffordsAll.pays {words : Nat} {xs : List (Gen TypedValue)} (h : AffordsAll words xs) :
    Pays (14 * words) (emitArguments xs) fun values => 3 * values.length := by
  induction h with
  | nil => exact pays_pure []
  | @cons words words' x xs hx _ ih =>
    unfold emitArguments
    apply Pays.bind (hx.mono (m := 14 * words') (by omega) fun _ => Nat.le_refl _)
    intro value
    apply Pays.bind (ih.mono (m := 3) (by omega) fun _ => Nat.le_refl _)
    intro values
    exact pays_return (by simp only [List.length_cons]; omega)

section

variable {scopes : ScopeTree} {types : TypeTable} {functions_ : AssocMap SymbolId Nat}
  {constructors_ : AssocMap SymbolId ConstructorLayout}

theorem spends_getLayout (constructor : Symbol) :
    Spends 0 (getLayout constructors_ constructor) := by
  unfold getLayout
  cases constructors_.find constructor.id with
  | none => exact pays_throw _ _ _
  | some layout => exact pays_pure layout

theorem affords_variable (id : NodeId) (name : String) :
    Affords 1 (emitVariable scopes constructors_ id name) := by
  unfold emitVariable
  cases scopes.getResolvedSymbol id with
  | none => exact pays_throw _ _ _
  | some symbol =>
    unfold Affords
    cases hkind : symbol.kind with
    | Constructor =>
      simp only [hkind]
      apply (spends_getLayout symbol).bind (m := 14)
      intro layout
      by_cases hempty : layout.fields.isEmpty
      · rw [if_pos hempty]
        have hvalue : Spends 8 (emitConstructedValue layout []) :=
          spends_emitConstructedValue (pays_pure Operand.null)
        exact hvalue.mono (m := 3) (by omega) fun _ => Nat.le_refl _
      · rw [if_neg hempty]
        exact pays_throw _ _ _
    | Function =>
      simp only [hkind]
      exact pays_throw _ _ _
    | _ =>
      simp only [hkind]
      apply spends_getLocals.bind (m := 14)
      intro locals_
      cases locals_.find symbol.id with
      | none => exact pays_throw _ _ _
      | some value => exact pays_return (Nat.le_add_left 3 11)

variable {arguments : List (Gen TypedValue)} {words : Nat}

theorem affords_functionCall (h : AffordsAll words arguments) (symbol : Symbol) :
    Affords (words + 1) (emitFunctionCall types functions_ symbol arguments) := by
  apply affords_succ
  unfold emitFunctionCall
  cases functions_.find symbol.id with
  | none => exact pays_throw _ _ _
  | some function =>
    cases (types.getFunctionSignature symbol.id).filter
        (·.parameters.length = arguments.length) with
    | none => exact pays_throw _ _ _
    | some signature =>
      apply (spends_reserve arguments.length 8).bind (m := 14 * words + 14)
      intro _
      apply Pays.bind (h.pays.mono (m := 14) (by omega) fun _ => Nat.le_refl _)
      intro values
      apply Pays.bind ((spends_createInstruction (.call (.defined function)
        (values.map (·.value)))).mono (m := 3) _ fun _ => Nat.le_refl _)
      · intro value
        exact pays_pure _
      · simp only [Instruction.size, List.length_map]
        omega

theorem affords_constructorCall (h : AffordsAll words arguments) (symbol : Symbol) :
    Affords (words + 1) (emitConstructorCall constructors_ symbol arguments) := by
  apply affords_succ
  unfold emitConstructorCall
  apply (spends_getLayout symbol).bind (m := 14 * words + 14)
  intro layout
  by_cases hlen : layout.fields.length = arguments.length
  · rw [if_pos hlen]
    apply (spends_reserve arguments.length 24).bind (m := 14 * words + 14)
    intro _
    apply Pays.bind (h.pays.mono (m := 14) (by omega) fun _ => Nat.le_refl _)
    intro values
    apply (spends_emitConstructedValue (spends_emitFields layout values)).mono (m := 3) (by omega)
    exact fun _ => Nat.le_refl _
  · rw [if_neg hlen]
    exact pays_throw _ _ _

theorem affords_call (h : AffordsAll words arguments) (id : NodeId) (name : String) :
    Affords (words + 1) (emitCall scopes types functions_ constructors_ id name arguments) := by
  unfold emitCall
  cases scopes.getResolvedSymbol id with
  | none => exact pays_throw _ _ _
  | some symbol =>
    cases hkind : symbol.kind with
    | Function => simpa only [hkind] using affords_functionCall h symbol
    | Constructor => simpa only [hkind] using affords_constructorCall h symbol
    | _ =>
      simp only [hkind]
      exact pays_throw _ _ _

end

/-! ## Branches -/

theorem spends_emitVariablePattern (id : NodeId) (name : String) (scrutinee : TypedValue) :
    Spends 0 (emitVariablePattern scopes id name scrutinee) := by
  unfold emitVariablePattern
  cases getSymbolInNodeScope scopes id name .PatternVariable with
  | none => exact pays_throw _ _ _
  | some symbol => exact spends_setLocal _ _

theorem spends_bindPatternFields (name : String) (scope_id : ScopeId) (scrutinee : Operand)
    (index : Nat) (arguments : List String) (types : List TypeVariant) :
    Spends (5 * arguments.length)
      (bindPatternFields scopes name scope_id scrutinee index arguments types) := by
  induction arguments generalizing index types with
  | nil => exact pays_pure ()
  | cons argument arguments ih =>
    cases types with
    | nil => exact pays_throw _ _ _
    | cons type types =>
      unfold bindPatternFields
      cases (scopes.getLocalSymbol scope_id argument).filter (·.kind = .PatternVariable) with
      | none => exact pays_throw _ _ _
      | some binding =>
        rw [List.length_cons, Nat.mul_succ]
        apply (spends_loadField scrutinee index type).bind
        intro field
        apply (spends_setLocal binding.id ⟨field, type⟩).bind (m := 5 * arguments.length)
        intro _
        exact ih (index + 1) types

theorem spends_emitConstructorPattern (id : NodeId) (name : String) (arguments : List String)
    (scrutinee : Operand) (layout : ConstructorLayout) :
    Spends (5 * arguments.length)
      (emitConstructorPattern scopes id name arguments scrutinee layout) := by
  unfold emitConstructorPattern
  by_cases hlen : arguments.length ≠ layout.fields.length
  · rw [if_pos hlen]
    exact pays_throw _ _ _
  · rw [if_neg hlen]
    cases scopes.getScopeId id with
    | none => exact pays_throw _ _ _
    | some scope_id => exact spends_bindPatternFields _ _ _ _ _ _

theorem spends_patternConstructor (id : NodeId) (name : String) :
    Spends 0 (patternConstructor scopes id name) := by
  unfold patternConstructor
  cases scopes.getResolvedSymbol id with
  | none => exact pays_throw _ _ _
  | some constructor => exact pays_pure constructor

variable {body : Gen TypedValue} {incoming : List (TypedValue × BlockId)}

/-- The entry of the phi is paid for when the branch is emitted. -/
theorem pays_emitBranchBody (h : Affords words body) (merge_block : BlockId) :
    Pays (14 * words + incoming.length) (emitBranchBody body merge_block incoming)
      fun incoming => incoming.length + 1 := by
  unfold emitBranchBody
  apply Pays.bind (h.mono (m := incoming.length) (Nat.le_refl _) fun _ => Nat.le_refl _)
  intro value
  apply spends_getInsertBlock.bind (m := 3 + incoming.length)
  intro incoming_block
  apply spends_hasTerminator.bind (m := 3 + incoming.length)
  intro terminated
  have hlen : (incoming ++ [(value, incoming_block)]).length + 1 = 2 + incoming.length := by
    rw [List.length_append, List.length_singleton]
    omega
  cases terminated with
  | true => exact pays_return (by omega)
  | false =>
    rw [show 3 + incoming.length = 2 + incoming.length + 1 by omega]
    apply (spends_createTerminator (.br merge_block)).bind
    intro _
    exact pays_return (by omega)

theorem pays_emitSwitchBranch (h : Affords words body) (id : NodeId) (name : String)
    (arguments : List String) (scrutinee : TypedValue) (switch_block merge_block : BlockId) :
    Pays (14 * (arguments.length + 1 + words) + incoming.length)
      (emitSwitchBranch scopes constructors_ id name arguments body scrutinee switch_block
        merge_block incoming) fun incoming => incoming.length := by
  have hbudget : (14 * words + incoming.length) + 5 * arguments.length + 2 ≤
      14 * (arguments.length + 1 + words) + incoming.length := by omega
  refine Pays.mono (m := 0) ?_ hbudget fun _ => Nat.le_refl _
  unfold emitSwitchBranch
  apply (spends_patternConstructor id name).bind
    (m := (14 * words + incoming.length) + 5 * arguments.length + 2)
  intro constructor
  apply (spends_getLayout constructor).bind
    (m := (14 * words + incoming.length) + 5 * arguments.length + 2)
  intro layout
  apply spends_createBlock.bind
  intro branch_block
  apply Spends.bind (spends_withBuilder fun b => b.size_caseAdded _ _ _)
  intro _
  apply (spends_setInsertPoint branch_block).bind
    (m := (14 * words + incoming.length) + 5 * arguments.length)
  intro _
  apply spends_getLocals.bind (m := (14 * words + incoming.length) + 5 * arguments.length)
  intro saved_locals
  apply (spends_emitConstructorPattern id name arguments scrutinee.value layout).bind
  intro _
  apply Pays.bind (pays_emitBranchBody h merge_block)
  intro incoming'
  apply (spends_setLocals saved_locals).bind (m := incoming'.length + 1)
  intro _
  exact pays_return (Nat.le_succ _)

theorem pays_emitConstructorCaseBranch (h : Affords words body) (id : NodeId) (name : String)
    (arguments : List String) (scrutinee : TypedValue) (merge_block : BlockId) :
    Pays (14 * (arguments.length + 1 + words) + incoming.length)
      (emitConstructorCaseBranch scopes constructors_ id name arguments body scrutinee merge_block
        incoming) fun incoming => incoming.length := by
  have hbudget : (14 * words + incoming.length) + 5 * arguments.length + 6 ≤
      14 * (arguments.length + 1 + words) + incoming.length := by omega
  refine Pays.mono (m := 0) ?_ hbudget fun _ => Nat.le_refl _
  unfold emitConstructorCaseBranch
  apply (spends_patternConstructor id name).bind
    (m := (14 * words + incoming.length) + 5 * arguments.length + 6)
  intro constructor
  apply (spends_getLayout constructor).bind
    (m := (14 * words + incoming.length) + 5 * arguments.length + 6)
  intro layout
  apply spends_createBlock.bind
  intro matched_block
  apply spends_createBlock.bind
  intro next_block
  apply (spends_loadTag scrutinee.value).bind
  intro tag
  apply (spends_createInstruction (.icmpEq tag (i64 layout.tag))).bind
    (m := (14 * words + incoming.length) + 5 * arguments.length + 1)
  intro matched
  apply (spends_createTerminator (.condBr matched matched_block next_block)).bind
    (m := (14 * words + incoming.length) + 5 * arguments.length)
  intro _
  apply (spends_setInsertPoint matched_block).bind
    (m := (14 * words + incoming.length) + 5 * arguments.length)
  intro _
  apply spends_getLocals.bind (m := (14 * words + incoming.length) + 5 * arguments.length)
  intro saved_locals
  apply (spends_emitConstructorPattern id name arguments scrutinee.value layout).bind
  intro _
  apply Pays.bind (pays_emitBranchBody h merge_block)
  intro incoming'
  apply (spends_setLocals saved_locals).bind (m := incoming'.length + 1)
  intro _
  apply (spends_setInsertPoint next_block).bind (m := incoming'.length + 1)
  intro _
  exact pays_return (Nat.le_succ _)

theorem spends_llvmType (T : TypeVariant) : Spends 0 (liftM (llvmType T) : Gen Ty) := by
  cases T with
  | IntType => exact pays_pure Ty.i64
  | DataType d => exact pays_pure Ty.ptr
  | FunctionType P R => exact pays_throw _ _ _

theorem spends_finishCaseExpression (merge_block : BlockId)
    (incoming : List (TypedValue × BlockId)) :
    Spends (incoming.length + 1) (finishCaseExpression merge_block incoming) := by
  unfold finishCaseExpression
  cases incoming with
  | nil => exact pays_throw _ _ _
  | cons entry incoming =>
    obtain ⟨result, block⟩ := entry
    apply (spends_setInsertPoint merge_block).bind (m := incoming.length + 2)
    intro _
    apply (spends_llvmType result.type).bind (m := incoming.length + 2)
    intro type
    have hphi := spends_createInstruction (.phi type
      (((result, block) :: incoming).map fun entry => (entry.1.value, entry.2)))
    simp only [Instruction.size, List.length_map] at hphi
    apply Pays.bind hphi
    intro phi
    exact pays_pure _

theorem affords_switchCase {emitBranches : BlockId → BlockId → Gen (List (TypedValue × BlockId))}
    (hbranches : ∀ switch_block merge_block, Pays (14 * words)
      (emitBranches switch_block merge_block) fun incoming => incoming.length)
    (scrutinee : TypedValue) :
    Affords (words + 1) (emitSwitchCaseExpression emitBranches scrutinee) := by
  apply affords_succ
  unfold emitSwitchCaseExpression
  apply spends_createBlock.bind
  intro default_block
  apply spends_createBlock.bind
  intro merge_block
  apply (spends_loadTag scrutinee.value).bind
  intro tag
  apply spends_getInsertBlock.bind (m := 14 * words + 10)
  intro switch_block
  apply (spends_createTerminator (.switch tag default_block [])).bind (m := 14 * words + 9)
  intro _
  apply Pays.bind ((hbranches switch_block merge_block).mono (m := 9) (Nat.le_refl _)
    fun _ => Nat.le_refl _)
  intro incoming
  apply (spends_setInsertPoint default_block).bind (m := incoming.length + 9)
  intro _
  apply spends_emitTrap.bind
  intro _
  exact (spends_finishCaseExpression merge_block incoming).mono (m := 6) (Nat.le_refl _)
    fun _ => by omega

theorem affords_sequentialCase
    {emitBranches : BlockId → Gen (List (TypedValue × BlockId) × Bool)}
    (hbranches : ∀ merge_block, Pays (14 * words) (emitBranches merge_block)
      fun result => result.1.length) :
    Affords (words + 1) (emitSequentialCaseExpression emitBranches) := by
  apply affords_succ
  unfold emitSequentialCaseExpression
  apply spends_createBlock.bind
  intro merge_block
  apply Pays.bind ((hbranches merge_block).mono (m := 13) (Nat.le_refl _) fun _ => Nat.le_refl _)
  rintro ⟨incoming, has_fallthrough⟩
  have hfinish : Pays (incoming.length + 11) (finishCaseExpression merge_block incoming)
      fun _ => 3 :=
    (spends_finishCaseExpression merge_block incoming).mono (m := 10) (Nat.le_refl _)
      fun _ => by omega
  cases has_fallthrough with
  | true =>
    apply spends_emitTrap.bind
    intro _
    exact hfinish
  | false => exact hfinish.mono (m := 2) (Nat.le_refl _) fun _ => Nat.le_add_right _ _

/-! ## Expressions -/

/-- The expression, and a call of it with arguments. -/
structure CodeAfforded (scopes : ScopeTree) (types : TypeTable)
    (functions_ : AssocMap SymbolId Nat) (constructors_ : AssocMap SymbolId ConstructorLayout)
    (e : Expression) : Prop where
  expression : Affords (wordsOf e) (emitExpression scopes types functions_ constructors_ e)
  application : ∀ {words : Nat} {arguments : List (Gen TypedValue)}, AffordsAll words arguments →
    Affords (wordsOf e + words)
      (emitApplication scopes types functions_ constructors_ e arguments)

theorem pays_switchBranches {branches : List Branch}
    (hbodies : ∀ b ∈ branches, CodeAfforded scopes types functions_ constructors_ b.body)
    (scrutinee : TypedValue) (switch_block merge_block : BlockId)
    (incoming : List (TypedValue × BlockId)) :
    Pays (14 * wordsOfBranches branches + incoming.length)
      (emitSwitchBranches scopes types functions_ constructors_ branches scrutinee switch_block
        merge_block incoming) fun incoming => incoming.length := by
  induction branches generalizing incoming with
  | nil => exact pays_return (Nat.le_add_left _ _)
  | cons b branches ih =>
    obtain ⟨id, pattern, body⟩ := b
    have hbody : CodeAfforded scopes types functions_ constructors_ body :=
      hbodies ⟨id, pattern, body⟩ List.mem_cons_self
    have hrest := ih fun b hb => hbodies b (List.mem_cons_of_mem _ hb)
    cases pattern with
    | VariablePattern id name => exact pays_throw _ _ _
    | ConstructorPattern id name arguments =>
      simp only [emitSwitchBranches, wordsOfBranches, Pattern.words]
      apply Pays.bind ((pays_emitSwitchBranch hbody.expression id name arguments scrutinee
        switch_block merge_block).mono (m := 14 * wordsOfBranches branches) (by omega)
        fun _ => Nat.le_refl _)
      intro incoming'
      rw [Nat.add_comm]
      exact hrest incoming'

theorem pays_sequentialBranches {branches : List Branch}
    (hbodies : ∀ b ∈ branches, CodeAfforded scopes types functions_ constructors_ b.body)
    (scrutinee : TypedValue) (merge_block : BlockId) (incoming : List (TypedValue × BlockId)) :
    Pays (14 * wordsOfBranches branches + incoming.length)
      (emitSequentialBranches scopes types functions_ constructors_ branches scrutinee merge_block
        incoming) fun result => result.1.length := by
  induction branches generalizing incoming with
  | nil => exact pays_return (Nat.le_add_left _ _)
  | cons b branches ih =>
    obtain ⟨id, pattern, body⟩ := b
    have hbody : CodeAfforded scopes types functions_ constructors_ body :=
      hbodies ⟨id, pattern, body⟩ List.mem_cons_self
    have hrest := ih fun b hb => hbodies b (List.mem_cons_of_mem _ hb)
    cases pattern with
    | VariablePattern id name =>
      simp only [emitSequentialBranches, wordsOfBranches, Pattern.words]
      apply (spends_emitVariablePattern id name scrutinee).bind
        (m := 14 * (1 + wordsOf body + wordsOfBranches branches) + incoming.length)
      intro _
      apply Pays.bind ((pays_emitBranchBody hbody.expression merge_block).mono
        (m := 14 * (1 + wordsOfBranches branches)) (by omega) fun _ => Nat.le_refl _)
      intro incoming'
      exact pays_return (show incoming'.length ≤ _ by omega)
    | ConstructorPattern id name arguments =>
      simp only [emitSequentialBranches, wordsOfBranches, Pattern.words]
      apply Pays.bind ((pays_emitConstructorCaseBranch hbody.expression id name arguments
        scrutinee merge_block).mono (m := 14 * wordsOfBranches branches) (by omega)
        fun _ => Nat.le_refl _)
      intro incoming'
      rw [Nat.add_comm]
      exact hrest incoming'

theorem codeAfforded (e : Expression) :
    CodeAfforded scopes types functions_ constructors_ e := by
  induction e with
  | IntLiteral id value =>
    constructor
    · exact pays_return (Nat.le_add_left 3 11)
    · exact fun _ => pays_throw _ _ _
  | Variable id name =>
    constructor
    · exact affords_variable id name
    · intro words arguments h
      rw [wordsOf, Nat.add_comm]
      exact affords_call h id name
  | BinaryOperator kind id l r ihl ihr =>
    constructor
    · simp only [emitExpression, wordsOf]
      apply Pays.bind (ihl.expression.mono (m := 14 * wordsOf r + 14) (by omega)
        fun _ => Nat.le_refl _)
      intro left
      apply Pays.bind (ihr.expression.mono (m := 17) (by omega) fun _ => Nat.le_refl _)
      intro right
      apply Spends.bind (spends_withBuilder fun b => b.size_createBinary _ _ _)
      intro value
      exact pays_return (Nat.le_add_left 3 16)
    · exact fun _ => pays_throw _ _ _
  | Application id f a ihf iha =>
    constructor
    · simp only [emitExpression, wordsOf]
      exact ihf.application (.cons iha.expression .nil)
    · intro words arguments h
      simp only [emitApplication, wordsOf]
      rw [Nat.add_assoc]
      exact ihf.application (.cons iha.expression h)
  | CaseExpression id s bs ihs ihbs =>
    constructor
    · simp only [emitExpression, wordsOf]
      apply Pays.bind (ihs.expression.mono (m := 14 * wordsOfBranches bs + 14) (by omega)
        fun _ => Nat.le_refl _)
      intro scrutinee
      by_cases hswitch : canUseSwitchCase scopes [] bs
      · rw [if_pos hswitch]
        apply (affords_switchCase (fun switch_block merge_block =>
          pays_switchBranches ihbs scrutinee switch_block merge_block []) scrutinee).mono (m := 3)
        · omega
        · exact fun _ => Nat.le_add_right 3 3
      · rw [if_neg hswitch]
        apply (affords_sequentialCase (fun merge_block =>
          pays_sequentialBranches ihbs scrutinee merge_block [])).mono (m := 3)
        · omega
        · exact fun _ => Nat.le_add_right 3 3
    · exact fun _ => pays_throw _ _ _

end

/-! ## Functions -/

section

variable {scopes : ScopeTree} {types : TypeTable} {functions_ : AssocMap SymbolId Nat}
  {constructors_ : AssocMap SymbolId ConstructorLayout}

theorem spends_bindParameters (scope_id : ScopeId) (index : Nat) (parameters : List String)
    (Ts : List TypeVariant) : Spends 0 (bindParameters scopes scope_id index parameters Ts) := by
  induction parameters generalizing index Ts with
  | nil => exact pays_pure ()
  | cons parameter parameters ih =>
    cases Ts with
    | nil => exact pays_throw _ _ _
    | cons T Ts =>
      unfold bindParameters
      cases scopes.getLocalSymbol scope_id parameter with
      | none => exact pays_throw _ _ _
      | some symbol =>
        apply (spends_setLocal symbol.id ⟨.argument index, T⟩).bind (m := 0)
        intro _
        exact ih (index + 1) Ts

/-- A function without its blocks. -/
def declarationOf (F : llvm.Function) : llvm.Function := { F with blocks := [] }

/-- The functions are the same but for their blocks, and no more than `n` larger. -/
def Enlarges (n : Nat) (x : Gen Unit) : Prop :=
  ∀ g, Ensures x g (fun _ => True) fun _ g' =>
    g'.functions.map declarationOf = g.functions.map declarationOf ∧
      total Function.size g'.functions ≤ total Function.size g.functions + n

theorem size_blocks (functions : List llvm.Function) (function : Nat) (b : Builder) :
    total Function.size (functions.modify function fun f => { f with blocks := b.blocks }) ≤
      total Function.size functions + b.size := by
  apply total_modify
  intro F
  unfold Function.size Builder.size
  dsimp only
  omega

/-- What is left when a function is built pays for the block that it begins with. -/
theorem enlarges_function {x : Gen Unit} {n : Nat} (hx : Pays n x fun _ => 1) (function : Nat) :
    Enlarges n (startFunction >>= fun _ => x >>= fun _ => finishFunction function) := by
  intro g
  apply ensures_bind
  apply ensures_startFunction
  apply ensures_bind
  apply (hx _).mono
  rintro _ g1 ⟨hfunctions, hsize⟩
  have hsame : g1.functions = g.functions := hfunctions
  have hblocks := size_blocks g1.functions function g1.builder
  have hentry := Builder.size_entry
  dsimp only at hsize
  rw [hsame] at hblocks
  unfold finishFunction Ensures
  dsimp only [satisfies_ok]
  rw [hsame]
  exact ⟨map_modify_blocks fun _ _ => rfl, Nat.le_trans hblocks (by omega)⟩

theorem enlarges_functionBody (fd : FunctionDefinition) (signature : FunctionSignature)
    (scope_id : ScopeId) (function : Nat) :
    Enlarges (14 * wordsOf fd.body)
      (emitFunctionBody scopes types functions_ constructors_ fd signature scope_id function) := by
  have hbody : Pays (14 * wordsOf fd.body) (do
      bindParameters scopes scope_id 0 fd.parameters signature.parameters
      let body ← emitExpression scopes types functions_ constructors_ fd.body
      createTerminator (.ret body.value)) fun _ => 1 := by
    apply (spends_bindParameters scope_id 0 fd.parameters signature.parameters).bind
      (m := 14 * wordsOf fd.body)
    intro _
    apply Pays.bind (codeAfforded fd.body).expression
    intro body
    exact (spends_createTerminator (.ret body.value)).mono (m := 2) (Nat.le_refl 3)
      fun _ => Nat.le_add_right 1 1
  have henlarges := enlarges_function hbody function
  simp only [bind_assoc] at henlarges
  exact henlarges

theorem Enlarges.mono {x : Gen Unit} {n n' : Nat} (h : Enlarges n x) (hn : n ≤ n') :
    Enlarges n' x :=
  fun g => (h g).mono fun _ _ hg => ⟨hg.1, Nat.le_trans hg.2 (Nat.add_le_add_left hn _)⟩

theorem enlarges_pure (n : Nat) : Enlarges n (pure ()) :=
  fun _ => ensures_pure () ⟨rfl, Nat.le_add_right _ _⟩

theorem enlarges_defineFunction (fd : FunctionDefinition) :
    Enlarges (14 * wordsOf fd.body)
      (defineFunction scopes types functions_ constructors_ fd) := by
  unfold defineFunction
  cases getRootSymbol scopes fd.name .Function with
  | none => exact enlarges_pure _
  | some symbol =>
    cases hn : functions_.find symbol.id with
    | none =>
      simp only [hn]
      exact enlarges_pure _
    | some function =>
      cases hsignature : types.getFunctionSignature symbol.id with
      | none =>
        simp only [hn, hsignature]
        exact enlarges_pure _
      | some signature =>
        simp only [hn, hsignature]
        intro g
        apply ensures_bind
        apply ensures_setLocals
        cases scopes.getScopeId fd.id with
        | none => exact ensures_throw trivial
        | some scope_id => exact enlarges_functionBody fd signature scope_id function _

/-- The words of the body of a definition. -/
def Definition.bodyWords : Definition → Nat
  | .FunctionDefinition fd => wordsOf fd.body
  | .DataTypeDefinition _ => 0

theorem enlarges_defineFunctions (definitions : List Definition) :
    Enlarges (14 * total Definition.bodyWords definitions)
      (defineFunctions scopes types functions_ constructors_ definitions) := by
  induction definitions with
  | nil => exact enlarges_pure _
  | cons d definitions ih =>
    cases d with
    | DataTypeDefinition dt =>
      unfold defineFunctions
      exact ih.mono (by simp [total_cons, Definition.bodyWords])
    | FunctionDefinition fd =>
      unfold defineFunctions
      intro g
      apply ensures_bind
      apply (enlarges_defineFunction fd g).mono
      rintro _ g1 ⟨hkept1, hsize1⟩
      apply (ih g1).mono
      rintro _ g2 ⟨hkept2, hsize2⟩
      simp only [total_cons, Definition.bodyWords]
      exact ⟨hkept2.trans hkept1, by omega⟩

theorem spends_emitPrint (value : Operand) (T : TypeVariant) : Spends 5 (emitPrint value T) := by
  have hprintf : ∀ value, Spends 3
      (createInstruction (.call .printf [.globalString "%ld\n", value]) >>= fun _ => pure ()) :=
    fun value => (spends_createInstruction (.call .printf _)).bind fun _ => pays_pure ()
  cases T with
  | IntType => exact (hprintf value).mono (m := 2) (Nat.le_refl _) fun _ => Nat.zero_le _
  | DataType d =>
    apply (spends_loadTag value).bind
    intro tag
    exact hprintf tag
  | FunctionType P R => exact pays_throw _ _ _

theorem ensures_defineMain {g : GeneratorState} :
    Ensures (defineMain scopes types functions_) g (fun _ => True) fun _ g' =>
      g'.functions.map declarationOf =
          g.functions.map declarationOf ++ [⟨"main", .i32, [], []⟩] ∧
        total Function.size g'.functions ≤ total Function.size g.functions + 9 := by
  unfold defineMain
  cases getRootSymbol scopes "main" .Function with
  | none => exact ensures_throw trivial
  | some main_symbol =>
    cases hn : functions_.find main_symbol.id with
    | none =>
      simp only [hn]
      exact ensures_throw trivial
    | some function =>
      cases hsignature : (types.getFunctionSignature main_symbol.id).filter
          (·.parameters.isEmpty) with
      | none =>
        simp only [hn, hsignature]
        exact ensures_throw trivial
      | some signature =>
        simp only [hn, hsignature]
        apply ensures_bind
        apply ensures_createMain
        have hmain : Pays 8 (do
            let result ← createInstruction (.call (.defined function) [])
            emitPrint result signature.result
            createTerminator (.ret (.int32 0))) fun _ => 1 := by
          apply (spends_createInstruction (.call (.defined function) [])).bind (m := 7)
          intro result
          apply (spends_emitPrint result signature.result).bind (m := 2)
          intro _
          exact (spends_createTerminator (.ret (.int32 0))).mono (m := 1) (Nat.le_refl 2)
            fun _ => Nat.le_refl 1
        have henlarges := enlarges_function hmain g.functions.length
        simp only [bind_assoc] at henlarges
        apply (henlarges _).mono
        rintro _ g' ⟨hkept, hsize⟩
        dsimp only at hkept hsize
        rw [List.map_append] at hkept
        rw [total_append] at hsize
        exact ⟨hkept, hsize⟩

end

end mf.visitors
