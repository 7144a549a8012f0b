-- The code of the generator writes each cell of the heap once: the only stores
-- are those of a constructed value, to the two blocks that it has allocated.
import MiniFunctional.ArgumentCounts
import MiniFunctional.EmissionLaws
import MiniFunctional.WriteOnce

open mf.util mf.ast llvm ExceptLaws
open mf.semantics hiding Frame

namespace llvm

/-! ## The blocks of a builder -/

/-- Every block is annotated, and where code is inserted `A` holds. -/
def Builder.Asserts (b : Builder) (A : Assertion) : Prop :=
  ∀ id block, b.blocks[id]? = some block →
    Annotated Anywhere block.instructions (if id = b.insertBlock then A else Anywhere)

variable {b : Builder} {A B : Assertion}

theorem Builder.Asserts.weaken (h : b.Asserts A) (hB : ∀ frame m, A frame m → B frame m) :
    b.Asserts B := by
  intro id block hblock
  apply (h id block hblock).weaken
  by_cases hid : id = b.insertBlock
  · rw [if_pos hid, if_pos hid]
    exact hB
  · rw [if_neg hid, if_neg hid]
    exact fun _ _ h => h

theorem Builder.Asserts.insert (h : b.Asserts A) {i : Instruction} (hi : i.Takes A b.next B) :
    (b.insert i).2.Asserts B := by
  intro id block hblock
  have hsame : (b.insert i).2.insertBlock = b.insertBlock := rfl
  simp only [Builder.insert, List.getElem?_modify] at hblock
  rw [hsame]
  obtain ⟨block', hblock', hpush⟩ := Option.map_eq_some_iff.mp hblock
  have hbefore := h id block' hblock'
  by_cases hid : id = b.insertBlock
  · rw [if_pos hid] at hbefore ⊢
    rw [if_pos hid.symm] at hpush
    subst hpush
    exact hbefore.snoc hi
  · rw [if_neg hid] at hbefore ⊢
    rw [if_neg (Ne.symm hid)] at hpush
    subst hpush
    exact hbefore

/-- Nothing is known where code is inserted, so it may be inserted anywhere. -/
theorem Builder.asserts_anywhere : b.Asserts Anywhere ↔
    ∀ block ∈ b.blocks, Annotated Anywhere block.instructions Anywhere := by
  unfold Builder.Asserts
  simp only [ite_self]
  constructor
  · intro h block hblock
    obtain ⟨id, hid⟩ := List.getElem?_of_mem hblock
    exact h id block hid
  · intro h id block hblock
    exact h block (List.mem_of_getElem? hblock)

theorem Builder.asserts_entry : Builder.entry.Asserts Anywhere := by
  rw [asserts_anywhere]
  intro block hblock
  rw [List.mem_singleton.mp hblock]
  exact fun _ _ h => h

theorem Builder.Asserts.createBlock (h : b.Asserts Anywhere) :
    b.createBlock.2.Asserts Anywhere := by
  rw [asserts_anywhere] at h ⊢
  intro block hblock
  rcases List.mem_append.mp hblock with hblock | hblock
  · exact h block hblock
  · rw [List.mem_singleton.mp hblock]
    exact fun _ _ h => h

/-- A change of the terminators. -/
theorem Builder.Asserts.modify (h : b.Asserts Anywhere) (b' : Builder) {n : Nat}
    {f : BasicBlock → BasicBlock} (hb : b'.blocks = b.blocks.modify n f)
    (hf : ∀ block, (f block).instructions = block.instructions) : b'.Asserts Anywhere := by
  unfold Builder.Asserts at h ⊢
  simp only [ite_self] at h ⊢
  intro id block hblock
  rw [hb, List.getElem?_modify] at hblock
  obtain ⟨block', hblock', hchanged⟩ := Option.map_eq_some_iff.mp hblock
  have hbefore := h id block' hblock'
  by_cases hid : n = id
  · rw [if_pos hid] at hchanged
    rw [← hchanged, hf]
    exact hbefore
  · rw [if_neg hid] at hchanged
    rw [← hchanged]
    exact hbefore

/-- An instruction that is no store. -/
theorem Instruction.Reads.anywhere {i : Instruction} (h : i.Reads) (id : Nat) :
    i.Takes Anywhere id Anywhere :=
  takes_reads (fun _ _ _ _ _ => trivial) h fun _ _ _ _ _ _ => trivial

theorem takes_call (function id : Nat) (arguments : List Operand) :
    (Instruction.call (.defined function) arguments).Takes Anywhere id Anywhere :=
  fun _ _ _ _ _ => trivial

theorem takes_printf (arguments : List Operand) (id : Nat) :
    (Instruction.call .printf arguments).Takes Anywhere id Anywhere :=
  fun _ _ _ _ => trivial

theorem takes_trap (arguments : List Operand) (id : Nat) :
    (Instruction.call .trap arguments).Takes Anywhere id Anywhere := by
  intro frame m _ v m' hexecute
  cases hexecute

end llvm

namespace mf.visitors

/-! ## Stores -/

variable {α β : Type} {g : GeneratorState} {A B : Assertion}

/-- All code so far is annotated, and where code is inserted `A` holds. -/
structure Stands (g : GeneratorState) (A : Assertion) : Prop where
  functions : ∀ F ∈ g.functions, F.WritesOnce
  builder : g.builder.Asserts A

theorem Stands.weaken (h : Stands g A) (hB : ∀ frame m, A frame m → B frame m) : Stands g B :=
  ⟨h.functions, h.builder.weaken hB⟩

/-- The result of the instruction is a new register. -/
theorem stands_instruction (h : Stands g A) {i : Instruction}
    (hi : i.Takes A g.builder.next B) {Q : Operand → GeneratorState → Prop}
    {E : GenerateError → Prop}
    (hQ : ∀ g', g'.builder.next = g.builder.next + 1 → Stands g' B →
      Q (.result g.builder.next) g') : Ensures (createInstruction i) g E Q :=
  ensures_withBuilder (hQ _ rfl ⟨h.functions, h.builder.insert hi⟩)

/-- A word of the block that is being filled. -/
theorem stands_storeWord {base done : Nat} {R : Nat → Assertion} {E : GenerateError → Prop}
    (value : Operand) (h : Stands g (Filling (.result base) R done)) (hbase : base < g.builder.next)
    (hR : Besides R g.builder.next) :
    Ensures (do createStore value (← createStructGEP (.result base) done)) g E fun _ g' =>
      Stands g' (Filling (.result base) R (done + 1)) ∧ g.builder.next ≤ g'.builder.next := by
  refine ensures_bind (stands_instruction h (takes_structGEP nodeType hbase hR) fun g1 hn1 h1 => ?_)
  refine ensures_bind (stands_instruction h1 (takes_store value ?_ ?_) fun g2 hn2 h2 => ?_)
  · omega
  · exact hR.mono (by omega)
  · exact ensures_pure _ ⟨h2, by omega⟩

theorem stands_packValue {base done slot : Nat} {R : Nat → Assertion} (value : Operand)
    (T : TypeVariant) (h : Stands g (NextSlot (.result base) R done (.result slot)))
    (hbase : base < g.builder.next) (hslot : slot < g.builder.next)
    (hR : Besides R g.builder.next) :
    Ensures (packValue value T) g (fun _ => True) fun _ g' =>
      Stands g' (NextSlot (.result base) R done (.result slot)) ∧
        g.builder.next ≤ g'.builder.next := by
  cases T with
  | IntType => exact ensures_pure value ⟨h, Nat.le_refl _⟩
  | DataType d =>
    refine stands_instruction h (takes_reads (nextSlot_below hbase hslot hR) (reads_ptrtoint _)
      fun _ _ _ _ _ hkept => hkept) fun g1 hn1 h1 => ⟨h1, by omega⟩
  | FunctionType P T => exact ensures_throw trivial

/-- The loop over the fields fills the block from the left. -/
theorem stands_storeFields {base done : Nat} {R : Nat → Assertion} {arguments : List TypedValue}
    (Ts : List TypeVariant) (h : Stands g (Filling (.result base) R done))
    (hbase : base < g.builder.next) (hR : Besides R g.builder.next)
    (hlt : done + arguments.length < 0x8000000000000000) :
    Ensures (storeFields (.result base) done arguments Ts) g (fun _ => True) fun _ g' =>
      (∃ done', Stands g' (Filling (.result base) R done')) ∧
        g.builder.next ≤ g'.builder.next := by
  induction arguments generalizing g done Ts with
  | nil => exact ensures_pure () ⟨⟨done, h⟩, Nat.le_refl _⟩
  | cons argument arguments ih =>
    cases Ts with
    | nil => exact ensures_throw trivial
    | cons T Ts =>
      rw [List.length_cons] at hlt
      unfold storeFields
      refine ensures_bind (stands_instruction h (takes_gep hbase hR (by omega))
        fun g1 hn1 h1 => ?_)
      have hR1 : Besides R g1.builder.next := hR.mono (by omega)
      refine ensures_bind ((stands_packValue argument.value T h1 (by omega) (by omega) hR1).mono
        fun packed g2 hpacked => ?_)
      obtain ⟨h2, hn2⟩ := hpacked
      have hR2 : Besides R g2.builder.next := hR1.mono hn2
      refine ensures_bind (ensures_bind (stands_instruction h2 (takes_store packed ?_ hR2)
        fun g3 hn3 h3 => ensures_pure () ?_))
      · omega
      · refine (ih Ts h3 (by omega) (hR2.mono (by omega)) (by omega)).mono fun _ g4 hrest => ?_
        exact ⟨hrest.1, by omega⟩

/-- Another block, of which two words are stored. -/
def Elsewhere (node : Nat) : Nat → Assertion := fun q frame m =>
  ∃ b, b ≠ q ∧ Unwritten (.result node) b 2 frame m

theorem besides_elsewhere {node n : Nat} (h : node < n) : Besides (Elsewhere node) n := by
  constructor
  · intro q frame frame' m hsame hm
    obtain ⟨b, hne, hunwritten⟩ := hm
    exact ⟨b, hne, unwritten_below h frame frame' m hsame hunwritten⟩
  · intro q frame m cells hm
    obtain ⟨b, hne, hpointer, cells', hb, hempty⟩ := hm
    refine ⟨b, hne, hpointer, cells', ?_, hempty⟩
    rw [List.getElem?_set_ne (Ne.symm hne)]
    exact hb

/-- The block of the fields is a new one, and the node stays as it is. -/
theorem stands_emitFields {node : Nat} {layout : ConstructorLayout} {arguments : List TypedValue}
    (h : Stands g (Filling (.result node) (fun _ => Anywhere) 2)) (hnode : node < g.builder.next)
    (hlt : arguments.length < 0x8000000000000000) :
    Ensures (emitFields layout arguments) g (fun _ => True) fun _ g' =>
      Stands g' (Filling (.result node) (fun _ => Anywhere) 2) ∧
        g.builder.next ≤ g'.builder.next := by
  unfold emitFields
  cases arguments with
  | nil => exact ensures_pure _ ⟨h, Nat.le_refl _⟩
  | cons argument arguments =>
    refine ensures_bind (ensures_withBuilder ?_)
    refine ensures_bind (stands_instruction h
      (takes_malloc (R := Elsewhere node) ?_) fun g1 hn1 h1 => ?_)
    · intro frame m v cells hm
      obtain ⟨b, hunwritten, _⟩ := hm
      obtain ⟨hpointer, cells', hb, hempty⟩ := (unwritten_below hnode).next hunwritten v
      have hlt : b < m.length := (List.getElem?_eq_some_iff.mp hb).1
      refine ⟨b, Nat.ne_of_lt hlt, hpointer, cells', ?_, hempty⟩
      rw [List.getElem?_append_left hlt]
      exact hb
    · refine ensures_bind ((stands_storeFields layout.fields h1 (by omega)
        (besides_elsewhere (by omega)) ?_).mono fun _ g2 hstored => ensures_pure _ ?_)
      · rw [Nat.zero_add]
        exact hlt
      obtain ⟨⟨done, h2⟩, hn2⟩ := hstored
      refine ⟨h2.weaken fun frame m hm => ?_, by omega⟩
      obtain ⟨q, _, b, _, hunwritten⟩ := hm
      exact ⟨b, hunwritten, trivial⟩

theorem stands_emitConstructedValue {layout : ConstructorLayout} {arguments : List TypedValue}
    (h : Stands g Anywhere) (hlt : arguments.length < 0x8000000000000000) :
    Ensures (emitConstructedValue layout arguments) g (fun _ => True) fun _ g' =>
      Stands g' Anywhere := by
  have hbesides : ∀ n, Besides (fun _ => Anywhere) n :=
    fun n => ⟨fun _ _ _ _ _ _ => trivial, fun _ _ _ _ _ => trivial⟩
  unfold emitConstructedValue
  refine ensures_bind (stands_instruction h
    (takes_malloc (R := fun _ => Anywhere) fun _ _ _ _ _ => trivial) fun g1 hn1 h1 => ?_)
  have hnode : g.builder.next < g1.builder.next := by omega
  refine ensures_storeWord ((stands_storeWord _ h1 hnode (hbesides _)).mono fun _ g2 hword => ?_)
  obtain ⟨h2, hn2⟩ := hword
  refine ensures_storeWord ((stands_storeWord _ h2 (by omega) (hbesides _)).mono
    fun _ g3 hword => ?_)
  obtain ⟨h3, hn3⟩ := hword
  refine ensures_bind ((stands_emitFields h3 (by omega) hlt).mono fun fields g4 hfields => ?_)
  obtain ⟨h4, hn4⟩ := hfields
  refine ensures_storeWord ((stands_storeWord _ h4 (by omega) (hbesides _)).mono
    fun _ g5 hword => ensures_pure _ ?_)
  exact hword.1.weaken fun _ _ _ => trivial

/-! ## Computations -/

/-- The computation keeps the code annotated. -/
def KeepsWriting (x : Gen α) : Prop :=
  ∀ g, Stands g Anywhere → Ensures x g (fun _ => True) fun _ g' => Stands g' Anywhere

variable {x : Gen α}

theorem keepsWriting_pure (a : α) : KeepsWriting (pure a) := fun _ h => h

theorem keepsWriting_throw (e : GenerateError) : KeepsWriting (throw e : Gen α) :=
  fun _ _ => ensures_throw trivial

theorem KeepsWriting.bind {f : α → Gen β} (h : KeepsWriting x) (hf : ∀ a, KeepsWriting (f a)) :
    KeepsWriting (x >>= f) :=
  fun g hg => ensures_bind ((h g hg).mono fun a g1 h1 => hf a g1 h1)

theorem keepsWriting_instruction {i : Instruction} (h : ∀ id, i.Takes Anywhere id Anywhere) :
    KeepsWriting (createInstruction i) :=
  fun g hg => stands_instruction hg (h g.builder.next) fun _ _ h1 => h1

theorem keepsWriting_reads {i : Instruction} (h : i.Reads) : KeepsWriting (createInstruction i) :=
  keepsWriting_instruction h.anywhere

theorem keepsWriting_withBuilder {f : Builder → α × Builder}
    (h : ∀ b : Builder, b.Asserts Anywhere → (f b).2.Asserts Anywhere) :
    KeepsWriting (withBuilder f) :=
  fun g hg => ensures_withBuilder ⟨hg.functions, h g.builder hg.builder⟩

theorem keepsWriting_createBlock : KeepsWriting createBlock :=
  keepsWriting_withBuilder fun _ h => h.createBlock

theorem keepsWriting_setInsertPoint (block : BlockId) : KeepsWriting (setInsertPoint block) := by
  apply keepsWriting_withBuilder
  intro b h
  rw [Builder.asserts_anywhere] at h ⊢
  exact h

theorem keepsWriting_getInsertBlock : KeepsWriting getInsertBlock :=
  keepsWriting_withBuilder fun _ h => h

theorem keepsWriting_hasTerminator : KeepsWriting hasTerminator :=
  keepsWriting_withBuilder fun _ h => h

theorem keepsWriting_createTerminator (t : Terminator) : KeepsWriting (createTerminator t) :=
  keepsWriting_withBuilder fun b h => h.modify (b.terminate t) rfl fun _ => rfl

theorem keepsWriting_addCase (block : BlockId) (value : BitVec 64) (target : BlockId) :
    KeepsWriting (withBuilder fun b => ((), b.addCase block value target)) :=
  keepsWriting_withBuilder fun b h => h.modify (b.addCase block value target) rfl fun _ => rfl

theorem keepsWriting_createBinary (op : BinaryOp) (left right : Operand) :
    KeepsWriting (withBuilder (Builder.createBinary op left right)) := by
  apply keepsWriting_withBuilder
  intro b h
  unfold Builder.createBinary
  split
  · exact h
  · exact h.insert ((reads_binary op left right).anywhere _)

theorem keepsWriting_getLocals : KeepsWriting getLocals := fun _ h => h

theorem keepsWriting_setLocals (locals_ : AssocMap SymbolId TypedValue) :
    KeepsWriting (setLocals locals_) := fun _ h => ⟨h.functions, h.builder⟩

theorem keepsWriting_setLocal (id : SymbolId) (value : TypedValue) :
    KeepsWriting (setLocal id value) := fun _ h => ⟨h.functions, h.builder⟩

/-! ## Parts of expressions -/

theorem keepsWriting_loadTag (node : Operand) : KeepsWriting (loadTag node) :=
  (keepsWriting_reads (reads_structGEP _ _ _)).bind fun _ => keepsWriting_reads (reads_load _ _)

theorem keepsWriting_unpackValue (value : Operand) (T : TypeVariant) :
    KeepsWriting (unpackValue value T) := by
  cases T with
  | IntType => exact keepsWriting_pure value
  | DataType d => exact keepsWriting_reads (reads_inttoptr value)
  | FunctionType P R => exact keepsWriting_throw _

theorem keepsWriting_loadField (node : Operand) (index : Nat) (T : TypeVariant) :
    KeepsWriting (loadField node index T) := by
  unfold loadField
  refine (keepsWriting_reads (reads_structGEP _ _ _)).bind fun fields_ptr => ?_
  refine (keepsWriting_reads (reads_load _ _)).bind fun fields => ?_
  refine (keepsWriting_reads (reads_gep _ _)).bind fun field_ptr => ?_
  exact (keepsWriting_reads (reads_load _ _)).bind fun packed => keepsWriting_unpackValue packed T

theorem keepsWriting_emitTrap : KeepsWriting emitTrap :=
  (keepsWriting_instruction (takes_trap _)).bind fun _ => keepsWriting_createTerminator _

theorem keepsWriting_finishCaseExpression (merge_block : BlockId)
    (incoming : List (TypedValue × BlockId)) :
    KeepsWriting (finishCaseExpression merge_block incoming) := by
  cases incoming with
  | nil => exact keepsWriting_throw _
  | cons entry incoming =>
    unfold finishCaseExpression
    refine (keepsWriting_setInsertPoint merge_block).bind fun _ => ?_
    cases hT : llvmType entry.1.type with
    | error e => exact keepsWriting_throw e
    | ok type =>
      exact (keepsWriting_reads (reads_phi type _)).bind fun phi =>
        keepsWriting_pure (⟨phi, entry.1.type⟩ : TypedValue)

theorem keepsWriting_emitBranchBody {emitBody : Gen TypedValue} (h : KeepsWriting emitBody)
    (merge_block : BlockId) (incoming : List (TypedValue × BlockId)) :
    KeepsWriting (emitBranchBody emitBody merge_block incoming) := by
  unfold emitBranchBody
  refine h.bind fun body => keepsWriting_getInsertBlock.bind fun incoming_block => ?_
  refine keepsWriting_hasTerminator.bind fun terminated => ?_
  split
  · exact keepsWriting_pure _
  · exact (keepsWriting_createTerminator _).bind fun _ => keepsWriting_pure _

theorem keepsWriting_emitArguments {arguments : List (Gen TypedValue)}
    (h : ∀ a ∈ arguments, KeepsWriting a) : KeepsWriting (emitArguments arguments) := by
  induction arguments with
  | nil => exact keepsWriting_pure _
  | cons argument arguments ih =>
    rw [List.forall_mem_cons] at h
    exact h.1.bind fun value => (ih h.2).bind fun values => keepsWriting_pure _

theorem ensures_emitArguments_length (arguments : List (Gen TypedValue)) (g : GeneratorState) :
    Ensures (emitArguments arguments) g (fun _ => True) fun values _ =>
      values.length = arguments.length := by
  induction arguments generalizing g with
  | nil => exact ensures_pure _ rfl
  | cons argument arguments ih =>
    refine ensures_bind (ensures_of_ok fun value g1 _ => ?_)
    exact ensures_bind ((ih g1).mono fun values g2 hlen => ensures_pure _ (congrArg (· + 1) hlen))

section

variable {scopes : ScopeTree} {types : TypeTable} {functions_ : AssocMap SymbolId Nat}
  {constructors_ : AssocMap SymbolId ConstructorLayout}

theorem keepsWriting_getLayout (s : Symbol) : KeepsWriting (getLayout constructors_ s) := by
  unfold getLayout
  split
  · exact keepsWriting_throw _
  · exact keepsWriting_pure _

theorem keepsWriting_patternConstructor (id : NodeId) (name : String) :
    KeepsWriting (patternConstructor scopes id name) := by
  unfold patternConstructor
  split
  · exact keepsWriting_throw _
  · exact keepsWriting_pure _

theorem keepsWriting_emitVariablePattern (id : NodeId) (name : String) (scrutinee : TypedValue) :
    KeepsWriting (emitVariablePattern scopes id name scrutinee) := by
  unfold emitVariablePattern
  split
  · exact keepsWriting_throw _
  · exact keepsWriting_setLocal _ _

theorem keepsWriting_bindPatternFields (name : String) (scope_id : ScopeId) (scrutinee : Operand)
    (index : Nat) (arguments : List String) (Ts : List TypeVariant) :
    KeepsWriting (bindPatternFields scopes name scope_id scrutinee index arguments Ts) := by
  induction arguments generalizing index Ts with
  | nil => exact keepsWriting_pure ()
  | cons argument arguments ih =>
    cases Ts with
    | nil => exact keepsWriting_throw _
    | cons T Ts =>
      unfold bindPatternFields
      split
      · exact keepsWriting_throw _
      · refine (keepsWriting_loadField scrutinee index T).bind fun field => ?_
        exact (keepsWriting_setLocal _ _).bind fun _ => ih (index + 1) Ts

theorem keepsWriting_emitConstructorPattern (id : NodeId) (name : String) (arguments : List String)
    (scrutinee : Operand) (layout : ConstructorLayout) :
    KeepsWriting (emitConstructorPattern scopes id name arguments scrutinee layout) := by
  unfold emitConstructorPattern
  split
  · exact keepsWriting_throw _
  · split
    · exact keepsWriting_throw _
    · exact keepsWriting_bindPatternFields name _ scrutinee 0 arguments _

theorem keepsWriting_emitVariable (id : NodeId) (name : String) :
    KeepsWriting (emitVariable scopes constructors_ id name) := by
  unfold emitVariable
  split
  · exact keepsWriting_throw _
  · split
    · refine (keepsWriting_getLayout _).bind fun layout => ?_
      split
      · exact fun g hg => stands_emitConstructedValue hg (by simp)
      · exact keepsWriting_throw _
    · exact keepsWriting_throw _
    · refine keepsWriting_getLocals.bind fun locals_ => ?_
      split
      · exact keepsWriting_throw _
      · exact keepsWriting_pure _

theorem keepsWriting_reserve (count bytes : Nat) : KeepsWriting (reserve count bytes) := by
  unfold reserve
  split
  · exact keepsWriting_throw _
  · exact keepsWriting_pure ()

theorem keepsWriting_emitFunctionCall (s : Symbol) {arguments : List (Gen TypedValue)}
    (h : ∀ a ∈ arguments, KeepsWriting a) :
    KeepsWriting (emitFunctionCall types functions_ s arguments) := by
  unfold emitFunctionCall
  split
  · exact keepsWriting_throw _
  · split
    · exact keepsWriting_throw _
    · refine (keepsWriting_reserve _ _).bind fun _ => ?_
      refine (keepsWriting_emitArguments h).bind fun values => ?_
      exact (keepsWriting_instruction fun id => takes_call _ id _).bind fun value =>
        keepsWriting_pure _

/-- The arguments have been reserved, so their number is not too large. -/
theorem keepsWriting_emitConstructorCall (s : Symbol) {arguments : List (Gen TypedValue)}
    (h : ∀ a ∈ arguments, KeepsWriting a) :
    KeepsWriting (emitConstructorCall constructors_ s arguments) := by
  unfold emitConstructorCall
  refine (keepsWriting_getLayout s).bind fun layout => ?_
  split
  · intro g hg
    refine ensures_bind (ensures_of_ok fun _ g1 hreserve => ?_)
    have hfits := (requires_reserve arguments.length (by decide : 8 ≤ 24) g).of_ok hreserve
    have h1 := (keepsWriting_reserve arguments.length 24 g hg).of_ok hreserve
    refine ensures_bind (ensures_of_ok fun values g2 hvalues => ?_)
    have h2 := (keepsWriting_emitArguments h g1 h1).of_ok hvalues
    have hlen := (ensures_emitArguments_length arguments g1).of_ok hvalues
    refine stands_emitConstructedValue h2 ?_
    rw [hlen]
    unfold maxPointers at hfits
    omega
  · exact keepsWriting_throw _

theorem keepsWriting_emitSwitchBranch (id : NodeId) (name : String) (arguments : List String)
    {emitBody : Gen TypedValue} (h : KeepsWriting emitBody) (scrutinee : TypedValue)
    (switch_block merge_block : BlockId) (incoming : List (TypedValue × BlockId)) :
    KeepsWriting (emitSwitchBranch scopes constructors_ id name arguments emitBody scrutinee
      switch_block merge_block incoming) := by
  unfold emitSwitchBranch
  refine (keepsWriting_patternConstructor id name).bind fun constructor => ?_
  refine (keepsWriting_getLayout constructor).bind fun layout => ?_
  refine keepsWriting_createBlock.bind fun branch_block => ?_
  refine (keepsWriting_addCase _ _ _).bind fun _ => ?_
  refine (keepsWriting_setInsertPoint branch_block).bind fun _ => ?_
  refine keepsWriting_getLocals.bind fun saved_locals => ?_
  refine (keepsWriting_emitConstructorPattern id name arguments _ layout).bind fun _ => ?_
  refine (keepsWriting_emitBranchBody h merge_block incoming).bind fun incoming => ?_
  exact (keepsWriting_setLocals saved_locals).bind fun _ => keepsWriting_pure _

theorem keepsWriting_emitConstructorCaseBranch (id : NodeId) (name : String)
    (arguments : List String) {emitBody : Gen TypedValue} (h : KeepsWriting emitBody)
    (scrutinee : TypedValue) (merge_block : BlockId) (incoming : List (TypedValue × BlockId)) :
    KeepsWriting (emitConstructorCaseBranch scopes constructors_ id name arguments emitBody
      scrutinee merge_block incoming) := by
  unfold emitConstructorCaseBranch
  refine (keepsWriting_patternConstructor id name).bind fun constructor => ?_
  refine (keepsWriting_getLayout constructor).bind fun layout => ?_
  refine keepsWriting_createBlock.bind fun matched_block => ?_
  refine keepsWriting_createBlock.bind fun next_block => ?_
  refine (keepsWriting_loadTag _).bind fun tag => ?_
  refine (keepsWriting_reads (reads_icmpEq _ _)).bind fun matched => ?_
  refine (keepsWriting_createTerminator _).bind fun _ => ?_
  refine (keepsWriting_setInsertPoint matched_block).bind fun _ => ?_
  refine keepsWriting_getLocals.bind fun saved_locals => ?_
  refine (keepsWriting_emitConstructorPattern id name arguments _ layout).bind fun _ => ?_
  refine (keepsWriting_emitBranchBody h merge_block incoming).bind fun incoming => ?_
  refine (keepsWriting_setLocals saved_locals).bind fun _ => ?_
  exact (keepsWriting_setInsertPoint next_block).bind fun _ => keepsWriting_pure _

theorem keepsWriting_emitSwitchCaseExpression
    {emitBranches : BlockId → BlockId → Gen (List (TypedValue × BlockId))}
    (h : ∀ switch_block merge_block, KeepsWriting (emitBranches switch_block merge_block))
    (scrutinee : TypedValue) :
    KeepsWriting (emitSwitchCaseExpression emitBranches scrutinee) := by
  unfold emitSwitchCaseExpression
  refine keepsWriting_createBlock.bind fun default_block => ?_
  refine keepsWriting_createBlock.bind fun merge_block => ?_
  refine (keepsWriting_loadTag _).bind fun tag => ?_
  refine keepsWriting_getInsertBlock.bind fun switch_block => ?_
  refine (keepsWriting_createTerminator _).bind fun _ => ?_
  refine (h switch_block merge_block).bind fun incoming => ?_
  refine (keepsWriting_setInsertPoint default_block).bind fun _ => ?_
  exact keepsWriting_emitTrap.bind fun _ => keepsWriting_finishCaseExpression merge_block incoming

theorem keepsWriting_emitSequentialCaseExpression
    {emitBranches : BlockId → Gen (List (TypedValue × BlockId) × Bool)}
    (h : ∀ merge_block, KeepsWriting (emitBranches merge_block)) :
    KeepsWriting (emitSequentialCaseExpression emitBranches) := by
  unfold emitSequentialCaseExpression
  refine keepsWriting_createBlock.bind fun merge_block => (h merge_block).bind fun result => ?_
  obtain ⟨incoming, has_fallthrough⟩ := result
  cases has_fallthrough with
  | false => exact keepsWriting_finishCaseExpression merge_block incoming
  | true =>
    exact keepsWriting_emitTrap.bind fun _ => keepsWriting_finishCaseExpression merge_block incoming

/-! ## Expressions -/

theorem keepsWriting_emitSwitchBranches {branches : List Branch}
    (h : ∀ b ∈ branches,
      KeepsWriting (emitExpression scopes types functions_ constructors_ b.body))
    (scrutinee : TypedValue) (switch_block merge_block : BlockId)
    (incoming : List (TypedValue × BlockId)) :
    KeepsWriting (emitSwitchBranches scopes types functions_ constructors_ branches scrutinee
      switch_block merge_block incoming) := by
  induction branches generalizing incoming with
  | nil => exact keepsWriting_pure _
  | cons b branches ih =>
    obtain ⟨bid, pattern, body⟩ := b
    rw [List.forall_mem_cons] at h
    cases pattern with
    | VariablePattern id name => exact keepsWriting_throw _
    | ConstructorPattern id name arguments =>
      exact (keepsWriting_emitSwitchBranch id name arguments h.1 scrutinee switch_block merge_block
        incoming).bind fun incoming => ih h.2 incoming

theorem keepsWriting_emitSequentialBranches {branches : List Branch}
    (h : ∀ b ∈ branches,
      KeepsWriting (emitExpression scopes types functions_ constructors_ b.body))
    (scrutinee : TypedValue) (merge_block : BlockId) (incoming : List (TypedValue × BlockId)) :
    KeepsWriting (emitSequentialBranches scopes types functions_ constructors_ branches scrutinee
      merge_block incoming) := by
  induction branches generalizing incoming with
  | nil => exact keepsWriting_pure _
  | cons b branches ih =>
    obtain ⟨bid, pattern, body⟩ := b
    rw [List.forall_mem_cons] at h
    cases pattern with
    | VariablePattern id name =>
      refine (keepsWriting_emitVariablePattern id name scrutinee).bind fun _ => ?_
      exact (keepsWriting_emitBranchBody h.1 merge_block incoming).bind fun incoming =>
        keepsWriting_pure _
    | ConstructorPattern id name arguments =>
      exact (keepsWriting_emitConstructorCaseBranch id name arguments h.1 scrutinee merge_block
        incoming).bind fun incoming => ih h.2 incoming

/-- The code of an expression, and of the application of one to arguments. -/
theorem keepsWriting_emitExpression (e : Expression) :
    KeepsWriting (emitExpression scopes types functions_ constructors_ e) ∧
      ∀ arguments : List (Gen TypedValue), (∀ a ∈ arguments, KeepsWriting a) →
        KeepsWriting (emitApplication scopes types functions_ constructors_ e arguments) := by
  induction e with
  | IntLiteral id value => exact ⟨keepsWriting_pure _, fun _ _ => keepsWriting_throw _⟩
  | Variable id name =>
    refine ⟨keepsWriting_emitVariable id name, fun arguments h => ?_⟩
    simp only [emitApplication]
    unfold emitCall
    split
    · exact keepsWriting_throw _
    · split
      · exact keepsWriting_emitFunctionCall _ h
      · exact keepsWriting_emitConstructorCall _ h
      · exact keepsWriting_throw _
  | BinaryOperator kind id left right ihl ihr =>
    refine ⟨?_, fun _ _ => keepsWriting_throw _⟩
    refine ihl.1.bind fun left => ihr.1.bind fun right => ?_
    exact (keepsWriting_createBinary _ _ _).bind fun value => keepsWriting_pure _
  | Application id f a ihf iha =>
    refine ⟨ihf.2 _ (by simpa using iha.1), fun arguments h => ?_⟩
    exact ihf.2 _ (List.forall_mem_cons.mpr ⟨iha.1, h⟩)
  | CaseExpression id scrutinee branches ihs ihb =>
    refine ⟨?_, fun _ _ => keepsWriting_throw _⟩
    have hb : ∀ b ∈ branches,
        KeepsWriting (emitExpression scopes types functions_ constructors_ b.body) :=
      fun b hb => (ihb b hb).1
    refine ihs.1.bind fun value => ?_
    split
    · exact keepsWriting_emitSwitchCaseExpression
        (fun switch_block merge_block =>
          keepsWriting_emitSwitchBranches hb value switch_block merge_block []) value
    · exact keepsWriting_emitSequentialCaseExpression fun merge_block =>
        keepsWriting_emitSequentialBranches hb value merge_block []

/-! ## Definitions -/

theorem keepsWriting_startFunction : KeepsWriting startFunction :=
  fun _ h => ensures_startFunction ⟨h.functions, Builder.asserts_entry⟩

theorem keepsWriting_finishFunction (function : Nat) : KeepsWriting (finishFunction function) := by
  intro g h
  refine ⟨fun F hF => ?_, h.builder⟩
  obtain ⟨n, hn⟩ := List.getElem?_of_mem hF
  rw [List.getElem?_modify] at hn
  obtain ⟨F', hF', hchanged⟩ := Option.map_eq_some_iff.mp hn
  by_cases hid : function = n
  · rw [if_pos hid] at hchanged
    rw [← hchanged]
    exact Builder.asserts_anywhere.mp h.builder
  · rw [if_neg hid] at hchanged
    rw [← hchanged]
    exact h.functions F' (List.mem_of_getElem? hF')

theorem keepsWriting_createMain : KeepsWriting createMain := by
  intro g h
  refine ⟨fun F hF => ?_, h.builder⟩
  rcases List.mem_append.mp hF with hF | hF
  · exact h.functions F hF
  · rw [List.mem_singleton.mp hF]
    intro block hblock
    cases hblock

theorem keepsWriting_bindParameters (scope_id : ScopeId) (index : Nat) (parameters : List String)
    (Ts : List TypeVariant) :
    KeepsWriting (bindParameters scopes scope_id index parameters Ts) := by
  induction parameters generalizing index Ts with
  | nil => exact keepsWriting_pure ()
  | cons parameter parameters ih =>
    cases Ts with
    | nil => exact keepsWriting_throw _
    | cons T Ts =>
      unfold bindParameters
      split
      · exact keepsWriting_throw _
      · exact (keepsWriting_setLocal _ _).bind fun _ => ih (index + 1) Ts

theorem keepsWriting_defineFunction (fd : FunctionDefinition) :
    KeepsWriting (defineFunction scopes types functions_ constructors_ fd) := by
  unfold defineFunction
  split
  · exact keepsWriting_pure ()
  · split
    · exact keepsWriting_pure ()
    · split
      · exact keepsWriting_pure ()
      · refine (keepsWriting_setLocals _).bind fun _ => ?_
        split
        · exact keepsWriting_throw _
        · unfold emitFunctionBody
          refine keepsWriting_startFunction.bind fun _ => ?_
          refine (keepsWriting_bindParameters _ 0 _ _).bind fun _ => ?_
          refine (keepsWriting_emitExpression fd.body).1.bind fun body => ?_
          exact (keepsWriting_createTerminator _).bind fun _ => keepsWriting_finishFunction _

theorem keepsWriting_defineFunctions (definitions : List Definition) :
    KeepsWriting (defineFunctions scopes types functions_ constructors_ definitions) := by
  induction definitions with
  | nil => exact keepsWriting_pure ()
  | cons d definitions ih =>
    cases d with
    | FunctionDefinition fd => exact (keepsWriting_defineFunction fd).bind fun _ => ih
    | DataTypeDefinition dt => exact ih

theorem keepsWriting_emitPrint (value : Operand) (T : TypeVariant) :
    KeepsWriting (emitPrint value T) := by
  cases T with
  | IntType => exact (keepsWriting_instruction (takes_printf _)).bind fun _ => keepsWriting_pure ()
  | DataType d =>
    refine (keepsWriting_loadTag value).bind fun tag => ?_
    exact (keepsWriting_instruction (takes_printf _)).bind fun _ => keepsWriting_pure ()
  | FunctionType P R => exact keepsWriting_throw _

theorem keepsWriting_defineMain : KeepsWriting (defineMain scopes types functions_) := by
  unfold defineMain
  split
  · exact keepsWriting_throw _
  · split
    · exact keepsWriting_throw _
    · split
      · exact keepsWriting_throw _
      · refine keepsWriting_createMain.bind fun main_function => ?_
        refine keepsWriting_startFunction.bind fun _ => ?_
        refine (keepsWriting_instruction fun id => takes_call _ id _).bind fun result => ?_
        refine (keepsWriting_emitPrint result _).bind fun _ => ?_
        exact (keepsWriting_createTerminator _).bind fun _ => keepsWriting_finishFunction _

/-- A declared function has no code yet. -/
theorem declareFunctions_writesOnce (program : Program) :
    Satisfies (declareFunctions scopes types program) (fun _ => True) fun s =>
      ∀ F ∈ s.1, F.WritesOnce := by
  have hfold : ∀ (definitions : List Definition) (s : List llvm.Function × AssocMap SymbolId Nat),
      (∀ F ∈ s.1, F.WritesOnce) →
      Satisfies (definitions.foldlM (declareFunction scopes types) s) (fun _ => True) fun s' =>
        ∀ F ∈ s'.1, F.WritesOnce := by
    intro definitions
    induction definitions with
    | nil => exact fun s h => h
    | cons d definitions ih =>
      intro s h
      rw [List.foldlM_cons, satisfies_bind]
      have hone : Satisfies (declareFunction scopes types s d) (fun _ => True) fun s' =>
          ∀ F ∈ s'.1, F.WritesOnce := by
        cases d with
        | DataTypeDefinition dt => exact h
        | FunctionDefinition fd =>
          unfold declareFunction
          dsimp only
          split
          · exact h
          · split
            · exact h
            · apply satisfies_bind_of
              intro parameters
              apply satisfies_bind_of
              intro result F hF
              rcases List.mem_append.mp hF with hF | hF
              · exact h F hF
              · rw [List.mem_singleton.mp hF]
                intro block hblock
                cases hblock
      exact hone.mono fun s' h' => ih s' h'
  exact hfold program.definitions ([], .empty) (by simp)

end

/-- The generated module writes each cell once. -/
theorem generateModule_writesOnce {program : Program} {scopes : ScopeTree} {types : TypeTable}
    {M : Module} (h : generateModule program scopes types = .ok M) : M.WritesOnce := by
  unfold generateModule at h
  obtain ⟨⟨functions, functions_⟩, hdeclare, hdefine⟩ := bind_eq_ok.mp h
  obtain ⟨⟨_, g⟩, hrun, hM⟩ := bind_eq_ok.mp hdefine
  cases hM
  have hstart : Stands ⟨functions, .entry, .empty⟩ Anywhere :=
    ⟨(declareFunctions_writesOnce program).of_ok hdeclare, Builder.asserts_entry⟩
  have hkeeps : KeepsWriting (do
      defineFunctions scopes types functions_ (registerConstructors scopes types program)
        program.definitions
      defineMain scopes types functions_) :=
    (keepsWriting_defineFunctions _).bind fun _ => keepsWriting_defineMain
  exact ((hkeeps _ hstart).of_ok hrun).functions

end mf.visitors
