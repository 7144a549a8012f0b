-- The helpers of the code generator emit code that does what their meanings
-- say: one rule for each, composed by `Emitted.bind`.
import MiniFunctional.CodeMeaning
import MiniFunctional.Compilable

open mf.util mf.ast llvm
open mf.semantics hiding Frame

namespace mf.visitors

variable {M : Module} {α β : Type} {g g1 g2 : GeneratorState} {E : GenerateError → Prop}

/-- From `g` to `g'` code was emitted that behaves as `B` says; nothing else
changed. -/
structure Emitted (M : Module) (g g' : GeneratorState) (B : Frame → Behaviour α)
    (Q : α → Frame → Prop) : Prop where
  codes : Codes M g.builder g'.builder B Q
  functions : g'.functions = g.functions
  locals_ : g'.locals_ = g.locals_

/-- The code's value is that of the operand. -/
structure EmittedValue (M : Module) (g : GeneratorState) (op : Operand) (g' : GeneratorState)
    (B : Frame → Behaviour Val) : Prop
    extends Emitted M g g' B fun v frame => frame.eval op = v where
  below : op.Below g'.builder.next

theorem Emitted.opened {B : Frame → Behaviour α} {Q : α → Frame → Prop}
    (h : Emitted M g g1 B Q) : g1.builder.Open := h.codes.emits.opened

theorem Emitted.next {B : Frame → Behaviour α} {Q : α → Frame → Prop}
    (h : Emitted M g g1 B Q) : g.builder.next ≤ g1.builder.next := h.codes.emits.next

theorem Emitted.onlyBinds {B : Frame → Behaviour α} {Q : α → Frame → Prop}
    (h : Emitted M g g1 B Q) : OnlyBinds [] g g1 := .of_eq ⟨h.functions, h.locals_⟩

theorem Emitted.bind {B : Frame → Behaviour α} {B' : Frame → Behaviour β}
    {G : Frame → α → Behaviour β} {Q : α → Frame → Prop} {Q' : β → Frame → Prop}
    (h : Emitted M g g1 B Q) (h' : Emitted M g1 g2 B' Q')
    (hG : ∀ frame frame1 a, Kept g.builder.next frame frame1 → Q a frame1 →
      B' frame1 = G frame a) : Emitted M g g2 (fun frame => B frame >>= G frame) Q' :=
  ⟨h.codes.bind h'.codes hG, h'.functions.trans h.functions, h'.locals_.trans h.locals_⟩

theorem Emitted.congr {B B' : Frame → Behaviour α} {Q : α → Frame → Prop}
    (h : Emitted M g g1 B Q) (hB : ∀ frame, B' frame = B frame) : Emitted M g g1 B' Q :=
  ⟨h.codes.congr hB, h.functions, h.locals_⟩

theorem EmittedValue.congr {op : Operand} {B B' : Frame → Behaviour Val}
    (h : EmittedValue M g op g1 B) (hB : ∀ frame, B' frame = B frame) :
    EmittedValue M g op g1 B' :=
  ⟨h.toEmitted.congr hB, h.below⟩

/-- A value, and code that uses it. -/
theorem EmittedValue.bind {op : Operand} {B : Frame → Behaviour Val} {B' : Frame → Behaviour β}
    {G : Frame → Val → Behaviour β} {Q' : β → Frame → Prop} (h : EmittedValue M g op g1 B)
    (h' : Emitted M g1 g2 B' Q')
    (hG : ∀ frame frame1, Kept g.builder.next frame frame1 →
      B' frame1 = G frame (frame1.eval op)) :
    Emitted M g g2 (fun frame => B frame >>= G frame) Q' :=
  h.toEmitted.bind h' fun frame frame1 a hkept ha => by rw [hG frame frame1 hkept, ha]

theorem EmittedValue.bindValue {op op' : Operand} {B B' : Frame → Behaviour Val}
    {G : Frame → Val → Behaviour Val} (h : EmittedValue M g op g1 B)
    (h' : EmittedValue M g1 op' g2 B')
    (hG : ∀ frame frame1, Kept g.builder.next frame frame1 →
      B' frame1 = G frame (frame1.eval op)) :
    EmittedValue M g op' g2 (fun frame => B frame >>= G frame) :=
  ⟨h.bind h'.toEmitted hG, h'.below⟩

theorem emitted_pure (h : g.builder.Open) (a : Frame → α) :
    Emitted M g g (fun frame => pure (a frame)) fun v frame => a frame = v :=
  ⟨.pure h a fun _ => rfl, rfl, rfl⟩

theorem emittedValue_pure (h : g.builder.Open) {op : Operand} (hop : op.Below g.builder.next) :
    EmittedValue M g op g fun frame => pure (frame.eval op) :=
  ⟨emitted_pure h _, hop⟩

/-! ## Instructions -/

theorem emitted_instruction (M : Module) (hopen : g.builder.Open) {i : Instruction} (hi : i.Plain)
    {B : Frame → Behaviour Val} (hB : ∀ frame, executeBehaviour frame i = B frame) :
    Ensures (createInstruction i) g E fun op g' => EmittedValue M g op g' B := by
  refine ensures_withBuilder ⟨⟨?_, rfl, rfl⟩, ?_⟩
  · exact (codes_insert hopen hi).congr fun frame => (hB frame).symm
  · exact Nat.lt_succ_self g.builder.next

theorem emitted_structGEP (M : Module) (hopen : g.builder.Open) (node : Operand)
    (field : Nat) :
    Ensures (createStructGEP node field) g E fun op g' =>
      EmittedValue M g op g' fun frame => Behaviour.structGEP (frame.eval node) field :=
  emitted_instruction M hopen (fun _ _ _ _ _ _ => rfl) fun frame => execute_structGEP frame _ _ _

theorem emitted_gep (M : Module) (hopen : g.builder.Open) (fields : Operand) (index : Nat) :
    Ensures (createInBoundsGEP fields index) g E fun op g' =>
      EmittedValue M g op g' fun frame =>
        Behaviour.gep (frame.eval fields) (.int (BitVec.ofNat 64 index)) :=
  emitted_instruction M hopen (fun _ _ _ _ _ _ => rfl) fun frame => execute_gep frame _ _

theorem emitted_icmpEq (M : Module) (hopen : g.builder.Open) (left right : Operand) :
    Ensures (createInstruction (.icmpEq left right)) g E fun op g' =>
      EmittedValue M g op g' fun frame => Behaviour.icmpEq (frame.eval left) (frame.eval right) :=
  emitted_instruction M hopen (fun _ _ _ _ _ _ => rfl) fun frame => execute_icmpEq frame _ _

theorem emitted_load (M : Module) (hopen : g.builder.Open) (type : Ty) (pointer : Operand) :
    Ensures (createInstruction (.load type pointer)) g E fun op g' => op.isConstant = false ∧
      EmittedValue M g op g' fun frame => Behaviour.load type (frame.eval pointer) :=
  ensures_withBuilder ⟨rfl, emitted_instruction (E := E) M hopen (fun _ _ _ _ _ _ => rfl)
    fun frame => execute_load frame _ _⟩

theorem emitted_malloc (M : Module) (hopen : g.builder.Open) (size : BitVec 64) :
    Ensures (createInstruction (.call .malloc [.int size])) g E fun op g' =>
      op.isConstant = false ∧ EmittedValue M g op g' fun _ => Behaviour.malloc (.int size) :=
  ensures_withBuilder ⟨rfl, emitted_instruction (E := E) M hopen (fun _ _ _ _ _ _ => rfl)
    fun frame => execute_malloc frame _⟩

theorem emitted_store (M : Module) (hopen : g.builder.Open) (value pointer : Operand) :
    Ensures (createStore value pointer) g E fun _ g' =>
      Emitted M g g' (fun frame => Behaviour.store (frame.eval value) (frame.eval pointer))
        fun _ _ => True := by
  refine ensures_bind ((emitted_instruction M hopen (fun _ _ _ _ _ _ => rfl)
    fun frame => execute_store frame value pointer).mono fun op g' h => ensures_pure () ?_)
  exact ⟨h.codes.mono fun _ _ _ => trivial, h.functions, h.locals_⟩

/-! ## Nodes -/

theorem emitted_packValue (M : Module) (hopen : g.builder.Open) {value : Operand}
    (hvalue : value.Below g.builder.next) (T : TypeVariant) :
    Ensures (packValue value T) g (fun _ => True) fun op g' =>
      EmittedValue M g op g' fun frame => Meaning.packValue (frame.eval value) T := by
  cases T with
  | IntType => exact ensures_pure value (emittedValue_pure hopen hvalue)
  | DataType d =>
    exact emitted_instruction M hopen (fun _ _ _ _ _ _ => rfl)
      fun frame => execute_ptrtoint frame value
  | FunctionType P R => exact ensures_throw trivial

theorem emitted_unpackValue (M : Module) (hopen : g.builder.Open) {value : Operand}
    (hvalue : value.Below g.builder.next) (hconstant : value.isConstant = false)
    (T : TypeVariant) :
    Ensures (unpackValue value T) g (fun _ => True) fun op g' => op.isConstant = false ∧
      EmittedValue M g op g' fun frame => Meaning.unpackValue (frame.eval value) T := by
  cases T with
  | IntType => exact ensures_pure value ⟨hconstant, emittedValue_pure hopen hvalue⟩
  | DataType d =>
    exact ensures_withBuilder ⟨rfl, emitted_instruction (E := fun _ => True) M hopen
      (fun _ _ _ _ _ _ => rfl) fun frame => execute_inttoptr frame value⟩
  | FunctionType P R => exact ensures_throw trivial

theorem emitted_loadTag (M : Module) (hopen : g.builder.Open) (node : Operand) :
    Ensures (loadTag node) g E fun op g' =>
      EmittedValue M g op g' fun frame => Meaning.loadTag (frame.eval node) := by
  unfold loadTag
  refine ensures_bind ((emitted_structGEP M hopen node 0).mono fun tag_ptr g1 h1 => ?_)
  refine (emitted_load M h1.opened .i64 tag_ptr).mono fun tag g2 ⟨_, h2⟩ => ?_
  exact h1.bindValue h2 fun _ _ _ => rfl

theorem emitted_loadField (M : Module) (hopen : g.builder.Open) (node : Operand) (index : Nat)
    (T : TypeVariant) :
    Ensures (loadField node index T) g (fun _ => True) fun op g' => op.isConstant = false ∧
      EmittedValue M g op g' fun frame => Meaning.loadField (frame.eval node) index T := by
  unfold loadField
  refine ensures_bind ((emitted_structGEP M hopen node 2).mono fun fields_ptr g1 h1 => ?_)
  refine ensures_bind ((emitted_load M h1.opened .ptr fields_ptr).mono
    fun fields g2 ⟨_, h2⟩ => ?_)
  refine ensures_bind ((emitted_gep M h2.opened fields index).mono fun field_ptr g3 h3 => ?_)
  refine ensures_bind ((emitted_load M h3.opened .i64 field_ptr).mono
    fun packed g4 ⟨hpacked, h4⟩ => ?_)
  refine (emitted_unpackValue M h4.opened h4.below hpacked T).mono fun op g5 ⟨hop, h5⟩ => ⟨hop, ?_⟩
  have h45 := h4.bindValue h5 (G := fun _ packed => Meaning.unpackValue packed T) fun _ _ _ => rfl
  have h35 := h3.bindValue h45 (G := fun _ field_ptr => Behaviour.load .i64 field_ptr >>=
    fun packed => Meaning.unpackValue packed T) fun _ _ _ => rfl
  have h25 := h2.bindValue h35 (G := fun _ fields => Behaviour.gep fields _ >>= fun field_ptr =>
    Behaviour.load .i64 field_ptr >>= fun packed => Meaning.unpackValue packed T) fun _ _ _ => rfl
  exact h1.bindValue h25 fun _ _ _ => rfl

/-- The values of operands. -/
def operandValues (frame : Frame) (arguments : List TypedValue) : List Val :=
  arguments.map fun argument => frame.eval argument.value

theorem operandValues_kept {n : Nat} {frame frame' : Frame} (h : Kept n frame frame')
    {arguments : List TypedValue} (hbelow : ∀ a ∈ arguments, a.value.Below n) :
    operandValues frame' arguments = operandValues frame arguments :=
  List.map_congr_left fun a ha => h.eval (hbelow a ha)

theorem below_mono {n n' : Nat} {arguments : List TypedValue}
    (h : ∀ a ∈ arguments, a.value.Below n) (hn : n ≤ n') : ∀ a ∈ arguments, a.value.Below n' :=
  fun a ha => (h a ha).mono hn

theorem emitted_storeFields (M : Module) {fields : Operand} (index : Nat)
    {arguments : List TypedValue} (Ts : List TypeVariant) (hopen : g.builder.Open)
    (hfields : fields.Below g.builder.next)
    (hbelow : ∀ a ∈ arguments, a.value.Below g.builder.next) :
    Ensures (storeFields fields index arguments Ts) g (fun _ => True) fun _ g' =>
      Emitted M g g' (fun frame => Meaning.storeFields (frame.eval fields) index
        (operandValues frame arguments) Ts) fun _ _ => True := by
  induction arguments generalizing g index Ts with
  | nil => exact ensures_pure () ⟨.pure hopen _ fun _ => trivial, rfl, rfl⟩
  | cons argument arguments ih =>
    cases Ts with
    | nil => exact ensures_throw trivial
    | cons T Ts =>
      have hargument := hbelow argument List.mem_cons_self
      have hrest := fun a ha => hbelow a (List.mem_cons_of_mem _ ha)
      simp only [storeFields]
      refine ensures_bind ((emitted_gep M hopen fields index).mono fun slot g1 h1 => ?_)
      refine ensures_bind ((emitted_packValue M h1.opened (hargument.mono h1.next) T).mono
        fun packed g2 h2 => ?_)
      refine ensures_bind ((emitted_store M h2.opened packed slot).mono fun _ g3 h3 => ?_)
      have h03 := Nat.le_trans (Nat.le_trans h1.next h2.next) h3.next
      refine (ih (index + 1) Ts h3.opened (hfields.mono h03) (below_mono hrest h03)).mono
        fun _ g4 h4 => ?_
      have h24 := h3.bind (G := fun frame _ => Meaning.storeFields (frame.eval fields) (index + 1)
          (operandValues frame arguments) Ts) h4 fun frame frame1 _ hkept _ => by
        have h02 := Nat.le_trans h1.next h2.next
        rw [hkept.eval (hfields.mono h02), operandValues_kept hkept (below_mono hrest h02)]
      have h14 := h2.bind (G := fun frame packed => Behaviour.store packed (frame.eval slot) >>=
          fun _ => Meaning.storeFields (frame.eval fields) (index + 1)
            (operandValues frame arguments) Ts) h24 fun frame frame1 hkept => by
        rw [hkept.eval h1.below, hkept.eval (hfields.mono h1.next),
          operandValues_kept hkept (below_mono hrest h1.next)]
      refine h1.bind h14 fun frame frame1 hkept => ?_
      rw [hkept.eval hargument, hkept.eval hfields, operandValues_kept hkept hrest]
      rfl

theorem emitted_emitFields (M : Module) {layout : ConstructorLayout} {arguments : List TypedValue}
    (hopen : g.builder.Open) (hbelow : ∀ a ∈ arguments, a.value.Below g.builder.next) :
    Ensures (emitFields layout arguments) g (fun _ => True) fun op g' =>
      EmittedValue M g op g' fun frame =>
        Meaning.allocateFields (operandValues frame arguments) layout.fields := by
  unfold emitFields Meaning.allocateFields
  cases arguments with
  | nil => exact ensures_pure _ (emittedValue_pure hopen trivial)
  | cons argument arguments =>
    simp only [operandValues, List.isEmpty_cons, List.map_cons, List.length_cons, List.length_map]
    refine ensures_bind (ensures_withBuilder ?_)
    refine ensures_bind ((emitted_malloc M hopen _).mono fun fields g1 ⟨_, h1⟩ => ?_)
    refine ensures_bind ((emitted_storeFields M 0 layout.fields h1.opened h1.below
      (below_mono hbelow h1.next)).mono fun _ g2 h2 => ?_)
    refine ensures_pure fields ⟨?_, h1.below.mono h2.next⟩
    have h12 := h2.bind (G := fun frame _ => pure (frame.eval fields))
      (emitted_pure (M := M) h2.opened fun frame => frame.eval fields)
      fun frame frame1 _ hkept _ => by rw [hkept.eval h1.below]
    refine h1.bind h12 fun frame frame1 hkept => ?_
    rw [operandValues_kept hkept hbelow]
    rfl

theorem emitted_storeWord (M : Module) (hopen : g.builder.Open) (node : Operand) (field : Nat)
    (value : Operand) (hvalue : value.Below g.builder.next) :
    Ensures (do createStore value (← createStructGEP node field)) g E fun _ g' =>
      Emitted M g g' (fun frame =>
        Meaning.storeWord (frame.eval node) field (frame.eval value)) fun _ _ => True := by
  refine ensures_bind ((emitted_structGEP M hopen node field).mono fun p g1 h1 => ?_)
  refine (emitted_store M h1.opened value p).mono fun _ g2 h2 => ?_
  exact h1.bind h2 fun frame frame1 hkept => by rw [hkept.eval hvalue]

theorem ensures_storeWord {f : Gen α} {node value : Operand} {field : Nat}
    {Q : α → GeneratorState → Prop}
    (h : Ensures (do createStore value (← createStructGEP node field)) g E
      fun _ g1 => Ensures f g1 E Q) :
    Ensures (do createStore value (← createStructGEP node field); f) g E Q := by
  have hbind := ensures_bind h
  rwa [bind_assoc] at hbind

theorem emitted_constructedValue (M : Module) {layout : ConstructorLayout}
    {arguments : List TypedValue} (hopen : g.builder.Open)
    (hbelow : ∀ a ∈ arguments, a.value.Below g.builder.next) :
    Ensures (emitConstructedValue layout arguments) g (fun _ => True) fun value g' =>
      value.value.isConstant = false ∧ EmittedValue M g value.value g' fun frame =>
        Meaning.constructedValue layout (operandValues frame arguments) := by
  unfold emitConstructedValue
  refine ensures_bind ((emitted_malloc M hopen _).mono fun node g1 ⟨hnode, h1⟩ => ?_)
  refine ensures_storeWord ((emitted_storeWord M h1.opened node 0 (i64 layout.tag)
    trivial).mono fun _ g2 h2 => ?_)
  refine ensures_storeWord ((emitted_storeWord M h2.opened node 1
    (i64 arguments.length) trivial).mono fun _ g3 h3 => ?_)
  have h02 := Nat.le_trans h1.next h2.next
  have h03 := Nat.le_trans h02 h3.next
  refine ensures_bind ((emitted_emitFields M h3.opened (below_mono hbelow h03)).mono
    fun fields g4 h4 => ?_)
  refine ensures_storeWord ((emitted_storeWord M h4.opened node 2 fields h4.below).mono
    fun _ g5 h5 => ensures_pure _ ⟨hnode, ?_, h1.below.mono ?_⟩)
  · have h45 := h5.bind (G := fun frame _ => pure (frame.eval node))
      (emitted_pure (M := M) h5.opened fun frame => frame.eval node)
      fun frame frame1 _ hkept _ => by
        rw [hkept.eval (h1.below.mono (Nat.le_trans (Nat.le_trans h2.next h3.next) h4.next))]
    have h35 := h4.bind (G := fun frame fields =>
      Meaning.storeWord (frame.eval node) 2 fields >>= fun _ => pure (frame.eval node)) h45
      fun frame frame1 hkept => by
        rw [hkept.eval (h1.below.mono (Nat.le_trans h2.next h3.next))]
    have h25 := h3.bind (G := fun frame _ =>
      Meaning.allocateFields (operandValues frame arguments) layout.fields >>= fun fields =>
        Meaning.storeWord (frame.eval node) 2 fields >>= fun _ => pure (frame.eval node)) h35
      fun frame frame1 _ hkept _ => by
        rw [hkept.eval (h1.below.mono h2.next), operandValues_kept hkept (below_mono hbelow h02)]
    have h15 := h2.bind (G := fun frame _ =>
      Meaning.storeWord (frame.eval node) 1 (.int (BitVec.ofNat 64 arguments.length)) >>= fun _ =>
        Meaning.allocateFields (operandValues frame arguments) layout.fields >>= fun fields =>
          Meaning.storeWord (frame.eval node) 2 fields >>= fun _ => pure (frame.eval node)) h25
      fun frame frame1 _ hkept _ => by
        rw [hkept.eval h1.below, operandValues_kept hkept (below_mono hbelow h1.next)]
        rfl
    refine h1.bind h15 fun frame frame1 hkept => ?_
    rw [operandValues_kept hkept hbelow, operandValues, List.length_map]
    rfl
  · exact Nat.le_trans (Nat.le_trans (Nat.le_trans h2.next h3.next) h4.next) h5.next

/-! ## Cells -/

/-- What the operand is in the frame. -/
def cellOf (frame : Frame) (op : Operand) : Cell := ⟨frame.eval op, op.isConstant⟩

theorem cellOf_kept {n : Nat} {frame frame' : Frame} (h : Kept n frame frame') {op : Operand}
    (hop : op.Below n) : cellOf frame' op = cellOf frame op := by
  unfold cellOf
  rw [h.eval hop]

/-- The code leaves the cell of the operand, and binds symbols of `bound`. -/
structure EmittedCell (M : Module) (g : GeneratorState) (op : Operand) (g' : GeneratorState)
    (bound : List SymbolId) (B : Frame → Behaviour Cell) : Prop where
  codes : Codes M g.builder g'.builder B fun c frame => cellOf frame op = c
  below : op.Below g'.builder.next
  binds : OnlyBinds bound g g'

theorem EmittedCell.opened {op : Operand} {bound : List SymbolId} {B : Frame → Behaviour Cell}
    (h : EmittedCell M g op g1 bound B) : g1.builder.Open := h.codes.emits.opened

theorem EmittedCell.next {op : Operand} {bound : List SymbolId} {B : Frame → Behaviour Cell}
    (h : EmittedCell M g op g1 bound B) : g.builder.next ≤ g1.builder.next := h.codes.emits.next

/-- A value that is no constant. -/
theorem EmittedValue.cell {op : Operand} {B : Frame → Behaviour Val}
    (h : EmittedValue M g op g1 B) (hop : op.isConstant = false) :
    EmittedCell M g op g1 [] fun frame => B frame >>= fun v => pure ⟨v, false⟩ := by
  refine ⟨?_, h.below, h.toEmitted.onlyBinds⟩
  have hpure : Codes M g1.builder g1.builder (fun frame => pure (cellOf frame op))
      fun c frame => cellOf frame op = c := .pure h.toEmitted.opened _ fun _ => rfl
  refine h.codes.bind hpure fun frame frame1 v _ hv => ?_
  rw [cellOf, hv, hop]

theorem EmittedCell.value {op : Operand} {bound : List SymbolId} {B : Frame → Behaviour Cell}
    (h : EmittedCell M g op g1 bound B) :
    Codes M g.builder g1.builder (fun frame => B frame >>= fun c => pure c.value)
      fun v frame => frame.eval op = v := by
  have hpure : Codes M g1.builder g1.builder (fun frame => pure (frame.eval op))
      fun v frame => frame.eval op = v := .pure h.opened _ fun _ => rfl
  refine h.codes.bind hpure fun frame frame1 c _ hc => ?_
  rw [← hc]
  rfl

/-- The builder computes what the meaning says of constants. -/
theorem foldBinary_constants (op : BinaryOp) {left right : Operand}
    (h : (left.isConstant && right.isConstant) = true) :
    ∃ value, foldBinary op left right = some value ∧ value.Below 0 ∧ ∀ frame,
      Meaning.binaryOperator op (cellOf frame left) (cellOf frame right) =
        pure (cellOf frame value) := by
  unfold Meaning.binaryOperator cellOf
  cases left with
  | int a =>
    cases right with
    | int b =>
      have hvalue : ((op.apply a b).elim .poison Operand.int).Below 0 ∧ ∀ frame : Frame,
          (⟨(op.apply a b).elim .poison Val.int, true⟩ : Cell) =
            cellOf frame ((op.apply a b).elim .poison .int) := by
        cases op.apply a b with
        | none => exact ⟨trivial, fun _ => rfl⟩
        | some n => exact ⟨trivial, fun _ => rfl⟩
      exact ⟨_, rfl, hvalue.1, fun frame => congrArg pure (hvalue.2 frame)⟩
    | poison => exact ⟨.poison, rfl, trivial, fun _ => rfl⟩
    | _ => cases h
  | poison =>
    cases right with
    | int b => exact ⟨.poison, rfl, trivial, fun _ => rfl⟩
    | poison => exact ⟨.poison, rfl, trivial, fun _ => rfl⟩
    | _ => cases h
  | _ => cases h

theorem emitted_createBinary (M : Module) (hopen : g.builder.Open) (op : BinaryOp)
    (left right : Operand) :
    Ensures (withBuilder (Builder.createBinary op left right)) g E fun value g' =>
      EmittedCell M g value g' [] fun frame =>
        Meaning.binaryOperator op (cellOf frame left) (cellOf frame right) := by
  refine ensures_withBuilder ?_
  unfold Builder.createBinary
  cases hconstant : left.isConstant && right.isConstant with
  | true =>
    obtain ⟨value, hfold, hbelow, hmeaning⟩ := foldBinary_constants op hconstant
    simp only [hfold, hmeaning]
    exact ⟨.pure hopen _ fun _ => rfl, hbelow.mono (Nat.zero_le _), .refl _ _⟩
  | false =>
    simp only [foldBinary_eq_none hconstant]
    have hinstruction : EmittedValue M g (.result g.builder.next)
        { g with builder := (g.builder.insert (.binary op left right)).2 } fun frame =>
        Behaviour.binary op (frame.eval left) (frame.eval right) :=
      emitted_instruction (E := fun _ => True) M hopen (fun _ _ _ _ _ _ => rfl)
        fun frame => execute_binary frame op left right
    have hcell := hinstruction.cell rfl
    refine ⟨hcell.codes.congr fun frame => ?_, hcell.below, hcell.binds⟩
    simp [Meaning.binaryOperator, cellOf, hconstant]

end mf.visitors
