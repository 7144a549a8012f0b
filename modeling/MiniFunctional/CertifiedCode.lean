-- Every instruction that the generator emits for an expression of an accepted
-- program has operands of the types that it needs, which are known where it is.
import MiniFunctional.Compilable
import MiniFunctional.IrJoins

open mf.util mf.ast mf.parsing llvm
open mf.semantics hiding Frame

namespace mf.visitors

/-- The type of values in the module; no value is a function. -/
def lowerTy : TypeVariant → Ty
  | .IntType => .i64
  | .DataType _ => .ptr
  | .FunctionType _ _ => .ptr

theorem llvmType_eq {T : TypeVariant} (h : containsFunctionType T = false) :
    llvmType T = .ok (lowerTy T) := by
  cases T with
  | IntType => rfl
  | DataType d => rfl
  | FunctionType P R => simp [containsFunctionType] at h

theorem lowerTy_eq {T : TypeVariant} {type : Ty} (h : llvmType T = .ok type) :
    type = lowerTy T := by
  cases T with
  | IntType => exact (Except.ok.inj h).symm
  | DataType d => exact (Except.ok.inj h).symm
  | FunctionType P R => cases h

variable {M : Module} {parameters : List Ty} {result : Ty} {known : Known}
  {g g1 g2 : GeneratorState} {E : GenerateError → Prop}

/-! ## Code at one place -/

/-- The builder takes code, and what it has is certified. -/
structure Sound (M : Module) (parameters : List Ty) (result : Ty) (known : Known)
    (g : GeneratorState) : Prop where
  opened : g.builder.Open
  certified : Certified M parameters result g.builder known

/-- Code was put in blocks where no more is known than before; the locals are as
they were. -/
structure Passes (M : Module) (parameters : List Ty) (result : Ty) (known : Known)
    (g g' : GeneratorState) : Prop where
  proceeds : Proceeds M parameters result g.builder known g'.builder known
  binds : OnlyBinds [] g g'

/-- The code computes the operand, of the type. -/
structure Computes (M : Module) (parameters : List Ty) (result : Ty) (known : Known)
    (g : GeneratorState) (op : Operand) (T : ValueTy) (g' : GeneratorState) : Prop
    extends Passes M parameters result known g g' where
  usable : g'.builder.Usable M parameters known op T

theorem Sound.of_proceeds {known' : Known}
    (h : Proceeds M parameters result g.builder known g1.builder known') :
    Sound M parameters result known' g1 := ⟨h.opened, h.certified⟩

theorem Passes.sound (h : Passes M parameters result known g g1) :
    Sound M parameters result known g1 := .of_proceeds h.proceeds

theorem Passes.refl (h : Sound M parameters result known g) :
    Passes M parameters result known g g := ⟨.refl h.certified h.opened, .refl _ g⟩

theorem Passes.trans (h : Passes M parameters result known g g1)
    (h' : Passes M parameters result known g1 g2) : Passes M parameters result known g g2 :=
  ⟨h.proceeds.trans h'.proceeds, h.binds.trans h'.binds⟩

theorem Passes.computes {op : Operand} {T : ValueTy} (h : Passes M parameters result known g g1)
    (h' : Computes M parameters result known g1 op T g2) :
    Computes M parameters result known g op T g2 := ⟨h.trans h'.toPasses, h'.usable⟩

/-- An operand that there is already. -/
theorem Passes.usable {op : Operand} {T : ValueTy} (h : Passes M parameters result known g g1)
    (hop : g.builder.Usable M parameters known op T) :
    g1.builder.Usable M parameters known op T := h.proceeds.usable hop

/-- The instructions that are no phi. -/
def IsNoPhi : Instruction → Prop
  | .phi _ _ => False
  | _ => True

theorem passes_instruction (h : Sound M parameters result known g) (i : Instruction)
    (hphi : IsNoPhi i) (htyped : i.Typed M (g.builder.Usable M parameters known)) :
    Ensures (createInstruction i) g E fun _ g' => Passes M parameters result known g g' := by
  refine ensures_withBuilder ⟨proceeds_insert h.certified h.opened htyped ?_, .of_eq ⟨rfl, rfl⟩⟩
  intro _ type incoming _ heq
  rw [heq] at hphi
  exact hphi.elim

theorem computes_instruction (h : Sound M parameters result known g) (i : Instruction)
    (hphi : IsNoPhi i) (htyped : i.Typed M (g.builder.Usable M parameters known)) {T : ValueTy}
    (hT : i.resultTy M = some T) :
    Ensures (createInstruction i) g E fun op g' => Computes M parameters result known g op T g' :=
  ensures_withBuilder ⟨(passes_instruction (E := E) h i hphi htyped).of_ok rfl,
    usable_insert h.opened hT⟩

theorem usable_i64 (b : Builder) (known : Known) (value : Nat) :
    b.Usable M parameters known (i64 value) (.of .i64) := rfl

theorem computes_structGEP (h : Sound M parameters result known g) {node : Operand}
    (hnode : g.builder.Usable M parameters known node (.of .ptr)) {field : Nat}
    (hfield : field < nodeType.length) :
    Ensures (createStructGEP node field) g E fun op g' =>
      Computes M parameters result known g op (.of .ptr) g' :=
  computes_instruction h (.structGEP nodeType node field) trivial ⟨hnode, hfield⟩ rfl

theorem computes_gep (h : Sound M parameters result known g) {fields : Operand}
    (hfields : g.builder.Usable M parameters known fields (.of .ptr)) (index : Nat) :
    Ensures (createInBoundsGEP fields index) g E fun op g' =>
      Computes M parameters result known g op (.of .ptr) g' :=
  computes_instruction h (.gep fields (i64 index)) trivial
    ⟨hfields, usable_i64 g.builder known index⟩ rfl

theorem computes_load (h : Sound M parameters result known g) (type : Ty) {pointer : Operand}
    (hpointer : g.builder.Usable M parameters known pointer (.of .ptr)) :
    Ensures (createInstruction (.load type pointer)) g E fun op g' =>
      Computes M parameters result known g op (.of type) g' :=
  computes_instruction h (.load type pointer) trivial hpointer rfl

theorem computes_malloc (h : Sound M parameters result known g) {size : Operand}
    (hsize : g.builder.Usable M parameters known size (.of .i64)) :
    Ensures (createInstruction (.call .malloc [size])) g E fun op g' =>
      Computes M parameters result known g op (.of .ptr) g' :=
  computes_instruction h (.call .malloc [size]) trivial ⟨size, rfl, hsize⟩ rfl

theorem passes_store (h : Sound M parameters result known g) {value pointer : Operand} {type : Ty}
    (hvalue : g.builder.Usable M parameters known value (.of type))
    (hpointer : g.builder.Usable M parameters known pointer (.of .ptr)) :
    Ensures (createStore value pointer) g E fun _ g' =>
      Passes M parameters result known g g' :=
  ensures_bind
    ((passes_instruction h (.store value pointer) trivial ⟨⟨type, hvalue⟩, hpointer⟩).mono
    fun _ _ h1 => ensures_pure () h1)

theorem computes_loadTag (h : Sound M parameters result known g) {node : Operand}
    (hnode : g.builder.Usable M parameters known node (.of .ptr)) :
    Ensures (loadTag node) g E fun op g' =>
      Computes M parameters result known g op (.of .i64) g' := by
  unfold loadTag
  apply ensures_bind
  refine (computes_structGEP h hnode (by decide)).mono fun tag_ptr g1 h1 => ?_
  exact (computes_load h1.sound .i64 h1.usable).mono fun _ _ h2 => h1.computes h2

theorem computes_packValue (h : Sound M parameters result known g) {value : Operand}
    {T : TypeVariant} (hvalue : g.builder.Usable M parameters known value (.of (lowerTy T))) :
    Ensures (packValue value T) g (fun _ => True) fun op g' =>
      Computes M parameters result known g op (.of .i64) g' := by
  cases T with
  | IntType => exact ensures_pure value ⟨.refl h, hvalue⟩
  | DataType d => exact computes_instruction h (.ptrtoint value) trivial hvalue rfl
  | FunctionType P R => exact ensures_throw trivial

theorem computes_unpackValue (h : Sound M parameters result known g) {value : Operand}
    (T : TypeVariant) (hvalue : g.builder.Usable M parameters known value (.of .i64)) :
    Ensures (unpackValue value T) g (fun _ => True) fun op g' =>
      Computes M parameters result known g op (.of (lowerTy T)) g' := by
  cases T with
  | IntType => exact ensures_pure value ⟨.refl h, hvalue⟩
  | DataType d => exact computes_instruction h (.inttoptr value) trivial hvalue rfl
  | FunctionType P R => exact ensures_throw trivial

theorem computes_loadField (h : Sound M parameters result known g) {node : Operand}
    (hnode : g.builder.Usable M parameters known node (.of .ptr)) (index : Nat)
    (T : TypeVariant) :
    Ensures (loadField node index T) g (fun _ => True) fun op g' =>
      Computes M parameters result known g op (.of (lowerTy T)) g' := by
  unfold loadField
  apply ensures_bind
  refine (computes_structGEP h hnode (by decide)).mono fun fields_ptr g1 h1 => ?_
  apply ensures_bind
  refine (computes_load h1.sound .ptr h1.usable).mono fun fields g2 h2 => ?_
  apply ensures_bind
  refine (computes_gep h2.sound h2.usable index).mono fun field_ptr g3 h3 => ?_
  apply ensures_bind
  refine (computes_load h3.sound .i64 h3.usable).mono fun packed g4 h4 => ?_
  refine (computes_unpackValue h4.sound T h4.usable).mono fun op g5 h5 => ?_
  exact (((h1.trans h2.toPasses).trans h3.toPasses).trans h4.toPasses).computes h5

/-! ## Values -/

/-- The value may be used where code is inserted. -/
def Ready (M : Module) (parameters : List Ty) (known : Known) (g : GeneratorState)
    (v : TypedValue) : Prop :=
  g.builder.Usable M parameters known v.value (.of (lowerTy v.type))

/-- The values of the locals may be used where `b` inserts code. -/
def LocalsReady (M : Module) (parameters : List Ty) (b : Builder) (known : Known)
    (locals : List SymbolId) (locals_ : AssocMap SymbolId TypedValue) : Prop :=
  ∀ s ∈ locals, ∀ v, locals_.find s = some v →
    b.Usable M parameters known v.value (.of (lowerTy v.type))

theorem Ready.proceeds {known' : Known} {v : TypedValue} (h : Ready M parameters known g v)
    (h' : Proceeds M parameters result g.builder known g1.builder known') :
    Ready M parameters known' g1 v := h'.usable h

theorem Passes.ready {v : TypedValue} (h : Passes M parameters result known g g1)
    (hv : Ready M parameters known g v) : Ready M parameters known g1 v :=
  hv.proceeds h.proceeds

theorem passes_storeFields {fields : Operand} {index : Nat} {arguments : List TypedValue}
    (h : Sound M parameters result known g)
    (hfields : g.builder.Usable M parameters known fields (.of .ptr))
    (harguments : ∀ v ∈ arguments, Ready M parameters known g v) :
    Ensures (storeFields fields index arguments (arguments.map (·.type))) g (fun _ => True)
      fun _ g' => Passes M parameters result known g g' := by
  induction arguments generalizing g index with
  | nil => exact ensures_pure () (.refl h)
  | cons argument arguments ih =>
    have hargument := harguments argument List.mem_cons_self
    simp only [List.map_cons, storeFields]
    apply ensures_bind
    refine (computes_gep h hfields index).mono fun slot g1 h1 => ?_
    apply ensures_bind
    refine (computes_packValue h1.sound (h1.ready hargument)).mono fun packed g2 h2 => ?_
    apply ensures_bind
    refine (passes_store h2.sound h2.usable (h2.toPasses.usable h1.usable)).mono fun _ g3 h3 => ?_
    have h13 := (h1.toPasses.trans h2.toPasses).trans h3
    have hrest : ∀ v ∈ arguments, Ready M parameters known g3 v :=
      fun v hv => h13.ready (harguments v (List.mem_cons_of_mem _ hv))
    exact (ih h13.sound (h13.usable hfields) hrest).mono fun _ g4 h4 => h13.trans h4

theorem computes_emitFields {layout : ConstructorLayout} {arguments : List TypedValue}
    (h : Sound M parameters result known g) (htypes : arguments.map (·.type) = layout.fields)
    (harguments : ∀ v ∈ arguments, Ready M parameters known g v) :
    Ensures (emitFields layout arguments) g (fun _ => True) fun op g' =>
      Computes M parameters result known g op (.of .ptr) g' := by
  unfold emitFields
  split
  · exact ensures_pure _ ⟨.refl h, rfl⟩
  · apply ensures_bind
    apply ensures_withBuilder
    apply ensures_bind
    refine (computes_malloc h ?_).mono fun fields g1 h1 => ?_
    · -- the product of two constants is one
      rfl
    have hready : ∀ v ∈ arguments, Ready M parameters known g1 v :=
      fun v hv => h1.ready (harguments v hv)
    rw [← htypes]
    apply ensures_bind
    refine (passes_storeFields h1.sound h1.usable hready).mono fun _ g2 h2 => ?_
    exact ensures_pure fields ⟨h1.trans h2, h2.usable h1.usable⟩

/-- A word of the node is written. -/
theorem passes_storeWord {α : Type} {f : Gen α} {Q : α → GeneratorState → Prop} {node : Operand}
    {field : Nat} {value : Operand} {type : Ty} (h : Sound M parameters result known g)
    (hnode : g.builder.Usable M parameters known node (.of .ptr))
    (hfield : field < nodeType.length)
    (hvalue : g.builder.Usable M parameters known value (.of type))
    (hf : ∀ g1, Passes M parameters result known g g1 → Ensures f g1 E Q) :
    Ensures (do createStore value (← createStructGEP node field); f) g E Q := by
  apply ensures_bind
  refine (computes_structGEP h hnode hfield).mono fun p g1 h1 => ?_
  apply ensures_bind
  refine (passes_store h1.sound (h1.toPasses.usable hvalue) h1.usable).mono fun _ g2 h2 => ?_
  exact hf g2 (h1.trans h2)

theorem computes_constructedValue {layout : ConstructorLayout} {arguments : List TypedValue}
    (h : Sound M parameters result known g) (htypes : arguments.map (·.type) = layout.fields)
    (harguments : ∀ v ∈ arguments, Ready M parameters known g v) :
    Ensures (emitConstructedValue layout arguments) g (fun _ => True) fun v g' =>
      Passes M parameters result known g g' ∧ Ready M parameters known g' v := by
  unfold emitConstructedValue
  apply ensures_bind
  refine (computes_malloc h (usable_i64 g.builder known kNodeBytes)).mono fun node g1 h1 => ?_
  refine passes_storeWord h1.sound h1.usable (by decide) (usable_i64 g1.builder known layout.tag)
    fun g2 h2 => ?_
  have h12 := h1.trans h2
  refine passes_storeWord h2.sound (h2.usable h1.usable) (by decide)
    (usable_i64 g2.builder known arguments.length) fun g3 h3 => ?_
  have h13 := h12.trans h3
  apply ensures_bind
  refine (computes_emitFields h13.sound htypes fun v hv => h13.ready (harguments v hv)).mono
    fun fields g4 h4 => ?_
  have hnode := (h2.trans (h3.trans h4.toPasses)).usable h1.usable
  refine passes_storeWord h4.sound hnode (by decide) h4.usable fun g5 h5 => ?_
  exact ensures_pure _ ⟨(h13.trans h4.toPasses).trans h5, h5.usable hnode⟩

end mf.visitors
