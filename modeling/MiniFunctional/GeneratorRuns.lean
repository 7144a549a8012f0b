-- The computations of the code generator: what holds of the value and the
-- state when one returns, and which errors it throws.
import MiniFunctional.ExceptLaws
import MiniFunctional.LlvmIr

open mf.util mf.ast mf.tokenization mf.semantics llvm ExceptLaws

namespace mf.visitors

variable {α β : Type}

/-- From `g`, the computation returns with `Q`, or throws an error of `E`. -/
def Ensures (x : Gen α) (g : GeneratorState) (E : GenerateError → Prop)
    (Q : α → GeneratorState → Prop) : Prop :=
  Satisfies (x g) E fun r => Q r.1 r.2

variable {x : Gen α} {g : GeneratorState} {E : GenerateError → Prop}
  {Q : α → GeneratorState → Prop}

theorem ensures_pure (a : α) (h : Q a g) : Ensures (pure a) g E Q := h

theorem ensures_throw {e : GenerateError} (h : E e) : Ensures (throw e : Gen α) g E Q := h

theorem ensures_withBuilder {f : Builder → α × Builder}
    (h : Q (f g.builder).1 { g with builder := (f g.builder).2 }) :
    Ensures (withBuilder f) g E Q := h

theorem ensures_getLocals {Q : AssocMap SymbolId TypedValue → GeneratorState → Prop}
    (h : Q g.locals_ g) : Ensures getLocals g E Q := h

theorem ensures_setLocals {locals_ : AssocMap SymbolId TypedValue}
    {Q : Unit → GeneratorState → Prop} (h : Q () { g with locals_ }) :
    Ensures (setLocals locals_) g E Q := h

theorem ensures_setLocal {id : SymbolId} {value : TypedValue} {Q : Unit → GeneratorState → Prop}
    (h : Q () { g with locals_ := g.locals_.insert id value }) :
    Ensures (setLocal id value) g E Q := h

theorem ensures_startFunction {Q : Unit → GeneratorState → Prop}
    (h : Q () { g with builder := .entry }) : Ensures startFunction g E Q := h

theorem ensures_createMain {Q : Nat → GeneratorState → Prop}
    (h : Q g.functions.length
      { g with functions := g.functions ++ [⟨"main", .i32, [], []⟩] }) :
    Ensures createMain g E Q := h

theorem ensures_bind {f : α → Gen β} {R : β → GeneratorState → Prop}
    (h : Ensures x g E fun a g' => Ensures (f a) g' E R) : Ensures (x >>= f) g E R :=
  satisfies_bind.mpr h

theorem Ensures.mono {Q' : α → GeneratorState → Prop} (h : Ensures x g E Q)
    (hq : ∀ a g', Q a g' → Q' a g') : Ensures x g E Q' :=
  Satisfies.mono h fun r => hq r.1 r.2

theorem Ensures.weaken {E' : GenerateError → Prop} (h : Ensures x g E Q)
    (he : ∀ e, E e → E' e) : Ensures x g E' Q :=
  Satisfies.weaken h he

theorem Ensures.of_ok {a : α} {g' : GeneratorState} (h : Ensures x g E Q)
    (hx : x g = .ok (a, g')) : Q a g' := by
  unfold Ensures at h
  rw [hx] at h
  exact h

theorem Ensures.both {E' : GenerateError → Prop} {Q' : α → GeneratorState → Prop}
    (h : Ensures x g E Q) (h' : Ensures x g E' Q') :
    Ensures x g E fun a g1 => Q a g1 ∧ Q' a g1 := by
  unfold Ensures at *
  cases hx : x g with
  | ok r =>
    rw [hx] at h h'
    exact ⟨h, h'⟩
  | error e =>
    rw [hx] at h
    exact h

/-- Whatever the computation returns satisfies `Q`. -/
theorem ensures_of_ok (h : ∀ a g', x g = .ok (a, g') → Q a g') :
    Ensures x g (fun _ => True) Q := by
  unfold Ensures
  cases hx : x g with
  | ok r => exact h r.1 r.2 hx
  | error e => exact trivial

/-- A length that a vector may have is reserved. -/
theorem ensures_reserve {count bytes : Nat} {Q : Unit → GeneratorState → Prop} (h : Q () g)
    (hE : E .lengthError) : Ensures (reserve count bytes) g E Q := by
  unfold reserve
  split
  · exact ensures_throw hE
  · exact ensures_pure () h

/-- No vector of elements as large as a token, or smaller, is too long for the
number of tokens. -/
theorem ensures_reserve_tokens {count bytes : Nat} {Q : Unit → GeneratorState → Prop}
    (hcount : count ≤ maxTokens) (hpos : 0 < bytes) (hbytes : bytes ≤ 64) (h : Q () g) :
    Ensures (reserve count bytes) g E Q := by
  have hmax : maxTokens ≤ 0x7FFFFFFFFFFFFFFF / bytes := Nat.div_le_div_left hbytes hpos
  unfold reserve
  rw [if_neg (Nat.not_lt.mpr (Nat.le_trans hcount hmax))]
  exact ensures_pure () h

/-! ## Computations that only build -/

/-- Throws nothing and touches nothing but the builder. -/
def Quiet (x : Gen α) : Prop :=
  ∀ g E, Ensures x g E fun _ g' => g'.functions = g.functions ∧ g'.locals_ = g.locals_

theorem quiet_pure (a : α) : Quiet (pure a) := fun _ _ => ⟨rfl, rfl⟩

theorem quiet_withBuilder (f : Builder → α × Builder) : Quiet (withBuilder f) :=
  fun _ _ => ⟨rfl, rfl⟩

theorem Quiet.bind {f : α → Gen β} (h : Quiet x) (hf : ∀ a, Quiet (f a)) : Quiet (x >>= f) := by
  intro g E
  refine ensures_bind ((h g E).mono fun a g1 h1 => ?_)
  exact (hf a g1 E).mono fun _ g2 h2 => ⟨h2.1.trans h1.1, h2.2.trans h1.2⟩

theorem quiet_createInstruction (i : Instruction) : Quiet (createInstruction i) :=
  quiet_withBuilder _

theorem quiet_createStore (value pointer : Operand) : Quiet (createStore value pointer) :=
  (quiet_createInstruction _).bind fun _ => quiet_pure ()

theorem quiet_packValue (value : Operand) {T : TypeVariant}
    (hT : containsFunctionType T = false) : Quiet (packValue value T) := by
  cases T with
  | IntType => exact quiet_pure _
  | DataType d => exact quiet_createInstruction _
  | FunctionType P R => simp [containsFunctionType] at hT

theorem quiet_unpackValue (value : Operand) {T : TypeVariant}
    (hT : containsFunctionType T = false) : Quiet (unpackValue value T) := by
  cases T with
  | IntType => exact quiet_pure _
  | DataType d => exact quiet_createInstruction _
  | FunctionType P R => simp [containsFunctionType] at hT

theorem quiet_loadTag (node : Operand) : Quiet (loadTag node) :=
  (quiet_createInstruction _).bind fun _ => quiet_createInstruction _

theorem quiet_loadField (node : Operand) (index : Nat) {T : TypeVariant}
    (hT : containsFunctionType T = false) : Quiet (loadField node index T) :=
  (quiet_createInstruction _).bind fun _ => (quiet_createInstruction _).bind fun _ =>
    (quiet_createInstruction _).bind fun _ => (quiet_createInstruction _).bind fun _ =>
    quiet_unpackValue _ hT

theorem quiet_storeFields (fields : Operand) (index : Nat) {arguments : List TypedValue}
    {Ts : List TypeVariant} (hlen : arguments.length ≤ Ts.length)
    (hTs : ∀ T ∈ Ts, containsFunctionType T = false) :
    Quiet (storeFields fields index arguments Ts) := by
  induction arguments generalizing index Ts with
  | nil => exact quiet_pure ()
  | cons argument arguments ih =>
    cases Ts with
    | nil => simp at hlen
    | cons T Ts =>
      refine (quiet_createInstruction _).bind fun slot => ?_
      refine (quiet_packValue _ (hTs T List.mem_cons_self)).bind fun packed => ?_
      refine (quiet_createStore _ _).bind fun _ => ?_
      exact ih (index + 1) (Nat.le_of_succ_le_succ hlen)
        fun T' hT' => hTs T' (List.mem_cons_of_mem _ hT')

theorem quiet_emitFields {layout : ConstructorLayout} {arguments : List TypedValue}
    (hlen : arguments.length ≤ layout.fields.length)
    (hfields : ∀ T ∈ layout.fields, containsFunctionType T = false) :
    Quiet (emitFields layout arguments) := by
  unfold emitFields
  split
  · exact quiet_pure _
  · refine (quiet_withBuilder _).bind fun bytes => ?_
    refine (quiet_createInstruction _).bind fun fields => ?_
    exact (quiet_storeFields fields 0 hlen hfields).bind fun _ => quiet_pure _

theorem quiet_emitTrap : Quiet emitTrap :=
  (quiet_createInstruction _).bind fun _ => quiet_withBuilder _

/-- Throws nothing, and keeps the functions and the locals; the value satisfies `P`. -/
theorem Quiet.returning {f : α → β} {P : β → Prop} (h : Quiet x) (hf : ∀ a, P (f a))
    (g : GeneratorState) (E : GenerateError → Prop) :
    Ensures (x >>= fun a => pure (f a)) g E fun b g' =>
      P b ∧ g'.functions = g.functions ∧ g'.locals_ = g.locals_ :=
  ensures_bind ((h g E).mono fun a _ h1 => ⟨hf a, h1⟩)

theorem ensures_emitConstructedValue {layout : ConstructorLayout} {arguments : List TypedValue}
    (hlen : arguments.length ≤ layout.fields.length)
    (hfields : ∀ T ∈ layout.fields, containsFunctionType T = false) :
    Ensures (emitConstructedValue layout arguments) g E fun value g' =>
      value.type = dataType layout.data_type ∧ g'.functions = g.functions ∧
        g'.locals_ = g.locals_ := by
  unfold emitConstructedValue
  refine ensures_bind ((quiet_createInstruction _ g E).mono fun node g1 h1 => ?_)
  have hrest : Quiet (do
      createStore (i64 layout.tag) (← createStructGEP node 0)
      createStore (i64 arguments.length) (← createStructGEP node 1)
      let fields ← emitFields layout arguments
      createStore fields (← createStructGEP node 2)) := by
    refine (quiet_createInstruction _).bind fun _ => (quiet_createStore _ _).bind fun _ => ?_
    refine (quiet_createInstruction _).bind fun _ => (quiet_createStore _ _).bind fun _ => ?_
    refine (quiet_emitFields hlen hfields).bind fun _ => ?_
    exact (quiet_createInstruction _).bind fun _ => quiet_createStore _ _
  have := Quiet.returning (f := fun _ => (⟨node, dataType layout.data_type⟩ : TypedValue))
    (P := fun value => value.type = dataType layout.data_type) hrest (fun _ => rfl) g1 E
  simp only [bind_assoc] at this
  exact this.mono fun value g2 h2 => ⟨h2.1, h2.2.1.trans h1.1, h2.2.2.trans h1.2⟩

/-! ## Locals -/

/-- The functions and the values of other symbols are as they were. -/
structure OnlyBinds (bound : List SymbolId) (g g' : GeneratorState) : Prop where
  functions : g'.functions = g.functions
  others : ∀ s, s ∉ bound → g'.locals_.find s = g.locals_.find s

/-- No two binders in `bound` share a symbol, and none is in scope already. -/
def Apart (bound locals : List SymbolId) : Prop := bound.Nodup ∧ ∀ s ∈ bound, s ∉ locals

theorem OnlyBinds.refl (bound : List SymbolId) (g : GeneratorState) : OnlyBinds bound g g :=
  ⟨rfl, fun _ _ => rfl⟩

theorem OnlyBinds.of_eq {bound : List SymbolId} {g g' : GeneratorState}
    (h : g'.functions = g.functions ∧ g'.locals_ = g.locals_) : OnlyBinds bound g g' :=
  ⟨h.1, fun s _ => by rw [h.2]⟩

theorem OnlyBinds.trans {bound : List SymbolId} {g g1 g2 : GeneratorState}
    (h : OnlyBinds bound g g1) (h' : OnlyBinds bound g1 g2) : OnlyBinds bound g g2 := by
  refine ⟨h'.functions.trans h.functions, fun s hs => ?_⟩
  rw [h'.others s hs, h.others s hs]

theorem OnlyBinds.mono {bound bound' : List SymbolId} {g g' : GeneratorState}
    (h : OnlyBinds bound g g') (hsub : ∀ s ∈ bound, s ∈ bound') : OnlyBinds bound' g g' :=
  ⟨h.functions, fun s hs => h.others s fun hin => hs (hsub s hin)⟩

theorem Quiet.onlyBinds {x : Gen α} (h : Quiet x) (g : GeneratorState)
    (E : GenerateError → Prop) : Ensures x g E fun _ g' => OnlyBinds [] g g' :=
  (h g E).mono fun _ _ h1 => .of_eq h1

theorem OnlyBinds.append {bound bound' : List SymbolId} {g g1 g2 : GeneratorState}
    (h : OnlyBinds bound g g1) (h' : OnlyBinds bound' g1 g2) :
    OnlyBinds (bound ++ bound') g g2 :=
  (h.mono fun _ hs => List.mem_append_left _ hs).trans
    (h'.mono fun _ hs => List.mem_append_right _ hs)

theorem Apart.left {bound bound' locals : List SymbolId} (h : Apart (bound ++ bound') locals) :
    Apart bound locals :=
  ⟨(List.nodup_append'.mp h.1).1, fun s hs => h.2 s (List.mem_append_left _ hs)⟩

theorem Apart.right {bound bound' locals : List SymbolId} (h : Apart (bound ++ bound') locals) :
    Apart bound' locals :=
  ⟨(List.nodup_append'.mp h.1).2.1, fun s hs => h.2 s (List.mem_append_right _ hs)⟩

/-- Binders in a branch come into the scope of its body. -/
theorem Apart.enter {bound bound' locals : List SymbolId} (h : Apart (bound ++ bound') locals) :
    Apart bound' (bound ++ locals) := by
  refine ⟨h.right.1, fun s hs hin => ?_⟩
  rcases List.mem_append.mp hin with hin | hin
  · exact (List.nodup_append'.mp h.1).2.2 hin hs
  · exact h.right.2 s hs hin

end mf.visitors
