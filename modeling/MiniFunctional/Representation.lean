-- How the heap of the generated code represents the values of a program, and
-- what building a node and reading its tag and its fields come to.
import MiniFunctional.CodeMeaning
import MiniFunctional.Evaluation
import MiniFunctional.GeneratorTables
import MiniFunctional.HeapCells

open mf.util mf.ast mf.evaluation llvm
open mf.semantics hiding Frame

namespace mf.visitors

open ScopeTree

variable {t : ScopeTree} {program : Program} {constructors_ : AssocMap SymbolId ConstructorLayout}
  {m m' : Memory} {output : String}

/-- The value as a word of the heap. -/
def pack : Val → Val
  | .ptr p => .address p
  | v => v

/-- The pointer is to a block with the cells; to none if there are none. -/
def FieldsAt (m : Memory) (pointer : Val) (cells : List Val) : Prop :=
  (cells = [] ∧ pointer = .null) ∨ ∃ q, pointer = .ptr ⟨q, 0⟩ ∧ m[q]? = some cells

/-- The value is the integer, or a pointer to a node with the constructor's tag,
the number of the fields and a pointer to them. -/
inductive Represents (t : ScopeTree) (constructors_ : AssocMap SymbolId ConstructorLayout)
    (m : Memory) : Datum → Val → Prop
  | int {n : BitVec 64} : Represents t constructors_ m (.int n) (.int n)
  | node {name : String} {fields : List Datum} {values : List Val} {symbol : Symbol}
      {layout : ConstructorLayout} {b : Nat} {pointer : Val} :
    t.getLocalSymbol getRootScopeId name = some symbol →
    constructors_.find symbol.id = some layout →
    m[b]? = some [.int (BitVec.ofNat 64 layout.tag), .int (BitVec.ofNat 64 fields.length),
      pointer] →
    FieldsAt m pointer (values.map pack) → values.length = fields.length →
    (∀ i (hf : i < fields.length) (hv : i < values.length),
      Represents t constructors_ m fields[i] values[i]) →
    Represents t constructors_ m (.ConstructedValue name fields) (.ptr ⟨b, 0⟩)

/-! ## More memory -/

theorem getElem?_extended {α : Type} {l l' : List α} (h : l <+: l') {i : Nat} {a : α}
    (ha : l[i]? = some a) : l'[i]? = some a := by
  obtain ⟨rest, rfl⟩ := h
  rw [List.getElem?_append_left (List.getElem?_eq_some_iff.mp ha).1]
  exact ha

theorem FieldsAt.mono {pointer : Val} {cells : List Val} (h : FieldsAt m pointer cells)
    (hm : m <+: m') : FieldsAt m' pointer cells := by
  rcases h with h | ⟨q, hpointer, hq⟩
  · exact .inl h
  · exact .inr ⟨q, hpointer, getElem?_extended hm hq⟩

/-- What represents a value does so for ever. -/
theorem Represents.mono {v : Datum} {w : Val} (h : Represents t constructors_ m v w)
    (hm : m <+: m') : Represents t constructors_ m' v w := by
  induction h with
  | int => exact .int
  | node hsymbol hlayout hb hfields hlen _ ih =>
    exact .node hsymbol hlayout (getElem?_extended hm hb) (hfields.mono hm) hlen ih

/-! ## Words -/

/-- Packed as a value of the type and unpacked again, it is what it was. -/
structure Packs (w : Val) (T : TypeVariant) : Prop where
  pack : Meaning.packValue w T = Pure.pure (visitors.pack w)
  unpack : Meaning.unpackValue (visitors.pack w) T = Pure.pure w
  holds : Ty.i64.holds (visitors.pack w) = true

theorem Represents.packs {v : Datum} {w : Val} {T : TypeVariant}
    (h : Represents t constructors_ m v w) (hv : ValueHasType t program v T) : Packs w T := by
  cases hv with
  | int =>
    cases h
    exact ⟨rfl, rfl, rfl⟩
  | ConstructedValue =>
    cases h
    exact ⟨rfl, rfl, rfl⟩

/-! ## Building -/

theorem set_last {α : Type} (l : List α) (a b : α) : (l ++ [a]).set l.length b = l ++ [b] := by
  rw [List.set_append_right _ _ (Nat.le_refl _), Nat.sub_self]
  rfl

/-- The loop over the fields fills the block from the left. -/
theorem storeFields_run (output : String) {q : Nat} {values : List Val} {Ts : List TypeVariant}
    (hpacks : List.Forall₂ Packs values Ts) (done : List Val) {m : Memory}
    (hq : m[q]? = some (done ++ List.replicate values.length .poison))
    (hlt : done.length + values.length < 0x8000000000000000) :
    Meaning.storeFields (.ptr ⟨q, 0⟩) done.length values Ts m output =
      .returns () (m.set q (done ++ values.map pack)) output := by
  induction hpacks generalizing done m with
  | nil =>
    rw [List.length_nil, List.replicate_zero, List.append_nil] at hq
    obtain ⟨hlt, rfl⟩ := List.getElem?_eq_some_iff.mp hq
    rw [List.map_nil, List.append_nil, List.set_getElem_self]
    rfl
  | @cons w T values Ts hw _ ih =>
    rw [List.length_cons] at hlt hq
    have hcells : done.length < (done ++ List.replicate (values.length + 1) Val.poison).length := by
      rw [List.length_append, List.length_replicate]
      omega
    have hstored : (done ++ List.replicate (values.length + 1) Val.poison).set done.length
      (pack w) =
        done ++ [pack w] ++ List.replicate values.length .poison := by
      rw [List.set_append_right _ _ (Nat.le_refl _), Nat.sub_self, List.replicate_succ]
      simp
    unfold Meaning.storeFields
    rw [Behaviour.bind_returns (Behaviour.gep_cell hq (Nat.le_of_lt hcells) (by omega)), hw.pack,
      pure_bind, Behaviour.bind_returns (Behaviour.store_cell hq hcells _), hstored]
    have hlen : (done ++ [pack w]).length = done.length + 1 := by simp
    have hlater := @ih (done ++ [pack w]) (m.set q (done ++ [pack w] ++
      List.replicate values.length .poison)) ?_ (by rw [hlen]; omega)
    · rw [hlen] at hlater
      rw [hlater, List.set_set]
      simp
    · rw [List.getElem?_set_self (List.getElem?_eq_some_iff.mp hq).1]

/-- The block of the fields is a new one. -/
theorem allocateFields_run (m : Memory) (output : String) {values : List Val}
    {Ts : List TypeVariant}
    (hpacks : List.Forall₂ Packs values Ts) (hlt : values.length < 0x2000000000000000) :
    ∃ pointer m', Meaning.allocateFields values Ts m output = .returns pointer m' output ∧
      m <+: m' ∧ FieldsAt m' pointer (values.map pack) ∧
      ∀ q, pointer = .ptr ⟨q, 0⟩ → m.length ≤ q := by
  unfold Meaning.allocateFields
  by_cases hempty : values.isEmpty = true
  · rw [if_pos hempty]
    rw [List.isEmpty_iff] at hempty
    subst hempty
    refine ⟨.null, m, rfl, List.prefix_rfl, .inl ⟨rfl, rfl⟩, fun q hq => ?_⟩
    cases hq
  · rw [if_neg hempty]
    have hsize : (BitVec.ofNat 64 values.length * BitVec.ofNat 64 kPackedFieldBytes).toNat =
        8 * values.length := by
      rw [BitVec.toNat_mul, BitVec.toNat_ofNat, BitVec.toNat_ofNat]
      unfold kPackedFieldBytes
      omega
    rw [Behaviour.bind_returns (Behaviour.malloc_cells hsize)]
    have hblock : (m ++ [List.replicate values.length Val.poison])[m.length]? =
        some ([] ++ List.replicate values.length .poison) := by simp
    have hstored := storeFields_run output hpacks [] hblock
      (by rw [List.length_nil]; omega)
    rw [List.length_nil, set_last, List.nil_append] at hstored
    rw [Behaviour.bind_returns hstored]
    refine ⟨.ptr ⟨m.length, 0⟩, _, rfl, List.prefix_append _ _, .inr ⟨m.length, rfl, by simp⟩,
      fun q hq => ?_⟩
    cases hq
    exact Nat.le_refl _

/-- A word of the last node. -/
theorem storeWord_run {node : List Val} {rest : Memory} {field : Nat} (hfield : field < node.length)
    (v : Val) :
    Meaning.storeWord (.ptr ⟨m.length, 0⟩) field v (m ++ node :: rest) output =
      .returns .poison (m ++ node.set field v :: rest) output := by
  have hnode : (m ++ node :: rest)[m.length]? = some node := by simp
  unfold Meaning.storeWord
  rw [Behaviour.bind_returns (Behaviour.structGEP_cell hnode (Nat.le_of_lt hfield)),
    Behaviour.store_cell hnode hfield, List.set_append_right _ _ (Nat.le_refl _), Nat.sub_self]
  rfl

/-- A new node has the tag, the number of the arguments and the arguments. -/
theorem constructedValue_run (m : Memory) (output : String) {values : List Val}
    (layout : ConstructorLayout)
    (hpacks : List.Forall₂ Packs values layout.fields)
    (hlt : values.length < 0x2000000000000000) :
    ∃ pointer m', Meaning.constructedValue layout values m output =
        .returns (.ptr ⟨m.length, 0⟩) m' output ∧ m <+: m' ∧
      m'[m.length]? = some [.int (BitVec.ofNat 64 layout.tag),
        .int (BitVec.ofNat 64 values.length), pointer] ∧
      FieldsAt m' pointer (values.map pack) := by
  unfold Meaning.constructedValue
  have hsize : (BitVec.ofNat 64 kNodeBytes).toNat = 8 * 3 := by decide
  rw [Behaviour.bind_returns (Behaviour.malloc_cells hsize),
    Behaviour.bind_returns (storeWord_run (by simp) _),
    Behaviour.bind_returns (storeWord_run (by simp) _)]
  obtain ⟨pointer, m1, hrun, hm, hfields, hnew⟩ := allocateFields_run
    (m ++ [[.int (BitVec.ofNat 64 layout.tag), .int (BitVec.ofNat 64 values.length), .poison]])
    output hpacks hlt
  obtain ⟨rest, rfl⟩ := hm
  refine ⟨pointer, m ++ [.int (BitVec.ofNat 64 layout.tag), .int (BitVec.ofNat 64 values.length),
    pointer] :: rest, ?_, List.prefix_append _ _, by simp, ?_⟩
  · refine (Behaviour.bind_returns hrun _).trans ?_
    rw [List.append_assoc, List.singleton_append,
      Behaviour.bind_returns (storeWord_run (by simp) _)]
    rfl
  · rcases hfields with h | ⟨q, hpointer, hq⟩
    · exact .inl h
    · refine .inr ⟨q, hpointer, ?_⟩
      -- the block of the fields is not the node
      have hlt := hnew q hpointer
      rw [List.length_append, List.length_singleton] at hlt
      rw [List.append_assoc, List.singleton_append, List.getElem?_append_right (by omega)] at hq
      rw [List.getElem?_append_right (by omega), ← hq]
      obtain ⟨k, hk⟩ : ∃ k, q - m.length = k + 1 := ⟨q - m.length - 1, by omega⟩
      rw [hk]
      rfl

/-! ## Reading -/

/-- What is loaded of a node that represents a value. -/
theorem loadTag_run (output : String) {b : Nat} {tag arity pointer : Val}
    (hb : m[b]? = some [tag, arity, pointer])
    (htag : Ty.i64.holds tag = true) :
    Meaning.loadTag (.ptr ⟨b, 0⟩) m output = .returns tag m output := by
  unfold Meaning.loadTag
  rw [Behaviour.bind_returns (Behaviour.structGEP_cell hb (by simp)),
    Behaviour.load_cell hb rfl htag]

theorem loadField_run (output : String) {b i : Nat} {tag arity pointer w : Val} {values : List Val}
    {T : TypeVariant}
    (hb : m[b]? = some [tag, arity, pointer]) (hfields : FieldsAt m pointer (values.map pack))
    (hw : values[i]? = some w) (hpacks : Packs w T) (hlt : i < 0x8000000000000000) :
    Meaning.loadField (.ptr ⟨b, 0⟩) i T m output = .returns w m output := by
  have hi : i < values.length := (List.getElem?_eq_some_iff.mp hw).1
  have hcell : (values.map pack)[i]? = some (pack w) := by
    rw [List.getElem?_map, hw]
    rfl
  rcases hfields with ⟨hnil, _⟩ | ⟨q, rfl, hq⟩
  · rw [hnil] at hcell
    cases hcell
  · have hbound : i ≤ (values.map pack).length := by
      rw [List.length_map]
      exact Nat.le_of_lt hi
    unfold Meaning.loadField
    rw [Behaviour.bind_returns (Behaviour.structGEP_cell hb (by simp)),
      Behaviour.bind_returns (Behaviour.load_cell hb rfl rfl),
      Behaviour.bind_returns (Behaviour.gep_cell hq hbound hlt),
      Behaviour.bind_returns (Behaviour.load_cell hq hcell hpacks.holds), hpacks.unpack]
    rfl

end mf.visitors
