-- Loads and stores at a cell of a block, and the allocation of a block.
import MiniFunctional.Behaviours

namespace llvm

/-! ## Memory -/

namespace Memory

variable {m : Memory} {b i : Nat} {cells : List Val}

theorem read_cell (h : m[b]? = some cells) : m.read ⟨b, 8 * i⟩ = cells[i]? := by
  unfold read
  simp [h]

theorem write_cell (h : m[b]? = some cells) (hi : i < cells.length) (v : Val) :
    m.write ⟨b, 8 * i⟩ v = some (m.set b (cells.set i v)) := by
  unfold write
  rw [read_cell h, List.getElem?_eq_getElem hi]
  simp only [Option.isSome_some, if_true, Option.some.injEq]
  rw [Nat.mul_div_cancel_left i (by decide)]
  apply List.ext_getElem?
  intro j
  rw [List.getElem?_set]
  by_cases hj : b = j
  · subst hj
    rw [List.getElem?_modify_eq, h, if_pos rfl, if_pos (List.getElem?_eq_some_iff.mp h).1]
    rfl
  · rw [List.getElem?_modify_ne _ _ hj, if_neg hj]

end Memory

/-! ## Instructions -/

namespace Behaviour

variable {m : Memory} {output : String} {b i : Nat} {cells : List Val}

theorem gepVal_cell (h : m[b]? = some cells) (hi : i ≤ cells.length) :
    gepVal m (8 * i) (.ptr ⟨b, 0⟩) = some (.ptr ⟨b, 8 * i⟩) := by
  unfold gepVal
  simp only [Nat.zero_add]
  rw [if_pos ⟨cells, h, Nat.mul_le_mul_left 8 hi⟩]

theorem structGEP_cell (h : m[b]? = some cells) (hi : i ≤ cells.length) :
    structGEP (.ptr ⟨b, 0⟩) i m output = .returns (.ptr ⟨b, 8 * i⟩) m output := by
  unfold structGEP
  rw [gepVal_cell h hi]
  rfl

theorem gep_cell (h : m[b]? = some cells) (hi : i ≤ cells.length)
    (hlt : i < 0x8000000000000000) :
    gep (.ptr ⟨b, 0⟩) (.int (BitVec.ofNat 64 i)) m output =
      .returns (.ptr ⟨b, 8 * i⟩) m output := by
  have hnat : (BitVec.ofNat 64 i).toNat = i := by
    rw [BitVec.toNat_ofNat]
    omega
  have hmsb : (BitVec.ofNat 64 i).msb = false := by
    rw [BitVec.msb_eq_false_iff_two_mul_lt, hnat]
    omega
  unfold gep
  simp only [hmsb, Bool.false_eq_true, if_false, hnat]
  rw [gepVal_cell h hi]
  rfl

theorem load_cell {type : Ty} {v : Val} (h : m[b]? = some cells) (hv : cells[i]? = some v)
    (hholds : type.holds v = true) :
    load type (.ptr ⟨b, 8 * i⟩) m output = .returns v m output := by
  unfold load
  simp only [Memory.read_cell h, hv, Option.filter_some, hholds, if_true]
  rfl

theorem store_cell (h : m[b]? = some cells) (hi : i < cells.length) (v : Val) :
    store v (.ptr ⟨b, 8 * i⟩) m output = .returns .poison (m.set b (cells.set i v)) output := by
  unfold store
  simp only [Memory.write_cell h hi]

/-- A new block of cells that hold nothing. -/
theorem malloc_cells {n : Nat} {size : BitVec 64} (h : size.toNat = 8 * n) :
    malloc (.int size) m output =
      .returns (.ptr ⟨m.length, 0⟩) (m ++ [List.replicate n .poison]) output := by
  unfold malloc Memory.allocate
  simp only [h]
  rw [Nat.mul_div_cancel_left n (by decide)]

end Behaviour

end llvm
