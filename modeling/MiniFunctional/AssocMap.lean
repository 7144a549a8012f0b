-- Finite maps as lists of entries with distinct keys: the model of a hash
-- map whose order of iteration nothing depends on.
import Mathlib.Data.List.Basic
import Mathlib.Data.List.Nodup

structure AssocMap (α β : Type) where
  entries : List (α × β)
  nodup : (entries.map Prod.fst).Nodup

namespace AssocMap

variable {α β : Type}

def empty : AssocMap α β := ⟨[], List.nodup_nil⟩

instance : Inhabited (AssocMap α β) := ⟨empty⟩

variable [DecidableEq α]

def find (m : AssocMap α β) (key : α) : Option β := m.entries.lookup key

def contains (m : AssocMap α β) (key : α) : Bool := (m.find key).isSome

theorem lookup_eq_some_iff {entries : List (α × β)} (h : (entries.map Prod.fst).Nodup) {key : α}
    {value : β} : entries.lookup key = some value ↔ (key, value) ∈ entries := by
  induction entries with
  | nil => simp
  | cons entry entries ih =>
    obtain ⟨k, v⟩ := entry
    rw [List.map_cons, List.nodup_cons] at h
    rw [List.lookup_cons, List.mem_cons]
    by_cases hk : key = k
    · subst hk
      have hnot : ∀ w, (key, w) ∉ entries := fun w hw => h.1 (List.mem_map.mpr ⟨_, hw, rfl⟩)
      simp only [beq_self_eq_true, Option.some.injEq, Prod.mk.injEq, true_and, hnot, or_false]
      exact eq_comm
    · have hbeq : (key == k) = false := beq_false_of_ne hk
      simp only [hbeq, ih h.2, Prod.mk.injEq, hk, false_and, false_or]

theorem find_eq_some_iff {m : AssocMap α β} {key : α} {value : β} :
    m.find key = some value ↔ (key, value) ∈ m.entries := lookup_eq_some_iff m.nodup

@[simp] theorem find_empty (key : α) : (empty : AssocMap α β).find key = none := rfl

/-- `m[key] = value`. -/
def insert (m : AssocMap α β) (key : α) (value : β) : AssocMap α β where
  entries := (key, value) :: m.entries.filter (·.1 ≠ key)
  nodup := by
    rw [List.map_cons, List.nodup_cons]
    refine ⟨?_, ?_⟩
    · intro h
      obtain ⟨entry, hentry, hkey⟩ := List.mem_map.mp h
      have := (List.mem_filter.mp hentry).2
      simp [hkey] at this
    · exact m.nodup.sublist ((List.filter_sublist).map _)

/-- `m.emplace(key, value)`, which keeps the value of a key that is there. -/
def emplace (m : AssocMap α β) (key : α) (value : β) : AssocMap α β :=
  if m.contains key then m else m.insert key value

@[simp] theorem find_insert_self (m : AssocMap α β) (key : α) (value : β) :
    (m.insert key value).find key = some value :=
  find_eq_some_iff.mpr List.mem_cons_self

theorem find_insert_of_ne (m : AssocMap α β) {key key' : α} (value : β) (h : key' ≠ key) :
    (m.insert key value).find key' = m.find key' := by
  ext v
  rw [find_eq_some_iff, find_eq_some_iff]
  simp [insert, h]

theorem find_insert (m : AssocMap α β) (key key' : α) (value : β) :
    (m.insert key value).find key' = if key' = key then some value else m.find key' := by
  by_cases h : key' = key
  · subst h
    simp
  · rw [find_insert_of_ne m value h, if_neg h]

theorem emplace_of_none {m : AssocMap α β} {key : α} (h : m.find key = none) (value : β) :
    m.emplace key value = m.insert key value := by
  unfold emplace contains
  rw [h]
  rfl

theorem find_emplace (m : AssocMap α β) (key key' : α) (value : β) :
    (m.emplace key value).find key' =
      if key' = key then some ((m.find key).getD value) else m.find key' := by
  unfold emplace contains
  cases h : m.find key with
  | none => simp [find_insert]
  | some v =>
    by_cases hkey : key' = key
    · subst hkey
      simp [h]
    · simp [hkey]

/-- The map with other values for its keys. -/
def map {γ : Type} (f : β → γ) (m : AssocMap α β) : AssocMap α γ where
  entries := m.entries.map fun entry => (entry.1, f entry.2)
  nodup := by
    rw [List.map_map]
    exact m.nodup

@[simp] theorem find_map {γ : Type} (f : β → γ) (m : AssocMap α β) (key : α) :
    (m.map f).find key = (m.find key).map f := by
  show (m.entries.map _).lookup key = (m.entries.lookup key).map f
  induction m.entries with
  | nil => rfl
  | cons entry entries ih =>
    obtain ⟨k, v⟩ := entry
    simp only [List.map_cons, List.lookup_cons, ih]
    cases key == k with
    | true => rfl
    | false => rfl

theorem map_insert {γ : Type} (f : β → γ) (m : AssocMap α β) (key : α) (value : β) :
    (m.insert key value).map f = (m.map f).insert key (f value) := by
  simp only [map, insert, List.map_cons, List.filter_map, Function.comp_def]

end AssocMap
