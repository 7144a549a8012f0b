-- Relations of which nothing that is reached comes back to itself: on finitely
-- many things their paths are no longer than the things are many.
import Mathlib.Data.Finset.Card
import Mathlib.Logic.Relation

namespace AcyclicDepth

open Relation Classical

variable {α : Type} {r : α → α → Prop} {nodes : Finset α} {root a b : α}

/-- What there is of `nodes` after `a`. -/
noncomputable def after (r : α → α → Prop) (nodes : Finset α) (a : α) : Finset α :=
  nodes.filter fun b => TransGen r a b

theorem mem_after : b ∈ after r nodes a ↔ b ∈ nodes ∧ TransGen r a b := by
  unfold after
  exact Finset.mem_filter

/-- A step leaves the node that it comes to behind. -/
theorem after_ssubset (hnodes : b ∈ nodes) (hstep : r a b) (hacyclic : ¬ TransGen r b b) :
    after r nodes b ⊂ after r nodes a := by
  rw [Finset.ssubset_iff_of_subset]
  · refine ⟨b, mem_after.mpr ⟨hnodes, .single hstep⟩, fun hmem => ?_⟩
    exact hacyclic (mem_after.mp hmem).2
  · intro c hc
    obtain ⟨hmem, hpath⟩ := mem_after.mp hc
    exact mem_after.mpr ⟨hmem, .head hstep hpath⟩

/-- A node that is not after itself has fewer nodes after it than there are. -/
theorem after_card_lt (hnodes : a ∈ nodes) (hacyclic : ¬ TransGen r a a) :
    (after r nodes a).card < nodes.card := by
  have hsub : after r nodes a ⊆ nodes := Finset.filter_subset _ nodes
  apply Finset.card_lt_card
  rw [Finset.ssubset_iff_of_subset hsub]
  exact ⟨a, hnodes, fun hmem => hacyclic (mem_after.mp hmem).2⟩

/-- What goes from all successors of a node at depth `n` to the node at the next
depth, holds at the depth of the number of nodes. -/
theorem holds_at_card {P : Nat → α → Prop} (hclosed : ∀ a b, r a b → b ∈ nodes)
    (hroot : root ∈ nodes)
    (hacyclic : ∀ a, ReflTransGen r root a → ¬ TransGen r a a)
    (hstep : ∀ n a, ReflTransGen r root a → (∀ b, r a b → P n b) → P (n + 1) a) :
    P nodes.card root := by
  have hdepth : ∀ n a, ReflTransGen r root a → (after r nodes a).card < n → P n a := by
    intro n
    induction n with
    | zero =>
      intro a _ hlt
      omega
    | succ n ih =>
      intro a hreached hlt
      apply hstep n a hreached
      intro b hb
      have hreached' := hreached.tail hb
      have hless := Finset.card_lt_card
        (after_ssubset (hclosed a b hb) hb (hacyclic b hreached'))
      exact ih b hreached' (by omega)
  exact hdepth _ root .refl (after_card_lt hroot (hacyclic root .refl))

end AcyclicDepth
