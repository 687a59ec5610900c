import Mathlib.Algebra.BigOperators.Group.Finset.Basic
import Mathlib.Algebra.Order.BigOperators.Group.Finset
import Mathlib.Tactic

/-! A finite set shared out among owners: a total that changes at one of them, and shares
that have the size of the whole together. -/
namespace Shares

variable {I B : Type}

theorem sum_changed [DecidableEq I] {s : Finset I} {f g : I → Nat} (member : i ∈ s)
    (others : ∀ j ∈ s, j ≠ i → g j = f j) : ∑ j ∈ s, g j + f i = ∑ j ∈ s, f j + g i := by
  have rest : ∑ j ∈ s.erase i, g j = ∑ j ∈ s.erase i, f j :=
    Finset.sum_congr rfl fun j inside => others j (Finset.mem_of_mem_erase inside) (Finset.ne_of_mem_erase inside)
  rw [← Finset.add_sum_erase s g member, ← Finset.add_sum_erase s f member, rest]
  omega

/-- Disjoint parts of a set that have its size together leave nothing of it. -/
theorem covered [DecidableEq B] {s : Finset I} {t : Finset B} {part : I → Finset B} (inside : ∀ i ∈ s, part i ⊆ t)
    (apart : ∀ i ∈ s, ∀ j ∈ s, ∀ b, b ∈ part i → b ∈ part j → i = j)
    (count : t.card ≤ ∑ i ∈ s, (part i).card) (member : b ∈ t) : ∃ i ∈ s, b ∈ part i := by
  have disjoint : Set.PairwiseDisjoint (s : Set I) part := by
    intro i here j there other
    refine Finset.disjoint_left.mpr fun b mine yours => ?_
    exact other (apart i here j there b mine yours)
  have whole : s.biUnion part = t := by
    refine Finset.eq_of_subset_of_card_le (Finset.biUnion_subset.mpr inside) ?_
    rw [Finset.card_biUnion disjoint]
    exact count
  rw [← whole] at member
  exact Finset.mem_biUnion.mp member

end Shares
