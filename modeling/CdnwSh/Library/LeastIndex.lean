import Mathlib.Data.Finset.Card
import Mathlib.Data.Finset.Range
import Mathlib.Data.Nat.Count
import Mathlib.Order.Interval.Finset.Nat
import Mathlib.Tactic

/-! Searching an indexed predicate for its least index, and counting the indices
below a bound that a set leaves free. -/
namespace LeastIndex

/-- A loop from `start` that stops at the first index satisfying `p`, or after
`steps` indices. -/
def firstFrom (p : Nat → Bool) : Nat → Nat → Nat
  | 0, start => start
  | steps + 1, start => if p start then start else firstFrom p steps (start + 1)

variable {p : Nat → Bool}

theorem firstFrom_bound : firstFrom p n k ≤ k + n := by
  induction n generalizing k with
  | zero => exact Nat.le_refl _
  | succ n ih =>
    simp only [firstFrom]
    split
    · exact Nat.le_add_right _ _
    · exact Nat.le_trans ih (by omega)

theorem firstFrom_skipped (low : k ≤ i) (high : i < firstFrom p n k) : p i = false := by
  induction n generalizing k with
  | zero => simp only [firstFrom] at high; omega
  | succ n ih =>
    simp only [firstFrom] at high
    split at high
    · omega
    next fails =>
      rcases Nat.eq_or_lt_of_le low with rfl | later
      · simpa using fails
      · exact ih later high

theorem firstFrom_found (stopped : firstFrom p n k < k + n) :
    p (firstFrom p n k) = true := by
  induction n generalizing k with
  | zero => simp only [firstFrom] at stopped; omega
  | succ n ih =>
    simp only [firstFrom] at stopped ⊢
    split
    next holds => exact holds
    next fails => exact ih (by rw [if_neg fails] at stopped; omega)

theorem firstFrom_least (low : k ≤ i) (holds : p i = true) :
    firstFrom p n k ≤ i := by
  by_contra beyond
  have := firstFrom_skipped (p := p) (n := n) low (by omega)
  simp [holds] at this

/-- How many of the indices below `n` are not in `used`. -/
def clearCount (n : Nat) (used : Nat → Bool) : Nat :=
  ((Finset.range n).filter fun i => used i = false).card

variable {used used' : Nat → Bool}

theorem exists_clear (positive : 0 < clearCount n used) : ∃ i, i < n ∧ used i = false := by
  obtain ⟨i, member⟩ := Finset.card_pos.mp positive
  exact ⟨i, by simpa using member⟩

theorem clearCount_lt (more : ∀ i, used i = true → used' i = true) (bound : i < n)
    (clear : used i = false) (new : used' i = true) : clearCount n used' < clearCount n used := by
  refine Finset.card_lt_card ((Finset.ssubset_iff_of_subset fun j member => ?_).mpr ⟨i, ?_, ?_⟩)
  · obtain ⟨low, free⟩ := Finset.mem_filter.mp member
    refine Finset.mem_filter.mpr ⟨low, ?_⟩
    by_contra other
    rw [more j (Bool.eq_true_of_not_eq_false other)] at free
    cases free
  · exact Finset.mem_filter.mpr ⟨Finset.mem_range.mpr bound, clear⟩
  · intro member
    rw [(Finset.mem_filter.mp member).2] at new
    cases new

theorem clearCount_insert (bound : i < n) (clear : used i = false)
    (update : ∀ j, j < n → used' j = (used j || j = i)) :
    clearCount n used = clearCount n used' + 1 := by
  unfold clearCount
  have split : ((Finset.range n).filter fun j => used j = false) =
      insert i ((Finset.range n).filter fun j => used' j = false) := by
    ext j
    simp only [Finset.mem_filter, Finset.mem_range, Finset.mem_insert]
    constructor
    · rintro ⟨low, free⟩
      by_cases same : j = i
      · exact Or.inl same
      · exact Or.inr ⟨low, by rw [update j low]; simp [free, same]⟩
    · rintro (rfl | ⟨low, free⟩)
      · exact ⟨bound, clear⟩
      · rw [update j low] at free
        exact ⟨low, by simp_all⟩
  rw [split, Finset.card_insert_of_notMem]
  simp [update i bound]

/-- The exact complement: `n` indices of which exactly the first `k` are used. -/
theorem clearCount_initial (initial : ∀ i, i < n → used i = decide (i < k)) :
    clearCount n used = n - k := by
  unfold clearCount
  have interval : ((Finset.range n).filter fun i => used i = false) = Finset.Ico k n := by
    ext i
    simp only [Finset.mem_filter, Finset.mem_range, Finset.mem_Ico]
    constructor
    · rintro ⟨low, free⟩
      rw [initial i low] at free
      exact ⟨by simpa using free, low⟩
    · rintro ⟨high, low⟩
      exact ⟨low, by rw [initial i low]; simpa using high⟩
  rw [interval, Nat.card_Ico]

/-- Among more than `k` places of a predicate there is one behind exactly `k`. -/
theorem exists_count_eq {q : Nat → Prop} [DecidablePred q] {k n : Nat} (more : k < Nat.count q n) :
    ∃ i, i < n ∧ q i ∧ Nat.count q i = k := by
  induction n with
  | zero => exact absurd more (by simp)
  | succ n ih =>
    by_cases early : k < Nat.count q n
    · obtain ⟨i, low, found⟩ := ih early
      exact ⟨i, by omega, found⟩
    · rw [Nat.count_succ] at more
      by_cases last : q n
      · rw [if_pos last] at more
        exact ⟨n, by omega, last, by omega⟩
      · rw [if_neg last] at more
        omega

end LeastIndex
