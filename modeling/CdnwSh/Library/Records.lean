import Mathlib.Data.List.Basic
import Mathlib.Tactic

/-! Sequences of variable-length records laid end to end. A record is decoded at
an offset and says itself how far the next one is; `Tiles` is the statement that
a run of offsets is covered by a given list without gaps. -/
namespace RecordList

variable {R : Type}

def Tiles (decode : Nat → Option R) (len : R → Nat) : Nat → Nat → List R → Prop
  | off, stop, [] => off = stop
  | off, stop, r :: rs => decode off = some r ∧ 0 < len r ∧ Tiles decode len (off + len r) stop rs

variable {decode decode' : Nat → Option R} {len : R → Nat}

@[simp] theorem tiles_nil : Tiles decode len off stop [] ↔ off = stop := Iff.rfl

@[simp] theorem tiles_cons : Tiles decode len off stop (r :: rs) ↔
    decode off = some r ∧ 0 < len r ∧ Tiles decode len (off + len r) stop rs := Iff.rfl

instance [DecidableEq R] : (off stop : Nat) → (rs : List R) → Decidable (Tiles decode len off stop rs)
  | off, stop, [] => inferInstanceAs (Decidable (off = stop))
  | off, stop, r :: rs =>
    have := instDecidableTilesOfDecidableEq (off + len r) stop rs
    inferInstanceAs (Decidable (decode off = some r ∧ 0 < len r ∧ Tiles decode len (off + len r) stop rs))

theorem Tiles.stop_eq (tiles : Tiles decode len off stop rs) :
    stop = off + (rs.map len).sum := by
  induction rs generalizing off with
  | nil => simpa using tiles.symm
  | cons r rs ih =>
    have rest := ih tiles.2.2
    simp only [List.map_cons, List.sum_cons]
    omega

theorem Tiles.le (tiles : Tiles decode len off stop rs) : off ≤ stop := by
  rw [tiles.stop_eq]; exact Nat.le_add_right _ _

/-- No record is empty, so there are at most as many records as offsets. -/
theorem Tiles.length_le (tiles : Tiles decode len off stop rs) : off + rs.length ≤ stop := by
  induction rs generalizing off with
  | nil => exact Nat.le_of_eq tiles
  | cons r rs ih =>
    have rest := ih tiles.2.2
    have positive := tiles.2.1
    simp only [List.length_cons]
    omega

/-- Where records start below a bound, there are at most as many as offsets below it. -/
theorem Tiles.length_bound (tiles : Tiles decode len off stop rs)
    (starts : ∀ o r, decode o = some r → o < bound) : rs.length ≤ bound - off := by
  induction rs generalizing off with
  | nil => exact Nat.zero_le _
  | cons r rs ih =>
    have rest := ih tiles.2.2
    have positive := tiles.2.1
    have here := starts off r tiles.1
    rw [List.length_cons]
    omega

theorem Tiles.append (first : Tiles decode len off middle rs)
    (second : Tiles decode len middle stop rs') : Tiles decode len off stop (rs ++ rs') := by
  induction rs generalizing off with
  | nil => obtain rfl := first; exact second
  | cons r rs ih => exact ⟨first.1, first.2.1, ih first.2.2⟩

theorem Tiles.snoc (tiles : Tiles decode len off stop rs) (last : decode stop = some r)
    (positive : 0 < len r) : Tiles decode len off (stop + len r) (rs ++ [r]) :=
  tiles.append ⟨last, positive, rfl⟩

/-- A tiling survives any change of the bytes that keeps its own records. -/
theorem Tiles.congr (tiles : Tiles decode len off stop rs)
    (same : ∀ o r, r ∈ rs → off ≤ o → o + len r ≤ stop → decode o = some r → decode' o = some r) :
    Tiles decode' len off stop rs := by
  induction rs generalizing off with
  | nil => exact tiles
  | cons r rs ih =>
    have reach := tiles.2.2.le
    refine ⟨same off r List.mem_cons_self (Nat.le_refl _) reach tiles.1, tiles.2.1,
      ih tiles.2.2 ?_⟩
    intro o r' member low high found
    exact same o r' (List.mem_cons_of_mem _ member) (by omega) high found

theorem Tiles.unique (one : Tiles decode len off stop rs) (two : Tiles decode len off stop rs') :
    rs = rs' := by
  induction rs generalizing off rs' with
  | nil =>
    cases rs' with
    | nil => rfl
    | cons r' rs' =>
      have reach := two.2.2.le
      have positive := two.2.1
      obtain rfl := one
      omega
  | cons r rs ih =>
    cases rs' with
    | nil =>
      have reach := one.2.2.le
      have positive := one.2.1
      obtain rfl := two
      omega
    | cons r' rs' =>
      obtain rfl : r = r' := Option.some.inj (one.1.symm.trans two.1)
      rw [ih one.2.2 two.2.2]

/-- Every record of a tiling is decoded at some offset inside it. -/
theorem Tiles.mem (tiles : Tiles decode len off stop rs) (member : r ∈ rs) :
    ∃ o, off ≤ o ∧ o + len r ≤ stop ∧ decode o = some r ∧ 0 < len r := by
  induction rs generalizing off with
  | nil => simp at member
  | cons first rs ih =>
    rcases List.mem_cons.mp member with rfl | member
    · exact ⟨off, Nat.le_refl _, tiles.2.2.le, tiles.1, tiles.2.1⟩
    · obtain ⟨o, low, high, found, positive⟩ := ih tiles.2.2 member
      exact ⟨o, by omega, high, found, positive⟩

end RecordList
