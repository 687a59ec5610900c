import Mathlib.Data.List.Nodup
import Mathlib.Tactic

/-! A logical array kept in fixed-size blocks of a store, named by a list of
block addresses. Reading gathers the blocks in order, writing scatters the array
over them; the two are inverse exactly because no address is listed twice. -/
namespace Extents

variable {A α : Type} {B : Nat}

def set [DecidableEq A] (store : A → Fin B → α) (address : A) (block : Fin B → α) :
    A → Fin B → α := fun other => if other = address then block else store other

/-- The `k`-th block of an array. -/
def chunk (B : Nat) (array : Nat → α) (k : Nat) : Fin B → α := fun i => array (B * k + i)

/-- The array read through the listed blocks; `fill` past their end. -/
def gather (fill : α) (store : A → Fin B → α) (addresses : List A) : Nat → α := fun j =>
  if positive : 0 < B then
    match addresses[j / B]? with
    | some address => store address ⟨j % B, Nat.mod_lt _ positive⟩
    | none => fill
  else fill

/-- Writes block `k`, `k + 1`, … of the array to the listed addresses in order. -/
def scatter [DecidableEq A] (store : A → Fin B → α) : List A → (Nat → α) → Nat → A → Fin B → α
  | [], _, _ => store
  | address :: rest, array, k => scatter (set store address (chunk B array k)) rest array (k + 1)

section Set
variable [DecidableEq A] {store : A → Fin B → α}

@[simp] theorem set_same : set store address block address = block := by simp [set]

@[simp] theorem set_other (apart : other ≠ address) :
    set store address block other = store other := by simp [set, apart]

@[simp] theorem set_set : set (set store address x) address y = set store address y := by
  funext other; by_cases same : other = address <;> simp [set, same]

@[simp] theorem set_self : set store address (store address) = store := by
  funext other; by_cases same : other = address <;> simp [set, same]

end Set

variable {store store' : A → Fin B → α} {fill : α}

theorem gather_congr (same : ∀ address ∈ addresses, store address = store' address) :
    gather fill store addresses = gather fill store' addresses := by
  funext j
  simp only [gather]
  split
  · cases found : addresses[j / B]? with
    | none => rfl
    | some address => simp only [same address (List.mem_of_getElem? found)]
  · rfl

theorem gather_at (k : Nat) (i : Fin B) (found : addresses[k]? = some address) :
    gather fill store addresses (B * k + i) = store address i := by
  have positive : 0 < B := Nat.lt_of_le_of_lt (Nat.zero_le _) i.isLt
  have block : (B * k + i) / B = k := by
    rw [Nat.mul_add_div positive, Nat.div_eq_of_lt i.isLt, Nat.add_zero]
  have offset : (B * k + i) % B = i := by
    rw [Nat.mul_add_mod, Nat.mod_eq_of_lt i.isLt]
  simp [gather, positive, block, found, offset]

theorem gather_past (beyond : B * addresses.length ≤ j) : gather fill store addresses j = fill := by
  simp only [gather]
  split
  next positive =>
    have : addresses.length ≤ j / B := (Nat.le_div_iff_mul_le positive).mpr (by
      rw [Nat.mul_comm]; exact beyond)
    simp [List.getElem?_eq_none this]
  · rfl

theorem gather_nil : gather fill store [] = fun _ => fill := by
  funext j; simp [gather]

theorem gather_cons (positive : 0 < B) : gather fill store (address :: rest) j =
    if within : j < B then store address ⟨j, within⟩ else gather fill store rest (j - B) := by
  split
  next within =>
    have : gather fill store (address :: rest) (B * 0 + j) = store address ⟨j, within⟩ :=
      gather_at 0 ⟨j, within⟩ rfl
    simpa using this
  next beyond =>
    have block : j / B = (j - B) / B + 1 := Nat.div_eq_sub_div positive (by omega)
    have offset : j % B = (j - B) % B := Nat.mod_eq_sub_mod (by omega)
    simp only [gather, positive, dif_pos, block, offset, List.getElem?_cons_succ]

theorem gather_append (within : j < B * addresses.length) :
    gather fill store (addresses ++ more) j = gather fill store addresses j := by
  simp only [gather]
  split
  next positive =>
    have : j / B < addresses.length := Nat.div_lt_of_lt_mul within
    rw [List.getElem?_append_left this]
  · rfl

variable [DecidableEq A]

/-- A block that is set is its part of the array. -/
theorem gather_set (distinct : addresses.Nodup) (found : addresses[k]? = some address)
    (positive : 0 < B) : gather fill (set store address block) addresses j =
      if j / B = k then block ⟨j % B, Nat.mod_lt _ positive⟩ else gather fill store addresses j := by
  simp only [gather, dif_pos positive]
  by_cases here : j / B = k
  · simp only [here, found, set_same, if_pos]
  · rw [if_neg here]
    cases listed : addresses[j / B]? with
    | none => rfl
    | some address' =>
      have apart : address' ≠ address := by
        rintro rfl
        have bound := (List.getElem?_eq_some_iff.mp listed).1
        exact here ((List.getElem?_inj bound distinct).mp (listed.trans found.symm))
      simp only [set_other apart]

theorem scatter_out (apart : address ∉ addresses) :
    scatter store addresses array k address = store address := by
  induction addresses generalizing store k with
  | nil => rfl
  | cons first rest ih =>
    simp only [List.mem_cons, not_or] at apart
    rw [scatter, ih apart.2, set_other apart.1]

theorem scatter_at (distinct : addresses.Nodup) (found : addresses[t]? = some address) :
    scatter store addresses array k address = chunk B array (k + t) := by
  induction addresses generalizing store k t with
  | nil => simp at found
  | cons first rest ih =>
    obtain ⟨apart, distinct⟩ := List.nodup_cons.mp distinct
    rw [scatter]
    cases t with
    | zero =>
      obtain rfl : first = address := by simpa using found
      rw [scatter_out apart, set_same, Nat.add_zero]
    | succ t =>
      rw [ih distinct (by simpa using found), Nat.add_assoc, Nat.add_comm 1 t]

/-- What was scattered over distinct blocks is what is gathered from them. -/
theorem gather_scatter (distinct : addresses.Nodup) (within : j < B * addresses.length) :
    gather fill (scatter store addresses array 0) addresses j = array j := by
  have positive : 0 < B := by
    rcases Nat.eq_zero_or_pos B with rfl | positive
    · simp at within
    · exact positive
  have bound : j / B < addresses.length := Nat.div_lt_of_lt_mul within
  have found := List.getElem?_eq_getElem bound
  have whole : B * (j / B) + j % B = j := Nat.div_add_mod j B
  have read : gather fill (scatter store addresses array 0) addresses (B * (j / B) + j % B) =
      scatter store addresses array 0 addresses[j / B] ⟨j % B, Nat.mod_lt _ positive⟩ :=
    gather_at (j / B) ⟨j % B, Nat.mod_lt _ positive⟩ found
  rw [scatter_at distinct found, Nat.zero_add] at read
  simpa [chunk, whole] using read

/-- Scattering over the first blocks of an array replaces its beginning. -/
theorem gather_scatter_prefix (distinct : (addresses ++ more).Nodup) :
    gather fill (scatter store addresses array 0) (addresses ++ more) j =
      if j < B * addresses.length then array j else gather fill store (addresses ++ more) j := by
  by_cases within : j < B * addresses.length
  · rw [if_pos within, gather_append within,
      gather_scatter (List.nodup_append.mp distinct).1 within]
  · rw [if_neg within]
    simp only [gather]
    split
    next positive =>
      have beyond : addresses.length ≤ j / B :=
        (Nat.le_div_iff_mul_le positive).mpr (by rw [Nat.mul_comm]; omega)
      cases found : (addresses ++ more)[j / B]? with
      | none => rfl
      | some address =>
        rw [List.getElem?_append_right beyond] at found
        have apart : address ∉ addresses := fun member =>
          (List.nodup_append.mp distinct).2.2 address member address (List.mem_of_getElem? found) rfl
        simp only [scatter_out apart]
    · rfl

theorem scatter_append : scatter store (addresses ++ more) array k =
    scatter (scatter store addresses array k) more array (k + addresses.length) := by
  induction addresses generalizing store k with
  | nil => rfl
  | cons first rest ih =>
    simp only [List.cons_append, scatter, ih, List.length_cons]
    rw [Nat.add_assoc, Nat.add_comm 1 rest.length]

/-- Writing back what was read changes nothing. -/
theorem scatter_gather (distinct : addresses.Nodup)
    (same : ∀ j, j < B * addresses.length → array j = gather fill store addresses j) :
    scatter store addresses array 0 = store := by
  funext address
  by_cases listed : address ∈ addresses
  · obtain ⟨t, found⟩ := List.mem_iff_getElem?.mp listed
    rw [scatter_at distinct found, Nat.zero_add]
    funext i
    have bound : t < addresses.length := (List.getElem?_eq_some_iff.mp found).1
    have within : B * t + i < B * addresses.length := calc
      B * t + i < B * t + B := Nat.add_lt_add_left i.isLt _
      _ = B * (t + 1) := (Nat.mul_succ B t).symm
      _ ≤ B * addresses.length := Nat.mul_le_mul_left _ bound
    rw [chunk, same _ within, gather_at t i found]
  · rw [scatter_out listed]

end Extents
