import Mathlib.Data.Nat.Basic
import Mathlib.Data.List.Basic
import Mathlib.Tactic

/-! Byte memories as functions of the offset from a pointer: block copies,
little-endian fields and slices. Offsets are unbounded; the length of an
allocation is the business of whoever holds the pointer. -/
namespace ByteMemory

abbrev Bytes := Nat → UInt8

/-- `memcpy(m + off, src, n)`. -/
def copy (m : Bytes) (off : Nat) (src : Bytes) (n : Nat) : Bytes :=
  fun i => if off ≤ i ∧ i < off + n then src (i - off) else m i

/-- The memory seen from a pointer moved forward by `off`. -/
def window (m : Bytes) (off : Nat) : Bytes := fun i => m (off + i)

def ofList (l : List UInt8) : Bytes := fun i => l.getD i 0

/-- The `n` bytes from offset `off`, in order. -/
def slice (m : Bytes) (off n : Nat) : List UInt8 := (List.range n).map fun i => m (off + i)

/-- The unsigned little-endian number in the `n` bytes from offset `off`. -/
def readLE (m : Bytes) : Nat → Nat → Nat
  | _, 0 => 0
  | off, n + 1 => (m off).toNat + 256 * readLE m (off + 1) n

def digits (value : Nat) : Bytes := fun k => UInt8.ofNat (value / 256 ^ k)

/-- Stores the low `n` bytes of `value`; higher digits are dropped as a C
conversion to a narrower unsigned type drops them. -/
def writeLE (m : Bytes) (off n value : Nat) : Bytes := copy m off (digits value) n

variable {m m' src src' : Bytes}

@[simp] theorem copy_zero : copy m off src 0 = m := by
  funext i; simp only [copy]; rw [if_neg (by omega)]

theorem copy_in (low : off ≤ i) (high : i < off + n) : copy m off src n i = src (i - off) := by
  simp [copy, low, high]

theorem copy_out (outside : i < off ∨ off + n ≤ i) : copy m off src n i = m i := by
  simp only [copy]; rw [if_neg (by omega)]

theorem copy_at (bound : k < n) : copy m off src n (off + k) = src k := by
  rw [copy_in (by omega) (by omega), Nat.add_sub_cancel_left]

@[simp] theorem window_apply : window m off i = m (off + i) := rfl

theorem readLE_congr (same : ∀ i, off ≤ i → i < off + n → m i = m' i) :
    readLE m off n = readLE m' off n := by
  induction n generalizing off with
  | zero => rfl
  | succ n ih =>
    simp only [readLE]
    rw [same off (by omega) (by omega), ih fun i low high => same i (by omega) (by omega)]

theorem readLE_lt : readLE m off n < 256 ^ n := by
  induction n generalizing off with
  | zero => simp [readLE]
  | succ n ih =>
    have digit := (m off).toNat_lt
    have rest := @ih (off + 1)
    simp only [readLE, Nat.pow_succ]
    omega

private theorem readLE_digits (shift : Nat) (same : ∀ k, k < n → m (off + k) = digits value (shift + k)) :
    readLE m off n = value / 256 ^ shift % 256 ^ n := by
  induction n generalizing off shift with
  | zero => simp [readLE, Nat.mod_one]
  | succ n ih =>
    have head := same 0 (by omega)
    have tail := @ih (off + 1) (shift + 1) fun k bound => by
      have := same (k + 1) (by omega)
      simpa only [Nat.add_assoc, Nat.add_comm 1 k] using this
    simp only [Nat.add_zero] at head
    have byte : (digits value shift).toNat = value / 256 ^ shift % 256 := by simp [digits]
    rw [readLE, tail, head, byte, Nat.pow_succ 256 shift, ← Nat.div_div_eq_div_mul,
      Nat.pow_succ 256 n, Nat.mul_comm (256 ^ n) 256, Nat.mod_mul]

theorem readLE_of_digits (same : ∀ k, k < n → m (off + k) = digits value k) :
    readLE m off n = value % 256 ^ n := by
  rw [readLE_digits 0 fun k bound => by rw [same k bound, Nat.zero_add]]
  simp

/-- A stored field reads back as the value reduced to its width. -/
theorem readLE_writeLE : readLE (writeLE m off n value) off n = value % 256 ^ n :=
  readLE_of_digits fun _ bound => copy_at bound

theorem readLE_copy_out (apart : off' + n' ≤ off ∨ off + n ≤ off') :
    readLE (copy m off src n) off' n' = readLE m off' n' :=
  readLE_congr fun i low high => copy_out (by omega)

theorem readLE_writeLE_out (apart : off' + n' ≤ off ∨ off + n ≤ off') :
    readLE (writeLE m off n value) off' n' = readLE m off' n' := readLE_copy_out apart

@[simp] theorem length_slice : (slice m off n).length = n := by simp [slice]

theorem slice_congr (same : ∀ i, off ≤ i → i < off + n → m i = m' i) :
    slice m off n = slice m' off n := by
  simp only [slice]
  exact List.map_congr_left fun i member => same _ (by omega) (by
    have := List.mem_range.mp member; omega)

theorem getElem?_slice : (slice m off n)[k]? = if k < n then some (m (off + k)) else none := by
  by_cases bound : k < n <;> simp [slice, bound]

/-- A list copied into memory reads back as the same list. -/
theorem slice_copy_ofList (l : List UInt8) : slice (copy m off (ofList l) l.length) off l.length = l := by
  apply List.ext_getElem?
  intro k
  rw [getElem?_slice]
  by_cases bound : k < l.length
  · simp [bound, copy_at bound, ofList]
  · simp [bound]

theorem slice_append : slice m off (a + b) = slice m off a ++ slice m (off + a) b := by
  simp [slice, List.range_add, Function.comp_def, Nat.add_assoc]

end ByteMemory
