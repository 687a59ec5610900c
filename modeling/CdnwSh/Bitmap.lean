import CdnwSh.Blockdev
import CdnwSh.Library.LeastIndex
import Mathlib.Data.Nat.Bitwise

/-! The bitmap functions of `bitmap.c` over one block, and their reading as a set
of the indices below 32768 with least-free search. -/
namespace CdnwSh

open LeastIndex

/-- Bit `n` of a block, counting from the low bit of byte 0. -/
def bit (blk : Block) (n : Nat) : Bool := (blk.mem (n / 8)).toNat.testBit (n % 8)

def findFreeBit (blk : Block) : UInt32 :=
  let ptr := firstFrom (fun p => blk.mem p &&& 0xFF ≠ 0xFF) 4096 0
  if ptr = 4096 then 0
  else
    let byteFound := blk.mem ptr
    let offset := firstFrom (fun o => !byteFound.toNat.testBit o) 8 0
    UInt32.ofNat (ptr * 8 + offset)

def readBitmap (blk : Block) (index : UInt32) : Option Bool :=
  if index.toNat / 8 < 4096 then some (bit blk index.toNat) else none

/-- `mask = 1 << offset` as an 8-bit value. -/
def bitMask (offset : Nat) : UInt8 := UInt8.ofNat (1 <<< offset)

def setBit (blk : Block) (n : Nat) : Block := fun i =>
  if i.val = n / 8 then blk i ||| bitMask (n % 8) else blk i

def clearBit (blk : Block) (n : Nat) : Block := fun i =>
  if i.val = n / 8 then blk i &&& ~~~ bitMask (n % 8) else blk i

def setBitmap (blk : Block) (index : UInt32) : Option Block :=
  if index.toNat / 8 < 4096 then some (setBit blk index.toNat) else none

def clearBitmap (blk : Block) (index : UInt32) : Option Block :=
  if index.toNat / 8 < 4096 then some (clearBit blk index.toNat) else none

theorem setBitmap_inside (inside : index.toNat < 32768) :
    setBitmap blk index = some (setBit blk index.toNat) := by
  rw [setBitmap, if_pos (by omega)]

theorem clearBitmap_inside (inside : index.toNat < 32768) :
    clearBitmap blk index = some (clearBit blk index.toNat) := by
  rw [clearBitmap, if_pos (by omega)]

theorem bitMask_toNat (small : k < 8) : (bitMask k).toNat = 2 ^ k := by
  have : 2 ^ k < 2 ^ 8 := Nat.pow_lt_pow_right (by decide) small
  simp only [bitMask, UInt8.toNat_ofNat', Nat.one_shiftLeft]
  exact Nat.mod_eq_of_lt this

private theorem bitMask_testBit (small : k < 8) : (bitMask k).toNat.testBit j = decide (k = j) := by
  rw [bitMask_toNat small, Nat.testBit_two_pow]

theorem bit_setBit (inside : n < 32768) : bit (setBit blk n) m = (bit blk m || decide (m = n)) := by
  unfold bit
  by_cases bound : m / 8 < 4096
  · rw [Block.mem_apply _ bound, Block.mem_apply _ bound]
    simp only [setBit]
    by_cases byte : m / 8 = n / 8
    · rw [if_pos byte, UInt8.toNat_or, Nat.testBit_or, bitMask_testBit (by omega)]
      congr 1
      exact decide_eq_decide.mpr (by omega)
    · have : m ≠ n := by rintro rfl; exact byte rfl
      simp [byte, this]
  · have : m ≠ n := by omega
    simp [Block.mem, bound, this]

theorem bit_clearBit : bit (clearBit blk n) m = (bit blk m && !decide (m = n)) := by
  unfold bit
  by_cases bound : m / 8 < 4096
  · rw [Block.mem_apply _ bound, Block.mem_apply _ bound]
    simp only [clearBit]
    by_cases byte : m / 8 = n / 8
    · have inner : (~~~ bitMask (n % 8)).toNat.testBit (m % 8) = !decide (m = n) := by
        have flip := Nat.testBit_two_pow_sub_succ (n := 8) (x := (bitMask (n % 8)).toNat)
          (UInt8.toNat_lt _) (m % 8)
        have value : (~~~ bitMask (n % 8)).toNat = 2 ^ 8 - ((bitMask (n % 8)).toNat + 1) := by
          have := UInt8.toNat_lt (bitMask (n % 8))
          rw [UInt8.toNat_not, UInt8.size]; omega
        rw [value, flip, bitMask_testBit (by omega)]
        have : decide (m % 8 < 8) = true := by simp; omega
        rw [this, Bool.true_and]
        congr 1
        exact decide_eq_decide.mpr (by omega)
      rw [if_pos byte, UInt8.toNat_and, Nat.testBit_and, inner]
    · have : m ≠ n := by rintro rfl; exact byte rfl
      simp [byte, this]
  · simp [Block.mem, bound]

private theorem byte_full_iff (b : UInt8) : b = 0xFF ↔ ∀ k, k < 8 → b.toNat.testBit k = true := by
  constructor
  · rintro rfl; decide
  · intro all
    apply UInt8.toNat_inj.mp
    apply Nat.eq_of_testBit_eq
    intro k
    by_cases small : k < 8
    · rw [all k small]
      revert k; decide
    · have big (x : UInt8) : x.toNat.testBit k = false :=
        Nat.testBit_lt_two_pow (Nat.lt_of_lt_of_le x.toNat_lt (Nat.pow_le_pow_right (by decide) (by omega)))
      rw [big, big]

private theorem masked_byte (b : UInt8) : b &&& 0xFF = b := by
  apply UInt8.toNat_inj.mp
  rw [UInt8.toNat_and, show (0xFF : UInt8).toNat = 2 ^ 8 - 1 from rfl, Nat.and_two_pow_sub_one_eq_mod]
  exact Nat.mod_eq_of_lt b.toNat_lt

/-- A byte with a clear bit is not skipped. -/
theorem notFull_of_clear (clear : bit blk n = false) : blk.mem (n / 8) &&& 0xFF ≠ 0xFF := by
  rw [masked_byte]
  intro full
  have := (byte_full_iff _).mp full (n % 8) (by omega)
  rw [bit, this] at clear
  contradiction

/-- `find_free_bit` returns the least clear bit when there is one. -/
theorem findFreeBit_least (clear : bit blk n = false) (inside : n < 32768) :
    (findFreeBit blk).toNat < 32768 ∧ bit blk (findFreeBit blk).toNat = false ∧
    (∀ m, m < (findFreeBit blk).toNat → bit blk m = true) := by
  have notFull := decide_eq_true (notFull_of_clear clear)
  have early := firstFrom_least (p := fun p => decide (blk.mem p &&& 0xFF ≠ 0xFF)) (n := 4096)
    (Nat.zero_le _) notFull
  have stopped := firstFrom_found (p := fun p => decide (blk.mem p &&& 0xFF ≠ 0xFF)) (n := 4096)
    (k := 0) (by omega)
  have skipped (q) := firstFrom_skipped (p := fun p => decide (blk.mem p &&& 0xFF ≠ 0xFF))
    (n := 4096) (i := q) (Nat.zero_le _)
  unfold findFreeBit
  dsimp only
  generalize firstFrom (fun p => decide (blk.mem p &&& 0xFF ≠ 0xFF)) 4096 0 = ptr at *
  rw [masked_byte, decide_eq_true_eq] at stopped
  obtain ⟨k, small, unset⟩ : ∃ k, k < 8 ∧ (blk.mem ptr).toNat.testBit k = false := by
    by_contra none
    refine stopped ((byte_full_iff _).mpr fun k small => ?_)
    by_contra unset
    exact none ⟨k, small, by simpa using unset⟩
  have found := firstFrom_least (p := fun o => !(blk.mem ptr).toNat.testBit o) (n := 8)
    (i := k) (Nat.zero_le _) (by simp [unset])
  have holds := firstFrom_found (p := fun o => !(blk.mem ptr).toNat.testBit o) (n := 8)
    (k := 0) (by omega)
  have below (q) := firstFrom_skipped (p := fun o => !(blk.mem ptr).toNat.testBit o)
    (n := 8) (i := q) (Nat.zero_le _)
  generalize firstFrom (fun o => !(blk.mem ptr).toNat.testBit o) 8 0 = offset at *
  have value : (UInt32.ofNat (ptr * 8 + offset)).toNat = ptr * 8 + offset := by
    rw [UInt32.toNat_ofNat']; omega
  rw [if_neg (by omega), value]
  refine ⟨by omega, ?_, ?_⟩
  · have byte : (ptr * 8 + offset) / 8 = ptr := by omega
    have place : (ptr * 8 + offset) % 8 = offset := by omega
    rw [bit, byte, place]
    simpa using holds
  · intro m low
    rw [bit]
    by_cases same : m / 8 = ptr
    · rw [same]
      simpa using below (m % 8) (by omega)
    · have full := skipped (m / 8) (by omega)
      rw [masked_byte, decide_eq_false_iff_not, not_not] at full
      exact (byte_full_iff _).mp full (m % 8) (by omega)

theorem findFreeBit_le (clear : bit blk n = false) (inside : n < 32768) :
    (findFreeBit blk).toNat ≤ n := by
  obtain ⟨_, _, below⟩ := findFreeBit_least clear inside
  by_contra high
  rw [below n (by omega)] at clear
  cases clear

/-- With every bit set the search answers 0, which is also a legal index. -/
theorem findFreeBit_full (full : ∀ n, n < 32768 → bit blk n = true) : findFreeBit blk = 0 := by
  have none : firstFrom (fun p => decide (blk.mem p &&& 0xFF ≠ 0xFF)) 4096 0 = 4096 := by
    by_contra stopped
    have bound := firstFrom_bound (p := fun p => decide (blk.mem p &&& 0xFF ≠ 0xFF))
      (n := 4096) (k := 0)
    have holds := firstFrom_found (p := fun p => decide (blk.mem p &&& 0xFF ≠ 0xFF)) (n := 4096)
      (k := 0) (by omega)
    generalize firstFrom (fun p => decide (blk.mem p &&& 0xFF ≠ 0xFF)) 4096 0 = ptr at *
    rw [masked_byte, decide_eq_true_eq] at holds
    refine holds ((byte_full_iff _).mpr fun k small => ?_)
    have := full (ptr * 8 + k) (by omega)
    rwa [bit, show (ptr * 8 + k) / 8 = ptr by omega, show (ptr * 8 + k) % 8 = k by omega] at this
  unfold findFreeBit
  exact if_pos none

end CdnwSh
