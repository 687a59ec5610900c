import CdnwSh.Blockdev

/-! The inode record and the inode table of `inode.c`. The table computes a slot
from `INODE_SIZE` = 64 but moves `sizeof(inode)` bytes, which depends on the
platform: the layout of the struct is a parameter, and `Fits` says which slots lie
inside their block. -/
namespace CdnwSh

open ByteMemory

abbrev Iptr := UInt32

structure Inode where
  type : UInt8
  size : UInt32
  blocks : UInt32
  modified : UInt64
  data0 : Vector Iptr 8
  data1 : Iptr
  data2 : Iptr
  padding : Vector UInt8 3
  deriving DecidableEq

def Inode.zero : Inode := ⟨0, 0, 0, 0, Vector.replicate 8 0, 0, 0, Vector.replicate 3 0⟩

/-- `data0[0]`, the one block of a directory. -/
abbrev Inode.block0 (st : Inode) : Iptr := st.data0[0]

/-- How the compiler lays the struct out in memory. -/
class InodeLayout where
  sizeof : Nat
  store : Inode → Bytes
  load : Bytes → Inode
  load_store : ∀ st, load (store st) = st
  load_congr : ∀ m m', (∀ i, i < sizeof → m i = m' i) → load m = load m'

namespace Lp64

/-- 8-byte `time_t` and natural alignment: 67 bytes of fields, padded to 72. -/
def store (st : Inode) : Bytes := fun i =>
  if i < 4 then (if i = 0 then st.type else 0)
  else if i < 8 then digits st.size.toNat (i - 4)
  else if i < 12 then digits st.blocks.toNat (i - 8)
  else if i < 16 then 0
  else if i < 24 then digits st.modified.toNat (i - 16)
  else if bound : i < 56 then digits st.data0[(i - 24) / 4].toNat ((i - 24) % 4)
  else if i < 60 then digits st.data1.toNat (i - 56)
  else if i < 64 then digits st.data2.toNat (i - 60)
  else if bound : i < 67 then st.padding[i - 64]
  else 0

def load (m : Bytes) : Inode where
  type := m 0
  size := UInt32.ofNat (readLE m 4 4)
  blocks := UInt32.ofNat (readLE m 8 4)
  modified := UInt64.ofNat (readLE m 16 8)
  data0 := Vector.ofFn fun k : Fin 8 => UInt32.ofNat (readLE m (24 + 4 * k) 4)
  data1 := UInt32.ofNat (readLE m 56 4)
  data2 := UInt32.ofNat (readLE m 60 4)
  padding := Vector.ofFn fun k : Fin 3 => m (64 + k)

private theorem load32 (same : ∀ k, k < 4 → m (off + k) = digits v.toNat k) :
    UInt32.ofNat (readLE m off 4) = v := by
  apply UInt32.toNat_inj.mp
  rw [readLE_of_digits same, UInt32.toNat_ofNat']
  have := v.toNat_lt
  omega

private theorem load64 (same : ∀ k, k < 8 → m (off + k) = digits v.toNat k) :
    UInt64.ofNat (readLE m off 8) = v := by
  apply UInt64.toNat_inj.mp
  rw [readLE_of_digits same, UInt64.toNat_ofNat']
  have := v.toNat_lt
  omega

theorem load_store (st : Inode) : load (store st) = st := by
  have size : UInt32.ofNat (readLE (store st) 4 4) = st.size := load32 fun k bound => by
    simp (disch := omega) only [store, if_neg, if_pos, Nat.add_sub_cancel_left]
  have blocks : UInt32.ofNat (readLE (store st) 8 4) = st.blocks := load32 fun k bound => by
    simp (disch := omega) only [store, if_neg, if_pos, Nat.add_sub_cancel_left]
  have modified : UInt64.ofNat (readLE (store st) 16 8) = st.modified := load64 fun k bound => by
    simp (disch := omega) only [store, if_neg, if_pos, Nat.add_sub_cancel_left]
  have direct (j : Fin 8) : UInt32.ofNat (readLE (store st) (24 + 4 * j) 4) = st.data0[j] :=
    load32 fun k bound => by
      have := j.isLt
      have word : (24 + 4 * j.val + k - 24) / 4 = j.val := by omega
      have byte : (24 + 4 * j.val + k - 24) % 4 = k := by omega
      simp (disch := omega) only [store, if_neg, dif_pos, word, byte]
      rfl
  have single : UInt32.ofNat (readLE (store st) 56 4) = st.data1 := load32 fun k bound => by
    simp (disch := omega) only [store, if_neg, dif_neg, if_pos, Nat.add_sub_cancel_left]
  have double : UInt32.ofNat (readLE (store st) 60 4) = st.data2 := load32 fun k bound => by
    simp (disch := omega) only [store, if_neg, dif_neg, if_pos, Nat.add_sub_cancel_left]
  have padding (j : Fin 3) : store st (64 + j) = st.padding[j] := by
    have := j.isLt
    simp (disch := omega) only [store, if_neg, dif_neg, dif_pos, Nat.add_sub_cancel_left]
    rfl
  cases st with
  | mk type =>
    simp only [load, size, blocks, modified, direct, single, double, padding, Inode.mk.injEq]
    refine ⟨rfl, trivial, trivial, trivial, ?_, trivial, trivial, ?_⟩
    · ext j bound; simp
    · ext j bound; simp

theorem load_congr (m m' : Bytes) (same : ∀ i, i < 72 → m i = m' i) : load m = load m' := by
  have field (off n) (bound : off + n ≤ 72) : readLE m off n = readLE m' off n :=
    readLE_congr fun i _ high => same i (by omega)
  have direct (k : Fin 8) : readLE m (24 + 4 * k) 4 = readLE m' (24 + 4 * k) 4 :=
    field _ _ (by have := k.isLt; omega)
  have padding (k : Fin 3) : m (64 + k) = m' (64 + k) := same _ (by have := k.isLt; omega)
  simp only [load, field 4 4 (by omega), field 8 4 (by omega), field 16 8 (by omega),
    field 56 4 (by omega), field 60 4 (by omega), direct, padding, same 0 (by omega)]

end Lp64

/-- The layout of the Makefile's plain build on a 64-bit Linux host. -/
@[reducible] def lp64 : InodeLayout := ⟨72, Lp64.store, Lp64.load, Lp64.load_store, Lp64.load_congr⟩

def findInodeTableBlockid (index : Iptr) : UInt32 := index / 64

/-- `BLOCKID_INODE_TABLE + find_inode_table_blockid(index)`. -/
def tableBlock (index : Iptr) : UInt32 := 3 + findInodeTableBlockid index

theorem tableBlock_toNat (bound : index.toNat < 6400) :
    (tableBlock index).toNat = 3 + index.toNat / 64 := by
  have three : (3 : UInt32).toNat = 3 := rfl
  have count : (64 : UInt32).toNat = 64 := rfl
  rw [tableBlock, findInodeTableBlockid, UInt32.toNat_add, UInt32.toNat_div, three, count]
  omega

theorem tableBlock_range (bound : index.toNat < 6400) :
    3 ≤ (tableBlock index).toNat ∧ (tableBlock index).toNat < 103 := by
  rw [tableBlock_toNat bound]; omega

variable [InodeLayout]

def slotOffset (index : Iptr) : Nat := index.toNat % 64 * InodeLayout.sizeof

/-- The slot lies inside the 4096 bytes of its table block. -/
def Fits (index : Iptr) : Prop := slotOffset index + InodeLayout.sizeof ≤ 4096

instance (index : Iptr) : Decidable (Fits index) := by unfold Fits; infer_instance

def inodeWrite (d : Disk) (index : Iptr) (st : Inode) : Option Disk := do
  let (_, inodeBlk) ← blkRead d (tableBlock index) Block.zero
  if Fits index then
    let inodeTable := copy inodeBlk.mem (slotOffset index) (InodeLayout.store st) InodeLayout.sizeof
    let (_, d) ← blkWrite d (tableBlock index) (Block.ofMem inodeTable 0)
    return d
  else none

/-- A failed `blk_read` leaves freshly allocated memory to be read. -/
def inodeRead (d : Disk) (index : Iptr) : Option Inode := do
  let (read, inodeBlk) ← blkRead d (tableBlock index) Block.zero
  if read = 0 ∧ Fits index then
    return InodeLayout.load (window inodeBlk.mem (slotOffset index))
  else none

def putSlot (blk : Block) (index : Iptr) (st : Inode) : Block :=
  Block.ofMem (copy blk.mem (slotOffset index) (InodeLayout.store st) InodeLayout.sizeof) 0

def getSlot (blk : Block) (index : Iptr) : Inode :=
  InodeLayout.load (window blk.mem (slotOffset index))

theorem inodeWrite_eq (bound : index.toNat < 6400) : inodeWrite d index st =
    if Fits index then
      some (Extents.set d (tableBlock index) (putSlot (d (tableBlock index)) index st))
    else none := by
  have inside : (tableBlock index).toNat < 25600 := by have := tableBlock_range bound; omega
  by_cases fits : Fits index <;>
    simp [inodeWrite, blkRead_inside inside, blkWrite_inside inside, fits, putSlot]

theorem inodeRead_eq (bound : index.toNat < 6400) : inodeRead d index =
    if Fits index then some (getSlot (d (tableBlock index)) index) else none := by
  have inside : (tableBlock index).toNat < 25600 := by have := tableBlock_range bound; omega
  by_cases fits : Fits index <;> simp [inodeRead, blkRead_inside inside, fits, getSlot]

/-- A slot that was read lies in its block. -/
theorem fits_of_read (bound : index.toNat < 6400) (read : inodeRead d index = some st) :
    Fits index := by
  rw [inodeRead_eq bound] at read
  split at read
  next fits => exact fits
  · cases read

theorem getSlot_putSlot (fits : Fits index) : getSlot (putSlot blk index st) index = st := by
  rw [getSlot, ← InodeLayout.load_store st]
  apply InodeLayout.load_congr
  intro i bound
  have inside : slotOffset index + i < 4096 := by unfold Fits at fits; omega
  simp only [window, putSlot, Block.mem_ofMem inside, Nat.zero_add]
  rw [InodeLayout.load_store, copy_at bound]

theorem getSlot_putSlot_other (fits : Fits other) (apart : other.toNat % 64 ≠ index.toNat % 64) :
    getSlot (putSlot blk index st) other = getSlot blk other := by
  apply InodeLayout.load_congr
  intro i bound
  have inside : slotOffset other + i < 4096 := by unfold Fits at fits; omega
  simp only [window, putSlot, Block.mem_ofMem inside, Nat.zero_add]
  apply copy_out
  unfold slotOffset
  rcases Nat.lt_or_gt_of_ne apart with lower | higher
  · left
    calc other.toNat % 64 * InodeLayout.sizeof + i
        < (other.toNat % 64 + 1) * InodeLayout.sizeof := by rw [Nat.succ_mul]; omega
      _ ≤ index.toNat % 64 * InodeLayout.sizeof := Nat.mul_le_mul_right _ lower
  · right
    calc index.toNat % 64 * InodeLayout.sizeof + InodeLayout.sizeof
        = (index.toNat % 64 + 1) * InodeLayout.sizeof := (Nat.succ_mul _ _).symm
      _ ≤ other.toNat % 64 * InodeLayout.sizeof := Nat.mul_le_mul_right _ higher
      _ ≤ other.toNat % 64 * InodeLayout.sizeof + i := Nat.le_add_right _ _

/-- What an inode write does to the table: get and set on an indexed store, as far
as slots fit, and nothing outside the table's blocks. -/
theorem inodeWrite_spec (bound : index.toNat < 6400) (written : inodeWrite d index st = some d') :
    Fits index ∧ inodeRead d' index = some st ∧
    (∀ other : Iptr, other.toNat < 6400 → other ≠ index → inodeRead d' other = inodeRead d other) ∧
    (∀ b : UInt32, b.toNat < 3 ∨ 103 ≤ b.toNat → d' b = d b) := by
  rw [inodeWrite_eq bound] at written
  split at written
  next fits =>
    obtain rfl := Option.some.inj written
    refine ⟨fits, ?_, ?_, ?_⟩
    · rw [inodeRead_eq bound, if_pos fits, Extents.set_same, getSlot_putSlot fits]
    · intro other inside apart
      rw [inodeRead_eq inside, inodeRead_eq inside]
      split
      next fitsOther =>
        by_cases shared : tableBlock other = tableBlock index
        · rw [shared, Extents.set_same, getSlot_putSlot_other fitsOther]
          intro same
          have blocks := congrArg UInt32.toNat shared
          rw [tableBlock_toNat inside, tableBlock_toNat bound] at blocks
          exact apart (UInt32.toNat_inj.mp (by omega))
        · rw [Extents.set_other shared]
      · rfl
    · intro b outside
      apply Extents.set_other
      rintro rfl
      have := tableBlock_range bound
      omega
  · contradiction

theorem inodeRead_congr (bound : index.toNat < 6400)
    (same : ∀ b : UInt32, 3 ≤ b.toNat → b.toNat < 103 → d b = d' b) :
    inodeRead d index = inodeRead d' index := by
  have := tableBlock_range bound
  rw [inodeRead_eq bound, inodeRead_eq bound, same _ this.1 this.2]

end CdnwSh
