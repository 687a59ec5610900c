import CdnwSh.Library.Bytes
import CdnwSh.Library.Extents

/-! Blocks, heap buffers and the block device. A call of the C program that has no
defined outcome (an access outside an allocation or outside the mapped device, a
loop that never ends) is `none` here. -/
namespace CdnwSh

open ByteMemory

abbrev Block := Fin 4096 → UInt8

namespace Block

def zero : Block := fun _ => 0

/-- The block as memory; bytes past its end read 0 and are never looked at. -/
def mem (b : Block) : Bytes := fun i => if bound : i < 4096 then b ⟨i, bound⟩ else 0

/-- The 4096 bytes at offset `off` of a memory. -/
def ofMem (m : Bytes) (off : Nat) : Block := fun i => m (off + i)

@[simp] theorem mem_apply (b : Block) (bound : i < 4096) : b.mem i = b ⟨i, bound⟩ := by
  simp [mem, bound]

theorem mem_ofMem (bound : i < 4096) : (ofMem m off).mem i = m (off + i) := by
  simp [bound, ofMem]

@[simp] theorem ofMem_mem (b : Block) : ofMem b.mem 0 = b := by
  funext i; simp [ofMem]

end Block

/-- What `calloc` returns: an allocation of `size` bytes. -/
structure Buf where
  size : Nat
  mem : Bytes

def callocBlocks (n : Nat) : Buf := ⟨4096 * n, fun _ => 0⟩

/-- `memcpy(buf + off, src, n)`, undefined past the end of the allocation. -/
def Buf.copyIn (buf : Buf) (off : Nat) (src : Bytes) (n : Nat) : Option Buf :=
  if off + n ≤ buf.size then some { buf with mem := copy buf.mem off src n } else none

abbrev Disk := UInt32 → Block

def bdSizeBlocks : UInt32 := 25600

/-- Block number `BD_SIZE_BLOCKS` passes the check of the source but lies behind
the mapping. -/
def blkRead (d : Disk) (lba : UInt32) (buf : Block) : Option (Int × Block) :=
  if lba > bdSizeBlocks then some (-1, buf)
  else if lba = bdSizeBlocks then none
  else some (0, d lba)

def blkWrite (d : Disk) (lba : UInt32) (b : Block) : Option (Int × Disk) :=
  if lba > bdSizeBlocks then some (-1, d)
  else if lba = bdSizeBlocks then none
  else some (0, Extents.set d lba b)

/-- `blk_write(lba, buf)` from a heap buffer, which must hold a whole block. -/
def blkWriteBuf (d : Disk) (lba : UInt32) (buf : Buf) (off : Nat) : Option (Int × Disk) :=
  if off + 4096 ≤ buf.size then blkWrite d lba (Block.ofMem buf.mem off) else none

/-- `blockdev_attach` writes the last byte of the file, which gives the file its size. -/
def Disk.attached (d : Disk) : Disk :=
  Extents.set d 25599 fun i => if i.val = 4095 then 0 else d 25599 i

theorem inside_not_outside (inside : lba.toNat < 25600) :
    ¬ lba > bdSizeBlocks ∧ lba ≠ bdSizeBlocks := by
  constructor
  · intro h; have := UInt32.lt_iff_toNat_lt.mp h; simp [bdSizeBlocks] at this; omega
  · rintro rfl; simp [bdSizeBlocks] at inside

theorem blkRead_inside (inside : lba.toNat < 25600) : blkRead d lba buf = some (0, d lba) := by
  simp [blkRead, inside_not_outside inside]

theorem blkWrite_inside (inside : lba.toNat < 25600) :
    blkWrite d lba b = some (0, Extents.set d lba b) := by
  simp [blkWrite, inside_not_outside inside]

theorem blkWriteBuf_inside (inside : lba.toNat < 25600) (bound : off + 4096 ≤ buf.size) :
    blkWriteBuf d lba buf off = some (0, Extents.set d lba (Block.ofMem buf.mem off)) := by
  simp [blkWriteBuf, bound, blkWrite_inside inside]

end CdnwSh
