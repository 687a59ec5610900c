import CdnwSh.Bitmap
import CdnwSh.Inode

/-! The file system's state (the globals of `fs.c`), the superblock fields and the
two allocators. Inodes and data blocks are reserved and released by the same code
over two caches and two counters; `Pool` says which. -/
namespace CdnwSh

open ByteMemory LeastIndex

abbrev Name := List UInt8

/-- `dir_ptr`: a directory file loaded into memory. -/
structure DirPtr where
  inodeSt : Inode
  inodeId : Iptr
  index : UInt32
  data : Buf

/-- `fd_entry`. A null data pointer is `none`. `released` says that the pointer is not null
and its block was given back. -/
structure FdEntry where
  data : Option Buf
  state : UInt8
  inodeId : Iptr
  inode : Inode
  cursor : UInt32
  released : Bool

def FD_FREE : UInt8 := 0
def FD_READ : UInt8 := 1
def FD_WRITE : UInt8 := 2

def ITYPE_FILE : UInt8 := 0
def ITYPE_DIR : UInt8 := 1

/-- Whether `calloc` grants a request of that many bytes. It does for one block more than the
largest file has, on which the calls rely that do not look at its result. -/
structure Heap where
  grants : Nat → Bool
  small : ∀ n, n ≤ 4096 * 1033 → grants n = true

/-- Every request is granted. -/
def Heap.full : Heap := ⟨fun _ => true, fun _ _ => rfl⟩

/-- The host as the C library shows it: the bytes of a file and how many of them `fread`
delivers, for a name opened with "wb" how many bytes `fwrite` takes (`none` when `fopen`
fails), and the memory. -/
structure Host where
  files : Name → Option (List UInt8)
  readable : Name → Nat
  writable : Name → Option Nat
  heap : Heap

/-- The device and the cached copies of its blocks 0, 1 and 2. -/
structure Vol where
  disk : Disk
  superblkCache : Block
  blockBmCache : Block
  inodeBmCache : Block

/-- `fdBm` is the array `fd_bm` read as the block it is cast to: its first
`MAX_FD / 8` = 128 bytes are the array, a search that gets past them has left it.
`superblk` says that `fs.superblk` points to the cache. Where `cwd` is `none`, `cwdClosed`
tells a closed directory from a null pointer. `clock` supplies the successive values of
`time(NULL)`. -/
structure Fs where
  vol : Vol
  vfsState : UInt8
  superblk : Bool
  fdTbl : Nat → FdEntry
  fdBm : Block
  cwdStr : Name
  cwd : Option DirPtr
  cwdClosed : Bool
  clock : Nat → UInt64
  ticks : Nat
  host : Host

/-- `time(NULL)`. -/
def timeNull (s : Fs) : UInt64 × Fs := (s.clock s.ticks, { s with ticks := s.ticks + 1 })

def getField (sb : Block) (off n : Nat) : Nat := readLE sb.mem off n
def setField (sb : Block) (off n value : Nat) : Block := Block.ofMem (writeLE sb.mem off n value) 0

def FS_MAGIC : Nat := 0xCD5E
def VALID_FS : Nat := 1
def ERROR_FS : Nat := 2

def freeInodeCount (sb : Block) : Nat := getField sb 1032 4
def freeBlockCount (sb : Block) : Nat := getField sb 1036 4
def magic (sb : Block) : Nat := getField sb 1044 2
def fsState (sb : Block) : Nat := getField sb 1046 2

theorem setField_mem (bound : i < 4096) :
    (setField sb off n value).mem i = writeLE sb.mem off n value i := by
  rw [setField, Block.mem_ofMem bound, Nat.zero_add]

theorem getField_setField (inside : off + n ≤ 4096) :
    getField (setField sb off n value) off n = value % 256 ^ n := by
  have same : readLE (setField sb off n value).mem off n =
      readLE (writeLE sb.mem off n value) off n :=
    readLE_congr fun i _ high => setField_mem (by omega)
  rw [getField, same, readLE_writeLE]

theorem getField_setField_other (inside : off' + n' ≤ 4096)
    (apart : off' + n' ≤ off ∨ off + n ≤ off') :
    getField (setField sb off n value) off' n' = getField sb off' n' := by
  have same : readLE (setField sb off n value).mem off' n' =
      readLE (writeLE sb.mem off n value) off' n' :=
    readLE_congr fun i _ high => setField_mem (by omega)
  rw [getField, same, readLE_writeLE_out apart]
  rfl

theorem setField_apply_other (i : Fin 4096) (apart : i.val < off ∨ off + n ≤ i.val) :
    setField sb off n value i = sb i := by
  have : (setField sb off n value).mem i = writeLE sb.mem off n value i := setField_mem i.isLt
  rw [Block.mem_apply _ i.isLt] at this
  rw [this, writeLE, copy_out apart, Block.mem_apply _ i.isLt]

def flushMetadata (v : Vol) : Option Vol := do
  let (_, d) ← blkWrite v.disk 0 v.superblkCache
  let (_, d) ← blkWrite d 1 v.blockBmCache
  let (_, d) ← blkWrite d 2 v.inodeBmCache
  return { v with disk := d }

inductive Pool where
  | inode
  | block
  deriving DecidableEq

namespace Pool

/-- Where the superblock keeps the pool's counter of free ids. -/
def counter : Pool → Nat
  | inode => 1032
  | block => 1036

/-- `INODE_COUNT` and `BD_SIZE_BLOCKS`. -/
def limit : Pool → Nat
  | inode => 6400
  | block => 25600

def cache : Pool → Vol → Block
  | inode, v => v.inodeBmCache
  | block, v => v.blockBmCache

def setCache : Pool → Vol → Block → Vol
  | inode, v, bm => { v with inodeBmCache := bm }
  | block, v, bm => { v with blockBmCache := bm }

def free (p : Pool) (v : Vol) : Nat := getField v.superblkCache p.counter 4

end Pool

def Vol.setFree (v : Vol) (p : Pool) (count : Nat) : Vol :=
  { v with superblkCache := setField v.superblkCache p.counter 4 count }

def reserve (p : Pool) (v : Vol) : Option (Iptr × Vol) :=
  if p.free v = 0 then some (0, v)
  else do
    let ptr := findFreeBit (p.cache v)
    let bm ← setBitmap (p.cache v) ptr
    let v := (p.setCache v bm).setFree p (p.free v - 1)
    let v ← flushMetadata v
    return (ptr, v)

def release (p : Pool) (ptr : Iptr) (v : Vol) : Option Vol := do
  let bm ← clearBitmap (p.cache v) ptr
  let v := (p.setCache v bm).setFree p (p.free v + 1)
  flushMetadata v

def reserveInode (v : Vol) : Option (Iptr × Vol) := reserve .inode v
def releaseInode (ptr : Iptr) (v : Vol) : Option Vol := release .inode ptr v
def reserveBlock (v : Vol) : Option (Iptr × Vol) := reserve .block v
def releaseBlock (ptr : Iptr) (v : Vol) : Option Vol := release .block ptr v

/-- The volume after `flush_metadata`. -/
def Vol.flushed (v : Vol) : Vol :=
  { v with disk := Extents.set (Extents.set (Extents.set v.disk 0 v.superblkCache)
      1 v.blockBmCache) 2 v.inodeBmCache }

theorem flushMetadata_eq (v : Vol) : flushMetadata v = some v.flushed := rfl

/-- The volume after `ptr` was taken out of the pool, respectively put back. -/
def Vol.taken (v : Vol) (p : Pool) (ptr : Iptr) : Vol :=
  ((p.setCache v (setBit (p.cache v) ptr.toNat)).setFree p (p.free v - 1)).flushed

def Vol.given (v : Vol) (p : Pool) (ptr : Iptr) : Vol :=
  ((p.setCache v (clearBit (p.cache v) ptr.toNat)).setFree p (p.free v + 1)).flushed

theorem release_eq (inside : ptr.toNat < 32768) : release p ptr v = some (v.given p ptr) := by
  simp only [release, clearBitmap_inside inside]; rfl

/-- The counter of a pool is the number of its clear bits. -/
def Pool.Agrees (p : Pool) (v : Vol) : Prop := p.free v = clearCount p.limit (bit (p.cache v))

/-- The caches and the blocks they were loaded from are the same. -/
structure Vol.Synced (v : Vol) : Prop where
  superblk : ∀ i : Fin 4096, i.val ≠ 1046 → i.val ≠ 1047 → v.disk 0 i = v.superblkCache i
  blockBm : v.disk 1 = v.blockBmCache
  inodeBm : v.disk 2 = v.inodeBmCache

/-- The superblock keeps everything but its two counters of free ids, and blocks 0, 1
and 2 change with their caches only. -/
structure Flushes (v v' : Vol) : Prop where
  superblk : ∀ k : Fin 4096, k.val < 1032 ∨ 1040 ≤ k.val → v'.superblkCache k = v.superblkCache k
  synced : v.Synced → v'.Synced
  written : v'.superblkCache = v.superblkCache ∧ v'.disk 0 = v.disk 0 ∨
    v'.disk 0 = v'.superblkCache

section Pools
variable {v v' v'' : Vol} {p q : Pool} {ptr : Iptr}

theorem Vol.Synced.withDisk (synced : v.Synced)
    (same : ∀ b : UInt32, b.toNat < 3 → d b = v.disk b) : ({ v with disk := d } : Vol).Synced where
  superblk := fun i low high => (congrFun (same 0 (by decide)) i).trans (synced.superblk i low high)
  blockBm := (same 1 (by decide)).trans synced.blockBm
  inodeBm := (same 2 (by decide)).trans synced.inodeBm

theorem Flushes.refl (v : Vol) : Flushes v v := ⟨fun _ _ => rfl, id, .inl ⟨rfl, rfl⟩⟩

theorem Flushes.trans (first : Flushes v v') (second : Flushes v' v'') : Flushes v v'' where
  superblk := fun k apart => (second.superblk k apart).trans (first.superblk k apart)
  synced := fun synced => second.synced (first.synced synced)
  written := by
    rcases second.written with ⟨cache, disk⟩ | flushed
    · rw [cache, disk]; exact first.written
    · exact .inr flushed

theorem Flushes.withDisk (same : ∀ b : UInt32, b.toNat < 3 → d b = v.disk b) :
    Flushes v { v with disk := d } :=
  ⟨fun _ _ => rfl, fun synced => synced.withDisk same, .inl ⟨rfl, same 0 (by decide)⟩⟩

theorem flushed_disk {b : UInt32} (data : 3 ≤ b.toNat) : v.flushed.disk b = v.disk b := by
  have apart (k : UInt32) (small : k.toNat < 3) : b ≠ k := by rintro rfl; omega
  simp [Vol.flushed, apart 0 (by decide), apart 1 (by decide), apart 2 (by decide)]

theorem flushed_synced : v.flushed.Synced where
  superblk := fun i _ _ => by simp [Vol.flushed, Extents.set]
  blockBm := by simp [Vol.flushed, Extents.set]
  inodeBm := by simp [Vol.flushed, Extents.set]

theorem taken_disk {b : UInt32} (data : 3 ≤ b.toNat) : (v.taken p ptr).disk b = v.disk b := by
  rw [Vol.taken, flushed_disk data]; cases p <;> rfl

theorem given_disk {b : UInt32} (data : 3 ≤ b.toNat) : (v.given p ptr).disk b = v.disk b := by
  rw [Vol.given, flushed_disk data]; cases p <;> rfl

theorem flushed_flushes (superblk : ∀ k : Fin 4096, k.val < 1032 ∨ 1040 ≤ k.val →
    v'.superblkCache k = v.superblkCache k) : Flushes v v'.flushed :=
  ⟨superblk, fun _ => flushed_synced, .inr (by simp [Vol.flushed, Extents.set])⟩

/-- The counters lie between bytes 1032 and 1040 of the superblock. -/
theorem counted_flushes {bm : Block} {count : Nat} :
    Flushes v ((p.setCache v bm).setFree p count).flushed := by
  apply flushed_flushes
  intro k apart
  cases p
  · exact setField_apply_other k (by simp only [Pool.counter]; omega)
  · exact setField_apply_other k (by simp only [Pool.counter]; omega)

theorem taken_flushes : Flushes v (v.taken p ptr) := counted_flushes

theorem given_flushes : Flushes v (v.given p ptr) := counted_flushes

theorem taken_cache : q.cache (v.taken p ptr) =
    if q = p then setBit (q.cache v) ptr.toNat else q.cache v := by
  cases p <;> cases q <;> rfl

theorem given_cache : q.cache (v.given p ptr) =
    if q = p then clearBit (q.cache v) ptr.toNat else q.cache v := by
  cases p <;> cases q <;> rfl

theorem setFree_free (bound : count < 2 ^ 32) : p.free (v.setFree p count) = count := by
  rw [Pool.free, Vol.setFree, getField_setField (by cases p <;> decide)]
  exact Nat.mod_eq_of_lt bound

theorem setFree_free_other (apart : q ≠ p) : q.free (v.setFree p count) = q.free v := by
  rw [Pool.free, Vol.setFree, getField_setField_other]
  · rfl
  · cases q <;> decide
  · revert apart; cases p <;> cases q <;> simp [Pool.counter]

theorem free_lt : p.free v < 2 ^ 32 := readLE_lt

theorem taken_free : q.free (v.taken p ptr) = if q = p then p.free v - 1 else q.free v := by
  have small : p.free v - 1 < 2 ^ 32 := Nat.lt_of_le_of_lt (Nat.sub_le _ _) free_lt
  change q.free ((p.setCache v _).setFree p _) = _
  split
  next same => subst same; exact setFree_free small
  next apart => rw [setFree_free_other apart]; cases p <;> rfl

theorem given_free (small : p.free v + 1 < 2 ^ 32) :
    q.free (v.given p ptr) = if q = p then p.free v + 1 else q.free v := by
  change q.free ((p.setCache v _).setFree p _) = _
  split
  next same => subst same; exact setFree_free small
  next apart => rw [setFree_free_other apart]; cases p <;> rfl

theorem limit_le : p.limit ≤ 32768 := by cases p <;> decide

theorem reserve_none (empty : p.free v = 0) : reserve p v = some (0, v) := by
  rw [reserve, if_pos empty]

/-- A pool that is not empty hands out its least clear id, which lies below its
limit although the bitmap has 32768 bits. -/
theorem reserve_some (agrees : p.Agrees v) (left : p.free v ≠ 0) :
    ∃ ptr, reserve p v = some (ptr, v.taken p ptr) ∧ ptr.toNat < p.limit ∧
      bit (p.cache v) ptr.toNat = false ∧ ∀ m, m < ptr.toNat → bit (p.cache v) m = true := by
  obtain ⟨n, bound, clear⟩ := exists_clear (Nat.pos_of_ne_zero (agrees ▸ left))
  have wide := limit_le (p := p)
  obtain ⟨inside, isClear, least⟩ := findFreeBit_least clear (by omega)
  refine ⟨findFreeBit (p.cache v), ?_, ?_, isClear, least⟩
  · rw [reserve, if_neg left]
    simp only [setBitmap_inside inside]
    rfl
  · by_contra beyond
    have := least n (by omega)
    rw [clear] at this
    contradiction

theorem taken_agrees (bound : ptr.toNat < p.limit) (clear : bit (p.cache v) ptr.toNat = false)
    (agrees : ∀ q : Pool, q.Agrees v) : ∀ q : Pool, q.Agrees (v.taken p ptr) := by
  intro q
  have wide := limit_le (p := p)
  rw [Pool.Agrees, taken_free, taken_cache]
  split
  next same =>
    subst same
    rw [agrees q, clearCount_insert bound clear fun j _ => bit_setBit (by omega)]
    rfl
  · exact agrees q

theorem given_agrees (bound : ptr.toNat < p.limit) (used : bit (p.cache v) ptr.toNat = true)
    (agrees : ∀ q : Pool, q.Agrees v) : ∀ q : Pool, q.Agrees (v.given p ptr) := by
  intro q
  have wide := limit_le (p := p)
  have back : clearCount p.limit (bit (clearBit (p.cache v) ptr.toNat)) = p.free v + 1 := by
    rw [agrees p]
    apply clearCount_insert bound
    · simp [bit_clearBit]
    · intro j _
      rw [bit_clearBit]
      by_cases same : j = ptr.toNat
      · simp [same, used]
      · simp [same]
  have few : clearCount p.limit (bit (clearBit (p.cache v) ptr.toNat)) ≤ p.limit := by
    rw [clearCount]
    exact (Finset.card_filter_le _ _).trans (Finset.card_range _).le
  rw [Pool.Agrees, given_free (by omega), given_cache]
  split
  next same => subst same; exact back.symm
  · exact agrees q

end Pools
end CdnwSh
