import CdnwSh.State

/-! Whole-file transfer and growth: `llread`, `llwrite`, `realloc_cache` and
`realloc_fs_blocks`. The blocks of a file are its direct pointers followed by the
entries of its indirect block; transfers are gather and scatter over that list. -/
namespace CdnwSh

open ByteMemory

/-- `s_ind[j]`. -/
def indirect (sInd : Block) (j : Nat) : Iptr := UInt32.ofNat (readLE sInd.mem (4 * j) 4)

def setIndirect (sInd : Block) (j : Nat) (ptr : Iptr) : Block :=
  Block.ofMem (writeLE sInd.mem (4 * j) 4 ptr.toNat) 0

/-- The read loops of `llread`: one block after the other from position `k`. -/
def readBlocks (d : Disk) : List Iptr → Nat → Buf → Option Buf
  | [], _, buf => some buf
  | ptr :: rest, k, buf => do
    let (_, blk) ← blkRead d ptr (Block.ofMem buf.mem (4096 * k))
    let buf ← buf.copyIn (4096 * k) blk.mem 4096
    readBlocks d rest (k + 1) buf

def writeBlocks (buf : Buf) : List Iptr → Nat → Disk → Option Disk
  | [], _, d => some d
  | ptr :: rest, k, d => do
    let (_, d) ← blkWriteBuf d ptr buf (4096 * k)
    writeBlocks buf rest (k + 1) d

/-- The indirect block has room for 1024 pointers. -/
def llread (d : Disk) (st : Inode) (buf : Buf) : Option Buf := do
  let buf ← readBlocks d (st.data0.toList.take (min st.blocks.toNat 8)) 0 buf
  if st.blocks > 8 then
    let (_, sInd) ← blkRead d st.data1 Block.zero
    if st.blocks.toNat - 8 ≤ 1024 then
      readBlocks d ((List.range (st.blocks.toNat - 8)).map (indirect sInd)) 8 buf
    else none
  else return buf

def llwrite (d : Disk) (st : Inode) (buf : Buf) : Option Disk := do
  let d ← writeBlocks buf (st.data0.toList.take (min st.blocks.toNat 8)) 0 d
  if st.blocks > 8 then
    let (_, sInd) ← blkRead d st.data1 Block.zero
    if st.blocks.toNat - 8 ≤ 1024 then
      writeBlocks buf ((List.range (st.blocks.toNat - 8)).map (indirect sInd)) 8 d
    else none
  else return d

/-- The copy takes `inode.size` bytes out of the old cache, which is then given back. Only an
entry that is not in use can have a released cache. -/
def reallocCache (heap : Heap) (fde : FdEntry) (blocksNeeded : UInt32) : Option (Int × FdEntry) :=
  if heap.grants (4096 * blocksNeeded.toNat) = false then some (-1, fde)
  else
    let newData := callocBlocks blocksNeeded.toNat
    match fde.data with
    | none => some (0, { fde with data := some newData })
    | some data =>
      if fde.state = FD_FREE ∧ fde.released = true then none
      else if fde.inode.size.toNat ≤ data.size then do
        let newData ← newData.copyIn 0 data.mem fde.inode.size.toNat
        return (0, { fde with data := some newData })
      else none

/-- `n` turns of the direct loop of `realloc_fs_blocks`. -/
def allocDirect : Nat → Inode → Vol → Option (Inode × Vol)
  | 0, st, v => some (st, v)
  | n + 1, st, v => do
    let (ptr, v) ← reserveBlock v
    allocDirect n { st with data0 := st.data0.setIfInBounds st.blocks.toNat ptr,
                            blocks := st.blocks + 1 } v

/-- `n` turns of its indirect loop. -/
def allocIndirect : Nat → Inode → Block → Vol → Option (Inode × Block × Vol)
  | 0, st, sInd, v => some (st, sInd, v)
  | n + 1, st, sInd, v => do
    let (ptr, v) ← reserveBlock v
    if st.blocks.toNat - 8 < 1024 then
      allocIndirect n { st with blocks := st.blocks + 1 }
        (setIndirect sInd (st.blocks.toNat - 8) ptr) v
    else none

/-- The indirect block as the source gets hold of it: reserved on first use, read
back otherwise. -/
def indirectBlock (st : Inode) (v : Vol) : Option (Inode × Block × Vol) :=
  if st.data1 = 0 then do
    let (ptr, v) ← reserveBlock v
    return ({ st with data1 := ptr }, Block.zero, v)
  else do
    let (_, sInd) ← blkRead v.disk st.data1 Block.zero
    return (st, sInd, v)

def growDirect (v : Vol) (st : Inode) (blocksNeeded : UInt32) : Option (Inode × Vol) :=
  if st.blocks ≤ 8 then allocDirect (min 8 blocksNeeded.toNat - st.blocks.toNat) st v
  else some (st, v)

def growIndirect (v : Vol) (st : Inode) (blocksNeeded : UInt32) : Option (Inode × Vol) :=
  if st.blocks < blocksNeeded then do
    let (st, sInd, v) ← indirectBlock st v
    let (st, sInd, v) ← allocIndirect (blocksNeeded.toNat - st.blocks.toNat) st sInd v
    let (_, d) ← blkWrite v.disk st.data1 sInd
    return (st, { v with disk := d })
  else some (st, v)

def reallocFsBlocks (v : Vol) (st : Inode) (blocksNeeded : UInt32) : Option (Inode × Vol) :=
  if blocksNeeded > st.blocks then do
    let (st, v) ← growDirect v st blocksNeeded
    growIndirect v st blocksNeeded
  else some (st, v)

def Inode.direct (st : Inode) : List Iptr := st.data0.toList.take st.blocks.toNat

/-- The entries of the indirect block that are in use. -/
def singleList (d : Disk) (st : Inode) : List Iptr :=
  (List.range (st.blocks.toNat - 8)).map (indirect (d st.data1))

/-- All data blocks of a file in order. -/
def blockList (d : Disk) (st : Inode) : List Iptr := st.direct ++ singleList d st

theorem direct_eq (st : Inode) : st.data0.toList.take (min st.blocks.toNat 8) = st.direct := by
  rw [Inode.direct, List.take_eq_take_min, List.take_eq_take_min (i := st.blocks.toNat)]
  simp

@[simp] theorem length_direct (st : Inode) : st.direct.length = min st.blocks.toNat 8 := by
  simp [Inode.direct]

@[simp] theorem length_singleList : (singleList d st).length = st.blocks.toNat - 8 := by
  simp [singleList]

theorem length_blockList : (blockList d st).length = st.blocks.toNat := by
  simp only [blockList, List.length_append, length_direct, length_singleList]; omega

theorem blockList_low (low : k < 8) : (blockList d st)[k]? = st.direct[k]? := by
  by_cases many : 8 ≤ st.blocks.toNat
  · exact List.getElem?_append_left (by rw [length_direct]; omega)
  · have none : singleList d st = [] := List.eq_nil_of_length_eq_zero (by
      rw [length_singleList]; omega)
    rw [blockList, none, List.append_nil]

theorem blockList_high {st : Inode} (high : 8 ≤ k) (bound : k < st.blocks.toNat) :
    (blockList d st)[k]? = some (indirect (d st.data1) (k - 8)) := by
  have eight : st.direct.length = 8 := by rw [length_direct]; omega
  rw [blockList, List.getElem?_append_right (by omega), eight, singleList, List.getElem?_map,
    List.getElem?_range (by omega)]
  rfl

/-- Every pointer a whole-file transfer follows lies on the device. -/
structure Inside (d : Disk) (st : Inode) : Prop where
  few : st.blocks.toNat ≤ 1032
  blocks : ∀ ptr ∈ blockList d st, ptr.toNat < 25600
  single : 8 < st.blocks.toNat → st.data1.toNat < 25600

theorem Inside.direct (inside : Inside d st) : ∀ ptr ∈ st.direct, ptr.toNat < 25600 :=
  fun ptr member => inside.blocks ptr (List.mem_append_left _ member)

theorem Inside.behind (inside : Inside d st) : ∀ ptr ∈ singleList d st, ptr.toNat < 25600 :=
  fun ptr member => inside.blocks ptr (List.mem_append_right _ member)

theorem readBlocks_size (run : readBlocks d ptrs k buf = some buf') : buf'.size = buf.size := by
  induction ptrs generalizing k buf with
  | nil =>
    cases run
    rfl
  | cons ptr rest ih =>
    obtain ⟨⟨_, blk⟩, _, run⟩ := Option.bind_eq_some_iff.mp run
    obtain ⟨middle, copied, run⟩ := Option.bind_eq_some_iff.mp run
    rw [Buf.copyIn] at copied
    split at copied
    · cases copied
      have size := ih run
      exact size
    · cases copied

/-- No more pointers are read than one indirect block has. -/
theorem llread_bounds (run : llread d st buf = some buf') :
    buf'.size = buf.size ∧ st.blocks.toNat ≤ 1032 := by
  obtain ⟨low, direct, run⟩ := Option.bind_eq_some_iff.mp run
  have size := readBlocks_size direct
  split at run
  · obtain ⟨⟨_, sInd⟩, _, run⟩ := Option.bind_eq_some_iff.mp run
    dsimp only at run
    split at run
    · exact ⟨(readBlocks_size run).trans size, by omega⟩
    · cases run
  next few =>
    cases run
    have bound := mt UInt32.lt_iff_toNat_lt.mpr few
    exact ⟨size, by change ¬ 8 < st.blocks.toNat at bound; omega⟩

theorem readBlocks_eq (inside : ∀ ptr ∈ ptrs, ptr.toNat < 25600)
    (bound : 4096 * (k + ptrs.length) ≤ buf.size) :
    readBlocks d ptrs k buf = some ⟨buf.size, fun j =>
      if 4096 * k ≤ j ∧ j < 4096 * (k + ptrs.length)
      then Extents.gather 0 d ptrs (j - 4096 * k) else buf.mem j⟩ := by
  induction ptrs generalizing k buf with
  | nil =>
    have none (j : Nat) : ¬ (4096 * k ≤ j ∧ j < 4096 * k) := by omega
    simp [readBlocks, none]
  | cons ptr rest ih =>
    simp only [List.length_cons] at bound
    have fits : 4096 * k + 4096 ≤ buf.size := by omega
    have tail (buf' : Buf) (size : buf'.size = buf.size) := @ih (k + 1) buf'
      (fun p member => inside p (List.mem_cons_of_mem _ member)) (by omega)
    simp only [readBlocks, blkRead_inside (inside ptr List.mem_cons_self), Buf.copyIn, fits,
      if_true, Option.bind_eq_bind, Option.bind_some]
    rw [tail ⟨buf.size, copy buf.mem (4096 * k) (d ptr).mem 4096⟩ rfl]
    refine congrArg some (congrArg (Buf.mk buf.size) (funext fun j => ?_))
    rw [Extents.gather_cons (by decide)]
    simp only [copy, List.length_cons]
    by_cases head : 4096 * k ≤ j ∧ j < 4096 * k + 4096
    · have here : j - 4096 * k < 4096 := by omega
      rw [if_neg (by omega), if_pos head, if_pos (by omega), dif_pos here, Block.mem_apply _ here]
    · rw [if_neg head]
      by_cases later : 4096 * (k + 1) ≤ j ∧ j < 4096 * (k + 1 + rest.length)
      · have place : j - 4096 * k - 4096 = j - 4096 * (k + 1) := by omega
        rw [if_pos later, if_pos (by omega), dif_neg (by omega), place]
      · rw [if_neg later, if_neg (by omega)]

theorem writeBlocks_eq (inside : ∀ ptr ∈ ptrs, ptr.toNat < 25600)
    (bound : 4096 * (k + ptrs.length) ≤ buf.size) :
    writeBlocks buf ptrs k d = some (Extents.scatter d ptrs buf.mem k) := by
  induction ptrs generalizing k d with
  | nil => rfl
  | cons ptr rest ih =>
    simp only [List.length_cons] at bound
    simp only [writeBlocks, blkWriteBuf_inside (inside ptr List.mem_cons_self)
      (show 4096 * k + 4096 ≤ buf.size by omega), Option.bind_eq_bind, Option.bind_some]
    exact ih (fun p member => inside p (List.mem_cons_of_mem _ member)) (by omega)

theorem many_iff {st : Inode} : st.blocks > 8 ↔ 8 < st.blocks.toNat := by
  rw [gt_iff_lt, UInt32.lt_iff_toNat_lt]; rfl

theorem singleList_nil {st : Inode} (few : st.blocks.toNat ≤ 8) : singleList d st = [] := by
  simp [singleList, Nat.sub_eq_zero_of_le few]

/-- A whole file read into the beginning of a buffer. -/
theorem llread_into (inside : Inside d st) (bound : 4096 * st.blocks.toNat ≤ buf.size) :
    llread d st buf = some ⟨buf.size, fun j =>
      if j < 4096 * st.blocks.toNat then Extents.gather 0 d (blockList d st) j else buf.mem j⟩ := by
  have few := inside.few
  rw [llread, direct_eq, readBlocks_eq inside.direct (by rw [length_direct]; omega)]
  simp only [Option.bind_eq_bind, Option.bind_some, many_iff]
  split
  next many =>
    have eight : st.direct.length = 8 := by rw [length_direct]; omega
    simp only [blkRead_inside (inside.single many), Option.bind_some]
    rw [if_pos (by omega)]
    change readBlocks d (singleList d st) 8 _ = _
    rw [readBlocks_eq inside.behind (by simp only [length_singleList]; omega)]
    refine congrArg some (congrArg (Buf.mk _) (funext fun j => ?_))
    simp only [length_singleList, eight, Nat.mul_zero, Nat.sub_zero, Nat.zero_add]
    by_cases low : j < 4096 * 8
    · rw [if_neg (by omega), if_pos (by omega), if_pos (by omega), blockList,
        Extents.gather_append (by rw [eight]; exact low)]
    · by_cases high : j < 4096 * st.blocks.toNat
      · rw [if_pos (by omega), if_pos high, blockList]
        have place : Extents.gather 0 d (st.direct ++ singleList d st) j =
            Extents.gather 0 d (singleList d st) (j - 4096 * 8) := by
          have block : j / 4096 - st.direct.length = (j - 4096 * 8) / 4096 := by rw [eight]; omega
          have offset : j % 4096 = (j - 4096 * 8) % 4096 := by omega
          simp only [Extents.gather]
          rw [List.getElem?_append_right (by rw [eight]; omega), block]
          simp only [offset]
        rw [place]
      · rw [if_neg (by omega), if_neg (by omega), if_neg high]
  next few' =>
    have short : blockList d st = st.direct := by
      rw [blockList, singleList_nil (by omega), List.append_nil]
    have len : st.direct.length = st.blocks.toNat := by rw [length_direct]; omega
    refine congrArg some (congrArg (Buf.mk _) (funext fun j => ?_))
    simp only [len, Nat.mul_zero, Nat.sub_zero, Nat.zero_add, short, Nat.zero_le, true_and]

/-- A whole file read into a buffer of its own size. -/
theorem llread_eq (inside : Inside d st) : llread d st (callocBlocks st.blocks.toNat) =
    some ⟨4096 * st.blocks.toNat, Extents.gather 0 d (blockList d st)⟩ := by
  rw [llread_into inside (Nat.le_refl _)]
  refine congrArg some (congrArg (Buf.mk _) (funext fun j => ?_))
  split
  · rfl
  · rw [Extents.gather_past (by rw [length_blockList]; omega)]
    rfl

/-- A whole file written; the indirect block is read back in the middle, after the
direct blocks were written. -/
theorem llwrite_eq (inside : Inside d st) (bound : 4096 * st.blocks.toNat ≤ buf.size)
    (apart : 8 < st.blocks.toNat → st.data1 ∉ st.direct) :
    llwrite d st buf = some (Extents.scatter d (blockList d st) buf.mem 0) := by
  have few := inside.few
  rw [llwrite, direct_eq, writeBlocks_eq inside.direct (by rw [length_direct]; omega)]
  simp only [Option.bind_eq_bind, Option.bind_some, many_iff]
  split
  next many =>
    have eight : st.direct.length = 8 := by rw [length_direct]; omega
    have unchanged : Extents.scatter d st.direct buf.mem 0 st.data1 = d st.data1 :=
      Extents.scatter_out (apart many)
    simp only [blkRead_inside (inside.single many), Option.bind_some, unchanged]
    rw [if_pos (by omega)]
    change writeBlocks buf (singleList d st) 8 _ = _
    rw [writeBlocks_eq inside.behind (by rw [length_singleList]; omega), blockList,
      Extents.scatter_append, eight]
  next few' =>
    rw [blockList, singleList_nil (by omega), List.append_nil]
    rfl

end CdnwSh
