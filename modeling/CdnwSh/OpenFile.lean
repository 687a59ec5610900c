import CdnwSh.Library.CursorArray
import CdnwSh.Confined
import CdnwSh.File

/-! Open files as arrays with a cursor: `growFd`, `cnwrite` and `cnseek` on a descriptor
whose cache and inode agree with the disk. -/
namespace CdnwSh

open ByteMemory

/-- The blocks of a file of `size` bytes, as `cnwrite` allocates them. -/
def blocksFor (size : Nat) : Nat := if size = 0 then 0 else size / 4096 + 1

theorem blocksFor_pos (positive : 0 < size) : blocksFor size = size / 4096 + 1 :=
  if_neg (by omega)

theorem blocksFor_mono (le : size ≤ size') : blocksFor size ≤ blocksFor size' := by
  unfold blocksFor
  split <;> split <;> omega

theorem size_le_blocks : size ≤ 4096 * blocksFor size := by
  unfold blocksFor; split <;> omega

theorem size_bound (room : blocksFor size ≤ 1032) : size < 4096 * 1032 := by
  unfold blocksFor at room; split at room <;> omega

theorem required_blocks {required : UInt32} :
    (required / 4096 + 1).toNat = required.toNat / 4096 + 1 := by
  have count : (4096 : UInt32).toNat = 4096 := rfl
  have one : (1 : UInt32).toNat = 1 := rfl
  have bound := required.toNat_lt
  rw [UInt32.toNat_add, UInt32.toNat_div, count, one]
  omega

/-- Only a cache of more blocks than a file can have is refused. -/
theorem Refused.large {required : UInt32} (refused : Refused s fde required) :
    1032 < (required / 4096 + 1).toNat := by
  by_contra few
  have granted := s.host.heap.small (4096 * (required / 4096 + 1).toNat) (by omega)
  rw [refused.2] at granted
  cases granted

@[simp] theorem dataBuf_some : dataBuf (some buf) = buf := rfl

theorem reallocCache_eq (heap : Heap) (needed : UInt32) (live : fde.state ≠ FD_FREE)
    (small : fde.inode.size.toNat ≤ (dataBuf fde.data).size)
    (room : fde.inode.size.toNat ≤ 4096 * needed.toNat) (few : needed.toNat ≤ 1032) :
    reallocCache heap fde needed = some (0, { fde with data := some ⟨4096 * needed.toNat, fun j =>
      if j < fde.inode.size.toNat then (dataBuf fde.data).mem j else 0⟩ }) := by
  have granted : heap.grants (4096 * needed.toNat) ≠ false := by
    rw [heap.small _ (by omega)]
    decide
  rw [reallocCache, if_neg granted]
  cases found : fde.data with
  | none =>
    rw [found] at small
    have zero : fde.inode.size.toNat = 0 := Nat.le_zero.mp small
    simp [callocBlocks, zero]
  | some data =>
    rw [found] at small
    simp only [dataBuf_some] at small ⊢
    rw [if_neg fun free => live free.1, if_pos small, Buf.copyIn,
      if_pos (by simp only [callocBlocks]; omega)]
    have bytes : copy (fun _ => 0) 0 data.mem fde.inode.size.toNat =
        fun j => if j < fde.inode.size.toNat then data.mem j else 0 := by funext j; simp [copy]
    simp [callocBlocks, bytes]

theorem writeData_eq (room : off + bytes.length ≤ (dataBuf data).size) :
    ∃ data', writeData data off bytes = some data' ∧ (dataBuf data').size = (dataBuf data).size ∧
      (dataBuf data').mem = copy (dataBuf data).mem off (ofList bytes) bytes.length := by
  by_cases none : bytes = []
  · subst none
    exact ⟨data, if_pos rfl, rfl, by simp⟩
  · cases data with
    | none =>
      have := List.length_pos_of_ne_nil none
      simp only [dataBuf, Option.getD_none, callocBlocks] at room
      omega
    | some buf =>
      rw [dataBuf_some] at room
      refine ⟨some ⟨buf.size, copy buf.mem off (ofList bytes) bytes.length⟩, ?_, rfl, rfl⟩
      rw [writeData, if_neg none]
      simp [Buf.copyIn, room]

/-- The file's bytes on disk and in a descriptor's cache. -/
def fileBytes (d : Disk) (st : Inode) : List UInt8 :=
  slice (Extents.gather 0 d (blockList d st)) 0 st.size.toNat

def cachedBytes (fde : FdEntry) : List UInt8 :=
  slice (dataBuf fde.data).mem 0 fde.inode.size.toNat

theorem fileBytes_congr (mapped : Mapped d own i st)
    (same : ∀ b k, own b = some (i, k) → d' b = d b) : fileBytes d' st = fileBytes d st := by
  have list : blockList d' st = blockList d st := blockList_congr fun many =>
    same _ _ (mapped.single (mapped.indirect many))
  rw [fileBytes, fileBytes, list]
  congr 1
  refine Extents.gather_congr fun b member => ?_
  obtain ⟨k, found⟩ := mapped.mem member
  exact same b _ found

variable [InodeLayout]

/-- The block map of a copy `st` of inode `i` grown to at least `need` blocks. -/
structure BlocksGrown (v : Vol) (own : Owner) (i : Iptr) (st : Inode) (need : Nat)
    (v' : Vol) (own' : Owner) (st' : Inode) : Prop where
  blocks : st'.blocks.toNat = max st.blocks.toNat need
  confined : Confined v own (· = i) v' own'
  mapped : Mapped v'.disk own' i st'
  inodeBm : v'.inodeBmCache = v.inodeBmCache
  list : blockList v'.disk st' = blockList v.disk st ++ freshData (freeList .block v) st need
  content : ∀ ptr ∈ blockList v'.disk st', v'.disk ptr = v.disk ptr
  free : Pool.block.free v' + newBlocks st need = Pool.block.free v
  single : st'.data1 = 0 ↔ st.data1 = 0 ∧ need ≤ 8

/-- What `growFd` does when it has to grow the file of a descriptor. -/
structure FdGrown (s : Fs) (own : Owner) (fde : FdEntry) (required : UInt32)
    (fde' : FdEntry) (v' : Vol) (own' : Owner) : Prop extends
    BlocksGrown s.vol own fde.inodeId fde.inode (required.toNat / 4096 + 1) v' own' fde'.inode where
  same : fde' = { fde with data := fde'.data, inode := fde'.inode }
  data : fde'.data = some ⟨4096 * (required.toNat / 4096 + 1), fun j =>
    if j < fde.inode.size.toNat then (dataBuf fde.data).mem j else 0⟩
  size : fde'.inode.size = required
  type : fde'.inode.type = fde.inode.type
  onDisk : inodeRead v'.disk fde.inodeId = some fde'.inode

/-- The block-map part of `growFd`, whether it allocates or not. -/
theorem growBlocks_spec {v : Vol} {st : Inode} {need : UInt32} (ledger : Ledger v own)
    (mapped : Mapped v.disk own i st) (room : need.toNat ≤ 1032)
    (enough : newBlocks st need.toNat ≤ Pool.block.free v) :
    ∃ st' v' own', growBlocks v st need = some (st', v') ∧
      st' = { st with data0 := st'.data0, blocks := st'.blocks, data1 := st'.data1 } ∧
      BlocksGrown v own i st need.toNat v' own' st' := by
  rw [growBlocks]
  by_cases more : st.blocks.toNat < need.toNat
  · have grow := ledger.growable mapped more room enough
    obtain ⟨st', v', run, grown⟩ := reallocFsBlocks_grown grow
    obtain ⟨confined, mine⟩ := grown.confined grow ledger mapped
    refine ⟨st', v', _, by rw [if_pos (UInt32.lt_iff_toNat_lt.mpr more), run], grown.same, ?_,
      confined, mine, (grown.took.others .inode (by decide)).2, grown.list, fun ptr member => ?_,
      ?_, ?_⟩
    · rw [grown.blocks]; omega
    · obtain ⟨k, found⟩ := mine.mem member
      refine grown.disk ptr (by have := (confined.ledger.owned _ _ found).1; omega) ?_
      rintro many rfl
      rw [mine.single (mine.indirect (by rw [grown.blocks]; exact many))] at found
      simp at found
    · have length : ((freeList .block v).take (newBlocks st need.toNat)).length =
          newBlocks st need.toNat := by
        rw [List.length_take]; exact Nat.min_eq_left grow.enough
      rw [grown.took.free_eq (ledger.agrees .block), length]
      omega
    · constructor
      · intro missing
        have few : need.toNat ≤ 8 := by
          by_contra many
          have low := (grow.single_range (by omega)).1
          rw [← grown.single, missing] at low
          exact absurd low (by decide)
        have none : singleShare st need.toNat = 0 := if_neg (by omega)
        rw [grown.single, freshSingle, none] at missing
        exact ⟨missing, few⟩
      · rintro ⟨missing, few⟩
        have none : singleShare st need.toNat = 0 := if_neg (by omega)
        rw [grown.single, freshSingle, none]
        exact missing
  · have small : ¬ st.blocks < need := fun less => more (UInt32.lt_iff_toNat_lt.mp less)
    have linked : 8 < need.toNat → st.data1 ≠ 0 := fun many => mapped.indirect (by omega)
    have none : newBlocks st need.toNat = 0 := newBlocks_none mapped.indirect (by omega)
    have empty : freshData (freeList .block v) st need.toNat = [] := by
      rw [newBlocks] at none
      rw [freshData, show directShare st need.toNat = 0 by omega,
        show indirectShare st need.toNat = 0 by omega, List.take_zero, List.take_zero]
      rfl
    refine ⟨st, v, own, by rw [if_neg small], rfl, by omega, .refl ledger, mapped, rfl,
      by rw [empty, List.append_nil], fun _ _ => rfl, by omega, fun missing => ⟨missing, ?_⟩,
      fun h => h.1⟩
    by_contra many
    exact linked (by omega) missing

theorem growFd_grown {s : Fs} {fde : FdEntry} {required : UInt32} (ledger : Ledger s.vol own)
    (live : fde.state ≠ FD_FREE) (bound : fde.inodeId.toNat < 6400) (fits : Fits fde.inodeId)
    (mapped : Mapped s.vol.disk own fde.inodeId fde.inode)
    (cached : fde.inode.size.toNat ≤ (dataBuf fde.data).size)
    (more : fde.inode.size.toNat < required.toNat) (room : required.toNat / 4096 + 1 ≤ 1032)
    (enough : newBlocks fde.inode (required.toNat / 4096 + 1) ≤ Pool.block.free s.vol) :
    ∃ fde' v' own', growFd s fde required =
        some (0, fde', { s with vol := v', ticks := s.ticks + 1 }) ∧
      FdGrown s own fde required fde' v' own' := by
  have resized : Mapped s.vol.disk own fde.inodeId { fde.inode with size := required } :=
    ⟨mapped.few, mapped.data, mapped.single, mapped.indirect⟩
  obtain ⟨st', v', own', run, same, grown⟩ :=
    growBlocks_spec ledger resized
      (by rw [required_blocks]; exact room) (by rw [required_blocks]; exact enough)
  rw [required_blocks] at grown
  obtain ⟨blocks, confined, mine, inodeBm, list, content, free, single⟩ := grown
  have cache := reallocCache_eq s.host.heap (required / 4096 + 1) live cached
    (by rw [required_blocks]; omega) (by rw [required_blocks]; exact room)
  rw [required_blocks] at cache
  obtain ⟨d, written⟩ : ∃ d, inodeWrite v'.disk fde.inodeId
      { st' with modified := s.clock s.ticks } = some d := by
    rw [inodeWrite_eq bound, if_pos fits]; exact ⟨_, rfl⟩
  obtain ⟨after, back⟩ := inodeWrite_confined confined.ledger bound written
  have stamped : Mapped v'.disk own' fde.inodeId { st' with modified := s.clock s.ticks } :=
    ⟨mine.few, mine.data, mine.single, mine.indirect⟩
  have outside (ptr : UInt32) (o) (found : own' ptr = some o) : d ptr = v'.disk ptr := by
    obtain ⟨_, _, _, outside⟩ := inodeWrite_spec bound written
    exact outside ptr (.inr (confined.ledger.owned _ _ found).1)
  have final := after.copies _ _ stamped
  have kept : blockList d { st' with modified := s.clock s.ticks } =
      blockList v'.disk { st' with modified := s.clock s.ticks } :=
    blockList_congr fun many => outside _ _ (stamped.single (stamped.indirect many))
  have size : st'.size = required := by rw [same]
  have type : st'.type = fde.inode.type := by rw [same]
  have grown : growFd s fde required = some (0, { fde with
      data := some ⟨4096 * (required.toNat / 4096 + 1), fun j =>
        if j < fde.inode.size.toNat then (dataBuf fde.data).mem j else 0⟩,
      inode := { st' with modified := s.clock s.ticks } },
      { s with vol := { v' with disk := d }, ticks := s.ticks + 1 }) := by
    rw [growFd, if_pos (UInt32.lt_iff_toNat_lt.mpr more)]
    simp only [cache, Option.bind_eq_bind, Option.bind_some, run, timeNull, written,
      Option.pure_def, ne_eq, not_true_eq_false, if_false]
  refine ⟨_, _, _, grown, ⟨blocks, confined.trans after, final, inodeBm, kept.trans list, ?_, ?_,
    single⟩, rfl, rfl, size, type, back⟩
  · intro ptr member
    rw [kept] at member
    obtain ⟨k, found⟩ := stamped.mem member
    exact (outside ptr _ found).trans (content ptr member)
  · exact free

/-- Descriptor `fd` is open for writing on a regular file, and its copy of the inode and
the first `size` bytes of its cache are what the disk holds: the array `a`. Slots of
the inode table are taken to lie in their block. -/
structure OpenFile (s : Fs) (own : Owner) (fd : Nat) (a : CursorArray UInt8) : Prop where
  slot : fd < 1024
  mode : (s.fdTbl fd).state = FD_WRITE
  type : (s.fdTbl fd).inode.type = ITYPE_FILE
  number : (s.fdTbl fd).inodeId.toNat < 6400
  fits : Fits (s.fdTbl fd).inodeId
  onDisk : inodeRead s.vol.disk (s.fdTbl fd).inodeId = some (s.fdTbl fd).inode
  mapped : Mapped s.vol.disk own (s.fdTbl fd).inodeId (s.fdTbl fd).inode
  blocks : (s.fdTbl fd).inode.blocks.toNat = blocksFor (s.fdTbl fd).inode.size.toNat
  cache : (dataBuf (s.fdTbl fd).data).size = 4096 * (s.fdTbl fd).inode.blocks.toNat
  cached : cachedBytes (s.fdTbl fd) = a.content
  stored : fileBytes s.vol.disk (s.fdTbl fd).inode = a.content
  cursor : (s.fdTbl fd).cursor.toNat = a.cursor
  within : a.cursor ≤ a.content.length

section
variable {s : Fs} {own : Owner} {fd : Nat} {a : CursorArray UInt8}

omit [InodeLayout] in
theorem mode_live {state : UInt8} (mode : state = FD_WRITE) : state ≠ FD_FREE := by
  rw [mode]
  decide

theorem OpenFile.live (opened : OpenFile s own fd a) : (s.fdTbl fd).state ≠ FD_FREE :=
  mode_live opened.mode

theorem OpenFile.length (opened : OpenFile s own fd a) :
    a.content.length = (s.fdTbl fd).inode.size.toNat := by
  rw [← opened.cached, cachedBytes, length_slice]

omit [InodeLayout] in
theorem fdSlot_small (bound : fd < 1024) : fdSlot (fd : Int) = some fd := by
  rw [fdSlot, if_pos (by omega), Int.toNat_natCast]

omit [InodeLayout] in
@[simp] theorem setFd_same : (s.setFd fd fde).fdTbl fd = fde := by simp [Fs.setFd]

omit [InodeLayout] in
@[simp] theorem setFd_vol :
    ({ s.setFd fd fde with vol := v, ticks := t } : Fs).fdTbl fd = fde := setFd_same

omit [InodeLayout] in
theorem setFd_other (apart : other ≠ fd) : (s.setFd fd fde).fdTbl other = s.fdTbl other := by
  simp [Fs.setFd, apart]

/-- Another file's operation leaves an open file as it is. -/
theorem OpenFile.frame {s' : Fs} (opened : OpenFile s own fd a)
    (confined : Confined s.vol own who s'.vol own') (apart : ¬ who (s.fdTbl fd).inodeId)
    (same : s'.fdTbl fd = s.fdTbl fd) : OpenFile s' own' fd a := by
  have mapped := opened.mapped
  constructor
  case slot => exact opened.slot
  case within => exact opened.within
  all_goals rw [same]
  · exact opened.mode
  · exact opened.type
  · exact opened.number
  · exact opened.fits
  · rw [confined.table _ opened.number apart, opened.onDisk]
  · exact confined.copies _ _ mapped
  · exact opened.blocks
  · exact opened.cache
  · exact opened.cached
  · rw [fileBytes_congr mapped fun b _ found => confined.disk b _ found apart]
    exact opened.stored
  · exact opened.cursor

/-- A descriptor and the volume after `growFd`, before bytes are stored in the cache. -/
structure Prepared (v : Vol) (own : Owner) (fde : FdEntry) (total : Nat)
    (fde' : FdEntry) (v' : Vol) (own' : Owner) : Prop where
  same : fde' = { fde with data := fde'.data, inode := fde'.inode }
  type : fde'.inode.type = fde.inode.type
  size : fde'.inode.size.toNat = total
  blocks : fde'.inode.blocks.toNat = blocksFor total
  cache : (dataBuf fde'.data).size = 4096 * blocksFor total
  kept : ∀ j, j < fde.inode.size.toNat → (dataBuf fde'.data).mem j = (dataBuf fde.data).mem j
  confined : Confined v own (· = fde.inodeId) v' own'
  mapped : Mapped v'.disk own' fde.inodeId fde'.inode
  onDisk : inodeRead v'.disk fde.inodeId = some fde'.inode
  free : Pool.block.free v' + newBlocks fde.inode (blocksFor total) = Pool.block.free v
  single : fde'.inode.data1 = 0 ↔ fde.inode.data1 = 0 ∧ blocksFor total ≤ 8

theorem OpenFile.prepare (opened : OpenFile s own fd a) (ledger : Ledger s.vol own)
    {required : UInt32} (room : blocksFor required.toNat ≤ 1032)
    (enough : newBlocks (s.fdTbl fd).inode (blocksFor required.toNat) ≤ Pool.block.free s.vol) :
    ∃ fde' v' t own',
      growFd s (s.fdTbl fd) required = some (0, fde', { s with vol := v', ticks := t }) ∧
      Prepared s.vol own (s.fdTbl fd) (max (s.fdTbl fd).inode.size.toNat required.toNat)
        fde' v' own' := by
  by_cases more : (s.fdTbl fd).inode.size.toNat < required.toNat
  · have positive : blocksFor required.toNat = required.toNat / 4096 + 1 := blocksFor_pos (by omega)
    rw [positive] at room enough
    have larger : (s.fdTbl fd).inode.blocks.toNat ≤ required.toNat / 4096 + 1 := by
      rw [opened.blocks, ← positive]; exact blocksFor_mono (by omega)
    obtain ⟨fde', v', own', run, grown⟩ := growFd_grown ledger opened.live opened.number
      opened.fits opened.mapped (by rw [opened.cache, opened.blocks]; exact size_le_blocks) more room enough
    refine ⟨fde', v', _, own', run, ⟨grown.same, grown.type, ?_, ?_, ?_, ?_, grown.confined,
      grown.mapped, grown.onDisk, ?_, ?_⟩⟩
    · rw [grown.size]; omega
    · rw [grown.blocks, Nat.max_eq_right (Nat.le_of_lt more), positive]; omega
    · rw [grown.data, Nat.max_eq_right (Nat.le_of_lt more), positive]; rfl
    · intro j low
      rw [grown.data, dataBuf_some]
      exact if_pos low
    · rw [Nat.max_eq_right (Nat.le_of_lt more), positive]; exact grown.free
    · rw [Nat.max_eq_right (Nat.le_of_lt more), positive]; exact grown.single
  · have less : ¬ (s.fdTbl fd).inode.size < required := fun h => more (UInt32.lt_iff_toNat_lt.mp h)
    have size : max (s.fdTbl fd).inode.size.toNat required.toNat =
        (s.fdTbl fd).inode.size.toNat := by omega
    have linked := opened.mapped.indirect
    rw [size]
    refine ⟨_, s.vol, s.ticks, own, if_neg less, ⟨rfl, rfl, rfl, opened.blocks, ?_, fun _ _ => rfl,
      .refl ledger, opened.mapped, opened.onDisk, ?_, ?_⟩⟩
    · rw [opened.cache, opened.blocks]
    · rw [newBlocks_none linked (Nat.le_of_eq opened.blocks.symm), Nat.add_zero]
    · refine ⟨fun missing => ⟨missing, ?_⟩, fun h => h.1⟩
      by_contra many
      exact linked (by rw [opened.blocks]; omega) missing

/-- A write is the growth, the copy into the cache and the transfer of the cache. -/
theorem OpenFile.write_eq (opened : OpenFile s own fd a) (ledger : Ledger s.vol own) (buf : List UInt8)
    (room : blocksFor (a.cursor + buf.length) ≤ 1032)
    (enough : newBlocks (s.fdTbl fd).inode (blocksFor (a.cursor + buf.length)) ≤
      Pool.block.free s.vol) :
    ∃ fde' v' t own' data,
      growFd s (s.fdTbl fd) (UInt32.ofNat ((s.fdTbl fd).cursor.toNat + buf.length)) =
        some (0, fde', { s with vol := v', ticks := t }) ∧
      Prepared s.vol own (s.fdTbl fd) (a.write buf).content.length fde' v' own' ∧
      (dataBuf data).size = 4096 * fde'.inode.blocks.toNat ∧
      (dataBuf data).mem = copy (dataBuf fde'.data).mem a.cursor (ofList buf) buf.length ∧
      cnwrite buf fd s = some (buf.length, { s.setFd fd { fde' with
          data := data, cursor := fde'.cursor + UInt32.ofNat buf.length } with
        vol := { v' with disk :=
          (Extents.scatter v'.disk (blockList v'.disk fde'.inode) (dataBuf data).mem 0) }
        ticks := t }) := by
  have small := size_bound room
  have value : (UInt32.ofNat ((s.fdTbl fd).cursor.toNat + buf.length)).toNat =
      a.cursor + buf.length := by
    rw [opened.cursor]
    exact UInt32.toNat_ofNat_of_lt' (Nat.lt_trans small (by decide))
  obtain ⟨fde', v', ticks, own', run, ready⟩ := opened.prepare ledger
    (by rw [value]; exact room) (by rw [value]; exact enough)
  have length := CursorArray.length_write a buf opened.within
  have total : max (s.fdTbl fd).inode.size.toNat
      (UInt32.ofNat ((s.fdTbl fd).cursor.toNat + buf.length)).toNat =
      (a.write buf).content.length := by
    rw [value, length, opened.length]
  rw [total] at ready
  have cursor : fde'.cursor = (s.fdTbl fd).cursor := by rw [ready.same]
  have place : fde'.cursor.toNat + buf.length ≤ (dataBuf fde'.data).size := by
    rw [ready.cache, cursor, opened.cursor]
    exact Nat.le_trans (by omega) size_le_blocks
  obtain ⟨data, stored, size, mem⟩ := writeData_eq place
  rw [cursor, opened.cursor] at mem
  have whole : (dataBuf data).size = 4096 * fde'.inode.blocks.toNat := by
    rw [size, ready.cache, ready.blocks]
  have flush := llwrite_eq (ready.mapped.inside ready.confined.ledger) (Nat.le_of_eq whole.symm)
    ready.mapped.single_apart
  refine ⟨fde', v', ticks, own', data, run, ready, whole, mem, ?_⟩
  rw [cnwrite, fdSlot_small opened.slot]
  simp only [Option.bind_eq_bind, Option.bind_some, opened.mode, ne_eq, not_true_eq_false,
    if_false, run, stored, flush, Option.pure_def]
  rfl

/-- One write is one write of the array, and is confined to its file. -/
theorem OpenFile.write (opened : OpenFile s own fd a) (ledger : Ledger s.vol own) (buf : List UInt8)
    (room : blocksFor (a.cursor + buf.length) ≤ 1032)
    (enough : newBlocks (s.fdTbl fd).inode (blocksFor (a.cursor + buf.length)) ≤
      Pool.block.free s.vol) :
    ∃ fde v t own', cnwrite buf fd s = some (buf.length, { s.setFd fd fde with vol := v, ticks := t }) ∧
      fde.inodeId = (s.fdTbl fd).inodeId ∧
      Confined s.vol own (· = (s.fdTbl fd).inodeId) v own' ∧
      OpenFile { s.setFd fd fde with vol := v, ticks := t } own' fd (a.write buf) ∧
      Pool.block.free v + newBlocks (s.fdTbl fd).inode (blocksFor (a.write buf).content.length) =
        Pool.block.free s.vol ∧
      (fde.inode.data1 = 0 ↔ (s.fdTbl fd).inode.data1 = 0 ∧
        blocksFor (a.write buf).content.length ≤ 8) := by
  have small := size_bound room
  obtain ⟨fde', v', ticks, own', data, _, ready, size, mem, run⟩ :=
    opened.write_eq ledger buf room enough
  have length := CursorArray.length_write a buf opened.within
  have cursor : fde'.cursor = (s.fdTbl fd).cursor := by rw [ready.same]
  have id : fde'.inodeId = (s.fdTbl fd).inodeId := by rw [ready.same]
  have state : fde'.state = FD_WRITE := by rw [ready.same]; exact opened.mode
  have nodup := ready.mapped.nodup
  obtain ⟨after, table⟩ := scatter_confined (k := 0)
    ready.confined.ledger ready.mapped
  have list : blockList (Extents.scatter v'.disk (blockList v'.disk fde'.inode) (dataBuf data).mem 0)
      fde'.inode = blockList v'.disk fde'.inode :=
    blockList_congr fun many => Extents.scatter_out fun member => by
      obtain ⟨k, found⟩ := ready.mapped.mem member
      rw [ready.mapped.single (ready.mapped.indirect many)] at found
      simp at found
  have moved : (fde'.cursor + UInt32.ofNat buf.length).toNat = a.cursor + buf.length := by
    rw [UInt32.toNat_add, cursor, opened.cursor, UInt32.toNat_ofNat']
    have : a.cursor + buf.length < 2 ^ 32 := Nat.lt_trans small (by decide)
    omega
  have bytes : slice (dataBuf data).mem 0 (a.write buf).content.length = (a.write buf).content := by
    have before : slice (dataBuf fde'.data).mem 0 a.content.length = a.content := by
      rw [← opened.cached, cachedBytes, length_slice]
      exact slice_congr fun j _ high => ready.kept j (by omega)
    rw [mem, length, slice_splice opened.within, before]
    rfl
  have onDisk : fileBytes (Extents.scatter v'.disk (blockList v'.disk fde'.inode)
      (dataBuf data).mem 0) fde'.inode = (a.write buf).content := by
    rw [fileBytes, list, ready.size]
    refine Eq.trans (slice_congr fun j _ high => Extents.gather_scatter nodup ?_) bytes
    rw [length_blockList, ready.blocks]
    exact Nat.lt_of_lt_of_le (by omega) size_le_blocks
  refine ⟨{ fde' with data := data, cursor := fde'.cursor + UInt32.ofNat buf.length },
    { v' with disk := Extents.scatter v'.disk (blockList v'.disk fde'.inode) (dataBuf data).mem 0 },
    ticks, own', run, id, ready.confined.trans after, ?_, ready.free, ready.single⟩
  constructor
  case slot => exact opened.slot
  case within =>
    change a.cursor + buf.length ≤ (a.write buf).content.length
    omega
  all_goals rw [setFd_vol]
  · exact state
  · exact ready.type.trans opened.type
  · rw [id]; exact opened.number
  · rw [id]; exact opened.fits
  · rw [id]
    exact (table _ opened.number).trans ready.onDisk
  · rw [id]
    exact after.copies _ _ ready.mapped
  · exact ready.blocks.trans (congrArg blocksFor ready.size.symm)
  · exact size
  · rw [cachedBytes, ready.size]; exact bytes
  · exact onDisk
  · exact moved

/-- A seek that does not grow the file moves the cursor and nothing else. -/
theorem OpenFile.seek (opened : OpenFile s own fd a) (offset : UInt32)
    (inside : a.cursor + offset.toNat ≤ a.content.length) :
    ∃ fde, cnseek fd offset s = some (0, s.setFd fd fde) ∧
      fde = { s.fdTbl fd with cursor := offset } ∧
      OpenFile (s.setFd fd fde) own fd (a.seek offset.toNat) := by
  have length := opened.length
  have sum : ((s.fdTbl fd).cursor + offset).toNat = a.cursor + offset.toNat := by
    have := (s.fdTbl fd).inode.size.toNat_lt
    rw [UInt32.toNat_add, opened.cursor]; omega
  have less : ¬ (s.fdTbl fd).inode.size < (s.fdTbl fd).cursor + offset := fun h => by
    have := UInt32.lt_iff_toNat_lt.mp h
    omega
  refine ⟨_, ?_, rfl, ?_⟩
  · rw [cnseek, fdSlot_small opened.slot]
    simp only [Option.bind_eq_bind, Option.bind_some, growFd, if_neg less, Option.pure_def,
      ne_eq, not_true_eq_false, if_false]
  · constructor
    case slot => exact opened.slot
    case within => change offset.toNat ≤ a.content.length; omega
    all_goals rw [setFd_same]
    · exact opened.mode
    · exact opened.type
    · exact opened.number
    · exact opened.fits
    · exact opened.onDisk
    · exact opened.mapped
    · exact opened.blocks
    · exact opened.cache
    · exact opened.cached
    · exact opened.stored
    · rfl

end
end CdnwSh
