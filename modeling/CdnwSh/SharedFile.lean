import CdnwSh.DescriptorBounds
import CdnwSh.Descriptors

/-! Several descriptors on one file. Each has a copy of the inode and of the whole file, and a
write stores the whole copy: what was written through the others stays as long as the copies
that act agree with the disk where it matters. -/
namespace CdnwSh

open ByteMemory RecordList PartialRun

section
variable [InodeLayout]

def sharedStep (s : Fs) : Nat × FdCall → Option (Reply × Fs)
  | (fd, .read bytes) => do
    let (out, s) ← cnread bytes fd s
    return (⟨out.length, out⟩, s)
  | (fd, .write buf) => do
    let (count, s) ← cnwrite buf fd s
    return (⟨count, []⟩, s)
  | (fd, .seek offset) => do
    let (code, s) ← cnseek fd offset s
    return (⟨code, []⟩, s)

/-- Descriptor `fd` is open on file `i`. -/
structure OnFile (s : Fs) (i : Iptr) (fd : Nat) : Prop where
  used : (s.fdTbl fd).state ≠ FD_FREE
  id : (s.fdTbl fd).inodeId = i

def Referenced (v : Vol) (i b : Iptr) : Prop :=
  ∃ st, inodeRead v.disk i = some st ∧ (b ∈ blockList v.disk st ∨ st.data1 ≠ 0 ∧ b = st.data1)

/-- The file system, and at each position of the file the byte that was last written there. -/
structure Watched where
  fs : Fs
  expected : Nat → Option UInt8

/-- As many bytes as a write returns are expected to be found again. -/
def expect (expected : Nat → Option UInt8) (fde : FdEntry) (r : Reply) :
    FdCall → Nat → Option UInt8
  | .write buf => fun p =>
    if fde.cursor.toNat ≤ p ∧ p < fde.cursor.toNat + r.code.toNat then buf[p - fde.cursor.toNat]?
    else expected p
  | _ => expected

def Watched.step (w : Watched) (call : Nat × FdCall) : Option (Reply × Watched) := do
  let (r, s) ← sharedStep w.fs call
  return (r, ⟨s, expect w.expected (w.fs.fdTbl call.1) r call.2⟩)

def toStore (fde : FdEntry) (required : UInt32) : Bytes := fun p =>
  if fde.inode.size < required ∧ fde.inode.size.toNat ≤ p then 0 else (dataBuf fde.data).mem p

/-- The copy of a descriptor and the inode `st` on disk before a write: the copy has the first
blocks of the file and all of them if it is to grow, and its bytes around those that are
written are those on disk. -/
structure WriteFresh (s : Fs) (fde : FdEntry) (buf : List UInt8) (st : Inode) : Prop where
  part : blockList s.vol.disk fde.inode <+: blockList s.vol.disk st
  shorter : fde.inode.size.toNat ≤ st.size.toNat
  grows : fde.inode.size < writeEnd fde buf → fde.inode.blocks = st.blocks ∧
    fde.inode.data1 = st.data1 ∧ st.size.toNat ≤ (writeEnd fde buf).toNat
  bytes : ∀ p, p < st.size.toNat → p < 4096 * fde.inode.blocks.toNat →
    p < fde.cursor.toNat ∨ fde.cursor.toNat + buf.length ≤ p →
    toStore fde (writeEnd fde buf) p = Extents.gather 0 s.vol.disk (blockList s.vol.disk st) p

/-- A read stops behind the bytes of the file that it asks for, and its copy has them as the
disk does. -/
def ReadFresh (s : Fs) (fde : FdEntry) (bytes : Nat) (st : Inode) : Prop :=
  ∀ p, fde.cursor.toNat ≤ p → p < fde.cursor.toNat + bytes → p < st.size.toNat →
    p < fde.cursor.toNat + bytesToRead fde bytes ∧
    (dataBuf fde.data).mem p = Extents.gather 0 s.vol.disk (blockList s.vol.disk st) p

/-- A call through a descriptor of file `i` whose copy is fresh enough for it. -/
def FreshCall (i : Iptr) (s : Fs) (call : Nat × FdCall) : Prop :=
  OnFile s i call.1 ∧ ∀ st, inodeRead s.vol.disk i = some st → match call.2 with
    | .read bytes => (s.fdTbl call.1).state = FD_READ → ReadFresh s (s.fdTbl call.1) bytes st
    | .write buf => (s.fdTbl call.1).state = FD_WRITE → WriteOk s call.1 buf ∧
        WriteFresh s (s.fdTbl call.1) buf st
    | .seek offset => ¬ (s.fdTbl call.1).inode.size < (s.fdTbl call.1).cursor + offset

section
variable {s s' : Fs} {v v' : Vol} {own own' : Owner} {node : Nodes} {i : Iptr} {st st' : Inode}
  {fde fde' : FdEntry} {fd : Nat} {buf : List UInt8}

omit [InodeLayout] in
theorem growBlocks_reserved {need : UInt32} (ledger : Ledger v own)
    (mapped : Mapped v.disk own i st) (room : need.toNat ≤ 1032)
    (enough : newBlocks st need.toNat ≤ Pool.block.free v)
    (run : growBlocks v st need = some (st', v')) :
    (st.data1 ≠ 0 → st'.data1 = st.data1) ∧ ∀ b : Iptr, bit v'.blockBmCache b.toNat = true →
      bit v.blockBmCache b.toNat = true ∨ b ∈ freshData (freeList .block v) st need.toNat ∨
        b = st'.data1 := by
  rw [growBlocks] at run
  split at run
  next less =>
    have more := UInt32.lt_iff_toNat_lt.mp less
    obtain ⟨st₁, v₁, grows, grown⟩ := reallocFsBlocks_grown (ledger.growable mapped more room enough)
    rw [run] at grows
    cases grows
    refine ⟨fun given => ?_, fun b used => ?_⟩
    · have none : singleShare st need.toNat = 0 := if_neg fun h => given h.2
      rw [grown.single, freshSingle, none]
      rfl
    · have bits := grown.took.bits .block b.toNat
      rw [show bit (Pool.block.cache v') b.toNat = true from used] at bits
      rcases (Bool.or_eq_true _ _).mp bits.symm with old | new
      · exact .inl old
      · obtain ⟨ptr, member, same⟩ := List.mem_map.mp (of_decide_eq_true new).2
        obtain rfl := UInt32.toNat_inj.mp same
        rcases mem_fresh.mp member with single | data
        · refine .inr (.inr ?_)
          rw [grown.single]
          have one : (freshSingle (freeList .block v) st need.toNat).length ≤ 1 := by
            rw [freshSingle, List.length_take, singleShare]
            split <;> omega
          obtain ⟨x, same⟩ := List.length_eq_one_iff.mp
            (Nat.le_antisymm one (List.length_pos_of_mem single))
          rw [same] at single ⊢
          exact List.mem_singleton.mp single
        · exact .inr (.inl data)
  next enough =>
    cases run
    exact ⟨fun _ => rfl, fun _ used => .inl used⟩

theorem growFd_reserved {required : UInt32} (ledger : Ledger s.vol own)
    (mapped : Mapped s.vol.disk own i fde.inode) (more : fde.inode.size < required)
    (room : required.toNat / 4096 + 1 ≤ 1032) (enough : RoomFor s fde required)
    (run : growFd s fde required = some (0, fde', s')) :
    (fde.inode.data1 ≠ 0 → fde'.inode.data1 = fde.inode.data1) ∧
    ∀ b : Iptr, bit s'.vol.blockBmCache b.toNat = true →
      bit s.vol.blockBmCache b.toNat = true ∨
      b ∈ freshData (freeList .block s.vol) fde.inode (required.toNat / 4096 + 1) ∨
      b = fde'.inode.data1 := by
  rcases growFd_eq run with ⟨large, _⟩ | ⟨_, data, st, v, d, _, grown, _, rfl, rfl⟩
  · exact absurd more large
  have resized : Mapped s.vol.disk own i { fde.inode with size := required } :=
    ⟨mapped.few, mapped.data, mapped.single, mapped.indirect⟩
  have reserved := growBlocks_reserved ledger resized (by rw [required_blocks]; exact room)
    (by rw [required_blocks]; exact enough more) grown
  rw [required_blocks] at reserved
  exact reserved

/-- Position `p` of file `i` on disk holds `byte`. -/
def Shows (v : Vol) (i : Iptr) (p : Nat) (byte : UInt8) : Prop :=
  ∃ content, contentOf v.disk i = some content ∧ content[p]? = some byte

theorem FileAt.shows (there : FileAt v.disk own i st) (ledger : Ledger v own) :
    Shows v i p byte ↔
      p < st.size.toNat ∧ Extents.gather 0 v.disk (blockList v.disk st) p = byte := by
  have content := there.contentOf_eq ledger
  have cell : (fileBytes v.disk st)[p]? = if p < st.size.toNat then
      some (Extents.gather 0 v.disk (blockList v.disk st) p) else none := by
    rw [fileBytes, getElem?_slice, Nat.zero_add]
  constructor
  · rintro ⟨_, same, found⟩
    rw [content] at same
    cases same
    rw [cell] at found
    split at found
    next inside => exact ⟨inside, Option.some.inj found⟩
    · cases found
  · rintro ⟨inside, same⟩
    exact ⟨_, content, by rw [cell, if_pos inside, same]⟩

end

/-- What a write leaves of the file: the other bytes, its own bytes, and all blocks. -/
structure WriteKept (s : Fs) (i : Iptr) (fde : FdEntry) (buf : List UInt8) (s' : Fs) : Prop where
  others : ∀ p byte, Shows s.vol i p byte →
    p < fde.cursor.toNat ∨ fde.cursor.toNat + buf.length ≤ p → Shows s'.vol i p byte
  written : ∀ p byte, fde.cursor.toNat ≤ p → buf[p - fde.cursor.toNat]? = some byte →
    Shows s'.vol i p byte
  referenced : ∀ b, Referenced s.vol i b → Referenced s'.vol i b
  reserved : ∀ b : Iptr, bit s'.vol.blockBmCache b.toNat = true →
    bit s.vol.blockBmCache b.toNat = true ∨ Referenced s'.vol i b

section
variable {s s' : Fs} {v : Vol} {own own' : Owner} {node : Nodes} {i : Iptr} {st : Inode}
  {fde : FdEntry} {fd : Nat} {buf : List UInt8}

theorem Stored.cursor_eq (stored : Stored s own fd buf s' own' fde v) :
    fde.cursor = (s.fdTbl fd).cursor := by
  rcases stored.grown with ⟨_, same, _⟩ | ⟨_, grown⟩
  · rw [same]
  · rw [grown.same]

theorem Stored.writeEnd_eq (stored : Stored s own fd buf s' own' fde v) :
    (writeEnd (s.fdTbl fd) buf).toNat = (s.fdTbl fd).cursor.toNat + buf.length ∧
    (buf ≠ [] → (s.fdTbl fd).cursor.toNat + buf.length ≤ 4096 * fde.inode.blocks.toNat) := by
  have few := stored.copy.mapped.few
  have small := (s.fdTbl fd).cursor.toNat_lt
  rcases stored.room with empty | inside
  · refine ⟨?_, fun some => absurd empty some⟩
    rw [empty]
    exact UInt32.toNat_ofNat_of_lt' small
  · rw [stored.cursor_eq, stored.copy.cache] at inside
    exact ⟨UInt32.toNat_ofNat_of_lt' (show _ < 4294967296 by omega), fun _ => inside⟩

theorem Stored.mem_out (stored : Stored s own fd buf s' own' fde v)
    (outside : p < (s.fdTbl fd).cursor.toNat ∨ (s.fdTbl fd).cursor.toNat + buf.length ≤ p) :
    (dataBuf (s'.fdTbl fd).data).mem p = toStore (s.fdTbl fd) (writeEnd (s.fdTbl fd) buf) p := by
  rw [stored.cache, stored.cursor_eq, copy_out outside, toStore]
  rcases stored.grown with ⟨enough, same, _⟩ | ⟨more, grown⟩
  · rw [same, if_neg fun h => enough h.1]
  · rw [grown.data, dataBuf_some]
    dsimp only
    by_cases old : p < (s.fdTbl fd).inode.size.toNat
    · rw [if_pos old, if_neg fun h => by omega]
    · rw [if_neg old, if_pos ⟨more, by omega⟩]

theorem Stored.mem_in (stored : Stored s own fd buf s' own' fde v)
    (start : (s.fdTbl fd).cursor.toNat ≤ p)
    (found : buf[p - (s.fdTbl fd).cursor.toNat]? = some byte) :
    (dataBuf (s'.fdTbl fd).data).mem p = byte := by
  have bound := (List.getElem?_eq_some_iff.mp found).1
  rw [stored.cache, stored.cursor_eq, copy_in start (by omega), ofList, List.getD_eq_getElem?_getD,
    found]
  rfl

theorem FileAt.scattered (there : FileAt v.disk own i st) (ledger : Ledger v own)
    (number : i.toNat < 6400) (mapped : Mapped v.disk own i c)
    (part : blockList v.disk c <+: blockList v.disk st) (mem : Bytes) :
    FileAt (v.scattered c mem).disk own i st ∧ Ledger (v.scattered c mem) own ∧
    blockList (v.scattered c mem).disk st = blockList v.disk st ∧
    ∀ p, Extents.gather 0 (v.scattered c mem).disk (blockList v.disk st) p =
      if p < 4096 * c.blocks.toNat then mem p
      else Extents.gather 0 v.disk (blockList v.disk st) p := by
  obtain ⟨after, table⟩ : Confined v own (· = i) (v.scattered c mem) own ∧ ∀ j : Iptr, j.toNat < 6400 →
      inodeRead (v.scattered c mem).disk j = inodeRead v.disk j := scatter_confined ledger mapped
  have list : blockList (v.scattered c mem).disk st = blockList v.disk st :=
    blockList_congr fun many => Extents.scatter_out fun member => by
      obtain ⟨k, found⟩ := mapped.mem member
      rw [there.mapped.single (there.mapped.indirect many)] at found
      simp at found
  refine ⟨⟨(table i number).trans there.read, there.type, after.copies _ _ there.mapped,
    there.blocks⟩, after.ledger, list, fun p => ?_⟩
  obtain ⟨more, whole⟩ := part
  have nodup := there.mapped.nodup
  rw [← whole] at nodup ⊢
  rw [Vol.scattered, Extents.gather_scatter_prefix nodup, length_blockList]

theorem WriteFresh.inside (fresh : WriteFresh s (s.fdTbl fd) buf st)
    (there : FileAt s.vol.disk own i st) (ledger : Ledger s.vol own) (number : i.toNat < 6400)
    (id : (s.fdTbl fd).inodeId = i) (stored : Stored s own fd buf s' own' fde v)
    (enough : ¬ (s.fdTbl fd).inode.size < writeEnd (s.fdTbl fd) buf)
    (same : fde = s.fdTbl fd) (vol : v = s.vol) (owner : own' = own) :
    WriteKept s i (s.fdTbl fd) buf s' := by
  subst same vol owner
  have mapped := stored.copy.mapped
  rw [id] at mapped
  have low := mt UInt32.lt_iff_toNat_lt.mpr enough
  have shorter := fresh.shorter
  obtain ⟨finish, inside⟩ := stored.writeEnd_eq
  obtain ⟨there', ledger', list, gathered⟩ := there.scattered ledger number mapped fresh.part
    (dataBuf (s'.fdTbl fd).data).mem
  rw [← stored.vol] at there' ledger' list gathered
  constructor
  · intro p byte shows outside
    rw [there.shows ledger] at shows
    rw [there'.shows ledger', list, gathered]
    refine ⟨shows.1, ?_⟩
    split
    next covered =>
      rw [stored.mem_out outside, fresh.bytes p shows.1 covered outside]
      exact shows.2
    · exact shows.2
  · intro p byte start found
    have bound := (List.getElem?_eq_some_iff.mp found).1
    have room := inside (List.ne_nil_of_length_pos (by omega))
    rw [there'.shows ledger', list, gathered, if_pos (by omega)]
    exact ⟨by omega, stored.mem_in start found⟩
  · rintro b ⟨st₀, read, named⟩
    obtain rfl := Option.some.inj (read.symm.trans there.read)
    exact ⟨st₀, there'.read, by rw [list]; exact named⟩
  · intro b used
    rw [stored.vol] at used
    exact .inl used

theorem WriteFresh.growing (fresh : WriteFresh s (s.fdTbl fd) buf st) (slot : fd < 1024)
    (mode : (s.fdTbl fd).state = FD_WRITE) (there : FileAt s.vol.disk own i st)
    (ledger : Ledger s.vol own) (number : i.toNat < 6400) (id : (s.fdTbl fd).inodeId = i)
    (copied : Copy s.vol own (s.fdTbl fd)) (room : RoomFor s (s.fdTbl fd) (writeEnd (s.fdTbl fd) buf))
    (run : cnwrite buf fd s = some (r, s')) (stored : Stored s own fd buf s' own' fde v)
    (more : (s.fdTbl fd).inode.size < writeEnd (s.fdTbl fd) buf)
    (grown : FdGrown s own (s.fdTbl fd) (writeEnd (s.fdTbl fd) buf) fde v own') :
    WriteKept s i (s.fdTbl fd) buf s' := by
  obtain ⟨blocks, single, larger⟩ := fresh.grows more
  obtain ⟨finish, inside⟩ := stored.writeEnd_eq
  have mapped := grown.mapped
  rw [id] at mapped
  have onDisk := grown.onDisk
  rw [id] at onDisk
  have ledger₁ := grown.confined.ledger
  have size := grown.size
  have whole : blockList s.vol.disk (s.fdTbl fd).inode = blockList s.vol.disk st :=
    fresh.part.eq_of_length (by rw [length_blockList, length_blockList, blocks])
  have there₁ : FileAt v.disk own' i fde.inode :=
    ⟨onDisk, stored.copy.type, mapped, stored.copy.blocks⟩
  have covered : fde.inode.size.toNat ≤ 4096 * fde.inode.blocks.toNat := by
    rw [there₁.blocks]
    exact size_le_blocks
  obtain ⟨there', ledger', list, gathered⟩ := there₁.scattered ledger₁ number mapped
    (List.prefix_refl _) (dataBuf (s'.fdTbl fd).data).mem
  rw [← stored.vol] at there' ledger' list gathered
  have data := grown.list
  rw [whole, ← list] at data
  have limit : (writeEnd (s.fdTbl fd) buf).toNat / 4096 + 1 ≤ 1032 := by
    have few := mapped.few
    rw [grown.blocks] at few
    omega
  rcases cnwrite_grows run slot mode with ⟨refused, _⟩ | ⟨_, fde₁, s₁, grows, inode, bitmap⟩
  · have large := refused.large
    rw [required_blocks] at large
    exact absurd limit (Nat.not_le_of_lt large)
  obtain ⟨keeps, reserved⟩ := growFd_reserved ledger copied.mapped more limit room grows
  rw [← inode, stored.inode] at keeps reserved
  rw [← bitmap] at reserved
  constructor
  · intro p byte shows outside
    rw [there.shows ledger] at shows
    have bound : p < 4096 * st.blocks.toNat := by
      rw [there.blocks]
      exact Nat.lt_of_lt_of_le shows.1 size_le_blocks
    have low : p < fde.inode.size.toNat := by
      rw [size]
      omega
    rw [there'.shows ledger', list, gathered, if_pos (by omega), stored.mem_out outside,
      fresh.bytes p shows.1 (by rw [blocks]; exact bound) outside]
    exact ⟨low, shows.2⟩
  · intro p byte start found
    have bound := (List.getElem?_eq_some_iff.mp found).1
    have low : p < fde.inode.size.toNat := by
      rw [size]
      omega
    rw [there'.shows ledger', list, gathered, if_pos (by omega)]
    exact ⟨low, stored.mem_in start found⟩
  · rintro b ⟨st₀, read, named⟩
    obtain rfl := Option.some.inj (read.symm.trans there.read)
    refine ⟨fde.inode, there'.read, ?_⟩
    rcases named with member | ⟨given, rfl⟩
    · rw [data]
      exact .inl (List.mem_append_left _ member)
    · have same := (keeps (by rw [single]; exact given)).trans single
      exact .inr ⟨by rw [same]; exact given, same.symm⟩
  · intro b used
    rcases reserved b used with old | member | same
    · exact .inl old
    · exact .inr ⟨fde.inode, there'.read, .inl (by rw [data]; exact List.mem_append_right _ member)⟩
    · by_cases given : fde.inode.data1 = 0
      · rw [same, given]
        exact .inl (ledger.metadata _ (by decide))
      · exact .inr ⟨fde.inode, there'.read, .inr ⟨given, same⟩⟩

theorem Sound.write_kept (sound : Sound s own node) (on : OnFile s i fd)
    (mode : (s.fdTbl fd).state = FD_WRITE) (ok : WriteOk s fd buf)
    (read : inodeRead s.vol.disk i = some st) (fresh : WriteFresh s (s.fdTbl fd) buf st)
    (granted : ¬ Refused s (s.fdTbl fd) (writeEnd (s.fdTbl fd) buf))
    (run : cnwrite buf fd s = some (r, s')) : WriteKept s i (s.fdTbl fd) buf s' := by
  obtain ⟨file, copied⟩ := sound.copies fd on.used
  rw [on.id] at file
  obtain ⟨st₀, there⟩ := sound.holds.files i file
  obtain rfl := Option.some.inj (there.read.symm.trans read)
  have number := (sound.holds.fits file).1
  have ledger := sound.holds.ledger
  rcases sound.write ok run with ⟨_, _, other⟩ | ⟨n, own', fde, v, same, small, _, _, _, stored, _⟩
  · exact ((other fd rfl).elim (absurd mode) fun refused => absurd refused granted)
  obtain rfl : fd = n := by omega
  rcases stored.grown with ⟨enough, copy, vol, owner⟩ | ⟨more, grown⟩
  · exact fresh.inside there ledger number on.id stored enough copy vol owner
  · have index : fdSlot (fd : Int) = some fd := fdSlot_small small
    exact fresh.growing small mode there ledger number on.id copied (ok fd index mode) run stored more
      grown

omit [InodeLayout] in
theorem cnread_some (run : cnread bytes fd s = some (out, s')) (mode : (s.fdTbl fd).state = FD_READ) :
    out = slice (dataBuf (s.fdTbl fd).data).mem (s.fdTbl fd).cursor.toNat
      (bytesToRead (s.fdTbl fd) bytes) := by
  obtain ⟨n, slot, ⟨other, _⟩ | ⟨_, copied, length, _⟩⟩ := cnread_eq run
  all_goals obtain rfl : fd = n := Int.ofNat_inj.mp (fdSlot_eq slot).1
  · exact absurd mode other
  · rw [readData_some copied, length]
    rfl

/-- A read delivers the bytes that are expected where it reads. -/
def ReadsExpected (w : Watched) (fd bytes : Nat) (r : Reply) : Prop :=
  (w.fs.fdTbl fd).state = FD_READ → ∀ p byte, w.expected p = some byte →
    (w.fs.fdTbl fd).cursor.toNat ≤ p → p < (w.fs.fdTbl fd).cursor.toNat + bytes →
    r.bytes[p - (w.fs.fdTbl fd).cursor.toNat]? = some byte

/-- What holds between the calls of a run that began in `s`. -/
structure NothingLost (s : Fs) (i : Iptr) (w : Watched) : Prop where
  shown : ∀ p byte, w.expected p = some byte → Shows w.fs.vol i p byte
  referenced : ∀ b, Referenced s.vol i b → Referenced w.fs.vol i b
  reserved : ∀ b : Iptr, bit w.fs.vol.blockBmCache b.toNat = true →
    bit s.vol.blockBmCache b.toNat = true ∨ Referenced w.fs.vol i b

theorem NothingLost.same {w : Watched} (kept : NothingLost s₀ i w) (vol : s'.vol = w.fs.vol) :
    NothingLost s₀ i ⟨s', w.expected⟩ :=
  ⟨fun p byte expected => by rw [vol]; exact kept.shown p byte expected,
    fun b named => by rw [vol]; exact kept.referenced b named,
    fun b used => by rw [vol] at used ⊢; exact kept.reserved b used⟩

omit [InodeLayout] in
theorem expect_failed {expected : Nat → Option UInt8} :
    expect expected fde ⟨0, []⟩ (.write buf) = expected := by
  funext p
  exact if_neg (show ¬ (_ ≤ p ∧ p < fde.cursor.toNat + 0) by omega)

theorem WriteKept.nothingLost {w : Watched} (written : WriteKept w.fs i (w.fs.fdTbl fd) buf s')
    (kept : NothingLost s₀ i w) :
    NothingLost s₀ i ⟨s', expect w.expected (w.fs.fdTbl fd) ⟨buf.length, []⟩ (.write buf)⟩ := by
  refine ⟨fun p byte expected => ?_, fun b named => written.referenced b (kept.referenced b named),
    fun b used => ?_⟩
  · dsimp only [expect] at expected
    split at expected
    next inside => exact written.written p byte inside.1 expected
    next outside =>
      refine written.others p byte (kept.shown p byte expected) ?_
      change ¬ (_ ≤ p ∧ p < _ + buf.length) at outside
      omega
  · rcases written.reserved b used with old | named
    · rcases kept.reserved b old with older | named
      · exact .inl older
      · exact .inr (written.referenced b named)
    · exact .inr named

theorem NothingLost.step {w w' : Watched} (kept : NothingLost s₀ i w) (sound : Sound w.fs own node)
    (fresh : FreshCall i w.fs call) (run : w.step call = some (r, w')) :
    (∃ own' node', Sound w'.fs own' node') ∧ NothingLost s₀ i w' := by
  obtain ⟨fd, call⟩ := call
  obtain ⟨on, fresh⟩ := fresh
  obtain ⟨⟨_, s'⟩, moved, run⟩ := Option.bind_eq_some_iff.mp run
  cases run
  obtain ⟨file, _⟩ := sound.copies fd on.used
  rw [on.id] at file
  obtain ⟨st, there⟩ := sound.holds.files i file
  have fresh := fresh st there.read
  cases call with
  | read bytes =>
    rw [sharedStep] at moved
    obtain ⟨⟨out, s₁⟩, reads, moved⟩ := Option.bind_eq_some_iff.mp moved
    cases moved
    obtain ⟨after, same⟩ := sound.read reads
    refine ⟨⟨own, node, after⟩, kept.same ?_⟩
    rcases same with same | ⟨_, _, _, same⟩
    · rw [same]
    · rw [same]
      rfl
  | seek offset =>
    rw [sharedStep] at moved
    obtain ⟨⟨code, s₁⟩, seeks, moved⟩ := Option.bind_eq_some_iff.mp moved
    cases moved
    have ok : SeekOk w.fs fd offset := fun n slot less => by
      obtain ⟨same, _⟩ := fdSlot_eq slot
      obtain rfl : fd = n := by omega
      exact absurd less fresh
    obtain ⟨n, same, _, ⟨⟨less, _⟩, _⟩ | ⟨_, ⟨_, state, after⟩ | ⟨less, _⟩⟩⟩ := sound.seek ok seeks
    · obtain rfl : fd = n := by omega
      exact absurd less fresh
    · exact ⟨⟨own, node, after⟩, kept.same (by rw [state]; rfl)⟩
    · obtain rfl : fd = n := by omega
      exact absurd less fresh
  | write buf =>
    rw [sharedStep] at moved
    obtain ⟨⟨count, s₁⟩, writes, moved⟩ := Option.bind_eq_some_iff.mp moved
    cases moved
    by_cases other : (w.fs.fdTbl fd).state ≠ FD_WRITE ∨
        Refused w.fs (w.fs.fdTbl fd) (writeEnd (w.fs.fdTbl fd) buf)
    · obtain ⟨rfl, rfl⟩ := cnwrite_fails writes other
      refine ⟨⟨own, node, sound⟩, ?_⟩
      rw [show ((0 : Nat) : Int) = 0 from rfl, expect_failed]
      exact kept
    · obtain ⟨mode, granted⟩ := not_or.mp other
      have mode := not_not.mp mode
      obtain ⟨ok, fresh⟩ := fresh mode
      have written := sound.write_kept on mode ok there.read fresh granted writes
      rcases sound.write ok writes with ⟨_, _, failed⟩ | ⟨_, own', _, _, _, _, all, _, _, _, after⟩
      · exact absurd (failed fd rfl) other
      · rw [all]
        exact ⟨⟨own', node, after⟩, written.nothingLost kept⟩

theorem NothingLost.reads {w w' : Watched} (kept : NothingLost s₀ i w) (sound : Sound w.fs own node)
    (fresh : FreshCall i w.fs (fd, .read bytes)) (run : w.step (fd, .read bytes) = some (r, w')) :
    ReadsExpected w fd bytes r := by
  intro mode p byte expected start bound
  obtain ⟨on, fresh⟩ := fresh
  rw [Watched.step, sharedStep] at run
  obtain ⟨⟨_, s'⟩, moved, run⟩ := Option.bind_eq_some_iff.mp run
  cases run
  obtain ⟨⟨out, s₁⟩, reads, moved⟩ := Option.bind_eq_some_iff.mp moved
  cases moved
  obtain ⟨file, _⟩ := sound.copies fd on.used
  rw [on.id] at file
  obtain ⟨st, there⟩ := sound.holds.files i file
  have shows := kept.shown p byte expected
  rw [there.shows sound.holds.ledger] at shows
  obtain ⟨inside, agree⟩ := fresh st there.read mode p start bound shows.1
  dsimp only at inside agree
  change out[_]? = _
  rw [cnread_some reads mode, getElem?_slice, if_pos (by omega),
    show (w.fs.fdTbl fd).cursor.toNat + (p - (w.fs.fdTbl fd).cursor.toNat) = p by omega, agree, shows.2]

end

/-- In every run of calls through any descriptors of a file, in any order, each through a copy
that is fresh enough for it: the disk holds every byte at the position where it was last
written, every read delivers these bytes, and no block of the file is lost. -/
theorem shared_descriptors {s : Fs} {i : Iptr} {w : Watched} (sound : Sound s own node)
    (steps : Steps Watched.step (fun w call => FreshCall i w.fs call) ⟨s, fun _ => none⟩ trace w) :
    NothingLost s i w ∧ ∀ first fd bytes r rest, trace = first ++ ((fd, .read bytes), r) :: rest →
      ∃ m m', Steps Watched.step (fun w call => FreshCall i w.fs call) ⟨s, fun _ => none⟩ first m ∧
        m.step (fd, .read bytes) = some (r, m') ∧ ReadsExpected m fd bytes r := by
  have run {trace w} (steps : Steps Watched.step (fun w call => FreshCall i w.fs call)
      ⟨s, fun _ => none⟩ trace w) : (∃ own node, Sound w.fs own node) ∧ NothingLost s i w := by
    refine steps.invariant (fun w : Watched => (∃ own node, Sound w.fs own node) ∧ NothingLost s i w)
      (fun w call r w' ⟨⟨_, _, sound⟩, kept⟩ fresh moved => kept.step sound fresh moved)
      ⟨⟨own, node, sound⟩, ?_⟩
    exact ⟨fun _ _ expected => (by cases expected), fun _ named => named, fun _ used => .inl used⟩
  refine ⟨(run steps).2, ?_⟩
  rintro first fd bytes r rest rfl
  obtain ⟨m, sofar, others⟩ := steps.split
  obtain ⟨⟨_, _, sound⟩, kept⟩ := run sofar
  cases others with
  | @cons _ _ _ m' _ _ fresh moved _ => exact ⟨m, m', sofar, moved, kept.reads sound fresh moved⟩

end

section Lp64
attribute [local instance] lp64

/-- The empty file opened for writing once more, on descriptor 1. -/
def twoOpened : Session := fileOpened.after (.openFile .cwd [102] FD_WRITE)

theorem twoOpened_run : (fileOpened.step (.openFile .cwd [102] FD_WRITE)).isSome ∧
    (fileOpened.fs.cwd.bind fun h => (findName { h with index := 0 } [102]).map fun x =>
      x.1.map DirEntry.fileType) = some (some ITYPE_FILE) := by decide +kernel

theorem twoOpened_facts : (twoOpened.fs.fdTbl 0).state = FD_WRITE ∧
    (twoOpened.fs.fdTbl 1).state = FD_WRITE ∧
    (twoOpened.fs.fdTbl 1).inodeId = (twoOpened.fs.fdTbl 0).inodeId := by decide +kernel

theorem reopened_inv {s : Session} {own : Owner} {node : Nodes} (inv : Inv s own node)
    (defined : (s.step (.openFile .cwd [102] FD_WRITE)).isSome)
    (type : (s.fs.cwd.bind fun h => (findName { h with index := 0 } [102]).map fun x =>
      x.1.map DirEntry.fileType) = some (some ITYPE_FILE)) :
    ∃ own node, Inv (s.after (.openFile .cwd [102] FD_WRITE)) own node := by
  have sane : Sane s (.openFile .cwd [102] FD_WRITE) := by
    intro d here
    rw [show s.fs.cwd = some d from here, Option.bind_some] at type
    have isFile (e : DirEntry) (next : DirPtr)
        (scanned : findName { d with index := 0 } [102] = some (some e, next)) :
        e.fileType = ITYPE_FILE := by
      rw [scanned] at type
      exact Option.some.inj (Option.some.inj type)
    refine ⟨isFile, fun _ => ⟨by decide, fun next stat => ?_⟩⟩
    obtain ⟨⟨entry, after⟩, scanned, stat⟩ := Option.bind_eq_some_iff.mp stat
    rw [scanned] at type
    cases entry with
    | none => cases type
    | some e => cases stat
  obtain ⟨own', node', after⟩ := inv.step sane (Session.after_eq defined)
  exact ⟨own', node', after.inv⟩

/-- A byte can be written over the first of three, through a copy that has the other two. -/
def FirstFresh (s : Fs) (i : Iptr) (fd : Nat) : Bool :=
  (s.fdTbl fd).state = FD_WRITE ∧ (s.fdTbl fd).inodeId = i ∧ (s.fdTbl fd).cursor = 0 ∧
    newBlocks (s.fdTbl fd).inode 1 ≤ Pool.block.free s.vol ∧
    (inodeRead s.vol.disk i).map (fun st => decide (st.size = 3 ∧ (s.fdTbl fd).inode.size = 3 ∧
      blockList s.vol.disk (s.fdTbl fd).inode <+: blockList s.vol.disk st ∧
      ∀ p < 3, 0 < p → (dataBuf (s.fdTbl fd).data).mem p =
        Extents.gather 0 s.vol.disk (blockList s.vol.disk st) p)) = some true

theorem FreshCall.first {s : Fs} {i : Iptr} {fd : Nat} (fresh : FirstFresh s i fd = true) (b : UInt8) :
    FreshCall i s (fd, .write [b]) := by
  obtain ⟨writes, on, start, room, copy⟩ := of_decide_eq_true fresh
  refine ⟨⟨by rw [writes]; decide, on⟩, fun st read _ => ?_⟩
  rw [read, Option.map_some, Option.some.injEq, decide_eq_true_eq] at copy
  obtain ⟨size, size', part, bytes⟩ := copy
  have ends : writeEnd (s.fdTbl fd) [b] = 1 := by rw [writeEnd, start]; rfl
  have inside : ¬ (s.fdTbl fd).inode.size < writeEnd (s.fdTbl fd) [b] := by
    rw [size', ends]
    decide
  refine ⟨fun n slot _ _ => ?_, part, by rw [size, size'], fun grows => absurd grows inside,
    fun p low _ apart => ?_⟩
  · obtain ⟨same, _⟩ := fdSlot_eq slot
    obtain rfl : n = fd := by omega
    rw [ends]
    exact room
  · rw [toStore, if_neg fun grows => inside grows.1]
    rw [size] at low
    rw [start] at apart
    exact bytes p low (apart.elim (fun before => absurd before (Nat.not_lt_zero p)) id)

theorem OnFile.seek {s : Fs} {i : Iptr} {fd : Nat} {offset : UInt32} (on : OnFile s i fd)
    (inside : ¬ (s.fdTbl fd).inode.size < (s.fdTbl fd).cursor + offset) : FreshCall i s (fd, .seek offset) :=
  ⟨on, fun _ _ => inside⟩

def Watched.after (w : Watched) (call : Nat × FdCall) : Watched := ((w.step call).map Prod.snd).getD w

theorem Watched.after_eq {w : Watched} {r : Reply} (run : (w.step call).map Prod.fst = some r) :
    w.step call = some (r, w.after call) := by
  obtain ⟨⟨_, w'⟩, moved, rfl⟩ := Option.map_eq_some_iff.mp run
  rw [Watched.after, moved]
  rfl

/-- The file of three bytes opened once more, on descriptor 1. -/
def sharedThree : Session := threeWritten.after (.openFile .cwd [102] FD_WRITE)

theorem sharedThree_run : (threeWritten.step (.openFile .cwd [102] FD_WRITE)).isSome ∧
    (threeWritten.fs.cwd.bind fun h => (findName { h with index := 0 } [102]).map fun x =>
      x.1.map DirEntry.fileType) = some (some ITYPE_FILE) := by decide +kernel

def sharedStart : Watched := ⟨sharedThree.fs, fun _ => none⟩
def sharedOne : Watched := sharedStart.after (1, .write [7])
def sharedBack : Watched := sharedOne.after (0, .seek 0)
def sharedBoth : Watched := sharedBack.after (0, .write [8])

theorem sharedBoth_run : (sharedStart.step (1, .write [7])).map Prod.fst = some ⟨1, []⟩ ∧
    (sharedOne.step (0, .seek 0)).map Prod.fst = some ⟨0, []⟩ ∧
    (sharedBack.step (0, .write [8])).map Prod.fst = some ⟨1, []⟩ ∧ sharedBoth.expected 0 = some 8 := by
  decide +kernel

theorem sharedBoth_fresh : FirstFresh sharedStart.fs (sharedThree.fs.fdTbl 0).inodeId 1 = true ∧
    FirstFresh sharedBack.fs (sharedThree.fs.fdTbl 0).inodeId 0 = true ∧
    (sharedOne.fs.fdTbl 0).state = FD_WRITE ∧
    (sharedOne.fs.fdTbl 0).inodeId = (sharedThree.fs.fdTbl 0).inodeId ∧
    ¬ (sharedOne.fs.fdTbl 0).inode.size < (sharedOne.fs.fdTbl 0).cursor + 0 := by decide +kernel

/-- The first byte is written through descriptor 1 and then, back at the start, through
descriptor 0, whose copy has the other two. -/
theorem shared_descriptors_two : ∃ w : Watched, w.expected 0 = some 8 ∧
    Steps Watched.step (fun w call => FreshCall (sharedThree.fs.fdTbl 0).inodeId w.fs call) sharedStart
      [((1, .write [7]), ⟨1, []⟩), ((0, .seek 0), ⟨0, []⟩), ((0, .write [8]), ⟨1, []⟩)] w ∧
    NothingLost sharedThree.fs (sharedThree.fs.fdTbl 0).inodeId w := by
  obtain ⟨_, _, written⟩ := threeWritten_inv
  obtain ⟨own, node, inv⟩ : ∃ own node, Inv sharedThree own node :=
    reopened_inv written sharedThree_run.1 sharedThree_run.2
  obtain ⟨one, back, both, expected⟩ := sharedBoth_run
  obtain ⟨fresh, fresh', open', on, inside⟩ := sharedBoth_fresh
  have first := FreshCall.first fresh 7
  have onFile : OnFile sharedOne.fs (sharedThree.fs.fdTbl 0).inodeId 0 := ⟨by rw [open']; decide, on⟩
  have second := onFile.seek inside
  have third := FreshCall.first fresh' 8
  have steps : Steps Watched.step (fun w call => FreshCall (sharedThree.fs.fdTbl 0).inodeId w.fs call)
      sharedStart _ sharedBoth := .cons first (Watched.after_eq one)
    (.cons second (Watched.after_eq back) (.single third (Watched.after_eq both)))
  exact ⟨sharedBoth, expected, steps, (shared_descriptors inv.sound steps).1⟩

theorem lostWrite_run : ((Watched.step ⟨twoOpened.fs, fun _ => none⟩ (0, .write [1, 2])).map fun x =>
      (x.1, (x.2.fs.fdTbl 1).state, (x.2.fs.fdTbl 1).inodeId)) =
      some (⟨2, []⟩, FD_WRITE, (twoOpened.fs.fdTbl 0).inodeId) ∧
    (((Watched.step ⟨twoOpened.fs, fun _ => none⟩ (0, .write [1, 2])).bind fun x =>
      x.2.step (1, .write [3])).map fun x =>
        (x.1, x.2.expected 1, (contentOf x.2.fs.vol.disk (twoOpened.fs.fdTbl 0).inodeId).map (·[1]?))) =
      some (⟨1, []⟩, some 2, some none) := by decide +kernel

/-- Then one byte through descriptor 1, whose copy is still the empty file: the file on disk has
one byte. -/
theorem shared_descriptors_lost : ∃ (s : Fs) (own : Owner) (node : Nodes) (i : Iptr) (w : Watched),
    Sound s own node ∧ OnFile s i 0 ∧ OnFile s i 1 ∧
    Steps Watched.step (fun w call => OnFile w.fs i call.1) ⟨s, fun _ => none⟩
      [((0, .write [1, 2]), ⟨2, []⟩), ((1, .write [3]), ⟨1, []⟩)] w ∧
    w.expected 1 = some 2 ∧ ¬ Shows w.fs.vol i 1 2 := by
  obtain ⟨_, _, opened⟩ := fileOpened_inv
  obtain ⟨own, node, inv⟩ := reopened_inv opened twoOpened_run.1 twoOpened_run.2
  obtain ⟨mode, mode', same⟩ := twoOpened_facts
  obtain ⟨first, second⟩ := lostWrite_run
  obtain ⟨⟨_, w₁⟩, one, facts⟩ := Option.map_eq_some_iff.mp first
  simp only [Prod.mk.injEq] at facts
  obtain ⟨rfl, open', id⟩ := facts
  rw [one, Option.bind_some] at second
  obtain ⟨⟨_, w₂⟩, two, facts⟩ := Option.map_eq_some_iff.mp second
  simp only [Prod.mk.injEq] at facts
  obtain ⟨rfl, expected, content⟩ := facts
  refine ⟨twoOpened.fs, own, node, _, w₂, inv.sound, ⟨by rw [mode]; decide, rfl⟩,
    ⟨by rw [mode']; decide, same⟩, ?_, expected, ?_⟩
  · exact .cons ⟨by rw [mode]; decide, rfl⟩ one (.single ⟨by rw [open']; decide, id⟩ two)
  · rintro ⟨bytes, holds, found⟩
    rw [holds, Option.map_some, Option.some.injEq, found] at content
    cases content

end Lp64

end CdnwSh
