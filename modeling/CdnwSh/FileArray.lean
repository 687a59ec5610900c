import CdnwSh.FileRuns
import CdnwSh.Machine

/-! A regular file that one descriptor writes is an array with a cursor: on the descriptor,
on disk, and for whoever opens the file again. -/
namespace CdnwSh

open ByteMemory RecordList PartialRun

section
variable [InodeLayout]

/-- Counters and bitmaps agree, used inodes own distinct used blocks, and regular files have
the blocks that `cnwrite` gives them. -/
structure ConsistentWith (v : Vol) (own : Owner) : Prop where
  ledger : Ledger v own
  inodes : ∀ i : Iptr, i.toNat < 6400 → bit v.inodeBmCache i.toNat = true →
    ∃ st, inodeRead v.disk i = some st ∧ Mapped v.disk own i st ∧
      (st.type = ITYPE_FILE → st.blocks.toNat = blocksFor st.size.toNat)

def Consistent (v : Vol) : Prop := ∃ own, ConsistentWith v own

/-- Descriptor `fd` is open for writing on a regular file, and it, the disk and the array `a`
agree. -/
structure WriteOpen (s : Fs) (fd : Nat) (a : CursorArray UInt8) : Prop where
  slot : fd < 1024
  mode : (s.fdTbl fd).state = FD_WRITE
  number : (s.fdTbl fd).inodeId.toNat < 6400
  used : bit s.vol.inodeBmCache (s.fdTbl fd).inodeId.toNat = true
  type : (s.fdTbl fd).inode.type = ITYPE_FILE
  onDisk : inodeRead s.vol.disk (s.fdTbl fd).inodeId = some (s.fdTbl fd).inode
  size : (s.fdTbl fd).inode.size.toNat = a.content.length
  cache : (dataBuf (s.fdTbl fd).data).size = 4096 * (s.fdTbl fd).inode.blocks.toNat
  cached : cachedBytes (s.fdTbl fd) = a.content
  stored : contentOf s.vol.disk (s.fdTbl fd).inodeId = some a.content
  cursor : (s.fdTbl fd).cursor.toNat = a.cursor
  within : a.cursor ≤ a.content.length

/-- Directory `j`, read afresh from disk, is `dir`. -/
structure ReadsDir (v : Vol) (j : Iptr) (dir : DirPtr) : Prop where
  number : j.toNat < 6400
  used : bit v.inodeBmCache j.toNat = true
  type : ∃ st, inodeRead v.disk j = some st ∧ st.type = ITYPE_DIR
  read : inflatedir v.disk j = some dir

section
variable {s s' : Fs} {v : Vol} {own : Owner} {node : Nodes} {i j : Iptr} {st : Inode} {fd : Nat}
  {a : CursorArray UInt8} {h h' : DirPtr}

theorem Holds.consistent (holds : Holds v own node) : ConsistentWith v own := by
  refine ⟨holds.ledger, fun i _ used => ?_⟩
  obtain ⟨j, same, live⟩ := holds.exact_inodes _ used
  obtain rfl := UInt32.toNat_inj.mp same
  cases kind : node j with
  | none => exact absurd kind live
  | some n =>
    cases n with
    | file =>
      obtain ⟨st, file⟩ := holds.files j kind
      exact ⟨st, file.read, file.mapped, fun _ => file.blocks⟩
    | dir p es =>
      obtain ⟨st, dir⟩ := holds.dirs j p es kind
      refine ⟨st, dir.read, dir.mapped, fun isFile => ?_⟩
      exact absurd (isFile.symm.trans dir.type) (by decide)

theorem FileAt.contentOf_eq (there : FileAt v.disk own i st) (ledger : Ledger v own) :
    contentOf v.disk i = some (fileBytes v.disk st) := by
  rw [contentOf, there.read]
  simp only [Option.bind_eq_bind, Option.bind_some]
  rw [llread_eq (there.mapped.inside ledger)]
  rfl

theorem ConsistentWith.file (consistent : ConsistentWith s.vol own) (opened : WriteOpen s fd a) :
    Mapped s.vol.disk own (s.fdTbl fd).inodeId (s.fdTbl fd).inode ∧
      (s.fdTbl fd).inode.blocks.toNat = blocksFor (s.fdTbl fd).inode.size.toNat := by
  obtain ⟨st, read, mapped, blocks⟩ := consistent.inodes _ opened.number opened.used
  obtain rfl := Option.some.inj (read.symm.trans opened.onDisk)
  exact ⟨mapped, blocks opened.type⟩

/-- In a consistent file system such a descriptor has the block map of its file. -/
theorem WriteOpen.openFile (opened : WriteOpen s fd a) (consistent : ConsistentWith s.vol own) :
    OpenFile s own fd a := by
  obtain ⟨mapped, blocks⟩ := consistent.file opened
  refine ⟨opened.slot, opened.mode, opened.type, opened.number,
    fits_of_read opened.number opened.onDisk, opened.onDisk, mapped, blocks, opened.cache,
    opened.cached, ?_, opened.cursor, opened.within⟩
  have stored := opened.stored
  rw [contentOf, opened.onDisk] at stored
  simp only [Option.bind_eq_bind, Option.bind_some] at stored
  rw [llread_eq (mapped.inside consistent.ledger)] at stored
  exact Option.some.inj stored

theorem OpenFile.writeOpen (opened : OpenFile s own fd a) (ledger : Ledger s.vol own)
    (used : bit s.vol.inodeBmCache (s.fdTbl fd).inodeId.toNat = true) : WriteOpen s fd a where
  slot := opened.slot
  mode := opened.mode
  number := opened.number
  used := used
  type := opened.type
  onDisk := opened.onDisk
  size := opened.length.symm
  cache := opened.cache
  cached := opened.cached
  stored := opened.contentOf_eq ledger
  cursor := opened.cursor
  within := opened.within

theorem FdOpened.writeOpen (opened : FdOpened s i FD_WRITE n st s') (sound : Sound s' own node)
    (file : node i = some .file) : WriteOpen s' n ⟨fileBytes s.vol.disk st, 0⟩ := by
  obtain ⟨number, used⟩ := sound.holds.inodes i (by rw [file]; simp)
  have vol : s'.vol = s.vol := by rw [opened.state]
  have there := opened.fileAt sound file
  rw [← vol] at there
  have cached : cachedBytes (s'.fdTbl n) = fileBytes s.vol.disk st := by
    rw [cachedBytes, opened.data, opened.entry]
    rfl
  have inode : (s'.fdTbl n).inode = st := by rw [opened.entry]
  have id : (s'.fdTbl n).inodeId = i := by rw [opened.entry]
  refine OpenFile.writeOpen ⟨opened.slot, by rw [opened.entry], by rw [inode]; exact there.type,
    by rw [id]; exact number, by rw [id]; exact fits_of_read number there.read,
    by rw [id, inode]; exact there.read, by rw [id, inode]; exact there.mapped,
    by rw [inode]; exact there.blocks, by rw [opened.data, inode], cached, by rw [inode, vol],
    by rw [opened.entry]; rfl, Nat.zero_le _⟩ sound.holds.ledger (by rw [id]; exact used)

theorem WriteOpen.frame (opened : WriteOpen s fd a) (consistent : ConsistentWith s.vol own)
    (confined : Confined s.vol own who s'.vol own') (apart : ¬ who (s.fdTbl fd).inodeId)
    (same : s'.fdTbl fd = s.fdTbl fd) : WriteOpen s' fd a :=
  ((opened.openFile consistent).frame confined apart same).writeOpen
    confined.ledger (by rw [same]; exact confined.inodes _ opened.used)

/-- What opening a name for writing leaves that was not there: an empty file on a free
descriptor, a handle that is still current, and other files as they were. -/
structure OpenedNew (s : Fs) (own : Owner) (node : Nodes) (h : DirPtr) (n : Nat) (h' : DirPtr)
    (s' : Fs) (own' : Owner) (node' : Nodes) : Prop where
  sound : Sound s' own' node'
  files : ∀ j, node j = some .file → node' j = some .file
  cwd : s'.cwd = s.cwd
  same : h'.inodeId = h.inodeId
  current : Current s'.vol h'
  shown : Shown node' h'
  opened : WriteOpen s' n ⟨[], 0⟩
  inode : ∃ t, (s'.fdTbl n).inode = newInode ITYPE_FILE t
  others : ∀ k, k ≠ n → s'.fdTbl k = s.fdTbl k
  fresh : node (s'.fdTbl n).inodeId = none
  confined : ∃ who, Confined s.vol own who s'.vol own' ∧ ∀ j, node j = some .file → ¬ who j
  free : freeList .block s'.vol = freeList .block s.vol

theorem Sound.openNew (sound : Sound s own node) (shown : Shown node h)
    (ok : OpenOk s h name FD_WRITE) (missing : cnstat h name = some (none, atEnd))
    (run : cnopen h name FD_WRITE s = some (result, h', s')) :
    result = -1 ∨ ∃ (n : Nat) (own' : Owner) (node' : Nodes), result = (n : Int) ∧
      OpenedNew s own node h n h' s' own' node' := by
  cases sound.openFile shown ok run with
  | failed => exact .inl rfl
  | found stat =>
    rw [missing] at stat
    cases stat
  | created _ _ new opened after =>
    rename_i h₁ s₁ own' p es e n st k _ _
    obtain ⟨st', dir, handleOf⟩ := new.shows
    have vol : s'.vol = s₁.vol := by rw [opened.state]
    have parent := new.parent sound
    have holds₁ := after.holds
    rw [vol] at holds₁
    have fresh := (sound.holds.unowned new.entered.fresh).2.1
    have file : NameTree.insert scheme node h.inodeId p es e (newNode h.inodeId e) e.inode =
        some .file := insert_newFile new.kind
    obtain ⟨t, read⟩ := new.inode
    obtain rfl : st = newInode ITYPE_FILE t := Option.some.inj (opened.read.symm.trans read)
    have reindexed := handleOf.reindex (k := k)
    refine .inr ⟨n, own', _, rfl, after, (new.entered.next sound.holds).files,
      by rw [opened.state, new.state], handleOf.inodeId, ?_, reindexed.shown holds₁ parent,
      opened.writeOpen after file, ⟨t, by rw [opened.entry]⟩, fun m apart => ?_,
      by rw [opened.entry]; exact fresh, ⟨_, by rw [vol]; exact new.entered.confined, ?_⟩,
      by rw [vol]; exact new.blocks⟩
    · rw [vol]
      exact reindexed.current holds₁ parent dir
    · rw [opened.others m apart, new.state]
    · rintro j isFile (rfl | rfl)
      · rw [new.entered.found] at isFile
        cases isFile
      · rw [fresh] at isFile
        cases isFile

/-- With a free descriptor a file whose block map is known can be opened. -/
theorem openFd_loads (mode : UInt8) (ledger : Ledger s.vol own) (mapped : Mapped s.vol.disk own i st)
    (read : inodeRead s.vol.disk i = some st) (clear : bit s.fdBm n = false) (slot : n < 1024) :
    ∃ (k : Nat) (data : Option Buf) (fdBm : Block), k < 1024 ∧
      openFd s i mode = some ((k : Int), { s.setFd k ⟨data, mode, i, st, 0, false⟩ with fdBm := fdBm }) ∧
      dataBuf data =
        ⟨4096 * st.blocks.toNat, Extents.gather 0 s.vol.disk (blockList s.vol.disk st)⟩ := by
  have low : (findFreeBit s.fdBm).toNat < 1024 :=
    Nat.lt_of_le_of_lt (findFreeBit_le clear (by omega)) slot
  obtain ⟨data, loads⟩ : ∃ data, loadData s.vol.disk st = some data := by
    unfold loadData
    split
    · rw [llread_eq (mapped.inside ledger)]
      exact ⟨_, rfl⟩
    · exact ⟨none, rfl⟩
  have index : (UInt32.ofNat (findFreeBit s.fdBm).toNat).toNat < 32768 := by
    rw [UInt32.ofNat_toNat]
    omega
  refine ⟨(findFreeBit s.fdBm).toNat, data, setBit s.fdBm (findFreeBit s.fdBm).toNat, low, ?_,
    loadData_eq mapped ledger loads⟩
  unfold openFd
  dsimp only
  rw [if_neg (by omega), setBitmap_inside index, read]
  simp only [Option.bind_eq_bind, Option.bind_some, loads, UInt32.ofNat_toNat]
  rfl

/-- Closing a descriptor and opening its file by a name of it, through any handle that shows
the name, loads the file from disk. -/
theorem reopen_loads (mode : UInt8) (slot : fd < 1024) (used : (s.fdTbl fd).state ≠ FD_FREE)
    (ledger : Ledger s.vol own) (mapped : Mapped s.vol.disk own i st)
    (read : inodeRead s.vol.disk i = some st) (stat : cnstat dir name = some (some i, next)) :
    ∃ (closed : Fs) (n : Nat) (data : Option Buf) (s' : Fs), cnclose fd s = some (0, closed) ∧
      cnopen dir name mode closed = some ((n : Int), next, s') ∧ n < 1024 ∧ s'.vol = s.vol ∧
      s'.fdTbl n = ⟨data, mode, i, st, 0, false⟩ ∧ dataBuf data =
        ⟨4096 * st.blocks.toNat, Extents.gather 0 s.vol.disk (blockList s.vol.disk st)⟩ := by
  have index : (UInt32.ofNat fd).toNat = fd := UInt32.toNat_ofNat_of_lt' (Nat.lt_trans slot (by decide))
  have closes : cnclose fd s = some (0, { s.setFd fd (s.fdTbl fd).closed with
      fdBm := clearBit s.fdBm fd }) := by
    rw [cnclose, fdSlot_small slot]
    simp only [Option.bind_eq_bind, Option.bind_some]
    rw [if_neg used, clearBitmap_inside (by omega), index]
    rfl
  generalize same : ({ s.setFd fd (s.fdTbl fd).closed with
    fdBm := clearBit s.fdBm fd } : Fs) = closed at closes
  have vol : closed.vol = s.vol := by rw [← same]; rfl
  have clear : bit closed.fdBm fd = false := by
    rw [← same]
    change bit (clearBit s.fdBm fd) fd = false
    rw [bit_clearBit, decide_eq_true rfl]
    simp
  obtain ⟨n, data, fdBm, bound, opens, loaded⟩ := openFd_loads mode (s := closed)
    (by rw [vol]; exact ledger) (by rw [vol]; exact mapped) (by rw [vol]; exact read) clear slot
  refine ⟨closed, n, data, { closed.setFd n ⟨data, mode, i, st, 0, false⟩ with fdBm := fdBm }, closes, ?_,
    bound, vol, setFd_same (s := closed), by rw [loaded, vol]⟩
  rw [cnopen, stat]
  simp only [Option.bind_eq_bind, Option.bind_some, opens]
  rfl

theorem OpenFile.reopen (opened : OpenFile s own fd a) (ledger : Ledger s.vol own)
    (used : bit s.vol.inodeBmCache (s.fdTbl fd).inodeId.toNat = true)
    (stat : cnstat dir name = some (some (s.fdTbl fd).inodeId, next)) :
    ∃ (closed : Fs) (n : Nat) (s' : Fs), cnclose fd s = some (0, closed) ∧
      cnopen dir name FD_WRITE closed = some ((n : Int), next, s') ∧
      (s'.fdTbl n).inode = (s.fdTbl fd).inode ∧ WriteOpen s' n ⟨a.content, 0⟩ := by
  obtain ⟨closed, n, data, s', closes, opens, bound, vol, entry, loaded⟩ := reopen_loads FD_WRITE
    opened.slot (by rw [opened.mode]; decide) ledger opened.mapped opened.onDisk stat
  refine ⟨closed, n, s', closes, opens, by rw [entry], ?_⟩
  have reads : cachedBytes ⟨data, FD_WRITE, (s.fdTbl fd).inodeId, (s.fdTbl fd).inode, 0, false⟩ =
      a.content := by
    rw [cachedBytes, loaded]
    exact opened.stored
  constructor
  case slot => exact bound
  case within => exact Nat.zero_le _
  case used => rw [entry, vol]; exact used
  case stored => rw [entry, vol]; exact opened.contentOf_eq ledger
  case onDisk => rw [entry, vol]; exact opened.onDisk
  all_goals rw [entry]
  · exact opened.number
  · exact opened.type
  · exact opened.length.symm
  · rw [loaded]
  · exact reads
  · rfl

theorem ReadsDir.confined (reads : ReadsDir v j dir) (consistent : ConsistentWith v own)
    (confined : Confined v own who v' own') (files : ∀ i, who i → ∃ st, inodeRead v.disk i = some st ∧
      st.type = ITYPE_FILE) : ReadsDir v' j dir := by
  obtain ⟨st, read, type⟩ := reads.type
  have apart : ¬ who j := fun mine => by
    obtain ⟨st', read', isFile⟩ := files j mine
    obtain rfl := Option.some.inj (read.symm.trans read')
    exact absurd (type.symm.trans isFile) (by decide)
  obtain ⟨st', again, mapped, _⟩ := consistent.inodes j reads.number reads.used
  refine ⟨reads.number, confined.inodes _ reads.used,
    ⟨st, (confined.table j reads.number apart).trans read, type⟩, ?_⟩
  rw [confined.inflatedir_eq consistent.ledger reads.number apart again mapped, reads.read]

/-- After any number of `cnwrite` and non-growing `cnseek` calls on the only descriptor of a
regular file, every reply is the expected one, descriptor and disk hold what the array machine
holds, and the file, opened again by its name in a directory read afresh, holds it too. -/
theorem file_array {s : Fs} {fd : Nat} {a : CursorArray UInt8} {cmds : List FileCmd}
    (consistent : Consistent s.vol) (opened : WriteOpen s fd a) (allowed : AllowedRun a cmds)
    (room : blocksFor (arrayRun a cmds).content.length ≤ 1032)
    (enough : demand (s.fdTbl fd).inode (arrayRun a cmds).content.length ≤ Pool.block.free s.vol)
    (n : Nat) :
    ∃ s', PartialRun.run exec s ((cmds.take n).map fun c => (fd, c)) =
        some ((cmds.take n).map FileCmd.reply, s') ∧
      WriteOpen s' fd (arrayRun a (cmds.take n)) ∧
      ∀ j dir name next, ReadsDir s.vol j dir →
        cnstat dir name = some (some (s.fdTbl fd).inodeId, next) →
        ReadsDir s'.vol j dir ∧ ∃ (closed : Fs) (k : Nat) (s'' : Fs),
          cnclose fd s' = some (0, closed) ∧
          cnopen dir name FD_WRITE closed = some ((k : Int), next, s'') ∧
          (s''.fdTbl k).inode = (s'.fdTbl fd).inode ∧
          WriteOpen s'' k ⟨(arrayRun a (cmds.take n)).content, 0⟩ := by
  obtain ⟨own, consistent⟩ := consistent
  have file := opened.openFile consistent
  have files : OpenFiles s own {fd} fun _ => a := by
    refine ⟨consistent.ledger, fun k member => ?_, fun k member l member' _ => ?_⟩
    · rw [Finset.mem_singleton.mp member]
      exact file
    · rw [Finset.mem_singleton.mp member, Finset.mem_singleton.mp member']
  rw [← List.take_append_drop n cmds] at allowed room enough
  have before := allowed.take
  have grows : (arrayRun a (cmds.take n)).content.length ≤
      (arrayRun a (cmds.take n ++ cmds.drop n)).content.length := by
    have within := (arrayRun_grows a opened.within before).2
    rw [arrayRun_append]
    exact (arrayRun_grows _ within allowed.drop).1
  obtain ⟨s', own', run, files', confined, ids, _⟩ := files.run ((cmds.take n).map fun c => (fd, c))
    (fun x member => by
      obtain ⟨c, _, rfl⟩ := List.mem_map.mp member
      exact Finset.mem_singleton_self fd)
    (fun k member => by
      rw [Finset.mem_singleton.mp member, ownCmds_map]
      exact before)
    ⟨fun k member => by
        rw [Finset.mem_singleton.mp member, ownCmds_map]
        exact (blocksFor_mono grows).trans room,
      by
        rw [Finset.sum_singleton, ownCmds_map]
        exact (demand_mono grows).trans enough⟩
  have here := Finset.mem_singleton_self fd
  have after := files'.opened fd here
  rw [ownCmds_map] at after
  have id := ids fd here
  have used : bit s'.vol.inodeBmCache (s'.fdTbl fd).inodeId.toNat = true := by
    rw [id]
    exact confined.inodes _ opened.used
  refine ⟨s', ?_, after.writeOpen files'.ledger used, fun j dir name next reads stat => ⟨?_, ?_⟩⟩
  · rw [run, List.map_map]
    rfl
  · refine reads.confined consistent confined fun i mine => ?_
    obtain ⟨k, member, rfl⟩ := mine
    rw [Finset.mem_singleton.mp member]
    exact ⟨_, opened.onDisk, opened.type⟩
  · rw [← id] at stat
    exact after.reopen files'.ledger used stat

end
end

section Lp64
attribute [local instance] lp64

theorem fileOpened_facts : (fileOpened.fs.fdTbl 0).state = FD_WRITE ∧
    (fileOpened.fs.fdTbl 0).inodeId.toNat < 6400 ∧
    bit fileOpened.fs.vol.inodeBmCache (fileOpened.fs.fdTbl 0).inodeId.toNat = true ∧
    (fileOpened.fs.fdTbl 0).inode.type = ITYPE_FILE ∧
    inodeRead fileOpened.fs.vol.disk (fileOpened.fs.fdTbl 0).inodeId =
      some (fileOpened.fs.fdTbl 0).inode ∧
    (fileOpened.fs.fdTbl 0).inode.size.toNat = 0 ∧
    (dataBuf (fileOpened.fs.fdTbl 0).data).size = 4096 * (fileOpened.fs.fdTbl 0).inode.blocks.toNat ∧
    cachedBytes (fileOpened.fs.fdTbl 0) = [] ∧
    contentOf fileOpened.fs.vol.disk (fileOpened.fs.fdTbl 0).inodeId = some [] ∧
    (fileOpened.fs.fdTbl 0).cursor.toNat = 0 := by decide +kernel

theorem fileOpened_writeOpen : WriteOpen fileOpened.fs 0 ⟨[], 0⟩ := by
  obtain ⟨mode, number, used, type, onDisk, size, cache, cached, stored, cursor⟩ := fileOpened_facts
  exact ⟨by decide, mode, number, used, type, onDisk, size, cache, cached, stored, cursor, by decide⟩

/-- Three bytes are written to the empty file, and the first of them again. -/
theorem file_array_three : ∃ s', PartialRun.run exec fileOpened.fs
    [(0, .write [1, 2, 3]), (0, .seek 0), (0, .write [4])] = some ([3, 0, 1], s') ∧
    WriteOpen s' 0 ⟨[4, 2, 3], 1⟩ := by
  obtain ⟨own, node, inv⟩ := fileOpened_inv
  obtain ⟨s', run, after, _⟩ := file_array ⟨own, inv.sound.holds.consistent⟩ fileOpened_writeOpen
    (show AllowedRun _ [.write [1, 2, 3], .seek 0, .write [4]] by decide) (by decide)
    (by decide +kernel) 3
  exact ⟨s', run, after⟩

/-- The file system with a file of three bytes, open for writing on descriptor 0. -/
def threeWritten : Session := fileOpened.after (.write 0 [1, 2, 3])

theorem threeWritten_facts : (fileOpened.step (.write 0 [1, 2, 3])).isSome ∧
    newBlocks (fileOpened.fs.fdTbl 0).inode 1 ≤ Pool.block.free fileOpened.fs.vol := by decide +kernel

theorem threeWritten_eq : fileOpened.step (.write 0 [1, 2, 3]) =
    some (fileOpened.reply (.write 0 [1, 2, 3]), threeWritten) :=
  Session.after_eq threeWritten_facts.1

theorem threeWritten_sane : Sane fileOpened (.write 0 [1, 2, 3]) := by
  intro n slot _ _
  obtain ⟨same, _⟩ := fdSlot_eq slot
  obtain rfl : n = 0 := by omega
  rw [writeEnd, fileOpened_facts.2.2.2.2.2.2.2.2.2]
  exact threeWritten_facts.2

theorem threeWritten_inv : ∃ own node, Inv threeWritten own node := by
  obtain ⟨own, node, inv⟩ := fileOpened_inv
  obtain ⟨own', node', after⟩ := inv.step threeWritten_sane threeWritten_eq
  exact ⟨own', node', after.inv⟩

theorem threeWritten_writeOpen :
    Consistent threeWritten.fs.vol ∧ WriteOpen threeWritten.fs 0 ⟨[1, 2, 3], 3⟩ := by
  obtain ⟨own, node, inv⟩ := fileOpened_inv
  obtain ⟨_, _, after⟩ := threeWritten_inv
  have consistent := after.sound.holds.consistent
  have file := fileOpened_writeOpen.openFile inv.sound.holds.consistent
  obtain ⟨fde, v, t, own', run, id, confined, written, _⟩ := file.write inv.sound.holds.ledger [1, 2, 3]
    (by decide) threeWritten_facts.2
  have same : threeWritten.fs = { fileOpened.fs.setFd 0 fde with vol := v, ticks := t } := by
    have steps := threeWritten_eq
    rw [Session.step, show (0 : Int) = ((0 : Nat) : Int) from rfl, run, Option.bind_eq_bind, Option.bind_some, Option.pure_def,
      Option.some.injEq, Prod.mk.injEq] at steps
    exact (congrArg Session.fs steps.2).symm
  refine ⟨⟨_, consistent⟩, ?_⟩
  rw [same]
  refine OpenFile.writeOpen written confined.ledger ?_
  rw [setFd_vol, id]
  exact confined.inodes _ fileOpened_writeOpen.used

end Lp64

end CdnwSh
