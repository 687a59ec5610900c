import CdnwSh.Seeks

/-! `cnseek` fills the cache behind the old end of a file with zeros but writes no block:
whoever opens the file again sees there what its blocks held before. -/
namespace CdnwSh

open ByteMemory RecordList PartialRun

section
variable [InodeLayout]

/-- The blocks that a descriptor's file has when it is grown to `required` bytes, as they are
before: its own, then the first free ones. -/
def bytesBefore (s : Fs) (fde : FdEntry) (required : UInt32) : Bytes :=
  Extents.gather 0 s.vol.disk (blockList s.vol.disk fde.inode ++
    freshData (freeList .block s.vol) fde.inode (required.toNat / 4096 + 1))

/-- These blocks hold zeros behind the end of the file. -/
def GapClear (s : Fs) (fde : FdEntry) (required : UInt32) : Prop :=
  ∀ pos, fde.inode.size.toNat ≤ pos → pos < required.toNat → bytesBefore s fde required pos = 0

/-- The file of descriptor `fd`, closed and opened again by the name, has `size` bytes, and
those from `start` on are zeros. -/
def ReadsZeros (s : Fs) (fd : Nat) (dir : DirPtr) (name : Name) (mode : UInt8) (start : Nat)
    (size : UInt32) : Prop :=
  ∃ (closed : Fs) (n : Nat) (next : DirPtr) (s' : Fs), cnclose fd s = some (0, closed) ∧
    cnopen dir name mode closed = some ((n : Int), next, s') ∧ (s'.fdTbl n).inode.size = size ∧
    size.toNat ≤ (dataBuf (s'.fdTbl n).data).size ∧
    ∀ pos, start ≤ pos → pos < size.toNat → (cachedBytes (s'.fdTbl n))[pos]? = some 0

section
variable {s s' : Fs} {own own' : Owner} {node : Nodes} {fd : Nat} {offset required : UInt32}
  {fde fde' : FdEntry} {v' : Vol} {dir next : DirPtr} {name : Name}

theorem FdGrown.gathered (grown : FdGrown s own fde required fde' v' own') :
    Extents.gather 0 v'.disk (blockList v'.disk fde'.inode) = bytesBefore s fde required := by
  rw [bytesBefore, ← grown.list]
  exact Extents.gather_congr grown.content

/-- What the file of a growing seek holds when it is opened again. -/
theorem Sound.seek_reads (sound : Sound s own node) (ok : SeekOk s fd offset)
    (run : cnseek fd offset s = some (0, s'))
    (more : (s.fdTbl fd).inode.size < (s.fdTbl fd).cursor + offset)
    (stat : cnstat dir name = some (some (s.fdTbl fd).inodeId, next)) (mode : UInt8) :
    ∃ (closed : Fs) (n : Nat) (s'' : Fs), cnclose fd s' = some (0, closed) ∧
      cnopen dir name mode closed = some ((n : Int), next, s'') ∧
      (s''.fdTbl n).inode.size = (s.fdTbl fd).cursor + offset ∧
      ((s.fdTbl fd).cursor + offset).toNat ≤ (dataBuf (s''.fdTbl n).data).size ∧
      (dataBuf (s''.fdTbl n).data).mem = bytesBefore s (s.fdTbl fd) ((s.fdTbl fd).cursor + offset) := by
  obtain ⟨n, same, slot, ⟨_, failed, _⟩ |
    ⟨_, ⟨enough, _⟩ | ⟨_, used, own', fde, grown, entry, acted, after⟩⟩⟩ := sound.seek ok run
  · cases failed
  · obtain rfl : fd = n := by omega
    exact absurd more enough
  obtain rfl : fd = n := by omega
  obtain ⟨closed, k, data, s'', closes, opens, _, _, opened, loaded⟩ := reopen_loads mode slot
    (by rw [acted.open']; exact used) after.holds.ledger grown.mapped grown.onDisk stat
  refine ⟨closed, k, s'', closes, opens, ?_, ?_, ?_⟩
  · rw [opened]
    exact grown.size
  · have blocks := grown.blocks
    rw [opened, loaded]
    change _ ≤ 4096 * fde.inode.blocks.toNat
    omega
  · rw [opened, loaded]
    exact grown.gathered

end

/-- In every run of sane commands on a new file system, over any disk: the bytes that a seek
adds to the file of a descriptor are zeros for whoever opens the file again if and only if
the blocks that the file then has held zeros there before. -/
theorem seek_gap {before : Fs} {s₀ s : Session} {s' : Fs} {fd : Nat} {offset : UInt32}
    {dir next : DirPtr} {name : Name} (booted : boot before = some s₀)
    (steps : Steps Session.step Sane s₀ trace s) (ok : SeekOk s.fs fd offset)
    (run : cnseek fd offset s.fs = some (0, s'))
    (more : (s.fs.fdTbl fd).inode.size < (s.fs.fdTbl fd).cursor + offset)
    (stat : cnstat dir name = some (some (s.fs.fdTbl fd).inodeId, next)) (access : UInt8) :
    ReadsZeros s' fd dir name access (s.fs.fdTbl fd).inode.size.toNat
        ((s.fs.fdTbl fd).cursor + offset) ↔
      GapClear s.fs (s.fs.fdTbl fd) ((s.fs.fdTbl fd).cursor + offset) := by
  obtain ⟨own, node, inv⟩ := (boot_inv booted).run steps
  obtain ⟨closed, n, s'', closes, opens, size, covers, mem⟩ :=
    inv.sound.seek_reads ok run more stat access
  have shows {pos : Nat} (low : pos < ((s.fs.fdTbl fd).cursor + offset).toNat) :
      (cachedBytes (s''.fdTbl n))[pos]? =
        some (bytesBefore s.fs (s.fs.fdTbl fd) ((s.fs.fdTbl fd).cursor + offset) pos) := by
    rw [cachedBytes, getElem?_slice, size, if_pos low, mem, Nat.zero_add]
  constructor
  · rintro ⟨closed', n', next', s₁, closes', opens', _, _, zeros⟩ pos start bound
    rw [closes] at closes'
    cases closes'
    rw [opens] at opens'
    cases opens'
    have zero := zeros pos start bound
    rw [shows bound] at zero
    exact Option.some.inj zero
  · intro clear
    exact ⟨closed, n, next, s'', closes, opens, size, covers, fun pos start bound => by
      rw [shows bound, clear pos start bound]⟩

end

section Lp64
attribute [local instance] lp64

theorem tenSought_run : (cnseek ((0 : Nat) : Int) 10 fileOpened.fs).map Prod.fst = some 0 ∧
    (fileOpened.fs.cwd.bind fun h => cnstat h [102]).map Prod.fst =
      some (some (fileOpened.fs.fdTbl 0).inodeId) ∧
    (fileOpened.fs.fdTbl 0).inode.size < (fileOpened.fs.fdTbl 0).cursor + 10 ∧
    newBlocks (fileOpened.fs.fdTbl 0).inode
      (((fileOpened.fs.fdTbl 0).cursor + 10).toNat / 4096 + 1) ≤
      Pool.block.free fileOpened.fs.vol := by decide +kernel

theorem seek_gap_ten : ∃ (h : DirPtr) (s' : Fs), fileOpened.fs.cwd = some h ∧
    cnseek 0 10 fileOpened.fs = some (0, s') ∧
    (ReadsZeros s' 0 h [102] FD_READ 0 10 ↔
      GapClear fileOpened.fs (fileOpened.fs.fdTbl 0) 10) := by
  obtain ⟨returns, stats, more, enough⟩ := tenSought_run
  obtain ⟨⟨_, s'⟩, run, rfl⟩ := Option.map_eq_some_iff.mp returns
  obtain ⟨⟨_, next⟩, stat, rfl⟩ := Option.map_eq_some_iff.mp stats
  obtain ⟨h, here, stat⟩ := Option.bind_eq_some_iff.mp stat
  have opened := fileOpened_writeOpen
  have cursor : (fileOpened.fs.fdTbl 0).cursor = 0 := UInt32.toNat_inj.mp opened.cursor
  have size : (fileOpened.fs.fdTbl 0).inode.size.toNat = 0 := opened.size
  have ok : SeekOk fileOpened.fs ((0 : Nat) : Int) 10 := fun n slot _ => by
    obtain ⟨same, _⟩ := fdSlot_eq slot
    obtain rfl : n = 0 := by omega
    exact ⟨by rw [opened.mode]; decide, fun _ => enough⟩
  have exactly := seek_gap emptyBooted_eq (.single emptyBooted_sane fileOpened_eq) ok run more stat
    FD_READ
  rw [cursor, size, UInt32.zero_add] at exactly
  exact ⟨h, s', here, run, exactly⟩

/-- A device that was used before: block 104 holds sevens. -/
def usedStart : Fs :=
  Fs.started (fun b => if b = 104 then fun _ => 7 else Block.zero)
    ⟨fun _ => none, fun _ => 0, fun _ => none, .full⟩

theorem usedStart_boots : (boot usedStart).isSome := by decide +kernel

def usedBooted : Session := (boot usedStart).get usedStart_boots

def usedOpened : Session := usedBooted.after (.openFile .cwd [102] FD_WRITE)
def usedSought : Session := usedOpened.after (.seek 0 10)

theorem usedSought_run : lookup usedBooted.fs.vol.disk 0 [102] = none ∧
    Pool.inode.free usedBooted.fs.vol ≠ 0 ∧
    (usedBooted.step (.openFile .cwd [102] FD_WRITE)).isSome ∧
    (usedOpened.step (.seek 0 10)).isSome ∧
    (usedOpened.fs.fdTbl 0).state = FD_WRITE ∧
    (usedOpened.fs.fdTbl 0).inode.size = 0 ∧ (usedOpened.fs.fdTbl 0).cursor = 0 ∧
    newBlocks (usedOpened.fs.fdTbl 0).inode 1 ≤ Pool.block.free usedOpened.fs.vol := by decide +kernel

theorem usedAgain_run :
    (usedOpened.fs.cwd.bind fun h => cnstat h [102]).map Prod.fst =
      some (some (usedOpened.fs.fdTbl 0).inodeId) ∧
    ((usedOpened.fs.cwd.bind fun h => (cnclose 0 usedSought.fs).bind fun closed =>
      cnopen h [102] FD_READ closed.2).map fun opened =>
        (opened.1, (cachedBytes (opened.2.2.fdTbl 0))[0]?)) = some (0, some 7) := by decide +kernel

/-- The file shows the first byte that block 104 had before the file system was made. -/
theorem seek_gap_used : ∃ (usedBooted s : Session) (r : Reply) (h next : DirPtr) (s' : Fs),
    boot usedStart = some usedBooted ∧
    Steps Session.step Sane usedBooted [(.openFile .cwd [102] FD_WRITE, r)] s ∧
    SeekOk s.fs 0 10 ∧ (s.fs.fdTbl 0).state = FD_WRITE ∧
    (s.fs.fdTbl 0).inode.size = 0 ∧ (s.fs.fdTbl 0).cursor = 0 ∧
    cnseek 0 10 s.fs = some (0, s') ∧
    cnstat h [102] = some (some (s.fs.fdTbl 0).inodeId, next) ∧
    ¬ ReadsZeros s' 0 h [102] FD_READ 0 10 := by
  obtain ⟨missing, free, opens, seeks, mode, size, cursor, enough⟩ := usedSought_run
  obtain ⟨stats, reads⟩ := usedAgain_run
  obtain ⟨⟨_, next⟩, stat, rfl⟩ := Option.map_eq_some_iff.mp stats
  obtain ⟨h, here, stat⟩ := Option.bind_eq_some_iff.mp stat
  have booted : boot usedStart = some usedBooted := (Option.some_get _).symm
  have ok : SeekOk usedOpened.fs 0 10 := fun n slot _ => by
    obtain ⟨same, _⟩ := fdSlot_eq slot
    obtain rfl : n = 0 := by omega
    refine ⟨by rw [mode]; decide, fun _ => ?_⟩
    rw [cursor]
    exact enough
  obtain ⟨run, _, _⟩ := Session.global_eq (Session.after_eq seeks)
  rcases cnseek_grows
    (show cnseek ((0 : Nat) : Int) 10 usedOpened.fs = some (_, usedSought.fs) from run) (by decide)
    with ⟨refused, _⟩ | ⟨code, _⟩
  · have few := refused.large
    rw [cursor] at few
    exact absurd few (by decide)
  rw [code] at run
  refine ⟨usedBooted, usedOpened, _, h, next, usedSought.fs, booted,
    .single (boot_opensF booted missing free) (Session.after_eq opens), ok, mode, size, cursor, run,
    stat, ?_⟩
  rintro ⟨closed, n, next', s', closes, again, _, _, zeros⟩
  rw [here, Option.bind_some, show (0 : Int) = ((0 : Nat) : Int) from rfl, closes,
    Option.bind_some, again, Option.map_some] at reads
  obtain ⟨same, seven⟩ := Prod.mk.inj (Option.some.inj reads)
  obtain rfl : n = 0 := Int.ofNat_inj.mp same
  exact absurd (seven.symm.trans (zeros 0 (Nat.le_refl 0) (by decide))) (by decide)

end Lp64

end CdnwSh
