import CdnwSh.Library.PartialRun
import CdnwSh.Seeks
import CdnwSh.Reads

/-! The numbers of one descriptor over runs of `cnread`, `cnwrite` and `cnseek` through it: the
cursor within the size, the size within the blocks, the blocks in the cache. They depend on
nothing but the descriptor, whatever the allocator answers. -/
namespace CdnwSh

open ByteMemory PartialRun

/-- Cursor, size, blocks and cache as they are to be after every call. -/
structure InBounds (fde : FdEntry) : Prop where
  cursor : fde.cursor.toNat ≤ fde.inode.size.toNat
  size : fde.inode.size.toNat ≤ 4096 * fde.inode.blocks.toNat
  cache : (dataBuf fde.data).size = 4096 * fde.inode.blocks.toNat

/-- The blocks of a descriptor are those that `cnwrite` and `cnseek` count for its size. -/
structure Bounded (fde : FdEntry) : Prop where
  cursor : fde.cursor.toNat ≤ fde.inode.size.toNat
  blocks : fde.inode.blocks.toNat = blocksFor fde.inode.size.toNat
  cache : (dataBuf fde.data).size = 4096 * fde.inode.blocks.toNat

inductive FdCall where
  | read (bytes : Nat)
  | write (buf : List UInt8)
  | seek (offset : UInt32)

section
variable [InodeLayout]

def fdStep (fd : Nat) (s : Fs) : FdCall → Option (Int × Fs)
  | .read bytes => do
    let (out, s) ← cnread bytes fd s
    return ((out.length : Int), s)
  | .write buf => do
    let (count, s) ← cnwrite buf fd s
    return ((count : Int), s)
  | .seek offset => cnseek fd offset s

end

/-- The size a call needs, the sum of cursor and length or offset; a read needs none. -/
def requiredSize (fde : FdEntry) : FdCall → Nat
  | .read _ => 0
  | .write buf => fde.cursor.toNat + buf.length
  | .seek offset => fde.cursor.toNat + offset.toNat

/-- Reads of some bytes start before the end of the file, and no sum of the cursor and a length
or an offset reaches 2^32. -/
def CallFits (fde : FdEntry) (call : FdCall) : Prop :=
  requiredSize fde call < 2 ^ 32 ∧
    ∀ bytes, call = .read bytes → fde.state = FD_READ → bytes = 0 ∨
      fde.cursor.toNat < fde.inode.size.toNat

def bytesToRead (fde : FdEntry) (bytes : Nat) : Nat :=
  min bytes (fde.inode.size - (fde.cursor + 1)).toNat

/-- The bytes that a call copies lie in the cache: those of a read, those that a growing cache is
filled with, and those of a write, in the cache of the size it is written to. -/
def CopiesInside (fde : FdEntry) : FdCall → Prop
  | .read bytes => fde.state = FD_READ →
      fde.cursor.toNat + bytesToRead fde bytes ≤ (dataBuf fde.data).size
  | .write buf => fde.inode.size.toNat ≤ (dataBuf fde.data).size ∧
      fde.cursor.toNat + buf.length ≤
        4096 * blocksFor (max fde.inode.size.toNat (fde.cursor.toNat + buf.length))
  | .seek _ => fde.inode.size.toNat ≤ (dataBuf fde.data).size

section
variable {fde fde' : FdEntry} {fd : Nat}

theorem Bounded.inBounds (bounded : Bounded fde) : InBounds fde :=
  ⟨bounded.cursor, by rw [bounded.blocks]; exact size_le_blocks, bounded.cache⟩

theorem Bounded.copies (bounded : Bounded fde) (fits : CallFits fde call) : CopiesInside fde call := by
  have cached : fde.inode.size.toNat ≤ (dataBuf fde.data).size := by
    rw [bounded.cache]
    exact bounded.inBounds.size
  cases call with
  | read bytes =>
    intro mode
    have left := left_eq fde.inode.size fde.cursor bounded.cursor
    have cursor := bounded.cursor
    rw [bytesToRead, left]
    rcases fits.2 bytes rfl mode with rfl | inside
    · omega
    · rw [if_pos inside]
      omega
  | write buf => exact ⟨cached, Nat.le_trans (Nat.le_max_right _ _) size_le_blocks⟩
  | seek offset => exact cached

theorem FdResized.bounded {required cursor : UInt32} (resized : FdResized fde required fde')
    (bounded : Bounded fde) (more : fde.inode.size.toNat < required.toNat)
    (data : (dataBuf data').size = (dataBuf fde'.data).size) (within : cursor.toNat ≤ required.toNat) :
    Bounded { fde' with data := data', cursor := cursor } := by
  have old := blocksFor_mono (Nat.le_of_lt more)
  rw [← bounded.blocks, blocksFor_pos (by omega)] at old
  have blocks : fde'.inode.blocks.toNat = required.toNat / 4096 + 1 := by
    rw [resized.blocks]
    exact Nat.max_eq_right old
  refine ⟨by rw [resized.size]; exact within, ?_, ?_⟩
  · rw [blocks, resized.size, blocksFor_pos (by omega)]
  · rw [data, resized.cache, blocks]

variable [InodeLayout] {s s' : Fs}

theorem Bounded.step (bounded : Bounded (s.fdTbl fd)) (slot : fd < 1024)
    (fits : CallFits (s.fdTbl fd) call) (run : fdStep fd s call = some (r, s')) :
    Bounded (s'.fdTbl fd) := by
  obtain ⟨small, reads⟩ := fits
  cases call with
  | read bytes =>
    rw [fdStep] at run
    obtain ⟨⟨out, s₁⟩, read, run⟩ := Option.bind_eq_some_iff.mp run
    cases run
    have cursor := bounded.cursor
    have left := left_eq (s.fdTbl fd).inode.size (s.fdTbl fd).cursor cursor
    obtain ⟨n, number, effect⟩ := cnread_eq read
    obtain rfl : fd = n := Int.ofNat_inj.mp (fdSlot_eq number).1
    rcases effect with ⟨_, _, rfl⟩ | ⟨mode, _, length, rfl⟩
    · exact bounded
    · have room := reads bytes rfl mode
      have bound := (s.fdTbl fd).inode.size.toNat_lt
      have count : (UInt32.ofNat out.length).toNat ≤
          (s.fdTbl fd).inode.size.toNat - (s.fdTbl fd).cursor.toNat := by
        rw [UInt32.toNat_ofNat', length, left]
        rcases room with rfl | inside
        · omega
        · rw [if_pos inside]
          omega
      rw [setFd_same]
      refine ⟨?_, bounded.blocks, bounded.cache⟩
      change ((s.fdTbl fd).cursor + _).toNat ≤ (s.fdTbl fd).inode.size.toNat
      rw [UInt32.toNat_add]
      omega
  | write buf =>
    rw [fdStep] at run
    obtain ⟨⟨count, s₁⟩, writes, run⟩ := Option.bind_eq_some_iff.mp run
    cases run
    obtain ⟨n, number, effect⟩ := cnwrite_eq writes
    obtain rfl : fd = n := Int.ofNat_inj.mp (fdSlot_eq number).1
    rcases effect with ⟨_, _, rfl⟩ | ⟨_, fde, s₂, data, d, grows, stored, _, _, rfl⟩
    · exact bounded
    · obtain ⟨_, size, _⟩ := writeData_some stored
      change (s.fdTbl fd).cursor.toNat + buf.length < 2 ^ 32 at small
      have required : (UInt32.ofNat ((s.fdTbl fd).cursor.toNat + buf.length)).toNat =
          (s.fdTbl fd).cursor.toNat + buf.length := UInt32.toNat_ofNat_of_lt' small
      have moved : ((s.fdTbl fd).cursor + UInt32.ofNat buf.length).toNat =
          (s.fdTbl fd).cursor.toNat + buf.length := by
        rw [UInt32.toNat_add, UInt32.toNat_ofNat']
        omega
      change Bounded ((s₂.setFd fd { fde with data := data, cursor := _ }).fdTbl fd)
      rw [setFd_same]
      rcases growFd_resized grows with ⟨enough, rfl, _⟩ | ⟨less, resized, _⟩
      · have low := mt UInt32.lt_iff_toNat_lt.mpr enough
        refine ⟨?_, bounded.blocks, size.trans bounded.cache⟩
        change ((s.fdTbl fd).cursor + _).toNat ≤ (s.fdTbl fd).inode.size.toNat
        omega
      · have cursor : fde.cursor = (s.fdTbl fd).cursor := by rw [resized.same]
        exact resized.bounded bounded (UInt32.lt_iff_toNat_lt.mp less) size
          (by rw [cursor, moved, required])
  | seek offset =>
    change (s.fdTbl fd).cursor.toNat + offset.toNat < 2 ^ 32 at small
    rcases cnseek_grows run slot with ⟨_, _, rfl⟩ | ⟨_, fde, s₁, grows, entry, _⟩
    · exact bounded
    have sum : ((s.fdTbl fd).cursor + offset).toNat = (s.fdTbl fd).cursor.toNat + offset.toNat := by
      rw [UInt32.toNat_add]
      omega
    rw [entry]
    rcases growFd_resized grows with ⟨enough, rfl, _⟩ | ⟨less, resized, _⟩
    · have low := mt UInt32.lt_iff_toNat_lt.mpr enough
      refine ⟨?_, bounded.blocks, bounded.cache⟩
      change offset.toNat ≤ (s.fdTbl fd).inode.size.toNat
      omega
    · exact resized.bounded bounded (UInt32.lt_iff_toNat_lt.mp less) rfl (by omega)

/-- In every run of calls that fit through an open descriptor, the numbers are in bounds in every
state, and every call copies within the cache. -/
theorem descriptor_bounds (slot : fd < 1024) (bounded : Bounded (s.fdTbl fd))
    (steps : Steps (fdStep fd) (fun s call => CallFits (s.fdTbl fd) call) s trace s') :
    InBounds (s'.fdTbl fd) ∧ ∀ first call r rest, trace = first ++ (call, r) :: rest → ∃ m,
      Steps (fdStep fd) (fun s call => CallFits (s.fdTbl fd) call) s first m ∧
      CopiesInside (m.fdTbl fd) call := by
  have run {trace : List (FdCall × Int)} {m : Fs}
      (steps : Steps (fdStep fd) (fun s call => CallFits (s.fdTbl fd) call) s trace m) :
      Bounded (m.fdTbl fd) :=
    steps.invariant (fun s => Bounded (s.fdTbl fd))
      (fun _ _ _ _ bounded fits moved => bounded.step slot fits moved) bounded
  refine ⟨(run steps).inBounds, ?_⟩
  rintro first call r rest rfl
  obtain ⟨m, sofar, others⟩ := steps.split
  cases others with
  | cons fits _ _ => exact ⟨m, sofar, (run sofar).copies fits⟩

theorem FdOpened.bounded (opened : FdOpened s i mode n st s') (sound : Sound s' own node)
    (file : node i = some .file) : Bounded (s'.fdTbl n) := by
  have there := opened.fileAt sound file
  have inode : (s'.fdTbl n).inode = st := by rw [opened.entry]
  exact ⟨by rw [opened.entry]; exact Nat.zero_le _, by rw [inode]; exact there.blocks,
    by rw [opened.data, inode]⟩

theorem OpenFile.bounded (opened : OpenFile s own fd a) : Bounded (s.fdTbl fd) := by
  refine ⟨?_, opened.blocks, opened.cache⟩
  rw [opened.cursor, ← opened.length]
  exact opened.within

end

section Lp64
attribute [local instance] lp64

theorem fileOpened_bounded : Bounded (fileOpened.fs.fdTbl 0) := by
  obtain ⟨_, _, inv⟩ := fileOpened_inv
  exact (fileOpened_writeOpen.openFile inv.sound.holds.consistent).bounded

theorem threeWritten_bounded : Bounded (threeWritten.fs.fdTbl 0) := by
  obtain ⟨⟨_, consistent⟩, opened⟩ := threeWritten_writeOpen
  exact (opened.openFile consistent).bounded

theorem fdStep_three : fdStep 0 fileOpened.fs (.write [1, 2, 3]) = some (3, threeWritten.fs) := by
  obtain ⟨⟨count, fs⟩, writes, rest⟩ := Option.bind_eq_some_iff.mp
    (show ((cnwrite [1, 2, 3] 0 fileOpened.fs).bind fun x =>
      some ((⟨(x.1 : Int), []⟩ : Reply), ({ fileOpened with fs := x.2 } : Session))) = some _
      from threeWritten_eq)
  rw [Option.some.injEq, Prod.mk.injEq] at rest
  have count : count = 3 := by
    have returned : (cnwrite [1, 2, 3] 0 fileOpened.fs).map Prod.fst = some 3 := by decide +kernel
    rw [writes] at returned
    exact Option.some.inj returned
  rw [fdStep, show ((0 : Nat) : Int) = 0 from rfl, writes, ← rest.2, count]
  rfl

theorem descriptor_bounds_three : InBounds (threeWritten.fs.fdTbl 0) :=
  (descriptor_bounds (by decide) fileOpened_bounded
    (.single ⟨by decide +kernel, fun _ other => by cases other⟩ fdStep_three)).1

theorem threeWritten_back : ((cnseek 0 4294967295 threeWritten.fs).map fun x =>
    decide (x.1 = 0 ∧ (x.2.fdTbl 0).inode.size < (x.2.fdTbl 0).cursor)) = some true := by
  decide +kernel

/-- A seek by -1 from the end of a file of three bytes leaves the cursor at 2^32 - 1. -/
theorem descriptor_bounds_back : Bounded (threeWritten.fs.fdTbl 0) ∧
    ∃ s', Steps (fdStep 0) (fun _ _ => True) threeWritten.fs [(.seek 4294967295, 0)] s' ∧
      ¬ InBounds (s'.fdTbl 0) := by
  refine ⟨threeWritten_bounded, ?_⟩
  obtain ⟨⟨code, s'⟩, run, beyond⟩ := Option.map_eq_some_iff.mp threeWritten_back
  obtain ⟨done, less⟩ := of_decide_eq_true beyond
  refine ⟨s', .single trivial ?_, fun inside => ?_⟩
  · rw [fdStep, show ((0 : Nat) : Int) = 0 from rfl, run, ← done]
  · have low := inside.cursor
    have high := UInt32.lt_iff_toNat_lt.mp less
    dsimp only at high
    omega

end Lp64

end CdnwSh
