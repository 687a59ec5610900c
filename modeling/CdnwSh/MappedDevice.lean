import CdnwSh.Library.KeyedStore
import CdnwSh.Library.PartialRun
import CdnwSh.Blockdev

/-! The block device as `blockdev.c` has it: `blk_read` and `blk_write` copy blocks out of and
into the mapping of `BD_SIZE_BYTES` bytes. `Disk` shows this memory by block numbers. Their
check lets one number too many through, whose block lies right behind the mapping. -/
namespace CdnwSh

open ByteMemory KeyedStore PartialRun

def bdSizeBytes : Nat := 4096 * bdSizeBlocks.toNat

def blockOffset (lba : UInt32) : Nat := 4096 * lba.toNat

def InMapping (lba : UInt32) : Prop := blockOffset lba + 4096 ≤ bdSizeBytes

instance (lba : UInt32) : Decidable (InMapping lba) := inferInstanceAs (Decidable (_ ≤ _))

namespace Mapping

/-- A null `b_ptr` is `none`. -/
def blkRead (bd : Bytes) (lba : UInt32) (bPtr : Option Block) : Option (Int × Option Block) :=
  match bPtr with
  | none => some (-1, none)
  | some buf =>
    if lba > bdSizeBlocks then some (-1, some buf)
    else if InMapping lba then some (0, some (Block.ofMem bd (blockOffset lba)))
    else none

/-- `msync` does not change the mapping. -/
def blkWrite (bd : Bytes) (lba : UInt32) (bPtr : Option Block) : Option (Int × Bytes) :=
  match bPtr with
  | none => some (-1, bd)
  | some blk =>
    if lba > bdSizeBlocks then some (-1, bd)
    else if InMapping lba then some (0, copy bd (blockOffset lba) blk.mem 4096)
    else none

def disk (bd : Bytes) : Disk := fun lba => Block.ofMem bd (blockOffset lba)

end Mapping

theorem inMapping_iff {lba : UInt32} : InMapping lba ↔ lba.toNat < 25600 := by
  have size : bdSizeBytes = 4096 * 25600 := rfl
  rw [InMapping, blockOffset, size]
  omega

theorem outside_iff {lba : UInt32} : lba > bdSizeBlocks ↔ 25600 < lba.toNat := UInt32.lt_iff_toNat_lt

theorem last_iff {lba : UInt32} : lba = bdSizeBlocks ↔ lba.toNat = 25600 := by
  rw [← UInt32.toNat_inj]
  rfl

section
variable {bd bd' : Bytes} {lba other : UInt32} {blk buf : Block}

/-- A block that was copied in is read back, and no other block has changed. -/
theorem disk_copy : Mapping.disk (copy bd (blockOffset lba) blk.mem 4096) =
    Extents.set (Mapping.disk bd) lba blk := by
  funext other i
  have bound := i.isLt
  rw [Mapping.disk, Block.ofMem]
  by_cases same : other = lba
  · rw [same, Extents.set_same, copy_at bound, Block.mem_apply _ bound]
  · have apart : other.toNat ≠ lba.toNat := fun h => same (UInt32.toNat_inj.mp h)
    rw [Extents.set_other same, Mapping.disk, Block.ofMem]
    apply copy_out
    unfold blockOffset
    omega

theorem mapping_blkRead : Mapping.blkRead bd lba (some buf) =
    (blkRead (Mapping.disk bd) lba buf).map fun (code, blk) => (code, some blk) := by
  rw [Mapping.blkRead, blkRead]
  simp only [outside_iff, inMapping_iff, last_iff]
  split
  · rfl
  · split
    next inside => rw [if_neg (by omega)]; rfl
    next => rw [if_pos (by omega)]; rfl

theorem mapping_blkWrite :
    (Mapping.blkWrite bd lba (some blk)).map (fun (code, bd') => (code, Mapping.disk bd')) =
      blkWrite (Mapping.disk bd) lba blk := by
  rw [Mapping.blkWrite, blkWrite]
  simp only [outside_iff, inMapping_iff, last_iff]
  split
  · rfl
  · split
    next inside =>
      rw [if_neg (by omega), ← disk_copy]
      rfl
    next => rw [if_pos (by omega)]; rfl

end

inductive DeviceCall where
  | read (lba : UInt32) (buf : Block)
  | write (lba : UInt32) (blk : Block)

def DeviceCall.lba : DeviceCall → UInt32
  | read lba _ => lba
  | write lba _ => lba

def DeviceCall.block : DeviceCall → Block
  | read _ buf => buf
  | write _ blk => blk

/-- What is returned, and what the call leaves in its block. -/
abbrev DeviceReply := Int × Option Block

def deviceStep (bd : Bytes) : DeviceCall → Option (DeviceReply × Bytes)
  | .read lba buf => do
    let reply ← Mapping.blkRead bd lba (some buf)
    return (reply, bd)
  | .write lba blk => do
    let (code, bd) ← Mapping.blkWrite bd lba (some blk)
    return ((code, some blk), bd)

/-- The blocks that a row of calls writes on the device. -/
def writesOf (calls : List DeviceCall) : List (UInt32 × Block) :=
  calls.filterMap fun
    | .read _ _ => none
    | .write lba blk => if lba.toNat < 25600 then some (lba, blk) else none

def initialBlocks (bd : Bytes) (lba : UInt32) : Option Block := some (Mapping.disk bd lba)

/-- In a row of calls each is answered as by a store of the blocks on the device: it fails and
changes nothing just when its number is outside, otherwise it stays within the mapping, and a
read then returns what was written last under its number. -/
def BoundedStore (bd : Bytes) (calls : List DeviceCall) : Prop :=
  ∀ before c after, calls = before ++ c :: after →
    ∃ replies mid code blk mid', run deviceStep bd before = some (replies, mid) ∧
      deviceStep mid c = some ((code, blk), mid') ∧
      (code = -1 ∧ mid' = mid ∧ blk = some c.block ↔ ¬ c.lba < bdSizeBlocks) ∧
      (code ≠ -1 → InMapping c.lba) ∧
      ∀ lba buf, c = .read lba buf → code ≠ -1 →
        blk = lastWritten (initialBlocks bd) (writesOf before) lba

section
variable {bd mid : Bytes} {calls : List DeviceCall} {c : DeviceCall} {lba : UInt32}

theorem deviceStep_outside (outside : 25600 < c.lba.toNat) :
    deviceStep bd c = some ((-1, some c.block), bd) := by
  cases c with
  | read lba buf =>
    rw [deviceStep, Mapping.blkRead, if_pos (show lba > bdSizeBlocks from outside_iff.mpr outside)]
    rfl
  | write lba blk =>
    rw [deviceStep, Mapping.blkWrite, if_pos (show lba > bdSizeBlocks from outside_iff.mpr outside)]
    rfl

/-- The number right behind the device passes the check. -/
theorem deviceStep_last (last : c.lba.toNat = 25600) : deviceStep bd c = none := by
  have notOut : ¬ c.lba > bdSizeBlocks := fun out => by have := outside_iff.mp out; omega
  have notIn : ¬ InMapping c.lba := fun inside => by have := inMapping_iff.mp inside; omega
  cases c with
  | read lba buf =>
    rw [deviceStep, Mapping.blkRead, if_neg (show ¬ lba > bdSizeBlocks from notOut),
      if_neg (show ¬ InMapping lba from notIn)]
    rfl
  | write lba blk =>
    rw [deviceStep, Mapping.blkWrite, if_neg (show ¬ lba > bdSizeBlocks from notOut),
      if_neg (show ¬ InMapping lba from notIn)]
    rfl

theorem deviceStep_read (inside : lba.toNat < 25600) (buf : Block) :
    deviceStep bd (.read lba buf) = some ((0, some (Mapping.disk bd lba)), bd) := by
  rw [deviceStep, mapping_blkRead, blkRead_inside inside]
  rfl

theorem deviceStep_write (inside : lba.toNat < 25600) (blk : Block) :
    deviceStep bd (.write lba blk) = some ((0, some blk), copy bd (blockOffset lba) blk.mem 4096) := by
  have notOut : ¬ lba > bdSizeBlocks := fun out => by have := outside_iff.mp out; omega
  rw [deviceStep, Mapping.blkWrite, if_neg notOut, if_pos (inMapping_iff.mpr inside)]
  rfl

theorem blocks_faithful : Faithful (fun _ => True) initialBlocks
    fun bd lba blk => some (copy bd (blockOffset lba) blk.mem 4096) where
  written := fun bd bd' lba blk _ wrote => by
    cases wrote
    rw [initialBlocks, disk_copy, Extents.set_same]
  frame := fun bd bd' lba blk other _ _ apart wrote => by
    cases wrote
    rw [initialBlocks, disk_copy, Extents.set_other apart, initialBlocks]

/-- Without the number behind the device every row of calls has an outcome; what it leaves of
the mapping is what its accepted writes leave. -/
theorem device_run (bd : Bytes) (calls : List DeviceCall) (never : ∀ c ∈ calls, c.lba.toNat ≠ 25600) :
    ∃ replies mid, run deviceStep bd calls = some (replies, mid) ∧
      (writesOf calls).foldlM (fun bd w => some (copy bd (blockOffset w.1) w.2.mem 4096)) bd =
        some mid := by
  induction calls generalizing bd with
  | nil => exact ⟨[], bd, rfl, rfl⟩
  | cons c rest ih =>
    have later : ∀ c ∈ rest, c.lba.toNat ≠ 25600 :=
      fun x member => never x (List.mem_cons_of_mem _ member)
    have here := never c List.mem_cons_self
    obtain ⟨reply, next, step, wrote⟩ : ∃ reply next, deviceStep bd c = some (reply, next) ∧
        (writesOf [c]).foldlM (fun bd w => some (copy bd (blockOffset w.1) w.2.mem 4096)) bd =
          some next := by
      by_cases inside : c.lba.toNat < 25600
      · cases c with
        | read lba buf => exact ⟨_, _, deviceStep_read inside buf, rfl⟩
        | write lba blk =>
          change lba.toNat < 25600 at inside
          refine ⟨_, _, deviceStep_write inside blk, ?_⟩
          simp [writesOf, inside]
      · refine ⟨_, _, deviceStep_outside (by omega), ?_⟩
        cases c with
        | read lba buf => rfl
        | write lba blk =>
          change ¬ lba.toNat < 25600 at inside
          simp [writesOf, inside]
    obtain ⟨replies, mid, runs, writes⟩ := ih next later
    refine ⟨reply :: replies, mid, ?_, ?_⟩
    · rw [PartialRun.run, step]
      simp only [Option.bind_eq_bind, Option.bind_some, runs]
      rfl
    · have split : writesOf (c :: rest) = writesOf [c] ++ writesOf rest := by
        rw [writesOf, writesOf, writesOf, ← List.filterMap_append]
        rfl
      rw [split, List.foldlM_append, wrote]
      exact writes

end

/-- A row of calls is answered by a bounded store if and only if none of them names the block
right behind the device. -/
theorem bounded_store (bd : Bytes) (calls : List DeviceCall) :
    BoundedStore bd calls ↔ ∀ c ∈ calls, c.lba ≠ bdSizeBlocks := by
  constructor
  · intro store c member last
    obtain ⟨before, after, rfl⟩ := List.append_of_mem member
    obtain ⟨_, mid, _, _, _, _, step, _⟩ := store before c after rfl
    rw [deviceStep_last (last_iff.mp last)] at step
    cases step
  · intro never before c after split
    subst split
    have others (x) (member : x ∈ before ++ c :: after) : x.lba.toNat ≠ 25600 :=
      fun last => never x member (last_iff.mpr last)
    obtain ⟨replies, mid, runs, writes⟩ := device_run bd before
      fun x member => others x (List.mem_append_left _ member)
    have shows (lba : UInt32) :
        initialBlocks mid lba = lastWritten (initialBlocks bd) (writesOf before) lba :=
      blocks_faithful.run (fun _ _ => trivial) writes trivial
    have here := others c (List.mem_append_right _ List.mem_cons_self)
    have bound : c.lba < bdSizeBlocks ↔ c.lba.toNat < 25600 := UInt32.lt_iff_toNat_lt
    by_cases inside : c.lba.toNat < 25600
    · have accepted : ¬ ((0 : Int) = -1) := by decide
      cases c with
      | read lba buf =>
        refine ⟨replies, mid, _, _, _, runs, deviceStep_read inside buf, ?_,
          fun _ => inMapping_iff.mpr inside, ?_⟩
        · exact iff_of_false (fun fails => accepted fails.1) (not_not.mpr (bound.mpr inside))
        · rintro _ _ ⟨⟩ _
          exact shows lba
      | write lba blk =>
        refine ⟨replies, mid, _, _, _, runs, deviceStep_write inside blk, ?_,
          fun _ => inMapping_iff.mpr inside, ?_⟩
        · exact iff_of_false (fun fails => accepted fails.1) (not_not.mpr (bound.mpr inside))
        · intro _ _ same
          cases same
    · refine ⟨replies, mid, _, _, _, runs, deviceStep_outside (by omega), ?_,
        fun fails => absurd rfl fails,
        fun _ _ _ fails => absurd rfl fails⟩
      exact iff_of_true ⟨rfl, rfl, rfl⟩ fun low => inside (bound.mp low)

/-- The block behind the device is neither refused nor in the mapping. -/
theorem bounded_store_edge : ¬ BoundedStore (fun _ => 0) [.read 25600 Block.zero] := by
  intro store
  obtain ⟨_, mid, _, _, _, _, step, _⟩ := store [] (.read 25600 Block.zero) [] rfl
  rw [deviceStep_last rfl] at step
  cases step

end CdnwSh
