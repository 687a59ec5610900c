import CdnwSh.Allocation

/-! Whole-file transfers against each other: `llwrite` scatters a buffer over the blocks of a
file, `llread` gathers it again. The indirect block is read in the middle of either, from the
disk that is being written. -/
namespace CdnwSh

open ByteMemory

/-- All block numbers that a file of `blocks` blocks holds: its data blocks in order and, behind
eight of them, the indirect block. -/
def filePointers (d : Disk) (st : Inode) : List Iptr :=
  blockList d st ++ if 8 < st.blocks.toNat then [st.data1] else []

/-- A file as transfers need it: at most 1032 blocks, all of them different and on the device. -/
structure OnDevice (d : Disk) (st : Inode) : Prop where
  few : st.blocks.toNat ≤ 8 + 1024
  distinct : (filePointers d st).Nodup
  inside : ∀ ptr ∈ filePointers d st, ptr < bdSizeBlocks

/-- The blocks at the beginning of two buffers are the same. -/
def SameBlocks (n : Nat) (buf buf' : Buf) : Prop := ∀ j, j < 4096 * n → buf'.mem j = buf.mem j

section
variable {d : Disk} {st : Inode} {buf : Buf}

theorem OnDevice.nodup (file : OnDevice d st) : (blockList d st).Nodup :=
  (List.nodup_append.mp file.distinct).1

theorem OnDevice.single (file : OnDevice d st) (many : 8 < st.blocks.toNat) :
    st.data1 ∉ blockList d st := by
  have distinct := file.distinct
  rw [filePointers, if_pos many] at distinct
  intro member
  exact (List.nodup_append.mp distinct).2.2 _ member _ List.mem_cons_self rfl

theorem OnDevice.transfers (file : OnDevice d st) : Inside d st where
  few := file.few
  blocks := fun ptr member => UInt32.lt_iff_toNat_lt.mp (file.inside ptr (List.mem_append_left _ member))
  single := fun many => by
    refine UInt32.lt_iff_toNat_lt.mp (file.inside st.data1 (List.mem_append_right _ ?_))
    rw [if_pos many]
    exact List.mem_cons_self

theorem OnDevice.llwrite_eq (file : OnDevice d st) (bound : 4096 * st.blocks.toNat ≤ buf.size) :
    llwrite d st buf = some (Extents.scatter d (blockList d st) buf.mem 0) :=
  CdnwSh.llwrite_eq file.transfers bound fun many member =>
    file.single many (List.mem_append_left _ member)

/-- The pointers that a write follows are the ones that it leaves. -/
theorem OnDevice.written (file : OnDevice d st) :
    blockList (Extents.scatter d (blockList d st) buf.mem 0) st = blockList d st :=
  blockList_congr fun many => Extents.scatter_out (file.single many)

theorem OnDevice.after (file : OnDevice d st) (buf : Buf) :
    OnDevice (Extents.scatter d (blockList d st) buf.mem 0) st := by
  refine ⟨file.few, ?_, ?_⟩
  · rw [filePointers, file.written]
    exact file.distinct
  · rw [filePointers, file.written]
    exact file.inside

end

/-- For every file and every buffer of its size: what was written is read back, a write changes
the data blocks only, and writing back what was read leaves the disk as it was. -/
theorem transfers_undo {d : Disk} {st : Inode} (file : OnDevice d st) (buf target : Buf)
    (size : buf.size = 4096 * st.blocks.toNat) (room : target.size = 4096 * st.blocks.toNat) :
    (∃ d' out, llwrite d st buf = some d' ∧ llread d' st target = some out ∧
      out.size = buf.size ∧ SameBlocks st.blocks.toNat buf out ∧
      (∀ b, b ∉ blockList d st → d' b = d b) ∧
      (8 < st.blocks.toNat → d' st.data1 = d st.data1)) ∧
    ∃ out, llread d st target = some out ∧ llwrite d st out = some d := by
  constructor
  · have after := file.after buf
    have outside {b : UInt32} (apart : b ∉ blockList d st) :
        Extents.scatter d (blockList d st) buf.mem 0 b = d b := Extents.scatter_out apart
    refine ⟨_, _, file.llwrite_eq (by omega), llread_into after.transfers (by omega),
      room.trans size.symm, fun j low => ?_, fun b => outside, fun many => outside (file.single many)⟩
    dsimp only
    rw [if_pos low, file.written]
    exact Extents.gather_scatter file.nodup (by rw [length_blockList]; exact low)
  · refine ⟨_, llread_into file.transfers (by omega), ?_⟩
    rw [file.llwrite_eq (by dsimp only; omega)]
    have read (j : Nat) (low : j < 4096 * (blockList d st).length) :
        (if j < 4096 * st.blocks.toNat then Extents.gather 0 d (blockList d st) j else target.mem j) =
          Extents.gather 0 d (blockList d st) j := by
      rw [length_blockList] at low
      exact if_pos low
    exact congrArg some (Extents.scatter_gather file.nodup read)

def nineBlocks : Inode :=
  { Inode.zero with blocks := 9, data0 := #v[200, 201, 202, 203, 204, 205, 206, 207], data1 := 208 }

def nineDisk : Disk := Extents.set (fun _ => Block.zero) 208 (setIndirect Block.zero 0 209)

theorem nineBlocks_onDevice : OnDevice nineDisk nineBlocks := by
  have entry : indirect (nineDisk 208) 0 = 209 := by decide +kernel
  have pointers : filePointers nineDisk nineBlocks =
      [200, 201, 202, 203, 204, 205, 206, 207, 209, 208] := by
    change [200, 201, 202, 203, 204, 205, 206, 207, indirect (nineDisk 208) 0, 208] = _
    rw [entry]
  have small : [200, 201, 202, 203, 204, 205, 206, 207, 209, 208].all (· < bdSizeBlocks) = true := by
    decide
  refine ⟨by decide, ?_, fun ptr member => ?_⟩
  · rw [pointers]
    decide
  · rw [pointers] at member
    exact of_decide_eq_true (List.all_eq_true.mp small ptr member)

theorem transfers_undo_nine : ∃ d' out,
    llwrite nineDisk nineBlocks ⟨4096 * 9, fun _ => 7⟩ = some d' ∧
    llread d' nineBlocks (callocBlocks 9) = some out ∧ out.mem 36863 = 7 := by
  obtain ⟨⟨d', out, writes, reads, _, same, _⟩, _⟩ :=
    transfers_undo nineBlocks_onDevice ⟨4096 * 9, fun _ => 7⟩ (callocBlocks 9) rfl rfl
  exact ⟨d', out, writes, reads, same 36863 (by decide)⟩

end CdnwSh
