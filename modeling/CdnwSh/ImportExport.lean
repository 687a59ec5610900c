import CdnwSh.Lookup

/-! `cnexport` asks `cnread` for the whole file and gets one byte less; an empty file is
read completely, but then nothing is written to the host. Both count as errors. -/
namespace CdnwSh

section
variable [InodeLayout]

def ImportExportIdentity (s : Fs) (h g h2 : Name) : Prop :=
  ∃ s₁ s₂, cnimport h g s = some (0, s₁) ∧ cnexport g h2 s₁ = some (0, s₂) ∧
    s₂.host.files h2 = s.host.files h

omit [InodeLayout] in
theorem cnread_short {s : Fs} (slot : fdSlot fd = some n) (state : (s.fdTbl n).state = FD_READ)
    (start : (s.fdTbl n).cursor = 0) (read : cnread bytes fd s = some (out, s')) :
    out.length = min bytes ((s.fdTbl n).inode.size - 1).toNat := by
  obtain ⟨k, slot', ⟨other, _⟩ | ⟨_, _, length, _⟩⟩ := cnread_eq read
  all_goals obtain rfl : n = k := Option.some.inj (slot.symm.trans slot')
  · exact absurd state other
  · rw [length, start]
    rfl

theorem cnexport_code {s s' : Fs} (exported : cnexport g h s = some (code, s')) : code ≠ 0 := by
  obtain ⟨room, dir, fd, dir₁, s₁, _, _, _, opened, _, rest⟩ := cnexport_eq exported
  rcases rest with ⟨rfl, _⟩ | ⟨valid, i, _, inode, bytes, _, found, onDisk, read, reading⟩
  · decide
  rcases reading with ⟨rfl, _⟩ | ⟨whole, _, rfl⟩
  · decide
  rcases cnopen_read opened with ⟨rfl, _⟩ | ⟨inodeId, stat, run⟩
  · exact absurd (by decide) valid
  obtain ⟨n, fdBm, inode', data, rfl, bound, _, _, onDisk', _, rfl⟩ := openFd_eq run
  rw [cnstat_again stat] at found
  cases found
  obtain rfl : inode' = inode := Option.some.inj (onDisk'.symm.trans onDisk)
  have slot : fdSlot (n : Int) = some n := by
    rw [fdSlot, if_pos (by omega), Int.toNat_natCast]
  have short := cnread_short slot (by simp [Fs.setFd]) (by simp [Fs.setFd]) read
  simp only [Fs.setFd, if_true] at short
  -- one byte is missing unless there are none
  have empty : bytes.length = 0 := by
    have one : (1 : UInt32).toNat = 1 := rfl
    by_contra some
    have sub : (inode'.size - 1).toNat = inode'.size.toNat - 1 := by
      rw [UInt32.toNat_sub_of_le _ _ (UInt32.le_iff_toNat_le.mpr (by rw [one]; omega)), one]
    omega
  rw [if_pos (by simp [empty])]
  decide

/-- Import followed by export is the identity on no content, from no state. -/
theorem importExport_never (s : Fs) (h g h2 : Name) : ¬ ImportExportIdentity s h g h2 := by
  rintro ⟨s₁, s₂, _, exported, _⟩
  exact cnexport_code exported rfl

end

section Lp64
attribute [local instance] lp64

def oneByteHost : Host := ⟨fun _ => some [7], fun _ => 1, fun _ => some 1, .full⟩

theorem importExport_one_byte :
    (do let s ← boot (Fs.started (fun _ => Block.zero) oneByteHost)
        let (imported, s) ← cnimport [104] [103] s.fs
        let (exported, _) ← cnexport [103] [50] s
        return (imported, exported)) = some (0, -1) := by decide +kernel

end Lp64

end CdnwSh
