import CdnwSh.Session

/-! What the scanning loops compute on a directory whose bytes are tiled by records, and
what a new descriptor holds. -/
namespace CdnwSh

open ByteMemory RecordList

/-- From the handle's index to the end of the directory lie the records `es`. -/
def DirPtr.Lists (dir : DirPtr) (es : List DirEntry) : Prop :=
  Tiles (entryAt dir.data) DirEntry.entryLen dir.index.toNat dir.inodeSt.size.toNat es

theorem cnreaddir_index (read : cnreaddir dir = some (some (entry, dir'))) :
    ∃ k, dir' = { dir with index := k } := by
  unfold cnreaddir at read
  split at read
  · cases read
  · obtain ⟨e, _, read⟩ := Option.bind_eq_some_iff.mp read
    cases read
    exact ⟨_, rfl⟩

/-- A scan moves the index of the handle and changes nothing else. -/
theorem findNameLoop_index (scanned : findNameLoop fuel dir tok = some (found, dir')) :
    ∃ k, dir' = { dir with index := k } := by
  induction fuel generalizing dir with
  | zero => contradiction
  | succ fuel ih =>
    rw [findNameLoop] at scanned
    obtain ⟨step, read, scanned⟩ := Option.bind_eq_some_iff.mp scanned
    cases step with
    | none =>
      cases scanned
      exact ⟨_, rfl⟩
    | some next =>
      obtain ⟨entry, next⟩ := next
      obtain ⟨k, rfl⟩ := cnreaddir_index read
      dsimp only at scanned
      split at scanned
      · cases scanned
        exact ⟨k, rfl⟩
      · obtain ⟨k', rfl⟩ := ih scanned
        exact ⟨k', rfl⟩

theorem cnstat_index (found : cnstat dir name = some (result, dir')) :
    ∃ k, dir' = { dir with index := k } := by
  obtain ⟨⟨entry, next⟩, scanned, rest⟩ := Option.bind_eq_some_iff.mp found
  cases rest
  obtain ⟨k, rfl⟩ := findNameLoop_index scanned
  exact ⟨k, rfl⟩

/-- `cnstat` starts from the first record, wherever the handle stands. -/
theorem cnstat_rewind : cnstat { dir with index := k } name = cnstat dir name := rfl

theorem cnstat_again (found : cnstat dir name = some (result, dir')) :
    cnstat dir' name = some (result, dir') := by
  obtain ⟨k, rfl⟩ := cnstat_index found
  rw [cnstat_rewind, found]

theorem cnreaddir_end (ended : dir.inodeSt.size.toNat ≤ dir.index.toNat) :
    cnreaddir dir = some none := if_pos (UInt32.le_iff_toNat_le.mpr ended)

theorem cnreaddir_next (lists : dir.Lists (e :: es)) :
    ∃ dir', cnreaddir dir = some (some (e, dir')) ∧
      dir' = { dir with index := dir.index + UInt32.ofNat e.entryLen } ∧
      dir'.index.toNat = dir.index.toNat + e.entryLen ∧ dir'.Lists es := by
  obtain ⟨read, positive, rest⟩ := lists
  have reach := rest.le
  have small := dir.inodeSt.size.toNat_lt
  have index : (dir.index + UInt32.ofNat e.entryLen).toNat = dir.index.toNat + e.entryLen := by
    rw [UInt32.toNat_add, UInt32.toNat_ofNat']; omega
  refine ⟨_, ?_, rfl, index, ?_⟩
  · rw [cnreaddir, if_neg]
    · rw [read]; rfl
    · intro ended
      have := UInt32.le_iff_toNat_le.mp ended
      omega
  · change Tiles _ _ (dir.index + UInt32.ofNat e.entryLen).toNat _ _
    rw [index]
    exact rest

/-- The scan finds the first record with the name, or runs to the end. -/
theorem findNameLoop_eq (lists : dir.Lists es) (fuel : es.length < n) :
    ∃ dir', findNameLoop n dir tok = some (es.find? (fun e => cstr e.name = tok), dir') ∧
      (es.find? (fun e => cstr e.name = tok) = none → dir'.index = dir'.inodeSt.size) := by
  induction n generalizing dir es with
  | zero => omega
  | succ n ih =>
    cases es with
    | nil =>
      have ended : dir.index.toNat = dir.inodeSt.size.toNat := lists
      refine ⟨dir, ?_, fun _ => UInt32.toNat_inj.mp ended⟩
      rw [findNameLoop, cnreaddir_end (Nat.le_of_eq ended.symm)]
      rfl
    | cons e es =>
      obtain ⟨next, read, _, _, rest⟩ := cnreaddir_next lists
      rw [findNameLoop, read]
      simp only [Option.bind_eq_bind, Option.bind_some, List.find?_cons]
      by_cases named : cstr e.name = tok
      · simp [named]
      · simp only [named, decide_false, if_false]
        exact ih rest (by simp only [List.length_cons] at fuel; omega)

theorem findName_eq (lists : dir.Lists es) :
    ∃ dir', findName dir tok = some (es.find? (fun e => cstr e.name = tok), dir') ∧
      (∃ k, dir' = { dir with index := k }) ∧
      (es.find? (fun e => cstr e.name = tok) = none → dir'.index = dir'.inodeSt.size) := by
  have short := lists.length_le
  obtain ⟨dir', scanned, ended⟩ := findNameLoop_eq
    (n := dir.inodeSt.size.toNat + 1) lists (by omega)
  exact ⟨dir', scanned, findNameLoop_index scanned, ended⟩

theorem readAllLoop_eq (lists : dir.Lists es) (fuel : es.length < n) :
    readAllLoop n dir = some es := by
  induction n generalizing dir es with
  | zero => omega
  | succ n ih =>
    cases es with
    | nil =>
      have ended : dir.index.toNat = dir.inodeSt.size.toNat := lists
      rw [readAllLoop, cnreaddir_end (Nat.le_of_eq ended.symm)]
      rfl
    | cons e es =>
      obtain ⟨next, read, _, _, rest⟩ := cnreaddir_next lists
      rw [readAllLoop, read]
      simp only [Option.bind_eq_bind, Option.bind_some]
      rw [ih rest (by simp only [List.length_cons] at fuel; omega)]
      rfl

theorem readAll_eq (lists : dir.Lists es) : readAll dir = some es := by
  have short := lists.length_le
  exact readAllLoop_eq lists (by omega)

section
variable [InodeLayout]

/-- What a successful `cnopen` leaves in its slot. -/
theorem openFd_eq {s s' : Fs} (opened : openFd s inodeId mode = some (fd, s')) :
    ∃ (n : Nat) (fdBm : Block) (inode : Inode) (data : Option Buf), fd = (n : Int) ∧ n < 1024 ∧ n = (findFreeBit s.fdBm).toNat ∧
      setBitmap s.fdBm (UInt32.ofNat n) = some fdBm ∧
      inodeRead s.vol.disk inodeId = some inode ∧ loadData s.vol.disk inode = some data ∧
      s' = { s.setFd n ⟨data, mode, inodeId, inode, 0, false⟩ with fdBm := fdBm } := by
  unfold openFd at opened
  dsimp only at opened
  split at opened
  · contradiction
  next inside =>
    obtain ⟨fdBm, bitmap, opened⟩ := Option.bind_eq_some_iff.mp opened
    obtain ⟨inode, read, opened⟩ := Option.bind_eq_some_iff.mp opened
    obtain ⟨data, loaded, opened⟩ := Option.bind_eq_some_iff.mp opened
    cases opened
    exact ⟨_, fdBm, inode, data, rfl, by omega, rfl, bitmap, read, loaded, rfl⟩

/-- Whatever the path, a handle from `cnopendir` shows its inode as it is on disk. -/
theorem openWalk_fresh {d : Disk} {h₀ : DirPtr} (start : inflatedir d h₀.inodeId = some { h₀ with index := 0 })
    (run : openWalk d toks h₀ loaded = some (some h)) :
    inflatedir d h.inodeId = some { h with index := 0 } := by
  induction toks generalizing h₀ loaded with
  | nil =>
    cases run
    exact start
  | cons tok rest ih =>
    rw [openWalk] at run
    obtain ⟨⟨found, next⟩, scanned, run⟩ := Option.bind_eq_some_iff.mp run
    cases found with
    | some e =>
      obtain ⟨inner, inflated, run⟩ := Option.bind_eq_some_iff.mp run
      refine ih ?_ run
      obtain ⟨st, read, rest⟩ := Option.bind_eq_some_iff.mp inflated
      obtain ⟨data, loads, rest⟩ := Option.bind_eq_some_iff.mp rest
      cases rest
      exact inflated
    | none =>
      dsimp only at run
      split at run
      · obtain ⟨k, rfl⟩ := findNameLoop_index scanned
        have begins : inflatedir d ({ h₀ with index := k } : DirPtr).inodeId =
            some { ({ h₀ with index := k } : DirPtr) with index := 0 } := start
        exact ih begins run
      · cases run

theorem inflatedir_self (inflated : inflatedir d i = some h) :
    inflatedir d h.inodeId = some { h with index := 0 } := by
  obtain ⟨st, read, rest⟩ := Option.bind_eq_some_iff.mp inflated
  obtain ⟨data, loads, rest⟩ := Option.bind_eq_some_iff.mp rest
  cases rest
  exact inflated

theorem cnopendir_fresh (run : cnopendir s path = some (some h)) :
    inflatedir s.vol.disk h.inodeId = some { h with index := 0 } := by
  rw [cnopendir] at run
  split at run
  · cases run
  obtain ⟨dir, starts, run⟩ := Option.bind_eq_some_iff.mp run
  have start : inflatedir s.vol.disk dir.inodeId = some { dir with index := 0 } := by
    rw [startDir] at starts
    split at starts
    · exact inflatedir_self starts
    · obtain ⟨cwd, _, inflated⟩ := Option.bind_eq_some_iff.mp starts
      exact inflatedir_self inflated
  split at run
  · cases run
    exact start
  · split at run
    · obtain ⟨step, _, run⟩ := Option.bind_eq_some_iff.mp run
      cases step <;> cases run
    · exact openWalk_fresh start run

theorem cnopendir_short (run : cnopendir s path = some r) : path.length < 256 := by
  by_contra long
  rw [cnopendir, if_pos (by omega)] at run
  cases run

/-- A directory is read into as many blocks as its inode has, of which there are at most 1032. -/
theorem inflatedir_size (inflated : inflatedir d i = some h) :
    h.data.size = 4096 * h.inodeSt.blocks.toNat ∧ h.inodeSt.blocks.toNat ≤ 1032 := by
  obtain ⟨st, _, rest⟩ := Option.bind_eq_some_iff.mp inflated
  obtain ⟨data, loads, rest⟩ := Option.bind_eq_some_iff.mp rest
  cases rest
  exact llread_bounds loads

/-- Opening for reading finds the file or fails; it never creates one. -/
theorem cnopen_read {s s' : Fs} (opened : cnopen dir name FD_READ s = some (fd, dir', s')) :
    (fd = -1 ∧ s' = s) ∨ ∃ inodeId, cnstat dir name = some (some inodeId, dir') ∧
      openFd s inodeId FD_READ = some (fd, s') := by
  obtain ⟨⟨found, next⟩, stat, opened⟩ := Option.bind_eq_some_iff.mp opened
  cases found with
  | some inodeId =>
    obtain ⟨⟨fd, s₁⟩, run, opened⟩ := Option.bind_eq_some_iff.mp opened
    cases opened
    exact .inr ⟨inodeId, stat, run⟩
  | none =>
    have again := cnstat_again stat
    simp only [createMissing, show FD_READ ≠ FD_WRITE by decide, if_false, Option.bind_eq_bind,
      Option.bind_some, ne_eq, not_true_eq_false, again] at opened
    cases opened
    exact .inl ⟨rfl, rfl⟩

end
end CdnwSh
