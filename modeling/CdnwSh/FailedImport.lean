import CdnwSh.FileRuns
import CdnwSh.TableRestored

/-! What an import that returns -1 leaves behind. The entry and the inode are made before the
host file is read, and nothing takes them back. -/
namespace CdnwSh

open ByteMemory PartialRun

theorem readBlocks_holds (run : readBlocks d ptrs k buf = some buf') :
    (∀ j, j < 4096 * k → buf'.mem j = buf.mem j) ∧
    ∀ t ptr, ptrs[t]? = some ptr → ptr.toNat < 25600 → Block.ofMem buf'.mem (4096 * (k + t)) = d ptr := by
  induction ptrs generalizing k buf with
  | nil =>
    cases run
    exact ⟨fun _ _ => rfl, fun t ptr found => by cases found⟩
  | cons first rest ih =>
    obtain ⟨⟨_, blk⟩, reads, run⟩ := Option.bind_eq_some_iff.mp run
    obtain ⟨middle, copied, run⟩ := Option.bind_eq_some_iff.mp run
    obtain ⟨before, holds⟩ := ih run
    rw [Buf.copyIn] at copied
    split at copied
    next room =>
      cases copied
      refine ⟨fun j low => (before j (by omega)).trans (copy_out (.inl low)), fun t ptr found inside => ?_⟩
      cases t with
      | zero =>
        cases found
        rw [blkRead_inside inside] at reads
        cases reads
        funext i
        have bound := i.isLt
        change buf'.mem (4096 * (k + 0) + i) = d first i
        rw [before _ (by omega), Nat.add_zero]
        change copy buf.mem (4096 * k) (d first).mem 4096 (4096 * k + i) = d first i
        rw [copy_at bound, Block.mem_apply _ bound]
      | succ t =>
        have same := holds t ptr found inside
        rw [show k + 1 + t = k + (t + 1) by omega] at same
        exact same
    next => cases copied

theorem blkWrite_outside (outside : ¬ lba.toNat < 25600) (run : blkWrite d lba b = some (code, d')) :
    d' = d := by
  rw [blkWrite] at run
  split at run
  · cases run
    rfl
  next low =>
    split at run
    · cases run
    next apart =>
      refine absurd ?_ outside
      have other : lba.toNat ≠ 25600 := fun same => apart (UInt32.toNat_inj.mp same)
      have bound : ¬ 25600 < lba.toNat := fun high => low (UInt32.lt_iff_toNat_lt.mpr high)
      omega

/-- Blocks that hold what the buffer holds are not changed by writing the buffer to them. -/
theorem writeBlocks_back (holds : ∀ t ptr, ptrs[t]? = some ptr → ptr.toNat < 25600 →
    Block.ofMem buf.mem (4096 * (k + t)) = d ptr) (run : writeBlocks buf ptrs k d = some d') : d' = d := by
  induction ptrs generalizing k with
  | nil =>
    cases run
    rfl
  | cons first rest ih =>
    obtain ⟨⟨_, middle⟩, writes, run⟩ := Option.bind_eq_some_iff.mp run
    have same : middle = d := by
      rw [blkWriteBuf] at writes
      split at writes
      · by_cases inside : first.toNat < 25600
        · rw [blkWrite_inside inside, ← Nat.add_zero k, holds 0 first rfl inside, Extents.set_self] at writes
          cases writes
          rfl
        · exact blkWrite_outside inside writes
      · cases writes
    rw [same] at run
    refine ih (fun t ptr found inside => ?_) run
    have same := holds (t + 1) ptr found inside
    rwa [show k + (t + 1) = k + 1 + t by omega] at same

theorem llwrite_back (read : llread d st start = some buf) (run : llwrite d st buf = some d') : d' = d := by
  obtain ⟨low, lowRead, read⟩ := Option.bind_eq_some_iff.mp read
  obtain ⟨middle, lowWritten, run⟩ := Option.bind_eq_some_iff.mp run
  have lowHolds := (readBlocks_holds lowRead).2
  by_cases many : st.blocks > 8
  · rw [if_pos many] at read run
    obtain ⟨⟨_, sInd⟩, indRead, read⟩ := Option.bind_eq_some_iff.mp read
    dsimp only at read
    split at read
    next few =>
      obtain ⟨before, highHolds⟩ := readBlocks_holds read
      have same : middle = d := by
        refine writeBlocks_back (fun t ptr found inside => ?_) lowWritten
        have bound : t < 8 := by
          have := (List.getElem?_eq_some_iff.mp found).1
          simp only [List.length_take, Vector.length_toList] at this
          omega
        rw [← lowHolds t ptr found inside]
        funext i
        exact before _ (by have := i.isLt; omega)
      rw [same, indRead] at run
      simp only [Option.bind_eq_bind, Option.bind_some] at run
      rw [if_pos few] at run
      exact writeBlocks_back highHolds run
    next => cases read
  · rw [if_neg many] at read run
    cases read
    cases run
    exact writeBlocks_back lowHolds lowWritten

section
variable [InodeLayout]

omit [InodeLayout] in
theorem llwrite_loaded (loads : loadData d st = some data) (run : llwrite d st (dataBuf data) = some d') :
    d' = d := by
  rw [loadData] at loads
  split at loads
  · obtain ⟨buf, read, rfl⟩ := Option.map_eq_some_iff.mp loads
    exact llwrite_back read run
  next none =>
    have zero : st.blocks.toNat = 0 := by
      by_contra some
      exact none (UInt32.lt_iff_toNat_lt.mpr (Nat.pos_of_ne_zero some))
    have few : ¬ st.blocks > 8 := fun many => by
      have := UInt32.lt_iff_toNat_lt.mp many
      omega
    obtain ⟨middle, written, run⟩ := Option.bind_eq_some_iff.mp run
    rw [zero] at written
    cases written
    rw [if_neg few] at run
    cases run
    rfl

theorem cnwrite_nothing (opens : openFd s i FD_WRITE = some (fd, s₁))
    (run : cnwrite [] fd s₁ = some (written, s')) : written = 0 ∧ s'.vol = s.vol := by
  obtain ⟨n, fdBm, inode, data, rfl, small, _, _, _, loads, rfl⟩ := openFd_eq opens
  have entry : (s.setFd n ⟨data, FD_WRITE, i, inode, 0, false⟩).fdTbl n =
      ⟨data, FD_WRITE, i, inode, 0, false⟩ :=
    setFd_same
  obtain ⟨k, slot, effect⟩ := cnwrite_eq run
  obtain rfl : n = k := Int.ofNat_inj.mp (fdSlot_eq slot).1
  dsimp only at effect
  rw [entry] at effect
  have enough : ¬ inode.size < UInt32.ofNat ((0 : UInt32).toNat + ([] : List UInt8).length) :=
    fun less => absurd (UInt32.lt_iff_toNat_lt.mp less) (Nat.not_lt_zero _)
  obtain ⟨other | refused, _⟩ | ⟨_, fde, s₂, data', d, grows, stores, writes, rfl, rfl⟩ := effect
  · exact absurd rfl other
  · exact absurd refused.1 enough
  rw [growFd, if_neg enough] at grows
  cases grows
  cases stores
  refine ⟨rfl, ?_⟩
  rw [llwrite_loaded loads writes]
  rfl

omit [InodeLayout] in
theorem loadData_bounds (loads : loadData d st = some data) : (dataBuf data).size ≤ 4096 * 1032 := by
  rw [loadData] at loads
  split at loads
  · obtain ⟨buf, read, rfl⟩ := Option.map_eq_some_iff.mp loads
    obtain ⟨size, few⟩ := llread_bounds read
    change buf.size = 4096 * st.blocks.toNat at size
    change buf.size ≤ _
    omega
  · cases loads
    exact Nat.zero_le _

theorem cnwrite_opened (opens : openFd s i FD_WRITE = some (fd, s₁))
    (run : cnwrite buf fd s₁ = some (written, s')) :
    (CacheGranted s.host.heap buf.length ∧ written = buf.length) ∨
    (¬ CacheGranted s.host.heap buf.length ∧ written = 0 ∧ s' = s₁) := by
  obtain ⟨n, fdBm, inode, data, rfl, small, _, _, _, loads, rfl⟩ := openFd_eq opens
  have entry : (s.setFd n ⟨data, FD_WRITE, i, inode, 0, false⟩).fdTbl n =
      ⟨data, FD_WRITE, i, inode, 0, false⟩ := setFd_same
  have required : UInt32.ofNat ((0 : UInt32).toNat + buf.length) = UInt32.ofNat buf.length := by simp
  obtain ⟨k, slot, effect⟩ := cnwrite_eq run
  obtain rfl : n = k := Int.ofNat_inj.mp (fdSlot_eq slot).1
  dsimp only at effect
  rw [entry] at effect
  dsimp only at effect
  rw [required] at effect
  rcases effect with ⟨other | refused, none, same⟩ | ⟨_, fde, s₂, data', d, grows, stores, _, count, _⟩
  · exact absurd rfl other
  · refine .inr ⟨fun granted => ?_, none, same⟩
    rw [CacheGranted, show s.host.heap.grants _ = false from refused.2] at granted
    cases granted
  · refine .inl ⟨?_, count⟩
    by_contra refused
    have refused := Bool.eq_false_of_not_eq_true refused
    rcases growFd_eq grows with ⟨_, rfl, _⟩ | ⟨less, _⟩
    -- without a growth the bytes fit into the cache that was loaded
    · have bound := loadData_bounds loads
      have inside : buf.length ≤ 4096 * 1032 := by
        rcases (writeData_some stores).1 with rfl | inside
        · exact Nat.zero_le _
        · exact Nat.le_trans (Nat.le_of_add_left_le inside) bound
      have length : (UInt32.ofNat buf.length).toNat = buf.length :=
        UInt32.toNat_ofNat_of_lt' (show buf.length < 2 ^ 32 by omega)
      rw [s.host.heap.small _ (by rw [required_blocks, length]; omega)] at refused
      cases refused
    · rcases growFd_cases grows with ⟨_, failed, _⟩ | ⟨granted, _⟩
      · cases failed
      · exact granted ⟨less, refused⟩

/-- The inode of the root directory was made a file's. -/
def RootIsFile (d : Disk) : Prop := ∃ st, inodeRead d 0 = some st ∧ st.type = ITYPE_FILE

omit [InodeLayout] in
theorem reserveInode_free (run : reserveInode v = some (ptr, v')) :
    Pool.inode.free v' = Pool.inode.free v - 1 ∧ (Pool.inode.free v = 0 → ptr = 0) := by
  rw [reserveInode, reserve] at run
  split at run
  next none =>
    cases run
    exact ⟨by omega, fun _ => rfl⟩
  next left =>
    obtain ⟨bm, _, run⟩ := Option.bind_eq_some_iff.mp run
    cases run
    refine ⟨setFree_free ?_, fun none => absurd none left⟩
    have := free_lt (p := .inode) (v := v)
    omega

/-- An inode was taken for good: the counter shows it, or with none left the root
directory lost its inode. -/
structure Spent (v v' : Vol) : Prop where
  counter : Pool.inode.free v' ≤ Pool.inode.free v - 1
  root : Pool.inode.free v = 0 → RootIsFile v'.disk

theorem cncreat_spent (run : cncreat dir name s = some (0, dir', s')) : Spent s.vol s'.vol := by
  obtain ⟨⟨found, next⟩, _, run⟩ := Option.bind_eq_some_iff.mp run
  cases found with
  | some i => cases run
  | none =>
    obtain ⟨⟨self, dir₁, s₁⟩, appends, run⟩ := Option.bind_eq_some_iff.mp run
    obtain ⟨d, writes, run⟩ := Option.bind_eq_some_iff.mp run
    cases run
    obtain ⟨⟨ptr, v⟩, reserves, appends⟩ := Option.bind_eq_some_iff.mp appends
    obtain ⟨data, _, appends⟩ := Option.bind_eq_some_iff.mp appends
    obtain ⟨d₁, _, appends⟩ := Option.bind_eq_some_iff.mp appends
    obtain ⟨⟨_, d₂⟩, _, appends⟩ := Option.bind_eq_some_iff.mp appends
    cases appends
    obtain ⟨free, zero⟩ := reserveInode_free reserves
    refine ⟨le_of_eq free, fun none => ?_⟩
    rw [zero none] at writes
    exact ⟨_, (inodeWrite_spec (by decide) writes).2.1, rfl⟩

theorem cnopen_creates (valid : ¬ fd < 0) (run : cnopen dir name mode s = some (fd, dir', s')) :
    ∃ i s₁, openFd s₁ i mode = some (fd, s') ∧
      (s₁.vol = s.vol ∨ ∃ d₁ d₂, cncreat d₁ name s = some (0, d₂, s₁)) := by
  obtain ⟨⟨found, dir₁⟩, _, run⟩ := Option.bind_eq_some_iff.mp run
  cases found with
  | some i =>
    obtain ⟨⟨fd, s₁⟩, opens, run⟩ := Option.bind_eq_some_iff.mp run
    cases run
    exact ⟨i, s, opens, .inl rfl⟩
  | none =>
    obtain ⟨⟨created, dir₂, s₁⟩, creates, run⟩ := Option.bind_eq_some_iff.mp run
    dsimp only at run
    split at run
    · cases run
      exact absurd (by decide) valid
    next made =>
      obtain ⟨⟨again, dir₃⟩, _, run⟩ := Option.bind_eq_some_iff.mp run
      cases again with
      | none =>
        cases run
        exact absurd (by decide) valid
      | some i =>
        obtain ⟨⟨fd, s₂⟩, opens, run⟩ := Option.bind_eq_some_iff.mp run
        cases run
        refine ⟨i, s₁, opens, ?_⟩
        rw [createMissing] at creates
        split at creates
        · obtain rfl := not_not.mp made
          exact .inr ⟨dir₁, dir₂, creates⟩
        · cases creates
          exact .inl rfl

theorem Spent.again (spent : Spent v v') (more : v'' = v' ∨ Spent v' v'') : Spent v v'' := by
  rcases more with rfl | more
  · exact spent
  · have first := spent.counter
    have second := more.counter
    exact ⟨by omega, fun none => more.root (by omega)⟩

/-- The handle on the guest directory, the inodes, bitmaps, counters and contents. -/
structure NoTrace (s s' : Fs) : Prop where
  entries : cnopendir s' dot = cnopendir s dot
  inodes : ∀ i, inodeRead s'.vol.disk i = inodeRead s.vol.disk i
  bitmaps : ∀ p : Pool, p.cache s'.vol = p.cache s.vol
  counters : ∀ p : Pool, p.free s'.vol = p.free s.vol
  content : ∀ i, contentOf s'.vol.disk i = contentOf s.vol.disk i

/-- The host file has a byte, can be read to its end, and gets a cache. -/
def ReadsWhole (host : Host) (hName : Name) : Prop :=
  ∃ content, host.files hName = some content ∧ content ≠ [] ∧
    content.length ≤ host.readable hName ∧ CacheGranted host.heap content.length

/-- No inode is left and the root directory has lost its inode to an earlier creation. -/
def RootLost (s : Fs) : Prop := Pool.inode.free s.vol = 0 ∧ RootIsFile s.vol.disk

theorem Spent.trace (spent : Spent s.vol s'.vol) (rooted : ¬ RootLost s) : ¬ NoTrace s s' := by
  intro same
  by_cases none : Pool.inode.free s.vol = 0
  · obtain ⟨st, read, file⟩ := spent.root none
    rw [same.inodes 0] at read
    exact rooted ⟨none, st, read, file⟩
  · have counter := spent.counter
    rw [same.counters .inode] at counter
    omega

theorem cnopen_host (run : cnopen dir name mode s = some (fd, dir', s')) : s'.host = s.host := by
  rcases cnopen_cases run with ⟨_, _, only⟩ | ⟨_, i, s₁, only, opens⟩
  · rw [only]
  · obtain ⟨_, _, _, _, _, _, _, _, _, _, rfl⟩ := openFd_eq opens
    change s₁.host = s.host
    rw [only]

/-- An import that returns either copied a file that reads whole, or returns -1 with the
creation done. -/
theorem cnimport_cases (run : cnimport hName gName s = some (code, s')) :
    (ReadsWhole s.host hName ∧ code = 0) ∨
    (¬ ReadsWhole s.host hName ∧ code = -1 ∧ Spent s.vol s'.vol) := by
  obtain ⟨content, _, _, s₁, gFile, _, s₂, s₃, reads, _, creates, opens, _, ⟨_, closes⟩, rest⟩ :=
    cnimport_eq run
  have valid : ¬ gFile < 0 := fun negative => no_close_of_negative negative closes
  have host : s₂.host = s.host := by rw [cnopen_host opens, cncreat_only creates]
  rw [host] at rest
  have spent := cncreat_spent creates
  obtain ⟨i, s₀, takes, more⟩ := cnopen_creates valid opens
  have opened : Spent s.vol s₂.vol := by
    rw [openFd_vol takes]
    refine spent.again ?_
    rcases more with same | ⟨d₁, d₂, again⟩
    · exact .inl same
    · exact .inr (cncreat_spent again)
  rcases rest with ⟨rfl, rfl, short⟩ | ⟨_, whole, result, writes, answer⟩
  · refine .inr ⟨?_, rfl, by rw [cnclose_vol closes]; exact opened⟩
    rintro ⟨content', same, _, whole, _⟩
    rw [reads] at same
    cases same
    rcases short with negative | short
    · exact valid negative
    · omega
  · have heap : s₀.host.heap = s.host.heap := by
      obtain ⟨_, _, _, _, _, _, _, _, _, _, rfl⟩ := openFd_eq takes
      rw [← host]
      rfl
    rcases cnwrite_opened takes writes with ⟨granted, count⟩ | ⟨refused, rfl, rfl⟩
    · rw [heap] at granted
      by_cases nothing : result = 0
      · rw [if_pos nothing] at answer
        have empty : content = [] := List.length_eq_zero_iff.mp (count.symm.trans nothing)
        refine .inr ⟨?_, answer, ?_⟩
        · rintro ⟨content', same, some, _⟩
          rw [reads] at same
          cases same
          exact some empty
        · rw [empty] at writes
          rw [cnclose_vol closes, (cnwrite_nothing takes writes).2, ← openFd_vol takes]
          exact opened
      · rw [if_neg nothing] at answer
        refine .inl ⟨⟨content, reads, ?_, by omega, granted⟩, answer⟩
        rintro rfl
        exact nothing count
    · rw [heap] at refused
      refine .inr ⟨?_, answer, by rw [cnclose_vol closes]; exact opened⟩
      rintro ⟨content', same, _, _, granted⟩
      rw [reads] at same
      cases same
      exact refused granted

/-- For every state, host file and guest name: an import of a host file that has a byte, reads
whole and gets a cache returns 0 if it returns. Unless the root directory is lost already, an import
that returns leaves no trace of its failure if and only if its host file is such a file.
With the host file missing or the guest name taken it does not return. -/
theorem failed_import (s : Fs) (hName gName : Name) :
    (∀ code s', cnimport hName gName s = some (code, s') →
      (ReadsWhole s.host hName → code = 0) ∧
      (¬ RootLost s → ((code = -1 → NoTrace s s') ↔ ReadsWhole s.host hName))) ∧
    (s.host.files hName = none ∨ InCwd s gName → cnimport hName gName s = none) := by
  refine ⟨fun code s' run => ?_, import_unset⟩
  rcases cnimport_cases run with ⟨whole, rfl⟩ | ⟨short, rfl, spent⟩
  · exact ⟨fun _ => rfl, fun _ => ⟨fun _ => whole, fun _ failed => absurd failed (by decide)⟩⟩
  · exact ⟨fun whole => absurd whole short, fun rooted =>
      ⟨fun clean => absurd (clean rfl) (spent.trace rooted), fun whole => absurd whole short⟩⟩

end

section Lp64
attribute [local instance] lp64

def emptyFilesStart : Fs := Fs.started (fun _ => Block.zero) ⟨fun _ => some [], fun _ => 0, fun _ => some 0, .full⟩

theorem emptyFilesStart_boots : (boot emptyFilesStart).isSome := by decide +kernel

def emptyFilesBooted : Session := (boot emptyFilesStart).get emptyFilesStart_boots

def emptyImported : Session := emptyFilesBooted.after (.importFile [104] [103])

theorem emptyImported_run : (emptyFilesBooted.step (.importFile [104] [103])).isSome ∧
    (emptyFilesBooted.reply (.importFile [104] [103])).code = -1 ∧
    Pool.inode.free emptyFilesBooted.fs.vol = 6399 ∧ Pool.inode.free emptyImported.fs.vol = 6398 := by
  decide +kernel

theorem emptyImported_eq : emptyFilesBooted.step (.importFile [104] [103]) =
    some (emptyFilesBooted.reply (.importFile [104] [103]), emptyImported) :=
  Session.after_eq emptyImported_run.1

theorem failed_import_returns : ¬ RootLost emptyFilesBooted.fs ∧
    cnimport [104] [103] emptyFilesBooted.fs = some (-1, emptyImported.fs) ∧
    (((-1 : Int) = -1 → NoTrace emptyFilesBooted.fs emptyImported.fs) ↔
      ReadsWhole emptyFilesBooted.fs.host [104]) := by
  have rooted : ¬ RootLost emptyFilesBooted.fs := by
    rintro ⟨none, _⟩
    rw [emptyImported_run.2.2.1] at none
    cases none
  have returned := (Session.global_eq emptyImported_eq).1
  rw [emptyImported_run.2.1] at returned
  exact ⟨rooted, returned, ((failed_import emptyFilesBooted.fs [104] [103]).1 _ _ returned).2 rooted⟩

/-- Importing an empty host file returns -1 and leaves one free inode less. -/
theorem failed_import_empty : boot emptyFilesStart = some emptyFilesBooted ∧
    ∃ s', cnimport [104] [103] emptyFilesBooted.fs = some (-1, s') ∧ ¬ NoTrace emptyFilesBooted.fs s' := by
  obtain ⟨_, code, before, after⟩ := emptyImported_run
  refine ⟨(Option.some_get _).symm, emptyImported.fs, ?_, fun same => ?_⟩
  · have returned := (Session.global_eq emptyImported_eq).1
    rwa [code] at returned
  · have counter := same.counters .inode
    rw [before, after] at counter
    cases counter

end Lp64

end CdnwSh
