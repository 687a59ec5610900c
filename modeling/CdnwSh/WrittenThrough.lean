import CdnwSh.LifeCycle
import CdnwSh.TableRestored
import CdnwSh.TypeSafety

/-! Metadata on disk after every command: the caches of the volume and the inodes of the
open descriptors, and what an unmount with the next mount brings back. -/
namespace CdnwSh

open PartialRun

section
variable [InodeLayout]

/-- Every open descriptor has the inode that is on disk. -/
def Through (s : Fs) : Prop :=
  ∀ n, (s.fdTbl n).state ≠ FD_FREE →
    inodeRead s.vol.disk (s.fdTbl n).inodeId = some (s.fdTbl n).inode

/-- Each file is open on at most one descriptor. -/
def OpenOnce (s : Fs) : Prop :=
  ∀ m n, (s.fdTbl m).state ≠ FD_FREE → (s.fdTbl n).state ≠ FD_FREE →
    (s.fdTbl m).inodeId = (s.fdTbl n).inodeId → m = n

/-- The counters, the bitmaps, the directories with their entries and the regular files with
their inodes and contents. -/
structure Remounted (v v' : Vol) : Prop where
  superblk : SameSuperblk v.superblkCache v'.superblkCache
  counters : ∀ p : Pool, p.free v' = p.free v
  bitmaps : ∀ p : Pool, p.cache v' = p.cache v
  dirs : SameDirs v v'
  files : SameFiles v v'

/-- `cnumount` and then `cnmount` succeed and bring the file system back. -/
def Remounts (s : Fs) : Prop :=
  ∃ s₁ s₂, cnumount s = some (0, s₁) ∧ cnmount s₁ = some (0, s₂) ∧ Remounted s.vol s₂.vol

/-- A current directory that an unmount has closed is not closed again. -/
structure WrittenThrough (s : Fs) : Prop where
  synced : s.vol.Synced
  through : Through s
  remounts : s.cwd ≠ none → Remounts s

/-- A sane command on files that are open once. -/
structure SingleWork (s : Session) (op : Op) : Prop where
  sane : Sane s op
  once : OpenOnce s.fs
  noTransfer : ¬ Transfers op

section
variable {s s' : Fs} {v v' : Vol} {own own' : Owner} {node : Nodes} {n : Nat} {i : Iptr}
  {fde : FdEntry}

theorem Reloaded.remounted (same : Reloaded v v') (holds : Holds v own node) : Remounted v v' where
  superblk := same.superblk
  counters := same.free
  bitmaps := same.cache
  dirs := fun j used isDir => by
    obtain ⟨p, es, st, found, dir⟩ := holds.dir_used used isDir
    have after := dir.reload holds.ledger same (holds.inodes j (by rw [found]; simp)).1
    rw [after.read, after.listing_eq (holds.ledger.reload same), dir.read, dir.listing_eq holds.ledger]
    exact ⟨rfl, rfl⟩
  files := fun j used isFile => by
    have found := holds.file_node used isFile
    obtain ⟨st, file⟩ := holds.files j found
    have after := file.reload holds.ledger same (holds.inodes j (by rw [found]; simp)).1
    have bytes : fileBytes v'.disk st = fileBytes v.disk st :=
      fileBytes_congr file.mapped fun b _ owner => same.disk b (by
        have := (holds.ledger.owned _ _ owner).1
        omega)
    rw [after.read, after.contentOf_eq (holds.ledger.reload same), file.read,
      file.contentOf_eq holds.ledger, bytes]
    exact ⟨rfl, rfl⟩

theorem Sound.remounts (sound : Sound s own node) (superblk : s.superblk = true)
    (here : s.cwd ≠ none) : Remounts s := by
  obtain ⟨cwd, here⟩ := Option.ne_none_iff_exists'.mp here
  obtain ⟨s₁, unmounts⟩ : ∃ s₁, cnumount s = some (0, s₁) := ⟨_, cnumount_some here superblk⟩
  obtain ⟨_, saved, after, _⟩ := sound.umount unmounts
  obtain ⟨s₂, mounts⟩ := after.holds.mounts rfl
  obtain ⟨_, loaded, _⟩ := after.holds.mount after.synced after.magic mounts
  exact ⟨s₁, s₂, unmounts, mounts, (saved.trans loaded).remounted sound.holds⟩

theorem Through.files (through : Through s) (sound : Sound s own node)
    (same : SameFiles s.vol s'.vol) (fds : s'.fdTbl = s.fdTbl) : Through s' := by
  intro n used
  rw [fds] at used ⊢
  have file := sound.opened_file used
  have live := (sound.holds.inodes _ (by rw [(sound.copies n used).1]; simp)).2
  exact (same _ live file).1.trans (through n used)

theorem Through.setFd (through : Through s) (id : fde.inodeId = (s.fdTbl n).inodeId)
    (inode : fde.inode = (s.fdTbl n).inode) (closed : (s.fdTbl n).state = FD_FREE → fde.state = FD_FREE) :
    Through { s.setFd n fde with fdBm := fdBm } := by
  intro k used
  by_cases same : k = n
  · subst same
    have mine : ({ s.setFd k fde with fdBm := fdBm } : Fs).fdTbl k = fde := setFd_same
    rw [mine] at used ⊢
    rw [id, inode]
    exact through k (mt closed used)
  · have other : ({ s.setFd n fde with fdBm := fdBm } : Fs).fdTbl k = s.fdTbl k := setFd_other same
    rw [other] at used ⊢
    exact through k used

theorem FdOpened.through (opened : FdOpened s i mode n st s') (through : Through s) : Through s' := by
  have disk : s'.vol = s.vol := by rw [opened.state]
  intro k used
  rw [disk]
  by_cases same : k = n
  · subst same
    rw [opened.entry]
    exact opened.read
  · rw [opened.others k same] at used ⊢
    exact through k used

theorem FdOpened.once (opened : FdOpened s i mode n st s') (closed : ∀ k, (s.fdTbl k).state = FD_FREE) :
    OpenOnce s' := by
  have only (k : Nat) (used : (s'.fdTbl k).state ≠ FD_FREE) : k = n := by
    by_contra other
    rw [opened.others k other] at used
    exact used (closed k)
  intro k l used used' _
  rw [only k used, only l used']

theorem Acted.through (acted : Acted s own n s' own') (sound : Sound s own node)
    (through : Through s) (once : OpenOnce s) (used : (s.fdTbl n).state ≠ FD_FREE) : Through s' := by
  intro k used'
  by_cases same : k = n
  · subst same
    rw [acted.id]
    rcases acted.inode with ⟨inode, read⟩ | read
    · rw [read, inode]
      exact through k used
    · exact read
  · rw [acted.others k same] at used' ⊢
    have bound := (sound.holds.inodes _ (by rw [(sound.copies k used').1]; simp)).1
    rw [acted.confined.table _ bound fun shared => same (once k n used' used shared)]
    exact through k used'

theorem NewFile.through (new : NewFile s own node i name h' s' own' p es e) (sound : Sound s own node)
    (through : Through s) : Through s' :=
  through.files sound (new.entered.sameFiles sound.holds) (by rw [new.state])

end

section
variable {s s' : Session} {own : Owner} {node : Nodes} {op : Op} {r : Reply}

theorem cnmount_cwd {s s' : Fs} (run : cnmount s = some (code, s')) : s'.cwd ≠ none := by
  obtain ⟨_, _, cwd, _, _, _, _, here, _, _, opens⟩ := cnmount_eq run
  rw [here]
  exact cnopendir_root opens

theorem boot_cwd {before : Fs} (booted : boot before = some s) : s.fs.cwd ≠ none := by
  obtain ⟨⟨_, s₁⟩, _, run⟩ := Option.bind_eq_some_iff.mp booted
  obtain ⟨⟨_, s₂⟩, mounts, run⟩ := Option.bind_eq_some_iff.mp run
  cases run
  exact cnmount_cwd mounts

theorem boot_superblk {before : Fs} (booted : boot before = some s) : s.fs.superblk = true := by
  obtain ⟨⟨_, s₁⟩, _, run⟩ := Option.bind_eq_some_iff.mp booted
  obtain ⟨⟨_, s₂⟩, mounts, run⟩ := Option.bind_eq_some_iff.mp run
  cases run
  obtain ⟨_, _, _, _, _, superblk, _⟩ := cnmount_eq mounts
  exact superblk

theorem Session.stays (made : op ≠ .mkfs) (up : op ≠ .mount) (down : op ≠ .umount)
    (run : s.step op = some (r, s')) : Stays s.fs s'.fs := by
  have handled (h : Handle) (d : DirPtr) (fs : Fs) (kept : Stays s.fs fs) :
      Stays s.fs (({ s with fs := fs } : Session).setDir h d).fs := by
    cases h with
    | cwd => exact ⟨kept.1, fun _ => by simp [Session.setDir], kept.2.2⟩
    | held k => exact kept
  cases op with
  | mkfs => exact absurd rfl made
  | mount => exact absurd rfl up
  | umount => exact absurd rfl down
  | mkdir path => exact (cnmkdir_only (Session.global_eq run).1).files.stays
  | rmdir path => exact (cnrmdir_only (Session.global_eq run).1).files.stays
  | cd path => exact cncd_stays (Session.global_eq run).1
  | ls path =>
    obtain ⟨_, rfl⟩ := Session.ls_eq run
    exact .refl _
  | opendir k path =>
    rcases Session.opendir_eq run with ⟨_, rfl⟩ | ⟨_, _, rfl⟩
    · exact .refl _
    · exact .refl _
  | closedir k =>
    cases run
    exact .refl _
  | creat h name =>
    obtain ⟨d, d', fs', _, creates, _, rfl⟩ := Session.onDir_eq run
    exact handled h d' fs' (cncreat_only creates).files.stays
  | openFile h name mode =>
    obtain ⟨d, d', fs', _, opens, _, rfl⟩ := Session.onDir_eq run
    exact handled h d' fs' (cnopen_files opens).stays
  | close fd => exact (cnclose_files (Session.global_eq run).1).stays
  | read fd bytes =>
    obtain ⟨reads, _⟩ := Session.read_eq run
    exact (cnread_used reads).files.stays
  | write fd buf =>
    obtain ⟨_, writes, _⟩ := Session.write_eq run
    exact (cnwrite_used writes).files.stays
  | seek fd offset => exact (cnseek_used (Session.global_eq run).1).files.stays
  | cat name =>
    obtain ⟨⟨_, _, _⟩, cats, run⟩ := Option.bind_eq_some_iff.mp run
    cases run
    exact (cncat_files cats).stays
  | importFile hName gName => exact (cnimport_files (Session.global_eq run).1).stays
  | exportFile gName hName =>
    obtain ⟨_, _, _, _, s₁, s₃, _, _, opens, ⟨_, closes⟩, rest⟩ := cnexport_eq (Session.global_eq run).1
    have between : Stays s₁ s₃ := by
      rcases rest with ⟨_, rfl, _⟩ | ⟨_, _, _, _, _, s₂, _, _, reads, ⟨_, rfl, _⟩ | ⟨_, rfl, _⟩⟩
      · exact .refl _
      · exact (cnread_used reads).files.stays
      · exact (cnread_used reads).files.stays
    have opened : Stays s.fs s₁ := (cnopen_files opens).stays
    exact (opened.trans between).trans (cnclose_files closes).stays

theorem superblk_kept (loaded : s.fs.superblk = true) (made : op ≠ .mkfs)
    (run : s.step op = some (r, s')) : s'.fs.superblk = true := by
  by_cases up : op = .mount
  · subst up
    obtain ⟨_, _, _, _, _, superblk, _⟩ := cnmount_eq (Session.global_eq run).1
    exact superblk
  by_cases down : op = .umount
  · subst down
    obtain ⟨_, _, same⟩ := cnumount_eq (Session.global_eq run).1
    rw [same]
    exact loaded
  exact (Session.stays made up down run).1.trans loaded

theorem cwd_kept (here : s.fs.cwd ≠ none) (made : op ≠ .mkfs) (down : op ≠ .umount)
    (run : s.step op = some (r, s')) : s'.fs.cwd ≠ none := by
  by_cases up : op = .mount
  · subst up
    exact cnmount_cwd (Session.global_eq run).1
  exact (Session.stays made up down run).2.1 here

theorem SingleWork.made (work : SingleWork s op) : op ≠ .mkfs := by
  rintro rfl
  exact work.sane

/-- No command changes the inode of an open descriptor or the one on disk alone. -/
theorem Inv.through_step (inv : Inv s own node) (through : Through s.fs) (work : SingleWork s op)
    (run : s.step op = some (r, s')) : Through s'.fs := by
  have sound := inv.sound
  obtain ⟨sane, once, noTransfer⟩ := work
  have handled (h : Handle) (d : DirPtr) (fs : Fs) (kept : Through fs) :
      Through (({ s with fs := fs } : Session).setDir h d).fs := by
    cases h <;> exact kept
  cases op with
  | mkfs => exact absurd sane id
  | mount =>
    obtain ⟨mounts, _, _⟩ := Session.global_eq run
    obtain ⟨_, _, _, _, _, closed⟩ := sound.holds.mount sound.synced sound.magic mounts
    intro n used
    rw [closed n] at used
    exact absurd rfl used
  | umount =>
    obtain ⟨unmounts, _, _⟩ := Session.global_eq run
    obtain ⟨_, saved, _, _, fds⟩ := sound.umount unmounts
    exact through.files sound (saved.remounted sound.holds).files fds
  | mkdir path =>
    obtain ⟨makes, _, _⟩ := Session.global_eq run
    exact through.files sound (sound.mkdir_files sane makes) (cnmkdir_only makes).table.fdTbl
  | rmdir path =>
    obtain ⟨removes, _, _⟩ := Session.global_eq run
    exact through.files sound (sound.rmdir_files sane removes)
      (cnrmdir_only removes).table.fdTbl
  | cd path =>
    obtain ⟨_, ⟨_, same⟩ | ⟨h, j, k, _, _, same⟩⟩ := sound.cd sane (Session.global_eq run).1
    · rw [same]
      exact through
    · rw [same]
      exact through
  | ls path =>
    obtain ⟨_, rfl⟩ := Session.ls_eq run
    exact through
  | opendir k path =>
    rcases Session.opendir_eq run with ⟨_, rfl⟩ | ⟨_, _, rfl⟩
    · exact through
    · exact through
  | closedir k =>
    cases run
    exact through
  | creat h name =>
    obtain ⟨d, d', fs', here, creates, _, rfl⟩ := Session.onDir_eq run
    refine handled h d' fs' ?_
    rcases sound.creat (sane d here) creates with ⟨_, rfl, _⟩ | ⟨_, _, _, _, _, _, _, new, _⟩
    · exact through
    · exact new.through sound through
  | openFile h name mode =>
    obtain ⟨d, d', fs', here, opens, _, rfl⟩ := Session.onDir_eq run
    refine handled h d' fs' ?_
    generalize r.code = fd at opens
    cases sound.openFile (inv.shown h d here) (sane d here) opens with
    | failed => exact through
    | found _ _ opened _ => exact opened.through through
    | created _ _ new opened _ => exact opened.through (new.through sound through)
  | close fd =>
    obtain ⟨_, ⟨_, same⟩ | ⟨n, fdBm, _, _, _, _, same⟩⟩ := sound.close (Session.global_eq run).1
    · rw [same]
      exact through
    · rw [same]
      exact through.setFd rfl rfl fun _ => rfl
  | read fd bytes =>
    obtain ⟨reads, _⟩ := Session.read_eq run
    obtain ⟨_, same | ⟨n, cursor, _, same⟩⟩ := sound.read reads
    · rw [same]
      exact through
    · rw [same]
      exact through.setFd rfl rfl id
  | write fd buf =>
    obtain ⟨_, writes, _⟩ := Session.write_eq run
    rcases sound.write sane writes with ⟨_, same, _⟩ | ⟨n, _, _, _, _, _, _, mode, acted, _⟩
    · rw [same]
      exact through
    · exact acted.through sound through once (by rw [mode]; decide)
  | seek fd offset =>
    obtain ⟨n, _, _, ⟨_, _, same⟩ | ⟨_, ⟨_, same, _⟩ | ⟨_, used, _, _, _, _, acted, _⟩⟩⟩ :=
      sound.seek sane (Session.global_eq run).1
    · rw [same]
      exact through
    · rw [same]
      exact through.setFd rfl rfl id
    · exact acted.through sound through once used
  | cat name => exact absurd .cat noTransfer
  | importFile hName gName => exact absurd .importFile noTransfer
  | exportFile gName hName => exact absurd .exportFile noTransfer

/-- In every state that a run of such commands reaches from a new file system, the caches and
the inodes of open descriptors are on disk, and `cnumount` with `cnmount` brings all back, which
a run without an unmount can always do. -/
theorem written_through {before : Fs} (booted : boot before = some s)
    (steps : Steps Session.step SingleWork s trace s') : WrittenThrough s'.fs ∧
      ((∀ x ∈ trace, x.1 ≠ .umount) → Remounts s'.fs) := by
  have start := boot_inv booted
  obtain ⟨_, _, _, closed⟩ := boot_sound booted
  have fresh : Through s.fs := fun n used => by
    rw [closed n] at used
    exact absurd rfl used
  obtain ⟨⟨own, node, last⟩, superblk, through⟩ := steps.invariant
    (fun s => (∃ own node, Inv s own node) ∧ s.fs.superblk = true ∧ Through s.fs)
    (fun m op r m' ⟨⟨own, node, inv⟩, loaded, through⟩ work run => by
      obtain ⟨own', node', after⟩ := inv.step work.sane run
      exact ⟨⟨own', node', after.inv⟩, superblk_kept loaded work.made run,
        inv.through_step through work run⟩)
    ⟨⟨rootOwner, rootNodes, start⟩, boot_superblk booted, fresh⟩
  have remounts := last.sound.remounts superblk
  refine ⟨⟨last.sound.synced, through, remounts⟩, fun stays => remounts ?_⟩
  exact (steps.restrict (p := (· ≠ .umount)) stays).invariant (fun s => s.fs.cwd ≠ none)
    (fun m op r m' here work run => cwd_kept here work.1.made work.2 run) (boot_cwd booted)

end
end

section Lp64
attribute [local instance] lp64

theorem emptyBooted_closed (k : Nat) : (emptyBooted.fs.fdTbl k).state = FD_FREE := by
  obtain ⟨_, _, _, closed⟩ := boot_sound emptyBooted_eq
  rw [closed k]
  rfl

theorem emptyBooted_once : OpenOnce emptyBooted.fs :=
  fun k _ used => absurd (emptyBooted_closed k) used

theorem fileOpened_once : OpenOnce fileOpened.fs := by
  have inv := boot_inv emptyBooted_eq
  obtain ⟨d, d', fs', here, opens, _, same⟩ := Session.onDir_eq fileOpened_eq
  have result := inv.sound.openFile (inv.shown _ d here) (emptyBooted_sane d here) opens
  rw [same]
  change OpenOnce { fs' with cwd := some d' }
  generalize (emptyBooted.reply (.openFile .cwd [102] FD_WRITE)).code = fd at result
  cases result with
  | failed => exact emptyBooted_once
  | found _ _ opened _ => exact opened.once emptyBooted_closed
  | created _ _ new opened _ => exact opened.once fun k => by rw [new.state]; exact emptyBooted_closed k

theorem written_through_three : WrittenThrough threeWritten.fs ∧ Remounts threeWritten.fs := by
  obtain ⟨through, remounts⟩ := written_through emptyBooted_eq
    (.cons ⟨emptyBooted_sane, emptyBooted_once, by rintro ⟨⟩⟩ fileOpened_eq
      (.single ⟨threeWritten_sane, fileOpened_once, by rintro ⟨⟩⟩ threeWritten_eq))
  exact ⟨through, remounts (by simp)⟩

/-- A file with the name "./." is opened, gets the size of an empty directory and is removed by
`cnrmdir`, then a new file takes its inode. -/
def reuseCommands : List Op :=
  [.opendir 0 dot, .openFile (.held 0) [46, 47, 46] FD_WRITE, .write 0 (List.replicate 24 1),
    .rmdir [46, 47, 46], .opendir 0 dot, .creat (.held 0) [103]]

theorem reuse_run : (PartialRun.run Session.step emptyBooted reuseCommands).map (fun x =>
      (x.1, (x.2.fs.fdTbl 0).state, (x.2.fs.fdTbl 0).inode.size,
        (inodeRead x.2.fs.vol.disk (x.2.fs.fdTbl 0).inodeId).map Inode.size)) =
    some ([⟨0, []⟩, ⟨0, []⟩, ⟨24, []⟩, ⟨0, []⟩, ⟨0, []⟩, ⟨0, []⟩], FD_WRITE, 24, some 0) := by
  decide +kernel

/-- The open descriptor has a size of 24 bytes, the inode on disk is that of the empty file. -/
theorem written_through_reused : boot emptyStart = some emptyBooted ∧
    ∃ s', Steps Session.step (fun _ _ => True) emptyBooted
      (reuseCommands.zip [⟨0, []⟩, ⟨0, []⟩, ⟨24, []⟩, ⟨0, []⟩, ⟨0, []⟩, ⟨0, []⟩]) s' ∧
      ¬ Through s'.fs := by
  obtain ⟨⟨replies, s'⟩, runs, facts⟩ := Option.map_eq_some_iff.mp reuse_run
  simp only [Prod.mk.injEq] at facts
  obtain ⟨rfl, mode, size, onDisk⟩ := facts
  refine ⟨emptyBooted_eq, s', .of_run runs, fun through => ?_⟩
  rw [through 0 (by rw [mode]; decide), Option.map_some, size] at onDisk
  exact absurd onDisk (by decide)

end Lp64

end CdnwSh
