import CdnwSh.Library.Simulation
import CdnwSh.RefinedFiles
import CdnwSh.SeekGap

/-! Every run of the commands on a new file system is a run of the `FileSystem`, with the same
replies. -/
namespace CdnwSh

open FileStore PartialRun Simulation

section
variable [InodeLayout]

/-- What the `FileSystem` asks for besides `Sane`: a descriptor that is left, one descriptor
for each file that is written, and no position that wraps. -/
def Limits (s : Session) : Op → Prop
  | .openFile h name mode => OpenFits s h name mode
  | .read fd bytes => ReadOk s.fs fd bytes
  | .seek fd offset => SeekStays s.fs fd offset
  | .cat _ => ∃ n, n < 128 ∧ IsFree s.fs n
  | .importFile _ _ | .exportFile _ _ => ∃ n, IsFree s.fs n
  | _ => True

structure InLimits (s : Session) (op : Op) : Prop where
  sane : Sane s op
  limits : Limits s op

section
variable {s s' : Session} {own : Owner} {fs : FileSystem} {r : Reply} {before : Fs}

/-- A session that follows the `FileSystem` with its current directory there or released. -/
structure Follows (s : Session) (own : Owner) (fs : FileSystem) : Prop extends Refines s own fs where
  released : Released s.fs

/-- Only an unmount leaves no current directory, and it releases it. -/
theorem Released.step (released : Released s.fs) (made : op ≠ .mkfs) (run : s.step op = some (r, s')) :
    Released s'.fs := by
  intro none
  by_cases up : op = .mount
  · subst up
    exact absurd none (cnmount_cwd (Session.global_eq run).1)
  by_cases down : op = .umount
  · subst down
    obtain ⟨_, _, same⟩ := cnumount_eq (Session.global_eq run).1
    rw [same]
  obtain ⟨_, kept, closed⟩ := Session.stays made up down run
  rw [closed]
  exact released (by_contra fun here => kept here none)

theorem Refines.step (refines : Refines s own fs) (released : Released s.fs) (inLimits : InLimits s op)
    (run : s.step op = some (r, s')) : Simulated fs op r s' := by
  obtain ⟨sane, limits⟩ := inLimits
  cases op with
  | mkfs => exact absurd sane id
  | mount => exact refines.mount run
  | umount => exact refines.umount released run
  | mkdir path => exact refines.mkdir sane run
  | rmdir path => exact refines.rmdir sane run
  | cd path => exact refines.cd released sane run
  | ls path => exact refines.ls sane run
  | opendir k path => exact refines.opendir sane run
  | closedir k => exact refines.closedir run
  | creat h name => exact refines.creat sane run
  | openFile h name mode => exact refines.openFile sane limits run
  | close fd => exact refines.close run
  | read fd bytes => exact refines.read limits run
  | write fd buf => exact refines.write sane run
  | seek fd offset => exact refines.seek sane limits run
  | cat name =>
    obtain ⟨n, small, left⟩ := limits
    exact refines.cat sane left small run
  | importFile hName gName =>
    obtain ⟨n, left⟩ := limits
    exact refines.importFile sane left run
  | exportFile gName hName =>
    obtain ⟨n, left⟩ := limits
    exact refines.exportFile sane left run

theorem Follows.step (follows : Follows s own fs) (inLimits : InLimits s op)
    (run : s.step op = some (r, s')) :
    ∃ own' fs', FileSystem.Step fs op r fs' ∧ Follows s' own' fs' := by
  have made : op ≠ .mkfs := by
    rintro rfl
    exact inLimits.sane
  obtain ⟨own', fs', moved, after⟩ := follows.toRefines.step follows.released inLimits run
  exact ⟨own', fs', moved, after, follows.released.step made run⟩

theorem cnmkfs_onDisk {s s' : Fs} (run : cnmkfs s = some (code, s')) :
    code = 0 ∧ OnDisk s' rootOwner (.new s.host) := by
  obtain ⟨done, formatted⟩ := cnmkfs_formatted run
  rw [cnmkfs_eq] at run
  obtain ⟨d, _, same⟩ := Option.map_eq_some_iff.mp run
  have host : s'.host = s.host := by
    cases same
    rfl
  refine ⟨done, ?_, ?_, fun i file => ?_, host.symm⟩
  · rw [Vol.loaded, formatted.superblk, formatted.blockBm, formatted.inodeBm]
    exact formatted.holds fun _ _ _ => rfl
  · rw [formatted.superblk]
    exact superblockInit_fields.2.2.1
  · change rootNodes i = some .file at file
    rw [rootNodes] at file
    split at file <;> cases file

theorem boot_refines (run : boot before = some s) : Refines s rootOwner (.new before.host) := by
  obtain ⟨⟨_, s₁⟩, makes, run⟩ := Option.bind_eq_some_iff.mp run
  obtain ⟨⟨_, s₂⟩, mounts, run⟩ := Option.bind_eq_some_iff.mp run
  cases run
  obtain ⟨_, mirrors, d, here, shown⟩ := (cnmkfs_onDisk makes).2.mount mounts
  refine ⟨mirrors, fun h => ?_⟩
  cases h with
  | cwd =>
    change Option.Rel _ s₂.cwd (some _)
    rw [here]
    exact .some shown
  | held k => exact .none

theorem boot_follows (booted : boot before = some s) : Follows s rootOwner (.new before.host) :=
  ⟨boot_refines booted, fun none => absurd none (boot_cwd booted)⟩

/-- Every run of commands in these limits on a new file system, with all its replies, is a run of the
`FileSystem` on the tree of an empty root directory, and at its end the tree, the directories
that are held, the content of every regular file and every open descriptor are those of the
`FileSystem`. -/
theorem runs_refine (booted : boot before = some s) (steps : Steps Session.step InLimits s trace s') :
    ∃ own fs, Runs FileSystem.Step (.new before.host) trace fs ∧ Refines s' own fs := by
  have start : ∃ own, Follows s own (.new before.host) := ⟨rootOwner, boot_follows booted⟩
  obtain ⟨fs, runs, own, follows⟩ := Simulation.Steps.simulated (fun s fs => ∃ own, Follows s own fs)
    (fun s fs op r s' ⟨own, follows⟩ inLimits run => by
      obtain ⟨own', fs', moved, after⟩ := follows.step inLimits run
      exact ⟨fs', moved, own', after⟩) steps start
  exact ⟨own, fs, runs, follows.toRefines⟩

/-- No seek grows a file. -/
def SeeksInside (s : Fs) : Op → Prop
  | .seek fd offset => ∀ n, fdSlot fd = some n → (s.fdTbl n).state ≠ FD_FREE →
      (s.fdTbl n).cursor.toNat + offset.toNat ≤ (s.fdTbl n).inode.size.toNat ∨
      Refused s (s.fdTbl n) ((s.fdTbl n).cursor + offset)
  | _ => True

structure Ungrown (s : Session) (op : Op) : Prop extends InLimits s op where
  seeks : SeeksInside s.fs op

theorem Refines.settled (refines : Refines s own fs) (ungrown : Ungrown s op)
    (run : s.step op = some (r, s')) : fs.Settled op := by
  obtain ⟨⟨sane, _⟩, seeks⟩ := ungrown
  cases op with
  | seek fd offset =>
    intro n d same found
    obtain ⟨seeked, _, _⟩ := Session.global_eq run
    obtain ⟨k, same', small, _⟩ := refines.globals.sound.seek sane seeked
    obtain rfl : n = k := by omega
    subst same
    have shown := refines.globals.files.fds n d found
    rcases seeks n (fdSlot_small small) (refines.globals.files.used found) with inside | refused
    · rw [shown.cursor, ← shown.length] at inside
      exact .inl inside
    · exact .inr ((refines.globals.refuses found shown.seekEnd).mp refused)
  | _ => trivial

/-- Two new file systems over the same host, whatever their disks held before, what the clocks
show and which blocks and globals were left, cannot be told apart: the same commands, with no seek that
grows a file, get the same replies and leave the same tree, directories, files and descriptors. -/
theorem hidden_disks {first second : Fs} {t t' : Session}
    (booted : boot first = some s) (booted' : boot second = some t) (host : first.host = second.host)
    (steps : Steps Session.step Ungrown s xs s') (steps' : Steps Session.step Ungrown t ys t')
    (commands : xs.map Prod.fst = ys.map Prod.fst) :
    xs = ys ∧ ∃ own own' fs, Refines s' own fs ∧ Refines t' own' fs := by
  have simulates : ∀ (s : Session) (fs : FileSystem) op r s', (∃ own, Follows s own fs) →
      Ungrown s op → s.step op = some (r, s') →
      ∃ fs', (FileSystem.Step fs op r fs' ∧ fs.Settled op) ∧ ∃ own', Follows s' own' fs' := by
    intro s fs op r s' ⟨own, follows⟩ ungrown run
    obtain ⟨own', fs', moved, after⟩ := follows.step ungrown.toInLimits run
    exact ⟨fs', ⟨moved, follows.toRefines.settled ungrown run⟩, own', after⟩
  obtain ⟨fs, runs, own, follows⟩ := Simulation.Steps.simulated (fun s fs => ∃ own, Follows s own fs)
    simulates steps ⟨rootOwner, boot_follows booted⟩
  obtain ⟨fs', runs', own', follows'⟩ := Simulation.Steps.simulated (fun s fs => ∃ own, Follows s own fs)
    simulates steps' ⟨rootOwner, boot_follows booted'⟩
  rw [host] at runs
  obtain ⟨replies, rfl⟩ := Runs.deterministic
    (fun _ _ _ _ _ _ one two => one.1.unique two.1 one.2) runs runs' commands
  exact ⟨replies, own, own', fs, follows.toRefines, follows'.toRefines⟩

theorem boot_openFits (run : boot before = some s) : OpenFits s h name FD_WRITE where
  known := .inr rfl
  left := ⟨0, by decide, (boot_noneOpen run 0 (by decide)).1⟩
  single _ d i next _ _ n writing := by
    obtain ⟨_, _, _, tbl⟩ := boot_sound run
    rw [tbl] at writing
    exact absurd writing (by decide)

end
end

section Lp64
attribute [local instance] lp64

theorem threeWritten_steps : ∃ trace, Steps Session.step InLimits emptyBooted trace threeWritten :=
  ⟨_, .cons ⟨emptyBooted_sane, boot_openFits emptyBooted_eq⟩ fileOpened_eq
    (.cons ⟨threeWritten_sane, trivial⟩ threeWritten_eq .nil)⟩

theorem runs_refine_three : ∃ trace own fs,
    Runs FileSystem.Step (.new emptyStart.host) trace fs ∧ Refines threeWritten own fs := by
  obtain ⟨trace, steps⟩ := threeWritten_steps
  exact ⟨trace, runs_refine emptyBooted_eq steps⟩

/-- A file is made on an empty disk and on one that was used before. -/
theorem hidden_disks_used : ∃ (usedBooted s t : Session) (r r' : Reply),
    boot usedStart = some usedBooted ∧
    emptyBooted.step (.openFile .cwd [102] FD_WRITE) = some (r, s) ∧
    usedBooted.step (.openFile .cwd [102] FD_WRITE) = some (r', t) ∧
    r = r' ∧ ∃ own own' fs, Refines s own fs ∧ Refines t own' fs := by
  obtain ⟨missing, free, opens, _⟩ := usedSought_run
  have booted : boot usedStart = some usedBooted := (Option.some_get _).symm
  have opened := Session.after_eq opens
  have steps : Steps Session.step Ungrown emptyBooted [(.openFile .cwd [102] FD_WRITE, _)] fileOpened :=
    .single ⟨⟨emptyBooted_sane, boot_openFits emptyBooted_eq⟩, trivial⟩ fileOpened_eq
  have steps' : Steps Session.step Ungrown usedBooted [(.openFile .cwd [102] FD_WRITE, _)] usedOpened :=
    .single ⟨⟨boot_opensF booted missing free, boot_openFits booted⟩, trivial⟩ opened
  obtain ⟨same, refine⟩ := hidden_disks emptyBooted_eq booted rfl steps steps'
    (by simp only [List.map_cons, List.map_nil])
  exact ⟨usedBooted, fileOpened, usedOpened, _, _, booted, fileOpened_eq, opened,
    congrArg Prod.snd (List.cons.inj same).1, refine⟩

end Lp64

end CdnwSh
