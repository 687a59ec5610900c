import CdnwSh.Restart

/-! What lasts. Sessions on one device, each ended by an unmount or by the end of its process
between two commands, are runs of one `FileSystem`: a mount forgets the descriptors and the
directories that were held, and no other effect of a command is lost but for one byte that a new
process may find to be 0. -/
namespace CdnwSh

open FileStore PartialRun Simulation

namespace FileSystem

def remounted (fs : FileSystem) : FileSystem :=
  hold { fs.withFiles ⟨fs.files.content, fun _ => none⟩ with dirs := fun _ => none } .cwd 0

inductive SessionStep (fs : FileSystem) : SessionEvent → Reply → FileSystem → Prop where
  | mkfs : SessionStep fs (.call .mkfs) ⟨0, []⟩ (.new fs.host)
  | mount : SessionStep fs (.call .mount) ⟨0, []⟩ fs.remounted
  | call : op ≠ .mount → Step fs op r fs' → SessionStep fs (.call op) r fs'
  | crash : fs.Reattached fs' → SessionStep fs .crash ⟨0, []⟩ fs'

end FileSystem

section
variable [InodeLayout] {s s' : Fs} {own : Owner} {fs : FileSystem} {m m' : Sessions} {r : Reply}

/-- A command of a session is in the limits, and a file system is made between sessions. -/
def Limited (m : Sessions) : SessionEvent → Prop
  | .crash | .call .mount => True
  | .call .mkfs => m.mounted = false
  | .call op => InLimits m.current op

/-- While a session runs it shows the `FileSystem`, and between sessions the device does. -/
structure Carries (m : Sessions) (fs : FileSystem) : Prop where
  running : m.mounted = true → ∃ own, Follows m.current own fs
  down : m.mounted = false → ∃ own, OnDisk m.current.fs own fs

theorem OnDisk.same (stored : OnDisk s own fs) (disk : s'.vol.disk = s.vol.disk)
    (host : s'.host = s.host) : OnDisk s' own fs := by
  obtain ⟨holds, magic, content, before⟩ := stored
  rw [← disk] at holds magic content
  exact ⟨holds, magic, content, before.trans host.symm⟩

theorem OnDisk.remounts (stored : OnDisk s own fs) (run : cnmount s = some (code, s')) :
    code = 0 ∧ Follows ⟨s', fun _ => none⟩ own fs.remounted := by
  obtain ⟨done, mirrors, d, here, shown⟩ := stored.mount run
  refine ⟨done, ⟨⟨mirrors.sound, mirrors.files, mirrors.host⟩, fun h => ?_⟩,
    fun none => absurd none (cnmount_cwd run)⟩
  cases h with
  | cwd =>
    change Option.Rel _ s'.cwd (some _)
    rw [here]
    exact .some shown
  | held k => exact .none

theorem Limited.inLimits {op : Op} (ok : Limited m (.call op)) (mounts : op ≠ .mount)
    (makes : op ≠ .mkfs) : InLimits m.current op := by
  cases op <;> first | exact ok | contradiction

theorem Sessions.called {op : Op} (mounts : op ≠ .mount) (makes : op ≠ .mkfs)
    (run : m.step (.call op) = some (r, m')) :
    m.mounted = true ∧ m.current.step op = some (r, m'.current) := by
  by_cases unmounts : op = .umount
  · subst unmounts
    rw [Sessions.step] at run
    split at run
    next up =>
      obtain ⟨⟨reply, s'⟩, unmounting, run⟩ := Option.bind_eq_some_iff.mp run
      cases run
      exact ⟨up, unmounting⟩
    · cases run
  · rw [m.call_eq mounts unmounts] at run
    obtain ⟨⟨reply, s'⟩, called, run⟩ := Option.bind_eq_some_iff.mp run
    dsimp only at run
    split at run
    next up =>
      cases run
      exact ⟨up, called⟩
    · cases op <;> contradiction

theorem Sessions.made (down : m.mounted = false) (run : m.step (.call .mkfs) = some (r, m')) :
    cnmkfs m.current.fs = some (r.code, m'.current.fs) ∧ r.bytes = [] ∧ m'.mounted = false := by
  rw [m.call_eq (by simp) (by simp)] at run
  obtain ⟨⟨reply, s'⟩, called, run⟩ := Option.bind_eq_some_iff.mp run
  dsimp only at run
  rw [if_neg (by rw [down]; decide), if_pos rfl] at run
  cases run
  obtain ⟨makes, bytes, _⟩ := Session.global_eq called
  exact ⟨makes, bytes, down⟩

theorem Carries.step (carries : Carries m fs) (ok : Limited m event)
    (run : m.step event = some (r, m')) : ∃ fs', FileSystem.SessionStep fs event r fs' ∧ Carries m' fs' := by
  cases event with
  | crash =>
    rw [Sessions.step] at run
    split at run
    next up =>
      cases run
      obtain ⟨own, follows⟩ := carries.running up
      exact ⟨fs, .crash .same, fun up => (Bool.false_ne_true up).elim,
        fun _ => ⟨own, follows.globals.onDisk.same rfl rfl⟩⟩
    · cases run
  | call op =>
    by_cases mounts : op = .mount
    · subst mounts
      rw [Sessions.step] at run
      split at run
      · cases run
      next down =>
        obtain ⟨⟨code, s'⟩, mounting, run⟩ := Option.bind_eq_some_iff.mp run
        cases run
        obtain ⟨own, stored⟩ := carries.down (Bool.eq_false_of_not_eq_true down)
        obtain ⟨rfl, follows⟩ := stored.remounts mounting
        exact ⟨_, .mount, fun _ => ⟨own, follows⟩, fun down => (Bool.false_ne_true down.symm).elim⟩
    by_cases makes : op = .mkfs
    · subst makes
      obtain ⟨made, bytes, down'⟩ := Sessions.made ok run
      obtain ⟨own, stored⟩ := carries.down ok
      obtain ⟨done, fresh⟩ := cnmkfs_onDisk made
      rw [← stored.host] at fresh
      obtain rfl : r = ⟨0, []⟩ := by
        rw [← done, ← bytes]
      exact ⟨_, .mkfs, fun up => absurd (down'.symm.trans up) (by decide), fun _ => ⟨_, fresh⟩⟩
    obtain ⟨up, called⟩ := Sessions.called mounts makes run
    obtain ⟨own, follows⟩ := carries.running up
    obtain ⟨own', fs', moved, after⟩ := follows.step (ok.inLimits mounts makes) called
    exact ⟨fs', .call mounts moved, fun _ => ⟨own', after⟩, fun _ => ⟨own', after.globals.onDisk⟩⟩

/-- A new process attaches the device, which a crash has left as it was. -/
def Fs.restarted (s : Fs) : Fs :=
  { s.crashed with vol := { s.crashed.vol with disk := s.vol.disk.attached } }

def Sessions.restarted (m : Sessions) : Sessions :=
  { m.crashed with current := ⟨m.current.fs.restarted, fun _ => none⟩ }

/-- A process that ends, in a session or between two, is followed by a new one. -/
def Sessions.lives (m : Sessions) : SessionEvent → Option (Reply × Sessions)
  | .crash => some (⟨0, []⟩, m.restarted)
  | .call op => m.step (.call op)

/-- A process does not end while entries of a directory run past the end of the device. -/
structure Lived (m : Sessions) (event : SessionEvent) : Prop where
  limited : Limited m event
  whole : event = .crash → ¬ Overhangs m.disk

theorem Lived.call {op : Op} (ok : Limited m (.call op)) : Lived m (.call op) :=
  ⟨ok, fun crash => by cases crash⟩

theorem Carries.lives (carries : Carries m fs) (ok : Lived m event) (run : m.lives event = some (r, m')) :
    ∃ fs', FileSystem.SessionStep fs event r fs' ∧ Carries m' fs' := by
  cases event with
  | crash =>
    cases run
    obtain ⟨own, stored⟩ : ∃ own, OnDisk m.current.fs own fs := by
      cases up : m.mounted with
      | true =>
        obtain ⟨own, follows⟩ := carries.running up
        exact ⟨own, follows.globals.onDisk⟩
      | false => exact carries.down up
    obtain ⟨fs', reattached, stored⟩ : ∃ fs', fs.Reattached fs' ∧ OnDisk m.current.fs.restarted own fs' :=
      stored.attached (ok.whole rfl) rfl rfl
    exact ⟨fs', .crash reattached, fun up => (Bool.false_ne_true up).elim, fun _ => ⟨own, stored⟩⟩
  | call op => exact carries.step ok.limited run

theorem Sessions.lives_call {op : Op} (run : m.step (.call op) = some (r, m')) :
    m.lives (.call op) = some (r, m') := run

theorem Sessions.lives_crash (zero : (m.disk 25599).mem 4095 = 0) :
    m.lives .crash = some (⟨0, []⟩, m.crashed) := by
  have same : m.current.fs.vol.disk.attached = m.current.fs.vol.disk := attached_self zero
  rw [lives, restarted, Fs.restarted, same]
  rfl

/-- Every run of sessions on a device with a new file system, whatever ends them and however
often it is made again, is with all its replies a run of the `FileSystem`. At its end the
session, or the device between two of them, shows that `FileSystem`. -/
theorem sessions_refine {before : Fs} (made : cnmkfs before = some (code, m.current.fs))
    (down : m.mounted = false) (steps : Steps Sessions.lives Lived m trace m') :
    ∃ fs, Runs FileSystem.SessionStep (.new before.host) trace fs ∧ Carries m' fs :=
  Simulation.Steps.simulated Carries (fun _ _ _ _ _ carries ok run => carries.lives ok run) steps
    ⟨fun up => absurd (down.symm.trans up) (by decide), fun _ => ⟨_, (cnmkfs_onDisk made).2⟩⟩

end

section Lp64
attribute [local instance] lp64

theorem dirRestarted_run : (dirMade.fs.vol.disk 25599).mem 4095 = 0 ∧
    bit (dirMade.fs.vol.disk 1) 25599 = false := by decide +kernel

theorem dirMade_whole : ¬ Overhangs dirMade.fs.vol.disk := by
  have inLimits : InLimits emptyBooted (.mkdir [97]) := ⟨mkdirOk_a, trivial⟩
  obtain ⟨_, _, _, after⟩ := (boot_follows emptyBooted_eq).step inLimits dirMade_eq
  exact after.globals.onDisk.holds.not_overhangs dirRestarted_run.2

/-- A directory is made, the process is killed, and a new one mounts the device. -/
theorem sessions_refine_crashed : ∃ trace own fs,
    Runs FileSystem.SessionStep (.new emptyStart.host) trace fs ∧
    Refines ⟨dirMounted, fun _ => none⟩ own fs := by
  have crashed : (firstSession.worked dirMade).lives .crash = some (⟨0, []⟩, dirCrashed) :=
    Sessions.lives_crash (by rw [Sessions.worked_disk]; exact dirRestarted_run.1)
  have whole : ¬ Overhangs (firstSession.worked dirMade).disk := by
    rw [Sessions.worked_disk]
    exact dirMade_whole
  have steps : Steps Sessions.lives Lived madeSessions
      [(.call .mount, ⟨0, []⟩), (.call (.mkdir [97]), emptyBooted.reply (.mkdir [97])),
        (.crash, ⟨0, []⟩), (.call .mount, ⟨0, []⟩)] (dirCrashed.begun dirMounted) :=
    .cons (.call trivial) (Sessions.lives_call firstSession_eq)
      (.cons (.call ⟨mkdirOk_a, trivial⟩) (Sessions.lives_call dirMade_session)
        (.cons ⟨trivial, fun _ => whole⟩ crashed
          (.single (.call trivial) (Sessions.lives_call (Sessions.mount_some rfl dirMounted_eq)))))
  obtain ⟨fs, runs, carries⟩ := sessions_refine (Option.some_get emptyStart_makes).symm rfl steps
  obtain ⟨own, follows⟩ := carries.running rfl
  exact ⟨_, own, fs, runs, follows.toRefines⟩

end Lp64

end CdnwSh
