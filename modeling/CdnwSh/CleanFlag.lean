import CdnwSh.Globals
import CdnwSh.Machine

/-! The clean flag of the superblock over sessions: each mounts, works and ends in an unmount
or in a crash. A session that changed the disk has taken the flag off it, as long as its
first change allocates or releases something. -/
namespace CdnwSh

open PartialRun ByteMemory

section
variable [InodeLayout] {v v' : Vol} {own own' : Owner} {node node' : Nodes} {i p : Iptr}
  {es : List DirEntry} {e : DirEntry}

theorem Holds.bit_inode (holds : Holds v own node) (n : Nat) :
    bit v.inodeBmCache n = true ↔ ∃ i : Iptr, i.toNat = n ∧ node i ≠ none := by
  constructor
  · exact holds.exact_inodes n
  · rintro ⟨i, rfl, live⟩
    exact (holds.inodes i live).2

/-- More nodes leave fewer free inodes. -/
theorem Holds.free_lt (holds : Holds v own node) (holds' : Holds v' own' node')
    (kept : ∀ j, node j ≠ none → node' j ≠ none) (fresh : node i = none) (new : node' i ≠ none) :
    Pool.inode.free v' < Pool.inode.free v := by
  rw [holds.ledger.agrees .inode, holds'.ledger.agrees .inode]
  obtain ⟨bound, used⟩ := holds'.inodes i new
  refine LeastIndex.clearCount_lt (fun n old => ?_) bound ?_ used
  · obtain ⟨j, same, live⟩ := (holds.bit_inode n).mp old
    exact (holds'.bit_inode n).mpr ⟨j, same, kept j live⟩
  · by_contra old
    obtain ⟨j, same, live⟩ := (holds.bit_inode _).mp (Bool.eq_true_of_not_eq_false old)
    rw [UInt32.toNat_inj.mp same] at live
    exact live fresh

omit [InodeLayout] in
theorem Pool.free_ne {q : Pool} (apart : q.free v' ≠ q.free v) : v'.superblkCache ≠ v.superblkCache :=
  fun same => apart (by rw [Pool.free, Pool.free, same])

theorem inserted_superblk (holds : Holds v own node) (found : node i = some (.dir p es))
    (fresh : node e.inode = none) (holds' : Holds v' own' (NameTree.insert scheme node i p es e child)) :
    v'.superblkCache ≠ v.superblkCache := by
  refine Pool.free_ne (q := .inode) (Nat.ne_of_lt ?_)
  have live (j : Iptr) : NameTree.insert scheme node i p es e child j ≠ none ↔
      j = e.inode ∨ node j ≠ none := NameTree.insert_live (S := scheme) found
  exact holds.free_lt holds' (fun j before => (live j).mpr (.inr before)) fresh
    ((live e.inode).mpr (.inl rfl))

theorem Removed.superblk {s : Fs} (removed : Removed s own node path i p es e ptr v')
    (holds : Holds s.vol own node) : v'.superblkCache ≠ s.vol.superblkCache := by
  refine Pool.free_ne (q := .inode) (Nat.ne_of_gt ?_)
  exact removed.holds.free_lt holds (i := e.inode)
    (fun j live => ((NameTree.erase_live (S := scheme) removed.found).mp live).2)
    (NameTree.erase_target (S := scheme)) (by rw [removed.empty]; exact Option.some_ne_none _)

/-- Reaching `required` bytes takes a new block. -/
def Allocates (fde : FdEntry) (required : UInt32) : Prop :=
  fde.inode.size < required ∧ fde.inode.blocks.toNat < required.toNat / 4096 + 1

/-- What the command writes, if it writes, comes with a change of the superblock's counters:
a write or a seek that needs a new block, a write to an empty file that leaves it empty, a
removal that finds its entry. -/
def Flushing (s : Fs) : Op → Prop
  | .write fd buf => ∀ n, fdSlot fd = some n → (s.fdTbl n).state = FD_WRITE →
      (s.fdTbl n).inode.blocks = 0 ∨ Allocates (s.fdTbl n) (writeEnd (s.fdTbl n) buf)
  | .seek fd offset => ∀ n, fdSlot fd = some n →
      (s.fdTbl n).inode.size < (s.fdTbl n).cursor + offset →
      Allocates (s.fdTbl n) ((s.fdTbl n).cursor + offset)
  | .rmdir path => ∀ i, landing s (parentPath path) = some i → lookup s.vol.disk i path ≠ none
  | _ => True

omit [InodeLayout] in
theorem newBlocks_pos {st : Inode} (more : st.blocks.toNat < need) : 0 < newBlocks st need := by
  unfold newBlocks directShare indirectShare
  omega

theorem FdGrown.superblk {s : Fs} {required : UInt32} (grown : FdGrown s own fde required fde' v' own')
    (more : fde.inode.blocks.toNat < required.toNat / 4096 + 1) :
    v'.superblkCache ≠ s.vol.superblkCache := by
  have := newBlocks_pos more
  have := grown.free
  exact Pool.free_ne (q := .block) (by omega)

/-- The disk is what it was, or the counters are not. -/
def Stirs (v v' : Vol) : Prop := v'.disk = v.disk ∨ v'.superblkCache ≠ v.superblkCache

theorem Sound.write_stirs {s s' : Fs} (sound : Sound s own node) (ok : WriteOk s fd buf)
    (flushing : Flushing s (.write fd buf)) (run : cnwrite buf fd s = some (r, s')) :
    Stirs s.vol s'.vol := by
  rcases sound.write ok run with ⟨_, rfl, _⟩ | ⟨n, own', fde, v, rfl, small, _, mode, _, stored, _⟩
  · exact .inl rfl
  have allowed := flushing n (fdSlot_small small) mode
  rw [Stirs, stored.vol]
  rcases stored.grown with ⟨less, rfl, rfl, rfl⟩ | ⟨more, grown⟩
  · left
    rcases allowed with none | allocates
    · have empty : blockList s.vol.disk (s.fdTbl n).inode = [] :=
        List.eq_nil_of_length_eq_zero (by rw [length_blockList, none]; rfl)
      rw [Vol.scattered, empty]
      rfl
    · exact absurd allocates.1 less
  · right
    refine grown.superblk ?_
    rcases allowed with none | allocates
    · rw [none]
      exact Nat.succ_pos _
    · exact allocates.2

theorem Sound.seek_stirs {s s' : Fs} (sound : Sound s own node) (ok : SeekOk s fd offset)
    (flushing : Flushing s (.seek fd offset)) (run : cnseek fd offset s = some (code, s')) :
    Stirs s.vol s'.vol := by
  obtain ⟨n, rfl, small, ⟨_, _, rfl⟩ | ⟨_, ⟨_, rfl, _⟩ | ⟨more, _, own', fde, grown, _⟩⟩⟩ :=
    sound.seek ok run
  · exact .inl rfl
  · exact .inl rfl
  · exact .inr (grown.superblk (flushing n (fdSlot_small small) more).2)

/-- Every sane command whose changes come with an allocation or a release. -/
theorem Inv.stirs {s s' : Session} {op : Op} (inv : Inv s own node) (sane : Sane s op)
    (flushing : Flushing s.fs op) (session : op ≠ .mount ∧ op ≠ .umount)
    (run : s.step op = some (r, s')) : Stirs s.fs.vol s'.fs.vol := by
  have sound := inv.sound
  cases op with
  | mkfs => exact absurd sane id
  | mount => exact absurd rfl session.1
  | umount => exact absurd rfl session.2
  | mkdir path =>
    obtain ⟨makes, _, _⟩ := Session.global_eq run
    rcases sound.mkdir sane makes with ⟨_, same⟩ | ⟨_, _, _, _, _, _, _, _, _, _, _, _, entered, _⟩
    · rw [same]
      exact .inl rfl
    · exact .inr (inserted_superblk sound.holds entered.found
        (sound.holds.unowned entered.fresh).2.1 entered.holds)
  | rmdir path =>
    obtain ⟨removes, _, _⟩ := Session.global_eq run
    rcases sound.holds.rmdir sound.home sane.noFiles sane.whole sane.notDot sane.notDotDot
      sane.onlyDirs removes with ⟨_, same⟩ | ⟨_, i, _, _, _, _, land, missing, _⟩ |
      ⟨_, _, _, _, _, _, _, _, same, removed⟩
    · rw [same]
      exact .inl rfl
    · exact absurd missing (flushing i land)
    · rw [same]
      exact .inr (removed.superblk sound.holds)
  | cd path =>
    obtain ⟨moves, _, _⟩ := Session.global_eq run
    obtain ⟨_, ⟨_, same⟩ | ⟨_, _, _, _, _, same⟩⟩ := sound.cd sane moves
    · rw [same]
      exact .inl rfl
    · rw [same]
      exact .inl rfl
  | ls path =>
    obtain ⟨_, rfl⟩ := Session.ls_eq run
    exact .inl rfl
  | opendir k path =>
    rcases Session.opendir_eq run with ⟨_, rfl⟩ | ⟨_, _, rfl⟩
    · exact .inl rfl
    · exact .inl rfl
  | closedir k =>
    cases run
    exact .inl rfl
  | creat h name =>
    obtain ⟨d, d', fs', here, creates, _, rfl⟩ := Session.onDir_eq run
    rw [setDir_vol]
    rcases sound.creat (sane d here) creates with ⟨_, rfl, _⟩ | ⟨_, _, _, _, _, _, _, new, _⟩
    · exact .inl rfl
    · exact .inr (inserted_superblk sound.holds new.entered.found
        (sound.holds.unowned new.entered.fresh).2.1 new.entered.holds)
  | openFile h name mode =>
    obtain ⟨d, d', fs', here, opens, _, rfl⟩ := Session.onDir_eq run
    rw [setDir_vol]
    generalize r.code = fd at opens
    cases sound.openFile (inv.shown h d here) (sane d here) opens with
    | failed => exact .inl rfl
    | found _ _ opened _ =>
      rw [opened.state]
      exact .inl rfl
    | created _ _ new opened _ =>
      rw [opened.state]
      exact .inr (inserted_superblk sound.holds new.entered.found
        (sound.holds.unowned new.entered.fresh).2.1 new.entered.holds)
  | close fd => exact .inl (congrArg Vol.disk (cnclose_vol (Session.global_eq run).1))
  | read fd bytes =>
    obtain ⟨reads, _⟩ := Session.read_eq run
    exact .inl (congrArg Vol.disk (cnread_vol reads))
  | write fd buf =>
    obtain ⟨_, writes, _⟩ := Session.write_eq run
    exact sound.write_stirs sane flushing writes
  | seek fd offset => exact sound.seek_stirs sane flushing (Session.global_eq run).1
  | cat name =>
    obtain ⟨cats, _⟩ := Session.cat_eq run
    exact .inl (congrArg Vol.disk (cncat_vol cats))
  | importFile hName gName =>
    obtain ⟨_, _, _, _, _, found, fresh, _, _, _, after, _⟩ :=
      sound.importFile sane (Session.global_eq run).1
    exact .inr (inserted_superblk sound.holds found fresh after.holds)
  | exportFile gName hName => exact .inl (congrArg Vol.disk (cnexport_vol (Session.global_eq run).1))

end

section
variable [InodeLayout]

/-- Sessions on one device: whether one runs and has changed the disk, whether the last one
had done so when it crashed, and whether ever an unmount declared a volume clean that its
mount had rejected. -/
structure Sessions where
  current : Session
  mounted : Bool
  wrote : Prop := False
  lost : Prop := False
  forged : Prop := False

inductive SessionEvent where
  | call (op : Op)
  | crash

def Sessions.disk (m : Sessions) : Disk := m.current.fs.vol.disk

/-- A crash: nothing more is written, and of what the process knew the device, the time and
the host are left. -/
def Fs.crashed (s : Fs) : Fs :=
  { Fs.started s.vol.disk s.host with clock := s.clock, ticks := s.ticks }

/-- A command was called. -/
def Sessions.worked (m : Sessions) (s : Session) : Sessions :=
  { m with current := s, wrote := m.wrote ∨ s.fs.vol.disk ≠ m.disk }

/-- A session has begun. -/
def Sessions.begun (m : Sessions) (fs : Fs) : Sessions :=
  { m with current := ⟨fs, fun _ => none⟩, mounted := true, wrote := False, lost := False }

/-- A session has ended with an unmount. -/
def Sessions.ended (m : Sessions) (s : Session) : Sessions :=
  { m with
    current := s, mounted := false,
    forged := m.forged ∨
      m.current.fs.vfsState = VFS_BLANK ∧ fsState (s.fs.vol.disk 0) = VALID_FS }

def Sessions.crashed (m : Sessions) : Sessions :=
  { m with
    current := ⟨m.current.fs.crashed, fun _ => none⟩, mounted := false, lost := m.wrote }

omit [InodeLayout] in
theorem Sessions.worked_current (m : Sessions) (s : Session) : (m.worked s).current = s := rfl

omit [InodeLayout] in
theorem Sessions.worked_disk (m : Sessions) (s : Session) : (m.worked s).disk = s.fs.vol.disk := rfl

omit [InodeLayout] in
theorem Sessions.crashed_disk (m : Sessions) : m.crashed.disk = m.disk := rfl

omit [InodeLayout] in
theorem Sessions.worked_wrote (m : Sessions) (s : Session) :
    (m.worked s).wrote = (m.wrote ∨ s.fs.vol.disk ≠ m.disk) := rfl

omit [InodeLayout] in
theorem Sessions.crashed_lost (m : Sessions) : m.crashed.lost = m.wrote := rfl

/-- A call in a session, or a file system made between two. -/
def Sessions.work (m : Sessions) (op : Op) : Option (Reply × Sessions) := do
  let (r, s) ← m.current.step op
  if m.mounted then return (r, m.worked s)
  else if op matches .mkfs then return (r, { m with current := s, lost := False })
  else none

/-- A session is a mount, calls, and an unmount or a crash. -/
def Sessions.step (m : Sessions) : SessionEvent → Option (Reply × Sessions)
  | .crash => if m.mounted then some (⟨0, []⟩, m.crashed) else none
  | .call .mount =>
    if m.mounted then none
    else do
      let (code, fs) ← cnmount m.current.fs
      return (⟨code, []⟩, m.begun fs)
  | .call .umount =>
    if m.mounted then do
      let (r, s) ← m.current.step .umount
      return (r, m.ended s)
    else none
  | .call op => m.work op

/-- Commands are sane and reach the superblock while its flag is set on disk, and no volume
is unmounted that its mount has rejected. A file system is made between sessions. -/
def Careful (m : Sessions) : SessionEvent → Prop
  | .crash | .call .mount => True
  | .call .umount => m.current.fs.vfsState ≠ VFS_BLANK
  | .call .mkfs => m.mounted = false
  | .call op => Sane m.current op ∧ (fsState (m.disk 0) = VALID_FS → Flushing m.current.fs op)

/-- A crash that lost a session's changes left the flag off, and no rejected volume was
declared clean. -/
def FlagTells (m : Sessions) : Prop := (m.lost → fsState (m.disk 0) ≠ VALID_FS) ∧ ¬ m.forged

/-- While a session runs the flag is off in the cache, and on disk once anything changed. -/
structure FlagInv (m : Sessions) : Prop where
  running : m.mounted = true → (∃ own node, Inv m.current own node) ∧
    fsState m.current.fs.vol.superblkCache ≠ VALID_FS ∧
    (m.wrote → fsState (m.disk 0) ≠ VALID_FS) ∧ ¬ m.lost
  down : m.mounted = false → Mountable m.disk
  tells : FlagTells m

omit [InodeLayout] in
theorem Flushes.state {v v' : Vol} (flush : Flushes v v') :
    fsState v'.superblkCache = fsState v.superblkCache :=
  flush.field (by decide) (by decide)

theorem Sessions.call_eq (m : Sessions) {op : Op} (mounts : op ≠ .mount) (unmounts : op ≠ .umount) :
    m.step (.call op) = m.work op := by
  cases op <;> first | rfl | contradiction

theorem Careful.sane {m : Sessions} {op : Op} (ok : Careful m (.call op)) (mounts : op ≠ .mount)
    (unmounts : op ≠ .umount) (makes : op ≠ .mkfs) :
    Sane m.current op ∧ (fsState (m.disk 0) = VALID_FS → Flushing m.current.fs op) := by
  cases op <;> first | exact ok | contradiction

/-- The commands of a session. -/
theorem FlagInv.works {m : Sessions} (inv : FlagInv m) (mounted : m.mounted = true)
    (sane : Sane m.current op) (flushing : fsState (m.disk 0) = VALID_FS → Flushing m.current.fs op)
    (mounts : op ≠ .mount) (unmounts : op ≠ .umount) (run : m.current.step op = some (r, s')) :
    FlagInv (m.worked s') := by
  obtain ⟨⟨own, node, before⟩, cache, wrote, kept⟩ := inv.running mounted
  obtain ⟨own', node', after⟩ := before.step sane run
  have flush := (after.next mounts unmounts).flush
  have cache' : fsState s'.fs.vol.superblkCache ≠ VALID_FS := by rwa [flush.state]
  refine ⟨fun _ => ⟨⟨own', node', after.inv⟩, cache', fun changed => ?_, kept⟩,
    fun down => absurd (mounted.symm.trans down) (by decide), fun lost => absurd lost kept,
    inv.tells.2⟩
  change fsState (s'.fs.vol.disk 0) ≠ VALID_FS
  rcases flush.written with ⟨same, disk⟩ | disk
  · rw [disk]
    rcases changed with old | new
    · exact wrote old
    · intro valid
      rcases before.stirs sane (flushing valid) ⟨mounts, unmounts⟩ run with still | stirred
      · exact new still
      · exact stirred same
  · rwa [disk]

/-- An orderly step keeps the invariant. -/
theorem FlagInv.step {m m' : Sessions} (inv : FlagInv m) (ok : Careful m event)
    (run : m.step event = some (r, m')) : FlagInv m' := by
  cases event with
  | crash =>
    rw [Sessions.step] at run
    split at run
    next mounted =>
      cases run
      obtain ⟨⟨own, node, before⟩, _, wrote, _⟩ := inv.running mounted
      exact ⟨fun up => (Bool.false_ne_true up).elim, fun _ => before.sound.mountable, wrote, inv.tells.2⟩
    · cases run
  | call op =>
    by_cases mounts : op = .mount
    · subst mounts
      rw [Sessions.step] at run
      split at run
      · cases run
      next down =>
        obtain ⟨⟨code, fs⟩, mounting, run⟩ := Option.bind_eq_some_iff.mp run
        cases run
        obtain ⟨after, _, unclean⟩ := (inv.down (Bool.eq_false_of_not_eq_true down)).mount mounting
        exact ⟨fun _ => ⟨after, unclean, fun none => none.elim, id⟩, fun up => (Bool.false_ne_true up.symm).elim,
          fun none => none.elim, inv.tells.2⟩
    by_cases unmounts : op = .umount
    · subst unmounts
      rw [Sessions.step] at run
      split at run
      next mounted =>
        obtain ⟨⟨code, s⟩, unmounting, run⟩ := Option.bind_eq_some_iff.mp run
        cases run
        obtain ⟨⟨own, node, before⟩, _, _, kept⟩ := inv.running mounted
        obtain ⟨_, _, after, _⟩ := before.sound.umount (Session.global_eq unmounting).1
        refine ⟨fun up => (Bool.false_ne_true up).elim, fun _ => after.mountable,
          fun lost => absurd lost kept, ?_⟩
        rintro (old | ⟨blank, _⟩)
        · exact inv.tells.2 old
        · exact ok blank
      · cases run
    rw [m.call_eq mounts unmounts] at run
    obtain ⟨⟨reply, s⟩, called, run⟩ := Option.bind_eq_some_iff.mp run
    dsimp only at run
    by_cases makes : op = .mkfs
    · subst makes
      have down : m.mounted = false := ok
      rw [if_neg (by rw [down]; decide), if_pos rfl] at run
      cases run
      refine ⟨fun up => absurd (down.symm.trans up) (by decide),
        fun _ => cnmkfs_mountable (Session.global_eq called).1, fun none => none.elim, inv.tells.2⟩
    · obtain ⟨sane, flushing⟩ := ok.sane mounts unmounts makes
      split at run
      next mounted =>
        cases run
        exact inv.works mounted sane flushing mounts unmounts called
      · cases op <;> contradiction

/-- In every run of sessions on a consistent disk whose steps are orderly: a crash that lost
changes left the flag off for the next mount, and no rejected volume was declared clean. -/
theorem clean_flag {m m' : Sessions} (mountable : Mountable m.disk) (down : m.mounted = false)
    (fresh : ¬ m.lost ∧ ¬ m.forged) (steps : Steps Sessions.step Careful m trace m') :
    FlagTells m' :=
  (steps.invariant FlagInv (fun _ _ _ _ inv ok run => inv.step ok run)
    ⟨fun up => absurd (down.symm.trans up) (by decide), fun _ => mountable,
      fun lost => absurd lost fresh.1, fresh.2⟩).tells

section
variable {m : Sessions}

theorem Sessions.mount_some (down : m.mounted = false) (run : cnmount m.current.fs = some (code, fs)) :
    m.step (.call .mount) = some (⟨code, []⟩, m.begun fs) := by
  rw [step, if_neg (by rw [down]; decide), run]
  rfl

theorem Sessions.crash_some (up : m.mounted = true) : m.step .crash = some (⟨0, []⟩, m.crashed) :=
  if_pos up

theorem Sessions.umount_some (up : m.mounted = true)
    (run : m.current.step .umount = some (r, s)) : m.step (.call .umount) = some (r, m.ended s) := by
  rw [step, if_pos up, run]
  rfl

theorem Sessions.call_some {op : Op} (up : m.mounted = true) (mounts : op ≠ .mount)
    (unmounts : op ≠ .umount) (here : m.current = before) (run : before.step op = some (r, s)) :
    m.step (.call op) = some (r, m.worked s) := by
  rw [m.call_eq mounts unmounts]
  unfold work
  rw [here, run, Option.bind_eq_bind, Option.bind_some]
  exact if_pos up

/-- The state a mount leaves, the old one where it is undefined. -/
def Fs.mounted (s : Fs) : Fs := ((cnmount s).map Prod.snd).getD s

theorem Fs.mounted_eq {s : Fs} (defined : (cnmount s).isSome) : cnmount s = some (0, s.mounted) := by
  obtain ⟨⟨code, s'⟩, mounts⟩ := Option.isSome_iff_exists.mp defined
  obtain rfl := (cnmount_eq mounts).1
  rw [mounted, mounts]
  rfl

omit [InodeLayout] in
theorem cnumount_valid {s s' : Fs} (run : cnumount s = some (code, s')) :
    fsState (s'.vol.disk 0) = VALID_FS := by
  obtain ⟨_, _, rfl⟩ := cnumount_eq run
  change fsState (setField _ 1046 2 VALID_FS) = VALID_FS
  rw [fsState, getField_setField (by decide)]
  rfl

end

end

section Lp64
attribute [local instance] lp64

theorem emptyStart_makes : (cnmkfs emptyStart).isSome := by
  have boots := emptyBooted_eq
  rw [boot] at boots
  obtain ⟨made, makes, _⟩ := Option.bind_eq_some_iff.mp boots
  rw [makes]
  rfl

/-- A device with a new file system, before its first session. -/
def madeSessions : Sessions :=
  { current := ⟨((cnmkfs emptyStart).get emptyStart_makes).2, fun _ => none⟩, mounted := false }

theorem madeSessions_mountable : Mountable madeSessions.disk :=
  cnmkfs_mountable (Option.some_get emptyStart_makes).symm

theorem madeSessions_boots : cnmount madeSessions.current.fs = some (0, emptyBooted.fs) ∧
    (⟨emptyBooted.fs, fun _ => none⟩ : Session) = emptyBooted := by
  have boots := emptyBooted_eq
  rw [boot, (Option.some_get emptyStart_makes).symm, Option.bind_eq_bind, Option.bind_some] at boots
  dsimp only at boots
  obtain ⟨⟨code, fs⟩, mounts, same⟩ := Option.bind_eq_some_iff.mp boots
  have done := (cnmount_eq mounts).1
  have whole : (⟨fs, fun _ => none⟩ : Session) = emptyBooted := Option.some.inj same
  rw [← whole]
  exact ⟨done ▸ mounts, rfl⟩

/-- The first session. -/
def firstSession : Sessions := { madeSessions with current := emptyBooted, mounted := true }

theorem firstSession_eq : madeSessions.step (.call .mount) = some (⟨0, []⟩, firstSession) := by
  obtain ⟨mounts, same⟩ := madeSessions_boots
  rw [Sessions.mount_some rfl mounts, Sessions.begun, same]
  rfl

theorem dirMade_session : firstSession.step (.call (.mkdir [97])) =
    some (emptyBooted.reply (.mkdir [97]), firstSession.worked dirMade) :=
  Sessions.call_some rfl (by simp) (by simp) rfl dirMade_eq

/-- A directory made before a crash, and the session after it. -/
def dirCrashed : Sessions := (firstSession.worked dirMade).crashed
def dirMounted : Fs := dirCrashed.current.fs.mounted
def dirUnmounted : Session := (Session.mk dirMounted fun _ => none).after .umount

theorem dirCrashed_run : fsState (dirMade.fs.vol.disk 0) ≠ fsState (emptyBooted.fs.vol.disk 0) ∧
    (cnmount dirCrashed.current.fs).isSome ∧ dirMounted.vfsState = VFS_BLANK ∧
    ((Session.mk dirMounted fun _ => none).step .umount).isSome := by decide +kernel

theorem dirMounted_eq : cnmount dirCrashed.current.fs = some (0, dirMounted) :=
  Fs.mounted_eq dirCrashed_run.2.1

theorem dirUnmounted_eq : (Session.mk dirMounted fun _ => none).step .umount =
    some ((Session.mk dirMounted fun _ => none).reply .umount, dirUnmounted) :=
  Session.after_eq dirCrashed_run.2.2.2

/-- A session makes a directory and crashes: the next mount finds the flag off. -/
theorem clean_flag_off : ∃ trace m, Steps Sessions.step Careful madeSessions trace m ∧ m.lost ∧
    FlagTells m := by
  have steps : Steps Sessions.step Careful madeSessions
      [(.call .mount, ⟨0, []⟩), (.call (.mkdir [97]), emptyBooted.reply (.mkdir [97])),
        (.crash, ⟨0, []⟩)] (firstSession.worked dirMade).crashed :=
    .cons trivial firstSession_eq (.cons ⟨mkdirOk_a, fun _ => trivial⟩ dirMade_session
      (.single trivial rfl))
  refine ⟨_, _, steps, .inr fun same => ?_,
    clean_flag madeSessions_mountable rfl ⟨id, id⟩ steps⟩
  exact dirCrashed_run.1 (congrArg (fun d : Disk => fsState (d 0)) same)

/-- A file of one byte, left by an unmount and then changed. -/
def byteWritten : Session := fileOpened.after (.write 0 [1])
def byteUnmounted : Session := byteWritten.after .umount
def byteMounted : Fs := byteUnmounted.fs.mounted
def byteOpened : Session := (Session.mk byteMounted fun _ => none).after (.openFile .cwd [102] FD_WRITE)
def byteReplaced : Session := byteOpened.after (.write 0 [2])

theorem byteReplaced_run : (fileOpened.step (.write 0 [1])).isSome ∧ (byteWritten.step .umount).isSome ∧
    (cnmount byteUnmounted.fs).isSome ∧
    ((Session.mk byteMounted fun _ => none).step (.openFile .cwd [102] FD_WRITE)).isSome ∧
    (byteOpened.step (.write 0 [2])).isSome ∧ fsState (byteReplaced.fs.vol.disk 0) = VALID_FS ∧
    byteReplaced.fs.vol.disk 104 0 ≠ byteOpened.fs.vol.disk 104 0 := by decide +kernel

theorem byteWritten_eq : fileOpened.step (.write 0 [1]) =
    some (fileOpened.reply (.write 0 [1]), byteWritten) := Session.after_eq byteReplaced_run.1

theorem byteUnmounted_eq : byteWritten.step .umount = some (byteWritten.reply .umount, byteUnmounted) :=
  Session.after_eq byteReplaced_run.2.1

theorem byteMounted_eq : cnmount byteUnmounted.fs = some (0, byteMounted) :=
  Fs.mounted_eq byteReplaced_run.2.2.1

theorem byteOpened_eq : (Session.mk byteMounted fun _ => none).step (.openFile .cwd [102] FD_WRITE) =
    some ((Session.mk byteMounted fun _ => none).reply (.openFile .cwd [102] FD_WRITE), byteOpened) :=
  Session.after_eq byteReplaced_run.2.2.2.1

theorem byteReplaced_eq : byteOpened.step (.write 0 [2]) =
    some (byteOpened.reply (.write 0 [2]), byteReplaced) :=
  Session.after_eq byteReplaced_run.2.2.2.2.1

/-- Any steps of sessions. -/
def AnyStep (_ : Sessions) (_ : SessionEvent) : Prop := True

/-- The first session writes the file and unmounts, then the second begins. -/
def secondSession : Sessions :=
  (((firstSession.worked fileOpened).worked byteWritten).ended byteUnmounted).begun byteMounted

theorem secondSession_steps : ∃ trace, Steps Sessions.step AnyStep madeSessions trace secondSession := by
  have opened := Sessions.call_some (m := firstSession) rfl (by simp) (by simp) rfl fileOpened_eq
  have written := Sessions.call_some (m := firstSession.worked fileOpened) rfl (by simp) (by simp)
    (Sessions.worked_current ..) byteWritten_eq
  have ended := Sessions.umount_some (m := (firstSession.worked fileOpened).worked byteWritten) rfl
    byteUnmounted_eq
  have begun := Sessions.mount_some
    (m := ((firstSession.worked fileOpened).worked byteWritten).ended byteUnmounted) rfl byteMounted_eq
  exact ⟨_, .cons trivial firstSession_eq (.cons trivial opened (.cons trivial written
    (.cons trivial ended (.single trivial begun))))⟩

/-- A session that changes a byte of a file and crashes leaves the flag set. -/
theorem byteReplaced_lost : ∃ trace m, Steps Sessions.step AnyStep madeSessions trace m ∧ m.lost ∧
    fsState (m.disk 0) = VALID_FS := by
  obtain ⟨trace, steps⟩ := secondSession_steps
  obtain ⟨_, _, _, _, _, flag, changed⟩ := byteReplaced_run
  have opened := Sessions.call_some (m := secondSession) rfl (by simp) (by simp) rfl byteOpened_eq
  have replaced := Sessions.call_some (m := secondSession.worked byteOpened) rfl (by simp) (by simp)
    (Sessions.worked_current ..) byteReplaced_eq
  have crashed := Sessions.crash_some (m := (secondSession.worked byteOpened).worked byteReplaced) rfl
  have lost : ((secondSession.worked byteOpened).worked byteReplaced).crashed.lost := by
    rw [Sessions.crashed_lost, Sessions.worked_wrote, Sessions.worked_disk]
    exact .inr fun same => changed (congrArg (fun d : Disk => d 104 0) same)
  have disk : ((secondSession.worked byteOpened).worked byteReplaced).crashed.disk =
      byteReplaced.fs.vol.disk := by
    rw [Sessions.crashed_disk, Sessions.worked_disk]
  exact ⟨_, _, steps.append (.cons trivial opened (.cons trivial replaced (.single trivial crashed))),
    lost, disk ▸ flag⟩

/-- A session on the volume of a crash sets the flag again. -/
theorem dirUnmounted_forged : ∃ trace m, Steps Sessions.step AnyStep madeSessions trace m ∧
    m.forged := by
  have crashed : (firstSession.worked dirMade).step .crash = some (⟨0, []⟩, dirCrashed) :=
    Sessions.crash_some rfl
  have begun := Sessions.mount_some (m := dirCrashed) rfl dirMounted_eq
  have ended := Sessions.umount_some (m := dirCrashed.begun dirMounted) rfl dirUnmounted_eq
  have valid := cnumount_valid (Session.global_eq dirUnmounted_eq).1
  refine ⟨_, _, .cons trivial firstSession_eq (.cons trivial dirMade_session (.cons trivial crashed
    (.cons trivial begun (.single trivial ended)))), ?_⟩
  exact .inr ⟨dirCrashed_run.2.2.1, valid⟩

theorem clean_flag_lies :
    (∃ trace m, Steps Sessions.step AnyStep madeSessions trace m ∧ m.lost ∧
      fsState (m.disk 0) = VALID_FS) ∧
    ∃ trace m, Steps Sessions.step AnyStep madeSessions trace m ∧ m.forged :=
  ⟨byteReplaced_lost, dirUnmounted_forged⟩

end Lp64

end CdnwSh
