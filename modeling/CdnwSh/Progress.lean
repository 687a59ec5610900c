import CdnwSh.CreateMany
import CdnwSh.DirectoryScans
import CdnwSh.Refinement

/-! Which commands come to their end. In every state that a run reaches, a command in the limits
is defined if and only if its arguments fit the buffers they are copied to, the pointers it
follows are set, and a record or a block map that it makes larger has room. -/
namespace CdnwSh

open ByteMemory RecordList FileStore PartialRun

theorem defined_bind {α β : Type} {a : α} {x : Option α} {f : α → Option β} (run : x = some a)
    (next : (f a).isSome) : (x >>= f).isSome := by
  rw [run]
  exact next

section
variable [InodeLayout]

/-- The path fits the buffer of `cnopendir`, starts at a directory, and is "/" or has a
component. -/
structure PathGiven (s : Fs) (path : Name) : Prop where
  short : path.length ≤ 255
  starts : walkStart s path ≠ none
  named : path = [slash] ∨ walkToks path ≠ []

/-- The record of a new entry lies inside the block of directory `i`, without its padding, and
the slot of the new inode inside its table block. -/
structure RecordGiven (v : Vol) (i : Iptr) (name : Name) : Prop where
  room : ∀ st, inodeRead v.disk i = some st → st.size.toNat + 8 + name.length ≤ 4096
  slot : NextFits v

/-- The components of a walk of `cnmkdir` from directory `i`. -/
structure WalkGiven (v : Vol) (i : Iptr) (toks : List Name) : Prop where
  named : toks ≠ []
  short : ∀ tok ∈ toks, tok.length ≤ 255
  record : ∀ j name, mkdirTarget v.disk i toks = some (j, name) → RecordGiven v j name

/-- A name that the handle does not show can be created through it. -/
def CreatGiven (v : Vol) (h : DirPtr) (name : Name) : Prop :=
  ∀ next, cnstat h name = some (none, next) → RecordGiven v h.inodeId name

/-- The bytes of a file with all its 8 direct blocks and 1024 blocks behind the indirect one. -/
def maxBytes : Nat := 4096 * 1032

/-- What the arguments of a command and the state it meets have to provide. -/
def Given (s : Session) : Op → Prop
  | .mkfs | .mount | .closedir _ => True
  | .umount => s.fs.cwd ≠ none
  | .mkdir path => ∃ cwd, s.fs.cwd = some cwd ∧ WalkGiven s.fs.vol cwd.inodeId (strtok path)
  | .rmdir path => PathGiven s.fs (parentPath path)
  | .cd path => PathGiven s.fs path ∧ (s.fs.cwd = none → FirstMissing s.fs path)
  | .ls path | .opendir _ path => PathGiven s.fs path
  | .creat h name => ∃ d, s.dir h = some d ∧ CreatGiven s.fs.vol d name
  | .openFile h name mode => ∃ d, s.dir h = some d ∧ (mode = FD_WRITE → CreatGiven s.fs.vol d name)
  | .close fd | .read fd _ => InTable fd
  | .write fd buf => ∃ n, fdSlot fd = some n ∧ ((s.fs.fdTbl n).state = FD_WRITE →
      (s.fs.fdTbl n).cursor.toNat + buf.length < maxBytes ∨
      Refused s.fs (s.fs.fdTbl n) (writeEnd (s.fs.fdTbl n) buf))
  | .seek fd offset => ∃ n, fdSlot fd = some n ∧ ((s.fs.fdTbl n).state ≠ FD_FREE →
      (s.fs.fdTbl n).cursor.toNat + offset.toNat < maxBytes ∨
      Refused s.fs (s.fs.fdTbl n) ((s.fs.fdTbl n).cursor + offset))
  | .cat _ => ∃ cwd, s.fs.cwd = some cwd
  | .importFile hName gName => ∃ cwd content, s.fs.cwd = some cwd ∧
      s.fs.host.files hName = some content ∧ lookup s.fs.vol.disk cwd.inodeId gName = none ∧
      RecordGiven s.fs.vol cwd.inodeId gName ∧ s.fs.host.heap.grants content.length = true ∧
      (content.length ≤ s.fs.host.readable hName →
        content.length < maxBytes ∨ ¬ CacheGranted s.fs.host.heap content.length)
  | .exportFile gName hName => ∃ cwd, s.fs.cwd = some cwd ∧
      lookup s.fs.vol.disk cwd.inodeId gName ≠ none ∧ s.fs.host.writable hName ≠ none

section
variable {s s' : Fs} {v : Vol} {own : Owner} {node : Nodes} {i j p : Iptr} {es rs : List DirEntry}
  {st : Inode} {h : DirPtr} {fde : FdEntry}

theorem Sound.opendir_given (sound : Sound s own node) (ok : PathOk s path) :
    (cnopendir s path).isSome ↔ PathGiven s path := by
  constructor
  · intro defined
    obtain ⟨r, run⟩ := Option.isSome_iff_exists.mp defined
    obtain ⟨i, starts, _⟩ := sound.opendir_arrives ok run
    obtain ⟨q, fs, st, _, dir, inflated⟩ := sound.holds.start_handle sound.home starts
    rw [cnopendir] at run
    split at run
    · cases run
    next short =>
      refine ⟨by omega, by rw [starts]; simp, ?_⟩
      by_contra unnamed
      rw [not_or, not_not] at unnamed
      obtain ⟨next, read, _⟩ := cnreaddir_next dir.lists
      rw [inflated, Option.bind_eq_bind, Option.bind_some, if_neg unnamed.1, ← walkToks, unnamed.2] at run
      change (cnreaddir (handle s.vol.disk i st)).bind _ = _ at run
      rw [read] at run
      cases run
  · rintro ⟨short, starts, named⟩
    obtain ⟨i, starts⟩ := Option.ne_none_iff_exists'.mp starts
    obtain ⟨q, fs, st, found, dir, inflated⟩ := sound.holds.start_handle sound.home starts
    obtain ⟨r, walked, _⟩ := sound.holds.openWalk_eq found dir (ok i starts) 6401
    rw [cnopendir, if_neg (by omega), inflated, Option.bind_eq_bind, Option.bind_some]
    by_cases root : path = [slash]
    · rw [if_pos root]
      rfl
    · obtain ⟨tok, rest, toks⟩ := List.exists_cons_of_ne_nil (named.resolve_left root)
      rw [if_neg root, ← walkToks, toks]
      rw [toks] at walked
      dsimp only
      rw [walked]
      rfl

/-- A record that is stored lies inside the block of its directory. -/
theorem appendEntry_inside (current : HandleOf h i st rs) (ended : h.index = h.inodeSt.size)
    (run : appendEntry s h name fileType = some out) : st.size.toNat + 8 + name.length ≤ 4096 := by
  obtain ⟨⟨n, v⟩, _, run⟩ := Option.bind_eq_some_iff.mp run
  obtain ⟨data, stored, _⟩ := Option.bind_eq_some_iff.mp run
  rw [storeEntry] at stored
  split at stored
  next inside => rwa [ended, current.field.1, current.size] at inside
  · cases stored

theorem Ledger.next (ledger : Ledger v own) (left : Pool.inode.free v ≠ 0) :
    ∃ n rest, freeList .inode v = n :: rest ∧ n.toNat < 6400 ∧ (NextFits v ↔ Fits n) := by
  obtain ⟨n, rest, free⟩ := ledger.head left
  refine ⟨n, rest, free, (mem_freeList.mp (by rw [free]; exact List.mem_cons_self)).1, ?_⟩
  rw [NextFits, free]
  exact ⟨fun fits => fits n rfl, fun fits i same => by cases same; exact fits⟩

theorem inodeWrite_fits {d d' : Disk} (bound : i.toNat < 6400) (run : inodeWrite d i st = some d') :
    Fits i := by
  rw [inodeWrite_eq bound] at run
  split at run
  next fits => exact fits
  · cases run

theorem Holds.createBranch_given (holds : Holds s.vol own node) (found : node i = some (.dir p es))
    (dir : DirAt s.vol.disk own i st (records i p es)) (short : name.length ≤ 255)
    (left : Pool.inode.free s.vol ≠ 0 ∧ Pool.block.free s.vol ≠ 0) :
    (createBranch s { handle s.vol.disk i st with index := st.size } name).isSome ↔
      RecordGiven s.vol i name := by
  have bound := (holds.inodes i (by rw [found]; simp)).1
  obtain ⟨n, rest, inode, number, next⟩ := holds.ledger.next left.1
  obtain ⟨ptr, rest', block⟩ := holds.ledger.head left.2
  have current : HandleOf { handle s.vol.disk i st with index := st.size } i st (records i p es) :=
    dir.handleOf.reindex
  have total (inside : st.size.toNat + 8 + name.length ≤ 4096) :
      ∃ h' d, appendEntry s { handle s.vol.disk i st with index := st.size } name ITYPE_DIR =
        some (n, h', { s with vol := { s.vol.taken .inode n with disk := d }, ticks := s.ticks + 1 }) :=
    appendEntry_total holds.ledger dir current rfl bound short inside inode
  constructor
  · intro defined
    obtain ⟨out, run⟩ := Option.isSome_iff_exists.mp defined
    obtain ⟨⟨n', h', s₁⟩, appends, run⟩ := Option.bind_eq_some_iff.mp run
    obtain ⟨s₂, creates, _⟩ := Option.bind_eq_some_iff.mp run
    have inside := appendEntry_inside current rfl appends
    refine ⟨fun st' read => ?_, next.mpr ?_⟩
    · rw [dir.read] at read
      cases read
      exact inside
    · obtain ⟨_, _, same⟩ := total inside
      rw [same] at appends
      cases appends
      obtain ⟨⟨_, v⟩, _, creates⟩ := Option.bind_eq_some_iff.mp creates
      obtain ⟨d, written, _⟩ := Option.bind_eq_some_iff.mp creates
      exact inodeWrite_fits number written
  · rintro ⟨room, slot⟩
    obtain ⟨h', d, appended⟩ := total (room st dir.read)
    obtain ⟨v₁, st', same, _, entry⟩ := appendEntry_spec holds.ledger dir current rfl bound
      (holds.records_sound found) short left.1 appended
    rw [Fs.mk.injEq] at same
    obtain rfl := same.1
    obtain ⟨d', made⟩ := createDir_total (p := h'.inodeId)
      (s := { s with vol := { s.vol.taken .inode n with disk := d }, ticks := s.ticks + 1 })
      entry.confined.ledger number (next.mp slot) (entry.blocks.trans block)
    rw [createBranch, appended, Option.bind_eq_bind, Option.bind_some]
    dsimp only
    rw [made]
    rfl

theorem WalkGiven.cons (more : rest ≠ [])
    (target : mkdirTarget v.disk i (tok :: rest) = mkdirTarget v.disk j rest) :
    WalkGiven v i (tok :: rest) ↔ tok.length ≤ 255 ∧ WalkGiven v j rest := by
  constructor
  · rintro ⟨_, short, record⟩
    rw [target] at record
    exact ⟨short tok List.mem_cons_self,
      more, fun tok' member => short tok' (List.mem_cons_of_mem _ member), record⟩
  · rintro ⟨first, _, short, record⟩
    refine ⟨List.cons_ne_nil _ _, List.forall_mem_cons.mpr ⟨first, short⟩, ?_⟩
    rwa [target]

/-- Every component of the walk of `cnmkdir` is looked up, and the last one may be created. -/
theorem Holds.mkdirWalk_given (holds : Holds s.vol own node) (found : node i = some (.dir p es))
    (dir : DirAt s.vol.disk own i st (records i p es)) (noFiles : NoFilesMkdir s.vol.disk i toks)
    (left : mkdirTarget s.vol.disk i toks ≠ none →
      Pool.inode.free s.vol ≠ 0 ∧ Pool.block.free s.vol ≠ 0) :
    (mkdirWalk s toks st i).isSome ↔ WalkGiven s.vol i toks := by
  induction toks generalizing i p es st with
  | nil => exact iff_of_false (by simp [mkdirWalk]) fun given => given.named rfl
  | cons tok rest ih =>
    obtain ⟨k, scanned, ended⟩ := dir.findName_eq holds.ledger tok
    rw [mkdirWalk]
    split
    next long =>
      refine iff_of_false (by simp) fun given => ?_
      have first := given.short tok List.mem_cons_self
      omega
    next short =>
      rw [dir.loaded holds.ledger]
      simp only [Option.bind_eq_bind, Option.bind_some]
      change ((findName (handle s.vol.disk i st) tok).bind _).isSome ↔ _
      rw [scanned, Option.bind_some]
      have first : tok.length ≤ 255 := by omega
      cases named : lookup s.vol.disk i tok with
      | some e =>
        dsimp only
        by_cases last : rest = []
        · rw [if_pos last]
          refine iff_of_true rfl ⟨List.cons_ne_nil _ _, fun tok' member => ?_, fun j name target => ?_⟩
          · rw [last, List.mem_singleton] at member
            rwa [member]
          · rw [mkdirTarget, named] at target
            dsimp only at target
            rw [if_pos last] at target
            cases target
        · have target : mkdirTarget s.vol.disk i (tok :: rest) = mkdirTarget s.vol.disk e.inode rest := by
            rw [mkdirTarget, named]
            exact if_neg last
          have inner := noFiles last
          rw [named] at inner
          obtain ⟨q, fs, st', sub, dir'⟩ := holds.component found named inner.1
          rw [target] at left
          rw [if_neg last, dir'.read, Option.bind_some, WalkGiven.cons last target, ih sub dir' inner.2 left]
          exact (and_iff_right first).symm
      | none =>
        dsimp only
        by_cases last : rest = []
        · have target : mkdirTarget s.vol.disk i (tok :: rest) = some (i, tok) := by
            rw [mkdirTarget, named]
            exact if_pos last
          obtain rfl := ended named
          have branch := holds.createBranch_given found dir first (left (by rw [target]; simp))
          rw [if_pos last]
          refine branch.trans ⟨fun given => ⟨List.cons_ne_nil _ _, fun tok' member => ?_,
            fun j name same => ?_⟩, fun given => given.record i tok target⟩
          · rw [last, List.mem_singleton] at member
            rwa [member]
          · rw [target] at same
            cases same
            exact given
        · have target : mkdirTarget s.vol.disk i (tok :: rest) = mkdirTarget s.vol.disk i rest := by
            rw [mkdirTarget, named]
            exact if_neg last
          have inner := noFiles last
          rw [named] at inner
          rw [target] at left
          rw [if_neg last, WalkGiven.cons last target, ih found dir inner left]
          exact (and_iff_right first).symm

theorem Sound.mkdir_given (sound : Sound s own node) (ok : MkdirOk s path) :
    (cnmkdir path s).isSome ↔
      ∃ cwd, s.cwd = some cwd ∧ WalkGiven s.vol cwd.inodeId (strtok path) := by
  cases here : s.cwd with
  | none =>
    rw [cnmkdir, here]
    exact iff_of_false (by simp) (by simp)
  | some cwd =>
    obtain ⟨p, es, found⟩ := sound.home cwd here
    obtain ⟨st, dir⟩ := sound.holds.dirs _ _ _ found
    have walk := sound.holds.mkdirWalk_given found dir (ok.noFiles cwd here) (ok.left cwd here)
    rw [cnmkdir, here, Option.bind_eq_bind, Option.bind_some, dir.read, Option.bind_eq_bind, Option.bind_some]
    refine walk.trans ⟨fun given => ⟨cwd, rfl, given⟩, ?_⟩
    rintro ⟨_, same, given⟩
    cases same
    exact given

theorem Sound.rmdir_given (sound : Sound s own node) (ok : RmdirOk s path) :
    (cnrmdir path s).isSome ↔ PathGiven s (parentPath path) := by
  rw [← sound.opendir_given ok.noFiles]
  constructor
  · intro defined
    obtain ⟨_, run⟩ := Option.isSome_iff_exists.mp defined
    obtain ⟨r, opened, _⟩ := Option.bind_eq_some_iff.mp run
    exact Option.isSome_iff_exists.mpr ⟨r, opened⟩
  · intro defined
    obtain ⟨r, opened⟩ := Option.isSome_iff_exists.mp defined
    obtain ⟨_, landed, missing⟩ := sound.holds.opendir sound.home ok.noFiles opened
    obtain ⟨j, land⟩ := Option.ne_none_iff_exists'.mp ok.whole
    obtain ⟨h, rfl, fresh⟩ := landed j land
    obtain ⟨q, fs, _, there, _⟩ := id fresh
    refine Option.isSome_iff_exists.mpr (sound.holds.rmdir_total there opened fresh ok.notDot
      ok.notDotDot fun e member named => ok.onlyDirs j e land ?_)
    rw [← named]
    exact sound.holds.lookup_member there member

/-- Nothing is opened only where the first name is missing. -/
theorem Sound.opens_none (sound : Sound s own node) (ok : PathOk s path)
    (opens : cnopendir s path = some none) : FirstMissing s path := by
  obtain ⟨i, starts, ⟨lost, _⟩ | ⟨_, _, _, some, _⟩⟩ := sound.opendir_arrives ok opens
  · obtain ⟨_, _, _, found, _⟩ := sound.holds.start_handle sound.home starts
    cases toks : walkToks path with
    | nil =>
      rw [toks] at lost
      cases lost
    | cons tok rest =>
      rw [toks, arrives, Option.map_eq_none_iff] at lost
      exact ⟨i, tok, rest, starts, toks, (sound.holds.named_eq found).trans lost⟩
  · cases some

theorem Sound.cd_given (sound : Sound s own node) (released : Released s) (ok : PathOk s path) :
    (cncd path s).isSome ↔ PathGiven s path ∧ (s.cwd = none → FirstMissing s path) := by
  rw [← sound.opendir_given ok, cncd]
  cases opens : cnopendir s path with
  | none => exact iff_of_false (by simp) (by simp)
  | some r =>
    cases r with
    | none => exact iff_of_true rfl ⟨rfl, fun _ => sound.opens_none ok opens⟩
    | some h =>
      have found : ¬ FirstMissing s path := fun missing => by
        cases (sound.holds.opendir sound.home ok opens).2.2 missing
      by_cases here : s.cwd = none
      · have closed : closeCwd s = none := if_pos ⟨here, released here⟩
        refine iff_of_false ?_ fun given => found (given.2 here)
        simp only [Option.bind_eq_bind, Option.bind_some, closed]
        exact nofun
      · have closes : closeCwd s = some () := if_neg fun both => here both.1
        refine iff_of_true ?_ ⟨rfl, fun none => absurd none here⟩
        simp only [Option.bind_eq_bind, Option.bind_some, closes]
        rfl

theorem Sound.umount_given (sound : Sound s own node) (released : Released s)
    (loaded : s.superblk = true) : (cnumount s).isSome ↔ s.cwd ≠ none := by
  constructor
  · intro defined none
    have closed : closeCwd s = Option.none := if_pos ⟨none, released none⟩
    rw [cnumount, closed] at defined
    cases defined
  · intro here
    obtain ⟨s', _, unmounts, _⟩ := sound.remounts loaded here
    rw [unmounts]
    rfl

omit [InodeLayout] in
theorem PathGiven.orDot : PathGiven s (if path = [] then dot else path) ↔ PathGiven s path := by
  split
  next empty =>
    rw [empty]
    exact ⟨fun ⟨_, starts, _⟩ => ⟨by decide, starts, .inr (by decide)⟩,
      fun ⟨_, starts, _⟩ => ⟨by decide, starts, .inr (by decide)⟩⟩
  · rfl

theorem Sound.ls_given (sound : Sound s own node) (ok : PathOk s path) :
    (cnls path s).isSome ↔ PathGiven s path := by
  rw [cnls]
  by_cases long : 256 ≤ path.length
  · rw [if_pos long]
    refine iff_of_false (by simp) fun given => ?_
    have short := given.short
    omega
  rw [if_neg long, ← PathGiven.orDot, ← sound.opendir_given ok.orDot]
  constructor
  · intro defined
    obtain ⟨_, run⟩ := Option.isSome_iff_exists.mp defined
    obtain ⟨r, opened, _⟩ := Option.bind_eq_some_iff.mp run
    exact Option.isSome_iff_exists.mpr ⟨r, opened⟩
  · intro defined
    obtain ⟨r, opened⟩ := Option.isSome_iff_exists.mp defined
    rw [opened]
    obtain ⟨_, _, ⟨_, rfl⟩ | ⟨⟨j, whole⟩, h, _, rfl, ends⟩⟩ := sound.opendir_arrives ok.orDot opened
    · rfl
    · rw [Option.bind_eq_bind, Option.bind_some]
      dsimp only
      rw [ends.readAll]
      rfl

theorem Holds.creat_given (holds : Holds s.vol own node) (found : node i = some (.dir p es))
    (dir : DirAt s.vol.disk own i st (records i p es)) (current : HandleOf h i st (records i p es))
    (short : name.length ≤ 255) (missing : lookup s.vol.disk i name = none)
    (left : Pool.inode.free s.vol ≠ 0) :
    (cncreat h name s).isSome ↔ RecordGiven s.vol i name := by
  obtain ⟨k, stat, ended⟩ := current.stat holds found name
  have bound := (holds.inodes i (by rw [found]; simp)).1
  obtain ⟨n, rest, free, number, next⟩ := holds.ledger.next left
  have total (inside : st.size.toNat + 8 + name.length ≤ 4096) :
      ∃ h' d, appendEntry s { h with index := k } name ITYPE_FILE = some (n, h',
        { s with vol := { s.vol.taken .inode n with disk := d }, ticks := s.ticks + 1 }) :=
    appendEntry_total holds.ledger dir current.reindex (ended missing) bound short inside free
  rw [cncreat, stat, missing, Option.bind_eq_bind, Option.bind_some]
  constructor
  · intro defined
    obtain ⟨_, run⟩ := Option.isSome_iff_exists.mp defined
    obtain ⟨⟨n', h', s₁⟩, appends, run⟩ := Option.bind_eq_some_iff.mp run
    obtain ⟨d, written, _⟩ := Option.bind_eq_some_iff.mp run
    have inside := appendEntry_inside current.reindex (ended missing) appends
    refine ⟨fun st' read => ?_, next.mpr ?_⟩
    · rw [dir.read] at read
      cases read
      exact inside
    · obtain ⟨_, _, same⟩ := total inside
      rw [same] at appends
      cases appends
      exact inodeWrite_fits number written
  · rintro ⟨room, slot⟩
    obtain ⟨h', d, appended⟩ := total (room st dir.read)
    change (Option.bind (appendEntry s { h with index := k } name ITYPE_FILE) _).isSome
    rw [appended, Option.bind_some]
    simp only [timeNull]
    rw [inodeWrite_eq number, if_pos (next.mp slot)]
    rfl

/-- A name that a handle shows is refused, and any other is created through it. -/
theorem Sound.creat_given {held : Snapshot} (sound : Sound s own node) (shown : DirShown node h held)
    (ok : CreatOk s h name) : (cncreat h name s).isSome ↔ CreatGiven s.vol h name := by
  obtain ⟨k, stat⟩ := shown.stat name
  cases named : held.shows.find? (fun e => e.name = name) with
  | some e =>
    rw [named] at stat
    refine iff_of_true ?_ fun next missing => ?_
    · rw [cncreat, stat]
      rfl
    · rw [stat] at missing
      cases missing
  | none =>
    rw [named] at stat
    obtain ⟨short, current, left⟩ := ok.missing _ stat
    obtain ⟨p, es, st, found, dir, handle, shows⟩ := shown.current sound.holds current
    have missing : lookup s.vol.disk held.dir name = none := by
      rw [sound.holds.lookup_eq found, ← shows]
      exact named
    rw [sound.holds.creat_given found dir handle short missing left, ← shown.dir]
    exact ⟨fun given _ _ => given, fun given => given _ stat⟩

theorem Mirrors.openFd_total {fs : FileSystem} (mirrors : Mirrors s own fs) (file : fs.node i = some .file)
    (left : IsFree s m) (mode : UInt8) :
    ∃ (k : Nat) (s' : Fs), CdnwSh.openFd s i mode = some ((k : Int), s') ∧ k < 1024 := by
  have small := (mirrors.files.freshFd left).1
  obtain ⟨st, fileAt⟩ := mirrors.sound.holds.files i file
  have inside := fileAt.mapped.inside mirrors.sound.holds.ledger
  rw [CdnwSh.openFd, if_neg (by omega), setBitmap_inside (by rw [UInt32.toNat_ofNat']; omega), fileAt.read]
  simp only [Option.bind_eq_bind, Option.bind_some]
  rw [loadData, llread_eq inside]
  split <;> exact ⟨_, _, rfl, small⟩

theorem Mirrors.open_found {fs : FileSystem} {held : Snapshot} {e : DirEntry} (mirrors : Mirrors s own fs)
    (shown : DirShown fs.node h held) (named : held.shows.find? (fun e => e.name = name) = some e)
    (file : e.fileType = ITYPE_FILE) (left : IsFree s m) (mode : UInt8) :
    ∃ (k : Nat) (d : DirPtr) (s' : Fs), cnopen h name mode s = some ((k : Int), d, s') ∧ k < 1024 := by
  obtain ⟨j, stat⟩ := shown.stat name
  rw [named] at stat
  have isFile := shown.files e (List.mem_of_find?_eq_some named) file
  obtain ⟨k, s₁, opens, small⟩ := mirrors.openFd_total isFile left mode
  rw [cnopen, stat, Option.bind_eq_bind, Option.bind_some]
  refine ⟨k, { h with index := j }, s₁, ?_, small⟩
  change Option.bind (CdnwSh.openFd s e.inode mode) _ = _
  rw [opens]
  rfl

theorem FileMade.open_total {fs : FileSystem} {held : Snapshot} {own' : Owner} {n : Iptr}
    (made : FileMade s own fs held n name h s' own') (sound : Sound s own fs.node) (left : IsFree s m)
    (mode : UInt8) :
    ∃ (k : Nat) (d : DirPtr) (s₂ : Fs), cnopen h name mode s' = some ((k : Int), d, s₂) ∧ k < 1024 := by
  have left₁ : IsFree s' m := ⟨left.1, by rw [made.same.fdTbl]; exact left.2⟩
  exact made.mirrors.open_found (made.shown sound) (made.named sound) rfl left₁ mode

theorem Mirrors.open_given {fs : FileSystem} {held : Snapshot} (mirrors : Mirrors s own fs)
    (shown : DirShown fs.node h held) (ok : OpenOk s h name mode) (left : IsFree s m) :
    (cnopen h name mode s).isSome ↔ (mode = FD_WRITE → CreatGiven s.vol h name) := by
  obtain ⟨k, stat⟩ := shown.stat name
  obtain ⟨k', scanned⟩ := shown.finds name
  cases named : held.shows.find? (fun e => e.name = name) with
  | some e =>
    rw [named] at stat scanned
    obtain ⟨_, _, _, opens, _⟩ := mirrors.open_found shown named (ok.file e _ scanned) left mode
    refine iff_of_true (Option.isSome_iff_exists.mpr ⟨_, opens⟩) fun _ next missing => ?_
    rw [stat] at missing
    cases missing
  | none =>
    rw [named] at stat
    rw [cnopen, stat, Option.bind_eq_bind, Option.bind_some]
    change (Option.bind (createMissing { h with index := k } name mode s) _).isSome ↔ _
    rw [createMissing]
    by_cases writes : mode = FD_WRITE
    · have creat : CreatOk s { h with index := k } name := (ok.creat writes).reindex
      have given : CreatGiven s.vol { h with index := k } name ↔ CreatGiven s.vol h name := by
        simp only [CreatGiven, cnstat_rewind]
      rw [if_pos writes, ← given, ← mirrors.sound.creat_given shown.reindex creat]
      constructor
      · intro defined _
        obtain ⟨_, run⟩ := Option.isSome_iff_exists.mp defined
        obtain ⟨r, creates, _⟩ := Option.bind_eq_some_iff.mp run
        exact Option.isSome_iff_exists.mpr ⟨r, creates⟩
      · intro defined
        obtain ⟨⟨code, d, s₁⟩, creates⟩ := Option.isSome_iff_exists.mp (defined writes)
        rcases mirrors.creat shown.reindex creat creates with ⟨e, there, _⟩ | ⟨rfl, n, own', made⟩
        · rw [named] at there
          cases there
        obtain ⟨_, _, _, opens, _⟩ := made.open_total mirrors.sound left mode
        obtain ⟨j, stat'⟩ := (made.shown mirrors.sound).stat name
        rw [made.named mirrors.sound] at stat'
        rw [creates, Option.bind_some]
        dsimp only
        rw [if_neg (by decide)]
        rw [cnopen, stat'] at opens
        rw [stat']
        exact Option.isSome_iff_exists.mpr ⟨_, opens⟩
    · rw [if_neg writes, Option.bind_some]
      dsimp only
      rw [if_neg (by decide), cnstat_rewind, stat]
      exact iff_of_true rfl fun same => absurd same writes

omit [InodeLayout] in
theorem inTable_iff : InTable fd ↔ ∃ n, fdSlot fd = some n := by
  rw [fdSlot]
  by_cases inside : 0 ≤ fd ∧ fd < 1024
  · rw [if_pos inside]
    exact iff_of_true inside ⟨_, rfl⟩
  · rw [if_neg inside]
    exact iff_of_false inside (by simp)

omit [InodeLayout] in
theorem close_given (s : Fs) : (cnclose fd s).isSome ↔ InTable fd := by
  rw [inTable_iff, cnclose]
  cases slot : fdSlot fd with
  | none => exact iff_of_false (by simp) (by simp)
  | some n =>
    have small := (fdSlot_eq slot).2
    rw [Option.bind_eq_bind, Option.bind_some, clearBitmap_inside (by rw [UInt32.toNat_ofNat']; omega)]
    refine iff_of_true ?_ ⟨n, rfl⟩
    dsimp only
    split <;> rfl

omit [InodeLayout] in
theorem closed_total {k : Nat} {code : Int} (small : k < 1024) (s : Fs) :
    (do return (code, (← cnclose k s).2) : Option (Int × Fs)).isSome := by
  have inTable : InTable (k : Int) := ⟨by omega, by omega⟩
  obtain ⟨r, closed⟩ := Option.isSome_iff_exists.mp ((close_given s).mpr inTable)
  exact defined_bind closed rfl

omit [InodeLayout] in
theorem readData_total (inside : off + n ≤ (dataBuf data).size) : (readData data off n).isSome := by
  rw [readData]
  by_cases none : n = 0
  · rw [if_pos none]
    rfl
  · rw [if_neg none]
    cases data with
    | none =>
      change off + n ≤ 0 at inside
      omega
    | some buf =>
      rw [dataBuf_some] at inside
      rw [Option.bind_eq_bind, Option.bind_some, if_pos inside]
      rfl

omit [InodeLayout] in
/-- The cache of a descriptor covers its file, which is smaller than the largest file. -/
theorem Copy.covers (copy : Copy v own fde) :
    fde.inode.size.toNat ≤ (dataBuf fde.data).size ∧ fde.inode.size.toNat < maxBytes := by
  have few := copy.mapped.few
  rw [copy.cache, copy.blocks]
  rw [copy.blocks] at few
  exact ⟨size_le_blocks, size_bound few⟩

theorem Sound.read_given (sound : Sound s own node) (ok : ReadOk s fd bytes) :
    (cnread bytes fd s).isSome ↔ InTable fd := by
  rw [inTable_iff, cnread]
  cases slot : fdSlot fd with
  | none => exact iff_of_false (by simp) (by simp)
  | some n =>
    refine iff_of_true ?_ ⟨n, rfl⟩
    rw [Option.bind_eq_bind, Option.bind_some]
    dsimp only
    split
    · rfl
    next reads =>
      have mode : (s.fdTbl n).state = FD_READ := not_not.mp reads
      obtain ⟨covers, _⟩ := (sound.copies n (by rw [mode]; decide)).2.covers
      have inside : (s.fdTbl n).cursor.toNat +
          min bytes ((s.fdTbl n).inode.size - ((s.fdTbl n).cursor + 1)).toNat ≤
            (dataBuf (s.fdTbl n).data).size ∨
          min bytes ((s.fdTbl n).inode.size - ((s.fdTbl n).cursor + 1)).toNat = 0 := by
        rcases ok n slot mode with none | less
        · exact .inr (by rw [none, Nat.zero_min])
        · rw [left_behind less]
          have := UInt32.lt_iff_toNat_lt.mp less
          omega
      have defined : (readData (s.fdTbl n).data (s.fdTbl n).cursor.toNat
          (min bytes ((s.fdTbl n).inode.size - ((s.fdTbl n).cursor + 1)).toNat)).isSome := by
        rcases inside with inside | none
        · exact readData_total inside
        · rw [none]
          rfl
      obtain ⟨out, read⟩ := Option.isSome_iff_exists.mp defined
      rw [read]
      rfl

theorem Copy.grow_total {required : UInt32} (copy : Copy s.vol own fde) (holds : Holds s.vol own node)
    (file : node fde.inodeId = some .file) (used : fde.state ≠ FD_FREE) (room : RoomFor s fde required) (small : required.toNat < maxBytes) :
    ∃ fde' s' own', growFd s fde required = some (0, fde', s') ∧ Copy s'.vol own' fde' ∧
      Ledger s'.vol own' ∧ fde'.cursor = fde.cursor ∧ required.toNat ≤ fde'.inode.size.toNat := by
  obtain ⟨bound, fits⟩ := holds.fits file
  by_cases more : fde.inode.size < required
  · have less := UInt32.lt_iff_toNat_lt.mp more
    obtain ⟨fde', v', own', grows, grown⟩ := growFd_grown holds.ledger used bound fits copy.mapped
      copy.covers.1 less (by rw [maxBytes] at small; omega) (room more)
    exact ⟨fde', _, own', grows, grown.copy copy more, grown.confined.ledger, by rw [grown.same],
      by rw [grown.size]⟩
  · refine ⟨fde, s, own, by rw [growFd, if_neg more], copy, holds.ledger, rfl, ?_⟩
    exact Nat.not_lt.mp (mt UInt32.lt_iff_toNat_lt.mpr more)

theorem Sound.write_given (sound : Sound s own node) (ok : WriteOk s fd buf) :
    (cnwrite buf fd s).isSome ↔ ∃ n, fdSlot fd = some n ∧ ((s.fdTbl n).state = FD_WRITE →
      (s.fdTbl n).cursor.toNat + buf.length < maxBytes ∨
      Refused s (s.fdTbl n) (writeEnd (s.fdTbl n) buf)) := by
  constructor
  · intro defined
    obtain ⟨⟨r, s'⟩, run⟩ := Option.isSome_iff_exists.mp defined
    obtain ⟨n, slot, _⟩ := cnwrite_eq run
    refine ⟨n, slot, fun mode => ?_⟩
    obtain ⟨rfl, _⟩ := fdSlot_eq slot
    rcases sound.write ok run with ⟨_, _, other⟩ | ⟨k, own', fde, v, same, _, _, _, _, stored, _⟩
    · exact .inr ((other n rfl).resolve_left (not_not.mpr mode))
    · obtain rfl := Int.ofNat_inj.mp same
      have size := stored.grown_eq.2.1
      have := stored.copy.covers.2
      exact .inl (by omega)
  · rintro ⟨n, slot, given⟩
    by_cases refused : (s.fdTbl n).state = FD_WRITE ∧ Refused s (s.fdTbl n) (writeEnd (s.fdTbl n) buf)
    · obtain ⟨rfl, bound⟩ := fdSlot_eq slot
      rw [cnwrite_refused bound refused.1 refused.2]
      rfl
    rw [cnwrite, slot, Option.bind_eq_bind, Option.bind_some]
    dsimp only
    split
    · rfl
    next writes =>
      have mode : (s.fdTbl n).state = FD_WRITE := not_not.mp writes
      have used : (s.fdTbl n).state ≠ FD_FREE := by rw [mode]; decide
      obtain ⟨file, copy⟩ := sound.copies n used
      have inside := (given mode).resolve_right fun no => refused ⟨mode, no⟩
      have total : (writeEnd (s.fdTbl n) buf).toNat = (s.fdTbl n).cursor.toNat + buf.length := by
        rw [maxBytes] at inside
        rw [writeEnd, UInt32.toNat_ofNat']
        omega
      obtain ⟨fde, s₁, own', grows, copy', ledger, cursor, size⟩ :=
        copy.grow_total sound.holds file used (ok n slot mode) (by rwa [total])
      rw [total, ← cursor] at size
      obtain ⟨data, stored, length, _⟩ := writeData_eq (Nat.le_trans size copy'.covers.1)
      change (Option.bind (growFd s (s.fdTbl n) (writeEnd (s.fdTbl n) buf)) _).isSome
      rw [grows, Option.bind_some]
      dsimp only
      rw [Option.bind_eq_bind, stored, Option.bind_some]
      rw [Option.bind_eq_bind, llwrite_eq (copy'.mapped.inside ledger) (by rw [length, copy'.cache])
        copy'.mapped.single_apart]
      rfl

theorem Sound.seek_given (sound : Sound s own node) (ok : SeekOk s fd offset) (stays : SeekStays s fd offset) :
    (cnseek fd offset s).isSome ↔ ∃ n, fdSlot fd = some n ∧ ((s.fdTbl n).state ≠ FD_FREE →
      (s.fdTbl n).cursor.toNat + offset.toNat < maxBytes ∨
      Refused s (s.fdTbl n) ((s.fdTbl n).cursor + offset)) := by
  have total {n : Nat} (slot : fdSlot fd = some n) (used : (s.fdTbl n).state ≠ FD_FREE) :
      ((s.fdTbl n).cursor + offset).toNat = (s.fdTbl n).cursor.toNat + offset.toNat := by
    rw [UInt32.toNat_add]
    exact Nat.mod_eq_of_lt (stays n slot used).1
  constructor
  · intro defined
    obtain ⟨⟨code, s'⟩, run⟩ := Option.isSome_iff_exists.mp defined
    obtain ⟨n, slot, _⟩ := cnseek_eq run
    refine ⟨n, slot, fun used => ?_⟩
    have copy := (sound.copies n used).2
    have required := total slot used
    obtain ⟨rfl, _⟩ := fdSlot_eq slot
    obtain ⟨k, same, _, outcome⟩ := sound.seek ok run
    obtain rfl := Int.ofNat_inj.mp same
    rcases outcome with ⟨refused, _⟩ | ⟨_, ⟨enough, _⟩ | ⟨more, _, own', fde, grown, _⟩⟩
    · exact .inr refused
    · have := copy.covers.2
      have := mt UInt32.lt_iff_toNat_lt.mpr enough
      exact .inl (by omega)
    · have := (grown.copy copy more).covers.2
      rw [grown.size] at this
      exact .inl (by omega)
  · rintro ⟨n, slot, given⟩
    by_cases refused : Refused s (s.fdTbl n) ((s.fdTbl n).cursor + offset)
    · obtain ⟨rfl, bound⟩ := fdSlot_eq slot
      rw [cnseek_refused bound refused]
      rfl
    rw [cnseek, slot, Option.bind_eq_bind, Option.bind_some]
    dsimp only
    by_cases used : (s.fdTbl n).state = FD_FREE
    · have enough : ¬ (s.fdTbl n).inode.size < (s.fdTbl n).cursor + offset :=
        fun more => (ok n slot more).1 used
      rw [growFd, if_neg enough]
      rfl
    · obtain ⟨file, copy⟩ := sound.copies n used
      obtain ⟨fde, s₁, _, grows, _⟩ := copy.grow_total sound.holds file used
        (fun more => (ok n slot more).2 more)
        (by rw [total slot used]; exact (given used).resolve_right refused)
      rw [grows]
      rfl

theorem Sound.openDot_given (sound : Sound s own node) :
    (cnopendir s dot).isSome ↔ ∃ cwd, s.cwd = some cwd := by
  rw [sound.opendir_given sound.pathOk_dot]
  constructor
  · rintro ⟨_, starts, _⟩
    rw [walkStart, if_neg (by decide), ne_eq, Option.map_eq_none_iff] at starts
    exact Option.ne_none_iff_exists'.mp starts
  · rintro ⟨cwd, here⟩
    refine ⟨by decide, ?_, .inr (by decide)⟩
    rw [walkStart, if_neg (by decide), here]
    simp

theorem Sound.opensDot (sound : Sound s own node) {cwd : DirPtr} (here : s.cwd = some cwd) :
    ∃ h, cnopendir s dot = some (some h) ∧ Opened s.vol own node cwd.inodeId 0 h := by
  obtain ⟨r, opens⟩ := Option.isSome_iff_exists.mp (sound.openDot_given.mpr ⟨cwd, here⟩)
  obtain ⟨_, h, here', rfl, opened⟩ := sound.openDot opens
  cases here.symm.trans here'
  exact ⟨h, opens, opened⟩

/-- A regular file that a handle shows is opened to be read, on the first descriptor that is
left. -/
theorem Mirrors.borrow {fs : FileSystem} {held : Snapshot} {e : DirEntry} (mirrors : Mirrors s own fs)
    (shown : DirShown fs.node h held) (named : held.shows.find? (fun e => e.name = name) = some e)
    (file : e.fileType = ITYPE_FILE) (left : IsFree s m) :
    ∃ (k : Nat) (d : DirPtr) (s₁ : Fs), cnopen h name FD_READ s = some ((k : Int), d, s₁) ∧ k ≤ m ∧
      s₁.vol = s.vol ∧ (∃ next, cnstat d name = some (some e.inode, next)) ∧
      Mirrors s₁ own (fs.withFiles (fs.files.opened k e.inode false)) := by
  obtain ⟨fd, d, s₁, opens, _⟩ := mirrors.open_found shown named file left FD_READ
  have fits : OpenOk s h name (modeOf false) := by
    obtain ⟨k, scanned⟩ := shown.finds name
    refine ⟨fun f next found => ?_, fun writes => absurd writes (by decide)⟩
    rw [scanned, named, Option.some.injEq, Prod.mk.injEq, Option.some.injEq] at found
    rwa [← found.1]
  have opening := mirrors.openFile shown fits left (fun writes => by cases writes) opens
  cases opening with
  | found there fresh _ _ vol after mirrors₁ =>
    obtain rfl := Option.some.inj (named.symm.trans there)
    obtain ⟨j, stat⟩ := after.stat name
    rw [named] at stat
    have first : fd ≤ m := by
      by_contra high
      exact fresh.least m (by omega) ((mirrors.files.isFree left.1).mp left)
    exact ⟨fd, d, s₁, opens, first, vol, ⟨_, stat⟩, mirrors₁⟩

/-- A whole file is read through a new descriptor. -/
theorem Mirrors.readWhole_total {fs : FileSystem} {k : Nat} {s₁ : Fs}
    (opened : Mirrors s₁ own (fs.withFiles (fs.files.opened k i false))) (small : k < 1024)
    (size : (fs.files.content i).length = count) : (cnread count k s₁).isSome :=
  (opened.sound.read_given (opened.readOk size)).mpr ⟨by omega, by omega⟩

theorem Mirrors.cat_given {fs : FileSystem} (mirrors : Mirrors s own fs) (ok : FileName s name)
    (left : IsFree s m) (small : m < 128) : (cncat name s).isSome ↔ ∃ cwd, s.cwd = some cwd := by
  have sound := mirrors.sound
  constructor
  · intro defined
    obtain ⟨_, run⟩ := Option.isSome_iff_exists.mp defined
    obtain ⟨r, opens, _⟩ := Option.bind_eq_some_iff.mp run
    exact sound.openDot_given.mp (Option.isSome_iff_exists.mpr ⟨r, opens⟩)
  · rintro ⟨cwd, here⟩
    obtain ⟨h, opens, opened⟩ := sound.opensDot here
    have shown := opened.dirShown sound.holds
    have open' : OpenOk s h name FD_READ := opened.openRead sound.holds here rfl ok
    obtain ⟨j, stat⟩ := shown.stat name
    obtain ⟨j', scanned⟩ := shown.finds name
    rw [cncat, opens, Option.bind_eq_bind, Option.bind_some, Option.bind_eq_bind, Option.bind_some, stat]
    cases named : (recordsOf fs.node cwd.inodeId).find? (fun e => e.name = name) with
    | none => rfl
    | some e =>
      rw [named] at scanned
      have isFile := open'.file e _ scanned
      have file := shown.files e (List.mem_of_find?_eq_some named) isFile
      obtain ⟨st, fileAt⟩ := sound.holds.files e.inode file
      obtain ⟨k, d, s₁, opens', first, vol, _, mirrors₁⟩ :=
        mirrors.borrow (shown.reindex (k := j)) named isFile left
      obtain ⟨r, reads⟩ := Option.isSome_iff_exists.mp
        (mirrors₁.readWhole_total (by omega) (mirrors.files.size sound file fileAt.read))
      simp only [Option.map_some, Option.bind_eq_bind, Option.bind_some]
      rw [fileAt.read, Option.bind_some, opens', Option.bind_some]
      dsimp only
      rw [toInt8_small (by omega), if_neg (by omega), reads]
      rfl

theorem Mirrors.export_given {fs : FileSystem} (mirrors : Mirrors s own fs) (ok : FileName s gName)
    (left : IsFree s m) : (cnexport gName hName s).isSome ↔
      ∃ cwd, s.cwd = some cwd ∧ lookup s.vol.disk cwd.inodeId gName ≠ none ∧
        s.host.writable hName ≠ none := by
  have mirrors₀ := mirrors.withHost (s.host.put hName [])
  have sound := mirrors₀.sound
  constructor
  · intro defined
    obtain ⟨⟨code, s'⟩, run⟩ := Option.isSome_iff_exists.mp defined
    obtain ⟨room, dir, gFile, dir₁, s₁, s₃, writable, opens, opens', ⟨_, closes⟩, _⟩ := cnexport_eq run
    obtain ⟨cwd, h, here, same, opened⟩ := sound.openDot opens
    cases same
    have fits : OpenOk { s with host := s.host.put hName [] } dir gName (modeOf false) :=
      opened.openRead sound.holds here rfl ok
    have opening := mirrors₀.openFile (opened.dirShown sound.holds) fits left (fun writes => by cases writes)
      opens'
    refine ⟨cwd, here, ?_, by rw [writable]; simp⟩
    obtain ⟨p, es, found⟩ := sound.home cwd here
    cases opening with
    | failed => exact (no_close_of_negative (by decide) closes).elim
    | found there =>
      have entry : named fs.node cwd.inodeId gName = some _ := there
      rw [mirrors.sound.holds.named_eq found, entry]
      simp
  · rintro ⟨cwd, here, entry, writable⟩
    obtain ⟨room, writable⟩ := Option.ne_none_iff_exists'.mp writable
    obtain ⟨e, entry⟩ := Option.ne_none_iff_exists'.mp entry
    obtain ⟨p, es, found⟩ := sound.home cwd here
    obtain ⟨h, opens, opened⟩ := sound.opensDot here
    have isFile := ok cwd e here entry
    rw [mirrors.sound.holds.named_eq found] at entry
    have file := (opened.dirShown sound.holds).files e (List.mem_of_find?_eq_some entry) isFile
    obtain ⟨k, d, s₁, opens', first, vol, ⟨_, stat⟩, mirrors₁⟩ :=
      mirrors₀.borrow (opened.dirShown sound.holds) entry isFile left
    obtain ⟨st, fileAt⟩ := mirrors₁.sound.holds.files e.inode file
    have small : k < 1024 := Nat.lt_of_le_of_lt first left.1
    obtain ⟨⟨bytes, s₂⟩, reads⟩ := Option.isSome_iff_exists.mp
      (mirrors₁.readWhole_total small (mirrors₁.files.size mirrors₁.sound file fileAt.read))
    rw [cnexport]
    refine defined_bind writable (defined_bind opens (defined_bind rfl (defined_bind opens' ?_)))
    dsimp only
    rw [if_neg (by omega)]
    refine defined_bind stat (defined_bind fileAt.read ?_)
    have few := fileAt.mapped.few
    have size : st.size.toNat ≤ 4096 * blocksFor st.size.toNat := size_le_blocks
    have granted : s₁.host.heap.grants st.size.toNat = true :=
      s₁.host.heap.small _ (by rw [← fileAt.blocks] at size; omega)
    rw [if_neg (by rw [granted]; decide)]
    refine defined_bind reads ?_
    dsimp only
    split
    · exact closed_total small _
    · split
      · exact closed_total small _
      · exact closed_total small _

theorem Mirrors.fill_given {fs : FileSystem} {k : Nat} {s₁ : Fs}
    (opened : Mirrors s₁ own (fs.withFiles (fs.files.opened k i true))) (ok : WriteOk s₁ k bytes)
    (small : k < 1024) (empty : fs.files.content i = []) : (cnwrite bytes k s₁).isSome ↔
      bytes.length < maxBytes ∨ ¬ CacheGranted s₁.host.heap bytes.length := by
  have shown := opened.files.fds k ⟨i, true, fs.files.content i, 0⟩ Files.fds_setFd
  have slot := fdSlot_small small
  have start : (s₁.fdTbl k).cursor.toNat = 0 := shown.cursor
  have ends : writeEnd (s₁.fdTbl k) bytes = UInt32.ofNat bytes.length := by
    rw [writeEnd, start, Nat.zero_add]
  have refused : Refused s₁ (s₁.fdTbl k) (writeEnd (s₁.fdTbl k) bytes) ↔
      ¬ CacheGranted s₁.host.heap bytes.length := by
    have host : (fs.withFiles (fs.files.opened k i true)).host = s₁.host := opened.host
    rw [opened.refuses Files.fds_setFd ends, Host.refuses_empty empty, host]
  rw [opened.sound.write_given ok]
  constructor
  · rintro ⟨n, same, inside⟩
    obtain rfl := Option.some.inj (slot.symm.trans same)
    have fits := inside shown.state
    rwa [start, Nat.zero_add, refused] at fits
  · intro fits
    exact ⟨k, slot, fun _ => by rwa [start, Nat.zero_add, refused]⟩

theorem Mirrors.import_given {fs : FileSystem} (mirrors : Mirrors s own fs) (ok : ImportOk s hName gName)
    (left : IsFree s m) : (cnimport hName gName s).isSome ↔
      ∃ cwd content, s.cwd = some cwd ∧ s.host.files hName = some content ∧
        lookup s.vol.disk cwd.inodeId gName = none ∧ RecordGiven s.vol cwd.inodeId gName ∧
        s.host.heap.grants content.length = true ∧
        (content.length ≤ s.host.readable hName →
          content.length < maxBytes ∨ ¬ CacheGranted s.host.heap content.length) := by
  have sound := mirrors.sound
  have creat {h : DirPtr} {j : Iptr} (opened : Opened s.vol own fs.node j 0 h) : CreatOk s h gName :=
    ⟨ok.text, fun _ _ => ⟨ok.short, opened.current sound.holds, ok.inode⟩⟩
  have empty {held : Snapshot} {n : Iptr} {d : DirPtr} {s₁ : Fs} {own' : Owner}
      (made : FileMade s own fs held n gName d s₁ own') :
      (fs.enter held.dir (newEntry n ITYPE_FILE gName)).files.content n = [] := by
    rw [made.filled]
    exact Files.content_fill
  -- the record of the new file, where the name is not there
  have record {h cwd : DirPtr} (here : s.cwd = some cwd) (opened : Opened s.vol own fs.node cwd.inodeId 0 h)
      (missing : lookup s.vol.disk cwd.inodeId gName = none) :
      (cncreat h gName s).isSome ↔ RecordGiven s.vol cwd.inodeId gName := by
    obtain ⟨p, es, found⟩ := sound.home cwd here
    obtain ⟨_, _, st, found', dir, rfl⟩ := opened
    cases found.symm.trans found'
    exact sound.holds.creat_given found dir dir.handleOf.reindex ok.short missing ok.inode
  constructor
  · intro defined
    obtain ⟨⟨code, s'⟩, run⟩ := Option.isSome_iff_exists.mp defined
    obtain ⟨content, d, d₁, s₁, gFile, d₂, s₂, s₃, reads, opens, creates, opens', granted, ⟨_, closes⟩, rest⟩ :=
      cnimport_eq run
    obtain ⟨cwd, h, here, same, opened⟩ := sound.openDot opens
    cases same
    obtain ⟨p, es, found⟩ := sound.home cwd here
    rcases mirrors.creat (opened.dirShown sound.holds) (creat opened) creates with
      ⟨_, _, failed, _⟩ | ⟨_, n, own', made⟩
    · cases failed
    have missing : lookup s.vol.disk cwd.inodeId gName = none := by
      rw [sound.holds.named_eq found]
      exact made.missing
    have valid : ¬ gFile < 0 := fun negative => no_close_of_negative negative closes
    obtain ⟨k, rfl, _, _, _, mirrors₂⟩ := made.opened mirrors ok.text left valid opens'
    have host₂ : s₂.host = s.host := mirrors₂.host.symm.trans (made.same.host.trans mirrors.host)
    have granted := granted.resolve_left valid
    rw [host₂] at granted
    refine ⟨cwd, content, here, reads, missing,
      (record here opened missing).mp (Option.isSome_iff_exists.mpr ⟨_, creates⟩), granted, fun delivers => ?_⟩
    rcases rest with ⟨_, _, negative | short⟩ | ⟨_, _, result, writes, _⟩
    · exact absurd negative valid
    · rw [host₂] at short
      exact absurd (Nat.min_eq_right delivers) short
    · have small : k < 1024 := ((close_given s₃).mp (Option.isSome_iff_exists.mpr ⟨_, closes⟩)).2 |>
        Int.ofNat_lt.mp
      rw [← host₂]
      exact (mirrors₂.fill_given (made.writable mirrors ok.text valid opens' (ok.blocks content reads))
        small (empty made)).mp (Option.isSome_iff_exists.mpr ⟨_, writes⟩)
  · rintro ⟨cwd, content, here, reads, missing, given, granted, fits⟩
    obtain ⟨h, opens, opened⟩ := sound.opensDot here
    obtain ⟨p, es, found⟩ := sound.home cwd here
    obtain ⟨⟨code, d₁, s₁⟩, creates⟩ := Option.isSome_iff_exists.mp ((record here opened missing).mpr given)
    rcases mirrors.creat (opened.dirShown sound.holds) (creat opened) creates with
      ⟨e, there, _⟩ | ⟨rfl, n, own', made⟩
    · rw [sound.holds.named_eq found] at missing
      exact absurd (missing.symm.trans there) (by simp)
    obtain ⟨k, d₂, s₂, opens', small⟩ := made.open_total sound left FD_WRITE
    obtain ⟨_, same, _, _, _, mirrors₂⟩ := made.opened mirrors ok.text left (by omega) opens'
    obtain rfl := Int.ofNat_inj.mp same
    have host₂ : s₂.host = s.host := mirrors₂.host.symm.trans (made.same.host.trans mirrors.host)
    rw [cnimport]
    refine defined_bind reads (defined_bind opens (defined_bind rfl (defined_bind creates ?_)))
    dsimp only
    rw [if_neg (by decide)]
    refine defined_bind opens' ?_
    dsimp only
    rw [if_neg (by omega), if_neg (by rw [host₂, granted]; decide)]
    split
    · exact closed_total small _
    next delivered =>
      rw [host₂] at delivered
      have whole : content.length ≤ s.host.readable hName := by omega
      obtain ⟨⟨result, s₃⟩, writes⟩ := Option.isSome_iff_exists.mp
        ((mirrors₂.fill_given (made.writable mirrors ok.text (by omega) opens' (ok.blocks content reads))
          small (empty made)).mpr (by rw [host₂]; exact fits whole))
      refine defined_bind writes ?_
      dsimp only
      split
      · exact closed_total small _
      · exact closed_total small _

end

section
variable {s s' : Session} {own : Owner} {fs : FileSystem}

omit [InodeLayout] in
theorem global_isSome {result : Option (Int × Fs)} : (s.global result).isSome ↔ result.isSome := by
  cases result <;> exact Iff.rfl

omit [InodeLayout] in
theorem onDir_isSome {h : Handle} {f : DirPtr → Fs → Option (Int × DirPtr × Fs)} {given : DirPtr → Prop}
    (body : ∀ d, s.dir h = some d → ((f d s.fs).isSome ↔ given d)) :
    (s.onDir h f).isSome ↔ ∃ d, s.dir h = some d ∧ given d := by
  cases here : s.dir h with
  | none =>
    rw [Session.onDir, here]
    exact iff_of_false (by simp) (by simp)
  | some d =>
    simp only [Option.some.injEq, exists_eq_left', ← body d here]
    rw [Session.onDir, here, Option.bind_eq_bind, Option.bind_some]
    cases f d s.fs <;> exact Iff.rfl

theorem Follows.given (follows : Follows s own fs) (loaded : s.fs.superblk = true)
    (inLimits : InLimits s op) : (s.step op).isSome ↔ Given s op := by
  obtain ⟨sane, limits⟩ := inLimits
  obtain ⟨refines, released⟩ := follows
  have mirrors := refines.globals
  have sound := mirrors.sound
  cases op with
  | mkfs => exact absurd sane id
  | mount =>
    obtain ⟨s', mounts⟩ := sound.holds.mounts rfl
    exact iff_of_true (global_isSome.mpr (Option.isSome_iff_exists.mpr ⟨_, mounts⟩)) trivial
  | umount => exact global_isSome.trans (sound.umount_given released loaded)
  | mkdir path => exact global_isSome.trans (sound.mkdir_given sane)
  | rmdir path => exact global_isSome.trans (sound.rmdir_given sane)
  | cd path => exact global_isSome.trans (sound.cd_given released sane)
  | ls path =>
    refine Iff.trans ?_ (sound.ls_given sane)
    change (Option.bind (cnls path s.fs) _).isSome ↔ _
    cases cnls path s.fs <;> exact Iff.rfl
  | opendir k path =>
    refine Iff.trans ?_ (sound.opendir_given sane)
    change (Option.bind (cnopendir s.fs path) _).isSome ↔ _
    cases cnopendir s.fs path with
    | none => exact Iff.rfl
    | some r => cases r <;> exact Iff.rfl
  | closedir k => exact iff_of_true rfl trivial
  | creat h name =>
    refine onDir_isSome fun d here => ?_
    obtain ⟨held, _, shown⟩ := refines.held here
    exact sound.creat_given shown (sane d here)
  | openFile h name mode =>
    refine onDir_isSome fun d here => ?_
    obtain ⟨held, _, shown⟩ := refines.held here
    obtain ⟨m, left⟩ := limits.left
    exact mirrors.open_given shown (sane d here) left
  | close fd => exact global_isSome.trans (close_given s.fs)
  | read fd bytes =>
    refine Iff.trans ?_ (sound.read_given limits)
    change (Option.bind (cnread bytes fd s.fs) _).isSome ↔ _
    cases cnread bytes fd s.fs <;> exact Iff.rfl
  | write fd buf =>
    refine Iff.trans ?_ (sound.write_given sane)
    change (Option.bind (cnwrite buf fd s.fs) _).isSome ↔ _
    cases cnwrite buf fd s.fs <;> exact Iff.rfl
  | seek fd offset => exact global_isSome.trans (sound.seek_given sane limits)
  | cat name =>
    obtain ⟨m, small, left⟩ := limits
    refine Iff.trans ?_ (mirrors.cat_given sane left small)
    change (Option.bind (cncat name s.fs) _).isSome ↔ _
    cases cncat name s.fs <;> exact Iff.rfl
  | importFile hName gName =>
    obtain ⟨m, left⟩ := limits
    exact global_isSome.trans (mirrors.import_given sane left)
  | exportFile gName hName =>
    obtain ⟨m, left⟩ := limits
    exact global_isSome.trans (mirrors.export_given sane left)

end
end

section Lp64
attribute [local instance] lp64

end Lp64

end CdnwSh
