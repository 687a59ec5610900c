import CdnwSh.DirectoryRuns
import CdnwSh.Globals
import CdnwSh.TypeSafety

/-! The loops of `cnreaddir`: from which handles the commands start them, and that each of them
ends in every state that a run of sane commands reaches. -/
namespace CdnwSh

open ByteMemory RecordList PartialRun

/-- The loop from this handle: so many records, each of at least 12 bytes, over which the
index grows until it reaches the size. -/
inductive RecordScan : DirPtr → Nat → Prop where
  | ended : dir.index = dir.inodeSt.size → cnreaddir dir = some none → RecordScan dir 0
  | record : cnreaddir dir = some (some (e, next)) → 12 ≤ e.entryLen → dir.index < next.index →
      RecordScan next n → RecordScan dir (n + 1)

/-- The loop ends, after at most a twelfth of the size of steps. -/
def ScanEnds (dir : DirPtr) : Prop := ∃ n, RecordScan dir n ∧ n ≤ dir.inodeSt.size.toNat / 12

section
variable [InodeLayout]

def openWalkScans (d : Disk) : List Name → DirPtr → Iptr → List DirPtr
  | [], _, _ => []
  | tok :: rest, dir, loaded => dir ::
    match findName dir tok with
    | some (some entry, _) =>
      match inflatedir d entry.inode with
      | some dir => openWalkScans d rest dir entry.inode
      | none => []
    | some (none, dir) => if dir.inodeId = loaded then openWalkScans d rest dir loaded else []
    | none => []

def opendirScans (s : Fs) (path : Name) : List DirPtr :=
  match startDir s path with
  | none => []
  | some dir =>
    if path = [slash] then []
    else if walkToks path = [] then [dir]
    else openWalkScans s.vol.disk (walkToks path) dir 6401

def openedHandle (s : Fs) (path : Name) : List DirPtr := ((cnopendir s path).bind id).toList

def mkdirScans (d : Disk) : List Name → Inode → Iptr → List DirPtr
  | [], _, _ => []
  | tok :: rest, inodeSt, inodeId =>
    match llread d inodeSt (callocBlocks inodeSt.blocks.toNat) with
    | none => []
    | some data => ⟨inodeSt, inodeId, 0, data⟩ ::
      if rest = [] then []
      else
        match findName ⟨inodeSt, inodeId, 0, data⟩ tok with
        | some (some entry, _) =>
          match inodeRead d entry.inode with
          | some inodeSt => mkdirScans d rest inodeSt entry.inode
          | none => []
        | some (none, _) => mkdirScans d rest inodeSt inodeId
        | none => []

/-- `cnstat` rewinds a handle, and so does the one behind the `cncreat` of a missing file. -/
def statScans (s : Fs) (name : Name) (creates : Bool) (dir : DirPtr) : List DirPtr :=
  { dir with index := 0 } ::
    if creates then
      match cncreat dir name s with
      | some (_, dir, _) => [{ dir with index := 0 }]
      | none => []
    else []

/-- The handles from which a command starts a loop of `cnreaddir`. -/
def scans (s : Session) : Op → List DirPtr
  | .opendir _ path | .cd path => opendirScans s.fs path
  | .ls path =>
    let name := if path = [] then dot else path
    opendirScans s.fs name ++ openedHandle s.fs name
  | .rmdir path => opendirScans s.fs (parentPath path) ++ openedHandle s.fs (parentPath path)
  | .mkdir path =>
    match s.fs.cwd with
    | none => []
    | some cwd =>
      match inodeRead s.fs.vol.disk cwd.inodeId with
      | some inodeSt => mkdirScans s.fs.vol.disk (strtok path) inodeSt cwd.inodeId
      | none => []
  | .creat h name => (s.dir h).toList.flatMap (statScans s.fs name false)
  | .openFile h name mode => (s.dir h).toList.flatMap (statScans s.fs name (mode = FD_WRITE))
  | .cat name | .exportFile name _ =>
    opendirScans s.fs dot ++ (openedHandle s.fs dot).flatMap (statScans s.fs name false)
  | .importFile _ name =>
    opendirScans s.fs dot ++ (openedHandle s.fs dot).flatMap (statScans s.fs name true)
  | _ => []

section
variable {s s' : Fs} {v : Vol} {own own' : Owner} {node node' : Nodes} {i j k p : Iptr}
  {es rs : List DirEntry} {st : Inode} {dir h : DirPtr}

omit [InodeLayout] in
theorem DirEntry.Sound.long {e : DirEntry} (sound : e.Sound) : 12 ≤ e.entryLen := by
  rw [sound.padded, entryLenOf]
  omega

omit [InodeLayout] in
theorem DirPtr.Lists.scan (lists : dir.Lists rs) (sounds : ∀ e ∈ rs, e.Sound) :
    RecordScan dir rs.length ∧ dir.index.toNat + 12 * rs.length ≤ dir.inodeSt.size.toNat := by
  induction rs generalizing dir with
  | nil =>
    have ended : dir.index.toNat = dir.inodeSt.size.toNat := lists
    exact ⟨.ended (UInt32.toNat_inj.mp ended) (cnreaddir_end (Nat.le_of_eq ended.symm)),
      Nat.le_of_eq ended⟩
  | cons e rs ih =>
    obtain ⟨next, read, rfl, index, rest⟩ := cnreaddir_next lists
    have long := (sounds e List.mem_cons_self).long
    obtain ⟨scan, bound⟩ := ih rest fun e member => sounds e (List.mem_cons_of_mem _ member)
    rw [index] at bound
    refine ⟨.record read long (UInt32.lt_iff_toNat_lt.mpr (by rw [index]; omega)) scan, ?_⟩
    rw [List.length_cons]
    exact show _ ≤ dir.inodeSt.size.toNat by dsimp only at bound; omega

omit [InodeLayout] in
theorem DirPtr.Lists.scanEnds (lists : dir.Lists rs) (sounds : ∀ e ∈ rs, e.Sound) : ScanEnds dir := by
  obtain ⟨scan, bound⟩ := lists.scan sounds
  exact ⟨_, scan, by omega⟩

omit [InodeLayout] in
theorem scanEnds_end (ended : dir.index = dir.inodeSt.size) : ScanEnds dir :=
  ⟨0, .ended ended (cnreaddir_end (Nat.le_of_eq (by rw [ended]))), Nat.zero_le _⟩

omit [InodeLayout] in
theorem RecordScan.search (scan : RecordScan dir n) (enough : n < fuel) (tok : Name) :
    findNameLoop fuel dir tok ≠ none ∧ readAllLoop fuel dir ≠ none := by
  induction scan generalizing fuel with
  | ended _ read =>
    obtain ⟨fuel, rfl⟩ : ∃ m, fuel = m + 1 := ⟨fuel - 1, by omega⟩
    rw [findNameLoop, readAllLoop, read]
    exact ⟨Option.some_ne_none _, Option.some_ne_none _⟩
  | @record dir e next n read _ _ _ ih =>
    obtain ⟨fuel, rfl⟩ : ∃ m, fuel = m + 1 := ⟨fuel - 1, by omega⟩
    obtain ⟨search, all⟩ := ih (Nat.succ_lt_succ_iff.mp enough)
    rw [findNameLoop, readAllLoop, read]
    simp only [Option.bind_eq_bind, Option.bind_some]
    constructor
    · split
      · exact Option.some_ne_none _
      · exact search
    · obtain ⟨es, found⟩ := Option.ne_none_iff_exists'.mp all
      rw [found]
      exact Option.some_ne_none _

omit [InodeLayout] in
theorem ScanEnds.search (ends : ScanEnds dir) (tok : Name) :
    findName dir tok ≠ none ∧ readAll dir ≠ none := by
  obtain ⟨n, scan, bound⟩ := ends
  exact scan.search (by omega) tok

/-- A handle on a directory of the tree at its start or its end. -/
def Ready (v : Vol) (own : Owner) (node : Nodes) (h : DirPtr) : Prop :=
  ∃ j k, Opened v own node j k h ∧ (k = 0 ∨ k = h.inodeSt.size)

theorem Ready.ends (ready : Ready v own node h) (holds : Holds v own node) : ScanEnds h := by
  obtain ⟨j, k, ⟨q, fs, st, found, dir, rfl⟩, rfl | ended⟩ := ready
  · exact dir.lists.scanEnds (holds.records_sound found)
  · exact scanEnds_end ended

theorem DirAt.ready (dir : DirAt v.disk own i st (records i p es)) (found : node i = some (.dir p es)) :
    Ready v own node (handle v.disk i st) := ⟨i, 0, ⟨p, es, st, found, dir, rfl⟩, .inl rfl⟩

theorem openWalkScans_end (ended : dir.index = dir.inodeSt.size) :
    ∀ x ∈ openWalkScans d toks dir loaded, x = dir := by
  induction toks with
  | nil => exact fun _ member => by cases member
  | cons tok rest ih =>
    intro x member
    rw [openWalkScans, findName_end ended] at member
    rcases List.mem_cons.mp member with rfl | later
    · rfl
    · dsimp only at later
      split at later
      · exact ih x later
      · cases later

theorem openWalk_ended (ended : dir.index = dir.inodeSt.size)
    (run : openWalk d toks dir loaded = some (some h)) : h = dir := by
  induction toks with
  | nil => cases run; rfl
  | cons tok rest ih =>
    rw [openWalk, findName_end ended, Option.bind_eq_bind, Option.bind_some] at run
    dsimp only at run
    split at run
    · exact ih run
    · cases run

/-- A path without regular files scans directories of the tree, and ends at one. -/
theorem Holds.openWalk_scans (holds : Holds v own node) (found : node i = some (.dir p es))
    (dir : DirAt v.disk own i st (records i p es)) (noFiles : NoFiles v.disk i toks) (loaded : Iptr) :
    (∀ x ∈ openWalkScans v.disk toks (handle v.disk i st) loaded, Ready v own node x) ∧
    ∀ h, openWalk v.disk toks (handle v.disk i st) loaded = some (some h) → Ready v own node h := by
  induction toks generalizing i p es st loaded with
  | nil =>
    refine ⟨fun _ member => (by cases member), fun h run => ?_⟩
    cases run
    exact dir.ready found
  | cons tok rest ih =>
    obtain ⟨k, scanned, ended⟩ := dir.findName_eq holds.ledger tok
    rw [openWalkScans, openWalk, scanned, List.forall_mem_cons]
    simp only [Option.bind_eq_bind, Option.bind_some]
    cases named : lookup v.disk i tok with
    | none =>
      obtain rfl := ended named
      have last : Ready v own node { handle v.disk i st with index := st.size } :=
        ⟨i, st.size, ⟨p, es, st, found, dir, rfl⟩, .inr rfl⟩
      refine ⟨⟨dir.ready found, fun x member => ?_⟩, fun h run => ?_⟩
      · dsimp only at member
        split at member
        · rw [openWalkScans_end rfl x member]
          exact last
        · cases member
      · dsimp only at run
        split at run
        · rw [openWalk_ended rfl run]
          exact last
        · cases run
    | some e =>
      rw [NoFiles, named] at noFiles
      obtain ⟨q, fs, st', sub, dir'⟩ := holds.component found named noFiles.1
      dsimp only
      rw [dir'.inflate holds.ledger, Option.bind_some]
      obtain ⟨scans, lands⟩ := ih sub dir' noFiles.2 e.inode
      exact ⟨⟨dir.ready found, scans⟩, lands⟩

theorem startDir_none (nowhere : walkStart s path = none) : startDir s path = none := by
  rw [walkStart] at nowhere
  rw [startDir]
  split at nowhere
  · cases nowhere
  next relative =>
    rw [if_neg relative, Option.map_eq_none_iff.mp nowhere]
    rfl

theorem mem_openedHandle : h ∈ openedHandle s path ↔ cnopendir s path = some (some h) := by
  rw [openedHandle, Option.mem_toList]
  constructor
  · intro found
    obtain ⟨r, opens, rfl⟩ := Option.bind_eq_some_iff.mp found
    exact opens
  · intro opens
    rw [opens]
    rfl

theorem Sound.opendir_ready (sound : Sound s own node) (ok : PathOk s path)
    (run : cnopendir s path = some (some h)) : Ready s.vol own node h := by
  unfold cnopendir at run
  split at run
  · cases run
  · obtain ⟨start, begins, run⟩ := Option.bind_eq_some_iff.mp run
    cases starts : walkStart s path with
    | none =>
      rw [startDir_none starts] at begins
      cases begins
    | some i =>
      obtain ⟨q, fs, st, found, dir, inflated⟩ := sound.holds.start_handle sound.home starts
      rw [inflated] at begins
      cases begins
      split at run
      · cases run
        exact dir.ready found
      · obtain ⟨_, lands⟩ := sound.holds.openWalk_scans found dir (ok i starts) 6401
        split at run
        · obtain ⟨_ | _, _, run⟩ := Option.bind_eq_some_iff.mp run <;> cases run
        next toks =>
          exact lands h (by rw [walkToks, toks]; exact run)

theorem Sound.opendir_scans (sound : Sound s own node) (ok : PathOk s path) :
    ∀ x ∈ opendirScans s path, ScanEnds x := by
  unfold opendirScans
  cases starts : walkStart s path with
  | none =>
    rw [startDir_none starts]
    exact fun _ member => by cases member
  | some i =>
    obtain ⟨q, fs, st, found, dir, inflated⟩ := sound.holds.start_handle sound.home starts
    rw [inflated]
    intro x member
    dsimp only at member
    split at member
    · cases member
    · split at member
      · rw [List.mem_singleton.mp member]
        exact (dir.ready found).ends sound.holds
      · exact ((sound.holds.openWalk_scans found dir (ok i starts) 6401).1 x member).ends sound.holds

theorem Sound.pathOk_dot (sound : Sound s own node) : PathOk s dot := by
  intro i starts
  obtain ⟨q, fs, found⟩ := sound.holds.start_dir sound.home starts
  have self : lookup s.vol.disk i dot = some (dotEntry i) := (sound.holds.lookup_dots found).1
  rw [show walkToks dot = [dot] by decide, NoFiles, self]
  exact ⟨show ITYPE_DIR ≠ ITYPE_FILE by decide, trivial⟩

/-- A path without regular files before its last component scans directories of the tree. -/
theorem Holds.mkdir_scans (holds : Holds v own node) (found : node i = some (.dir p es))
    (dir : DirAt v.disk own i st (records i p es)) (noFiles : NoFilesMkdir v.disk i toks) :
    ∀ x ∈ mkdirScans v.disk toks st i, ScanEnds x := by
  induction toks generalizing i p es st with
  | nil => exact fun _ member => by cases member
  | cons tok rest ih =>
    obtain ⟨k, scanned, _⟩ := dir.findName_eq holds.ledger tok
    intro x member
    rw [mkdirScans, dir.loaded holds.ledger] at member
    rcases List.mem_cons.mp member with rfl | later
    · exact (dir.ready found).ends holds
    · split at later
      · cases later
      next more =>
        have inner := noFiles more
        rw [handle] at scanned
        rw [scanned] at later
        cases named : lookup v.disk i tok with
        | some e =>
          rw [named] at inner later
          obtain ⟨q, fs, st', sub, dir'⟩ := holds.component found named inner.1
          dsimp only at later
          rw [dir'.read] at later
          exact ih sub dir' inner.2 x later
        | none =>
          rw [named] at inner later
          exact ih found dir inner x later

/-- Rewound, the handle stands before sound records. -/
def Tiled (h : DirPtr) : Prop := ∃ rs, DirPtr.Lists { h with index := 0 } rs ∧ ∀ e ∈ rs, e.Sound

omit [InodeLayout] in
theorem Tiled.ends (tiled : Tiled h) : ScanEnds { h with index := 0 } := by
  obtain ⟨rs, lists, sounds⟩ := tiled
  exact lists.scanEnds sounds

theorem HandleOf.tiled (handleOf : HandleOf h i st (records i p es)) (holds : Holds v own node)
    (found : node i = some (.dir p es)) : Tiled h := by
  refine ⟨records i p es, ?_, holds.records_sound found⟩
  unfold DirPtr.Lists
  rw [handleOf.field.1]
  exact handleOf.tiles

theorem Opened.tiled (opened : Opened v own node j k h) (holds : Holds v own node) : Tiled h := by
  obtain ⟨q, fs, st, found, dir, rfl⟩ := opened
  exact (dir.handleOf.reindex (k := k)).tiled holds found

theorem NewFile.tiled (new : NewFile s own node h.inodeId name dir s' own' p es e)
    (sound : Sound s own node) : Tiled dir := by
  obtain ⟨_, _, handleOf⟩ := new.shows
  exact handleOf.tiled new.entered.holds (new.parent sound)

/-- The searches for a name that `cnstat` makes, also behind a `cncreat`. -/
theorem Sound.stat_scans (sound : Sound s own node) (tiled : Tiled h)
    (ok : creates = true → CreatOk s h name) : ∀ x ∈ statScans s name creates h, ScanEnds x := by
  intro x member
  rcases List.mem_cons.mp member with rfl | later
  · exact tiled.ends
  · split at later
    next making =>
      cases run : cncreat h name s with
      | none => rw [run] at later; cases later
      | some result =>
        obtain ⟨code, h', s'⟩ := result
        rw [run] at later
        rw [List.mem_singleton.mp later]
        rcases sound.creat (ok making) run with ⟨_, _, _, stat⟩ | ⟨_, _, _, _, _, _, _, new, _⟩
        · obtain ⟨k, rfl⟩ := cnstat_index stat
          exact tiled.ends
        · exact (new.tiled sound).ends
    · cases later

end

section
variable {s s' : Session} {own : Owner} {node : Nodes} {op : Op} {r : Reply}

def HoldsTiled (s : Session) : Prop := ∀ h d, s.dir h = some d → Tiled d

omit [InodeLayout] in
theorem HoldsTiled.globals (all : HoldsTiled s) (handles : s'.handles = s.handles)
    (cwd : ∀ d, s'.fs.cwd = some d → s.fs.cwd = some d ∨ Tiled d) : HoldsTiled s' := by
  intro h d here
  cases h with
  | cwd =>
    rcases cwd d here with same | tiled
    · exact all .cwd d same
    · exact tiled
  | held k =>
    refine all (.held k) d ?_
    rw [← here]
    exact congrFun handles.symm k

omit [InodeLayout] in
/-- A command that leaves the handles and `cwd` alone. -/
theorem HoldsTiled.files (all : HoldsTiled s) (handles : s'.handles = s.handles)
    (only : OnlyFiles s.fs s'.fs) : HoldsTiled s' :=
  all.globals handles fun _ here => .inl ((congrArg Fs.cwd only).symm.trans here)

omit [InodeLayout] in
theorem HoldsTiled.setDir {fs : Fs} (all : HoldsTiled s) (tiled : Tiled d) (cwd : fs.cwd = s.fs.cwd) :
    HoldsTiled (({ s with fs := fs } : Session).setDir h d) := by
  intro k x here
  cases h with
  | cwd =>
    cases k with
    | cwd => cases here; exact tiled
    | held k => exact all (.held k) x here
  | held n =>
    cases k with
    | cwd => exact all .cwd x (cwd.symm.trans here)
    | held k =>
      change (if k = n then some d else s.handles k) = some x at here
      split at here
      · cases here
        exact tiled
      · exact all (.held k) x here

theorem Inv.tiled_step (inv : Inv s own node) (all : HoldsTiled s) (sane : Sane s op)
    (run : s.step op = some (r, s')) : HoldsTiled s' := by
  have sound := inv.sound
  cases op with
  | mkfs => exact absurd sane id
  | mount =>
    obtain ⟨mounts, _, handles⟩ := Session.global_eq run
    obtain ⟨_, _, after, ⟨h, here, opened⟩, _⟩ := sound.holds.mount sound.synced sound.magic mounts
    refine all.globals handles fun d same => .inr ?_
    obtain rfl := Option.some.inj (here.symm.trans same)
    exact opened.tiled after.holds
  | umount =>
    obtain ⟨unmounts, _, handles⟩ := Session.global_eq run
    obtain ⟨_, _, _, cwd, _⟩ := sound.umount unmounts
    exact all.globals handles fun d here => by rw [cwd] at here; cases here
  | mkdir path =>
    obtain ⟨makes, _, handles⟩ := Session.global_eq run
    exact all.files handles (cnmkdir_only makes).files
  | rmdir path =>
    obtain ⟨removes, _, handles⟩ := Session.global_eq run
    exact all.files handles (cnrmdir_only removes).files
  | cd path =>
    obtain ⟨moves, _, handles⟩ := Session.global_eq run
    obtain ⟨_, ⟨_, same⟩ | ⟨h, j, k, _, opened, same⟩⟩ := sound.cd sane moves
    · exact all.globals handles fun d here => .inl (by rwa [same] at here)
    · refine all.globals handles fun d here => .inr ?_
      rw [same] at here
      cases here
      exact opened.tiled sound.holds
  | ls path =>
    obtain ⟨_, rfl⟩ := Session.ls_eq run
    exact all
  | opendir k path =>
    rcases Session.opendir_eq run with ⟨_, rfl⟩ | ⟨d, opens, rfl⟩
    · exact all
    · obtain ⟨j, n, opened⟩ := sound.opendir sane opens
      exact all.setDir (h := .held k) (opened.tiled sound.holds) rfl
  | closedir k =>
    cases run
    intro h x here
    cases h with
    | cwd => exact all .cwd x here
    | held m =>
      change (if m = k then none else s.handles m) = some x at here
      split at here
      · cases here
      · exact all (.held m) x here
  | creat h name =>
    obtain ⟨d, d', fs', here, creates, _, rfl⟩ := Session.onDir_eq run
    have cwd := congrArg Fs.cwd (cncreat_only creates)
    rcases sound.creat (sane d here) creates with ⟨_, _, _, stat⟩ | ⟨_, _, _, _, _, _, _, new, _⟩
    · obtain ⟨k, rfl⟩ := cnstat_index stat
      exact all.setDir (all h d here) cwd
    · exact all.setDir (new.tiled sound) cwd
  | openFile h name mode =>
    obtain ⟨d, d', fs', here, opens, _, rfl⟩ := Session.onDir_eq run
    have cwd := congrArg Fs.cwd (cnopen_files opens)
    have tiled := all h d here
    generalize r.code = fd at opens
    cases sound.openFile (inv.shown h d here) (sane d here) opens with
    | failed => exact all.setDir tiled cwd
    | found stat =>
      obtain ⟨k, rfl⟩ := cnstat_index stat
      exact all.setDir tiled cwd
    | created _ _ new => exact all.setDir (new.tiled sound) cwd
  | close fd =>
    obtain ⟨closes, _, handles⟩ := Session.global_eq run
    exact all.files handles (cnclose_files closes)
  | read fd bytes =>
    obtain ⟨reads, handles⟩ := Session.read_eq run
    exact all.files handles (cnread_used reads).files
  | write fd buf =>
    obtain ⟨_, writes, _, handles⟩ := Session.write_eq run
    exact all.files handles (cnwrite_used writes).files
  | seek fd offset =>
    obtain ⟨seeks, _, handles⟩ := Session.global_eq run
    exact all.files handles (cnseek_used seeks).files
  | cat name =>
    obtain ⟨cats, handles⟩ := Session.cat_eq run
    exact all.files handles (cncat_files cats)
  | importFile hName gName =>
    obtain ⟨imports, _, handles⟩ := Session.global_eq run
    exact all.files handles (cnimport_files imports)
  | exportFile gName hName =>
    obtain ⟨exports, _, handles⟩ := Session.global_eq run
    obtain ⟨_, _, _, cwd⟩ := sound.exportFile sane exports
    exact all.globals handles fun d here => .inl (cwd.symm.trans here)

/-- In a sound state whose handles are tiled all scans of a sane command end. -/
theorem Inv.all_scans (inv : Inv s own node) (all : HoldsTiled s) (sane : Sane s op) :
    ∀ x ∈ scans s op, ScanEnds x := by
  have sound := inv.sound
  have whole {path : Name} (ok : PathOk s.fs path) :
      ∀ x ∈ opendirScans s.fs path ++ openedHandle s.fs path, ScanEnds x := fun x member => by
    rcases List.mem_append.mp member with scanned | opened
    · exact sound.opendir_scans ok x scanned
    · exact (sound.opendir_ready ok (mem_openedHandle.mp opened)).ends sound.holds
  have named {name : Name} {creates : Bool}
      (ok : ∀ h, Current s.fs.vol h → creates = true → CreatOk s.fs h name) :
      ∀ x ∈ opendirScans s.fs dot ++ (openedHandle s.fs dot).flatMap (statScans s.fs name creates),
        ScanEnds x := fun x member => by
    rcases List.mem_append.mp member with scanned | later
    · exact sound.opendir_scans sound.pathOk_dot x scanned
    · obtain ⟨h, opened, searched⟩ := List.mem_flatMap.mp later
      obtain ⟨j, k, shows⟩ := sound.opendir sound.pathOk_dot (mem_openedHandle.mp opened)
      exact sound.stat_scans (shows.tiled sound.holds) (ok h (shows.current sound.holds)) x searched
  cases op with
  | opendir k path => exact sound.opendir_scans sane
  | cd path => exact sound.opendir_scans sane
  | ls path =>
    have ok : PathOk s.fs path := sane
    exact whole ok.orDot
  | rmdir path =>
    have ok : RmdirOk s.fs path := sane
    exact whole ok.noFiles
  | mkdir path =>
    have ok : MkdirOk s.fs path := sane
    rw [scans]
    cases here : s.fs.cwd with
    | none => exact fun _ member => by cases member
    | some cwd =>
      obtain ⟨p, es, found⟩ := sound.home cwd here
      obtain ⟨st, dir⟩ := sound.holds.dirs _ _ _ found
      dsimp only
      rw [dir.read]
      exact sound.holds.mkdir_scans found dir (ok.noFiles cwd here)
  | creat h name =>
    intro x member
    obtain ⟨d, here, searched⟩ := List.mem_flatMap.mp member
    exact sound.stat_scans (all h d (Option.mem_toList.mp here)) (fun no => by cases no) x searched
  | openFile h name mode =>
    intro x member
    obtain ⟨d, here, searched⟩ := List.mem_flatMap.mp member
    have same : s.dir h = some d := Option.mem_toList.mp here
    exact sound.stat_scans (all h d same) (fun writes => (sane d same).creat (of_decide_eq_true writes))
      x searched
  | cat name => exact named fun _ _ no => by cases no
  | exportFile gName hName => exact named fun _ _ no => by cases no
  | importFile hName gName =>
    have ok : ImportOk s.fs hName gName := sane
    exact named fun h current _ => ⟨ok.text, fun _ _ => ⟨ok.short, current, ok.inode⟩⟩
  | _ => exact fun _ member => by cases member

end

/-- In every state that a run of sane commands reaches from a boot, every loop of `cnreaddir`
that a sane command starts ends: each record it steps over has at least 12 bytes, the index grows
until it is the size, and there are at most size / 12 steps. -/
theorem scans_end {before : Fs} {first s : Session} {op : Op} (booted : boot before = some first)
    (steps : Steps Session.step Sane first trace s) (sane : Sane s op) :
    ∀ dir ∈ scans s op, ScanEnds dir := by
  have start : HoldsTiled first := by
    obtain ⟨sound, handles, ⟨h, here, opened⟩, _⟩ := boot_sound booted
    intro k d same
    cases k with
    | cwd =>
      obtain rfl := Option.some.inj (here.symm.trans same)
      exact opened.tiled sound.holds
    | held n =>
      rw [Session.dir, handles n] at same
      cases same
  obtain ⟨all, own, node, inv⟩ := steps.invariant
    (fun s : Session => HoldsTiled s ∧ ∃ own node, Inv s own node)
    (fun _ _ _ _ ⟨all, _, _, inv⟩ sane run => by
      obtain ⟨own', node', after⟩ := inv.step sane run
      exact ⟨inv.tiled_step all sane run, own', node', after.inv⟩) ⟨start, _, _, boot_inv booted⟩
  exact inv.all_scans all sane

end

section Lp64
attribute [local instance] lp64

theorem dirMade_opens : (cnopendir dirMade.fs [97]).map (fun r => r.map fun h =>
    (h.inodeId, h.inodeSt.size)) = some (some (1, 24)) := by decide +kernel

/-- A directory is made and listed. -/
theorem scans_end_listed : ∃ h, h ∈ scans dirMade (.ls [97]) ∧ h.inodeId = 1 ∧ h.inodeSt.size = 24 ∧
    ScanEnds h := by
  obtain ⟨r, opens, shown⟩ := Option.map_eq_some_iff.mp dirMade_opens
  obtain ⟨h, rfl, fields⟩ := Option.map_eq_some_iff.mp shown
  obtain ⟨inode, size⟩ := Prod.mk.inj fields
  obtain ⟨own, node, dirs⟩ := (boot_dirs emptyBooted_eq).step dirCommand_a trivial dirMade_eq
  have scanned : h ∈ scans dirMade (.ls [97]) := List.mem_append_right _ (mem_openedHandle.mpr opens)
  have steps : Steps Session.step Sane emptyBooted [(.mkdir [97], _)] dirMade := .single mkdirOk_a dirMade_eq
  have sane : Sane dirMade (.ls [97]) := dirs.pathOk [97]
  exact ⟨h, scanned, inode, size, scans_end emptyBooted_eq steps sane h scanned⟩

def zerosSought : Session := fileOpened.after (.seek 0 10)

theorem zerosSought_run : (fileOpened.step (.seek 0 10)).isSome ∧
    (cnopendir zerosSought.fs [102]).map (fun r => r.map fun h =>
      (h.index, h.inodeSt.size, (entryAt h.data 0).map DirEntry.entryLen)) =
        some (some (0, 10, some 0)) := by decide +kernel

/-- Opened as a directory, it is left by `cnreaddir` at the same record for ever. -/
theorem scans_end_zeros : boot emptyStart = some emptyBooted ∧
    (∃ trace, Steps Session.step (fun _ _ => True) emptyBooted trace zerosSought) ∧
    ∃ h e, h ∈ scans zerosSought (.ls [102]) ∧ cnreaddir h = some (some (e, h)) ∧ e.entryLen = 0 ∧
      ¬ ScanEnds h := by
  obtain ⟨defined, shown⟩ := zerosSought_run
  obtain ⟨r, opens, shown⟩ := Option.map_eq_some_iff.mp shown
  obtain ⟨h, rfl, fields⟩ := Option.map_eq_some_iff.mp shown
  obtain ⟨index, rest⟩ := Prod.mk.inj fields
  obtain ⟨size, found⟩ := Prod.mk.inj rest
  obtain ⟨e, read, empty⟩ := Option.map_eq_some_iff.mp found
  have steps : Steps Session.step (fun _ _ => True) emptyBooted _ zerosSought :=
    .cons trivial fileOpened_eq (.single trivial (Session.after_eq defined))
  have again : cnreaddir h = some (some (e, h)) := by
    have inside : ¬ h.index ≥ h.inodeSt.size := by
      rw [index, size]
      decide
    have zero : h.index.toNat = 0 := by rw [index]; rfl
    rw [cnreaddir, if_neg inside, zero, read, Option.bind_eq_bind, Option.bind_some, empty]
    exact congrArg (fun k => some (some (e, { h with index := k }))) (UInt32.add_zero h.index)
  refine ⟨emptyBooted_eq, ⟨_, steps⟩, h, e, List.mem_append_right _ (mem_openedHandle.mpr opens), again,
    empty, ?_⟩
  rintro ⟨n, scan, _⟩
  cases scan with
  | ended _ last =>
    rw [again] at last
    cases last
  | record moved long =>
    rw [again] at moved
    cases moved
    omega

end Lp64

end CdnwSh
