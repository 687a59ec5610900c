import CdnwSh.FileArray

/-! Directories and regular files over runs of sane commands: a descriptor is always on a
regular file, a path is looked up in directories only, and what is done to the ones leaves the
others. -/
namespace CdnwSh

open ByteMemory RecordList PartialRun

section
variable [InodeLayout]

def IsDir (d : Disk) (i : Iptr) : Prop := ∃ st, inodeRead d i = some st ∧ st.type = ITYPE_DIR

def IsFile (d : Disk) (i : Iptr) : Prop := ∃ st, inodeRead d i = some st ∧ st.type = ITYPE_FILE

/-- The inodes that the token loop of `cnopendir` loads. -/
def openWalkLoads (d : Disk) : List Name → DirPtr → Iptr → List Iptr
  | [], _, _ => []
  | tok :: rest, dir, loaded =>
    match findName dir tok with
    | some (some entry, _) => entry.inode ::
      match inflatedir d entry.inode with
      | some dir => openWalkLoads d rest dir entry.inode
      | none => []
    | some (none, dir) => if dir.inodeId = loaded then openWalkLoads d rest dir loaded else []
    | none => []

/-- Those that `cnopendir` loads, the one it starts at first. -/
def opendirLoads (s : Fs) (path : Name) : List Iptr :=
  match walkStart s path with
  | none => []
  | some i => i ::
    match startDir s path with
    | some dir => if path = [slash] then [] else openWalkLoads s.vol.disk (walkToks path) dir 6401
    | none => []

def mkdirFind (d : Disk) (inodeSt : Inode) (inodeId : Iptr) (tok : Name) :
    Option (Option DirEntry × DirPtr) := do
  let data ← llread d inodeSt (callocBlocks inodeSt.blocks.toNat)
  findName ⟨inodeSt, inodeId, 0, data⟩ tok

/-- The inodes that its token loop searches, the last one gets the new entry. -/
def mkdirLoads (d : Disk) : List Name → Inode → Iptr → List Iptr
  | [], _, _ => []
  | tok :: rest, inodeSt, inodeId => inodeId ::
    if rest = [] then []
    else
      match mkdirFind d inodeSt inodeId tok with
      | some (some entry, _) =>
        match inodeRead d entry.inode with
        | some inodeSt => mkdirLoads d rest inodeSt entry.inode
        | none => []
      | some (none, _) => mkdirLoads d rest inodeSt inodeId
      | none => []

/-- The inodes whose content a command reads as directory entries on its way along a path. -/
def loads (s : Fs) : Op → List Iptr
  | .opendir _ path | .cd path => opendirLoads s path
  | .ls path => opendirLoads s (if path = [] then dot else path)
  | .rmdir path => opendirLoads s (parentPath path)
  | .mkdir path =>
    match s.cwd with
    | none => []
    | some cwd =>
      match inodeRead s.vol.disk cwd.inodeId with
      | some inodeSt => mkdirLoads s.vol.disk (strtok path) inodeSt cwd.inodeId
      | none => []
  | _ => []

def SameDirs (v v' : Vol) : Prop :=
  ∀ j : Iptr, bit v.inodeBmCache j.toNat = true → IsDir v.disk j →
    inodeRead v'.disk j = inodeRead v.disk j ∧ listing v'.disk j = listing v.disk j

def SameFiles (v v' : Vol) : Prop :=
  ∀ j : Iptr, bit v.inodeBmCache j.toNat = true → IsFile v.disk j →
    inodeRead v'.disk j = inodeRead v.disk j ∧ contentOf v'.disk j = contentOf v.disk j

/-- A command takes no regular file for a directory, and what it does to the ones leaves the
others. -/
structure TypeSafe (s : Fs) (op : Op) (s' : Fs) : Prop where
  loads : ∀ j ∈ loads s op, IsDir s.vol.disk j
  dirs : (∃ fd buf, op = .write fd buf) ∨ (∃ fd offset, op = .seek fd offset) →
    SameDirs s.vol s'.vol
  files : (∃ path, op = .mkdir path) ∨ (∃ path, op = .rmdir path) → SameFiles s.vol s'.vol

section
variable {s s' : Fs} {v v' : Vol} {own own' : Owner} {node : Nodes} {i p j : Iptr}
  {es : List DirEntry} {st : Inode}

theorem DirAt.isDir (dir : DirAt v.disk own i st rs) : IsDir v.disk i := ⟨st, dir.read, dir.type⟩

theorem openWalkLoads_end {dir : DirPtr} (ended : dir.index = dir.inodeSt.size) :
    openWalkLoads d toks dir loaded = [] := by
  induction toks with
  | nil => rfl
  | cons tok rest ih =>
    rw [openWalkLoads, findName_end ended]
    dsimp only
    rw [ih]
    split <;> rfl

/-- A path without regular files leads through directories. -/
theorem Holds.openWalk_loads (holds : Holds v own node) (found : node i = some (.dir p es))
    (dir : DirAt v.disk own i st (records i p es)) (noFiles : NoFiles v.disk i toks)
    (loaded : Iptr) :
    ∀ j ∈ openWalkLoads v.disk toks (handle v.disk i st) loaded, IsDir v.disk j := by
  induction toks generalizing i p es st loaded with
  | nil => exact fun _ member => by cases member
  | cons tok rest ih =>
    obtain ⟨k, scanned, ended⟩ := dir.findName_eq holds.ledger tok
    rw [openWalkLoads, scanned]
    cases named : lookup v.disk i tok with
    | none =>
      obtain rfl := ended named
      dsimp only
      intro j member
      split at member
      · rw [openWalkLoads_end rfl] at member
        cases member
      · cases member
    | some e =>
      rw [NoFiles, named] at noFiles
      obtain ⟨q, fs, st', sub, dir'⟩ := holds.component found named noFiles.1
      dsimp only
      rw [dir'.inflate holds.ledger]
      intro j member
      rcases List.mem_cons.mp member with rfl | later
      · exact dir'.isDir
      · exact ih sub dir' noFiles.2 e.inode j later

theorem PathOk.orDot (ok : PathOk s path) : PathOk s (if path = [] then dot else path) := by
  split
  next empty =>
    rw [empty] at ok
    exact ok
  · exact ok

theorem Sound.opendir_loads (sound : Sound s own node) (ok : PathOk s path) :
    ∀ j ∈ opendirLoads s path, IsDir s.vol.disk j := by
  unfold opendirLoads
  cases starts : walkStart s path with
  | none => exact fun _ member => by cases member
  | some i =>
    obtain ⟨q, fs, st, found, dir, inflated⟩ := sound.holds.start_handle sound.home starts
    dsimp only
    rw [inflated]
    intro j member
    rcases List.mem_cons.mp member with rfl | later
    · exact dir.isDir
    · dsimp only at later
      split at later
      · cases later
      · exact sound.holds.openWalk_loads found dir (ok i starts) 6401 j later

theorem DirAt.mkdirFind_eq (dir : DirAt v.disk own i st rs) (ledger : Ledger v own) (tok : Name) :
    ∃ k, mkdirFind v.disk st i tok =
      some (lookup v.disk i tok, { handle v.disk i st with index := k }) := by
  obtain ⟨k, scanned, _⟩ := dir.findName_eq ledger tok
  refine ⟨k, ?_⟩
  rw [mkdirFind, dir.loaded ledger]
  exact scanned

theorem Holds.mkdir_loads (holds : Holds v own node) (found : node i = some (.dir p es))
    (dir : DirAt v.disk own i st (records i p es)) (noFiles : NoFilesMkdir v.disk i toks) :
    ∀ j ∈ mkdirLoads v.disk toks st i, IsDir v.disk j := by
  induction toks generalizing i p es st with
  | nil => exact fun _ member => by cases member
  | cons tok rest ih =>
    intro j member
    rw [mkdirLoads] at member
    rcases List.mem_cons.mp member with rfl | later
    · exact dir.isDir
    · split at later
      · cases later
      next more =>
        have inner := noFiles more
        obtain ⟨k, scanned⟩ := dir.mkdirFind_eq holds.ledger tok
        rw [scanned] at later
        cases named : lookup v.disk i tok with
        | some e =>
          rw [named] at inner later
          obtain ⟨q, fs, st', sub, dir'⟩ := holds.component found named inner.1
          dsimp only at later
          rw [dir'.read] at later
          exact ih sub dir' inner.2 j later
        | none =>
          rw [named] at inner later
          exact ih found dir inner j later

theorem Holds.file_node (holds : Holds v own node) (used : bit v.inodeBmCache j.toNat = true)
    (file : IsFile v.disk j) : node j = some .file := by
  obtain ⟨st, read, type⟩ := file
  obtain ⟨i, same, live⟩ := holds.exact_inodes _ used
  obtain rfl := UInt32.toNat_inj.mp same
  cases kind : node i with
  | none => exact absurd kind live
  | some n =>
    cases n with
    | file => rfl
    | dir p es =>
      obtain ⟨st', dir⟩ := holds.dirs i p es kind
      obtain rfl := Option.some.inj (read.symm.trans dir.read)
      exact absurd (type.symm.trans dir.type) (by decide)

theorem Holds.dir_used (holds : Holds v own node) (used : bit v.inodeBmCache j.toNat = true)
    (isDir : IsDir v.disk j) :
    ∃ p es st, node j = some (.dir p es) ∧ DirAt v.disk own j st (records j p es) := by
  obtain ⟨st, read, type⟩ := isDir
  obtain ⟨p, es, found, dir⟩ := holds.usedDir used read type
  exact ⟨p, es, st, found, dir⟩

theorem Confined.content_eq (confined : Confined v own who v' own') (ledger : Ledger v own)
    (there : FileAt v.disk own j st) (bound : j.toNat < 6400) (apart : ¬ who j) :
    inodeRead v'.disk j = inodeRead v.disk j ∧ contentOf v'.disk j = contentOf v.disk j := by
  have same := confined.table j bound apart
  have after : FileAt v'.disk own' j st :=
    ⟨same.trans there.read, there.type, confined.copies _ _ there.mapped, there.blocks⟩
  refine ⟨same, ?_⟩
  rw [after.contentOf_eq confined.ledger, there.contentOf_eq ledger,
    fileBytes_congr there.mapped fun b _ found => confined.disk b _ found apart]

/-- What is done to directories and new inodes leaves the regular files. -/
theorem Confined.sameFiles (confined : Confined v own who v' own') (holds : Holds v own node)
    (others : ∀ j, who j → node j ≠ some .file) : SameFiles v v' := by
  intro j used file
  have isFile := holds.file_node used file
  obtain ⟨st, there⟩ := holds.files j isFile
  exact confined.content_eq holds.ledger there (holds.inodes j (by rw [isFile]; simp)).1
    fun mine => others j mine isFile

/-- What is done to regular files leaves the directories. -/
theorem Confined.sameDirs (confined : Confined v own who v' own') (holds : Holds v own node)
    (others : ∀ j, who j → node j = some .file) : SameDirs v v' := by
  intro j used isDir
  obtain ⟨p, es, st, found, dir⟩ := holds.dir_used used isDir
  have apart : ¬ who j := fun mine => by
    have file := others j mine
    rw [found] at file
    cases file
  have bound := (holds.inodes j (by rw [found]; simp)).1
  refine ⟨confined.table j bound apart, ?_⟩
  rw [listing, listing, confined.inflatedir_eq holds.ledger bound apart dir.read dir.mapped]

theorem SameFiles.refl (v : Vol) : SameFiles v v := fun _ _ _ => ⟨rfl, rfl⟩

theorem SameDirs.refl (v : Vol) : SameDirs v v := fun _ _ _ => ⟨rfl, rfl⟩

theorem Entered.sameFiles (entered : Entered v own node i p es e v' own') (holds : Holds v own node) :
    SameFiles v v' := by
  refine entered.confined.sameFiles holds fun j mine file => ?_
  rcases mine with rfl | rfl
  · rw [entered.found] at file
    cases file
  · rw [(holds.unowned entered.fresh).2.1] at file
    cases file

theorem Sound.mkdir_files (sound : Sound s own node) (ok : MkdirOk s path)
    (run : cnmkdir path s = some (code, s')) : SameFiles s.vol s'.vol := by
  rcases sound.mkdir ok run with ⟨_, same⟩ | ⟨_, i, q, fs, e, own', _, _, _, _, _, _, entered, _⟩
  · rw [same]
    exact .refl _
  · exact entered.sameFiles sound.holds

theorem Sound.rmdir_files (sound : Sound s own node) (ok : RmdirOk s path)
    (run : cnrmdir path s = some (code, s')) : SameFiles s.vol s'.vol := by
  rcases sound.rmdir ok run with ⟨_, same⟩ | ⟨_, _, _, _, i, p, es, found, confined⟩ |
    ⟨_, _, _, i, p, es, e, ptr, removed, _⟩
  · rw [same]
    exact .refl _
  · refine confined.sameFiles sound.holds fun j mine file => ?_
    rw [mine, found] at file
    cases file
  · intro j used file
    have isFile := sound.holds.file_node used file
    obtain ⟨st, there⟩ := sound.holds.files j isFile
    have bound := (sound.holds.inodes j (by rw [isFile]; simp)).1
    have gone : j ≠ e.inode := by
      rintro rfl
      rw [removed.empty] at isFile
      cases isFile
    have here : j ≠ i := by
      rintro rfl
      rw [removed.found] at isFile
      cases isFile
    have released := there.released sound.holds.ledger removed.owner gone bound
    obtain ⟨low, used'⟩ := sound.holds.inodes e.inode (by rw [removed.empty]; simp)
    have ledger := sound.holds.ledger.released removed.owner low used'
    have bytes : fileBytes (s.vol.released ptr e.inode).disk st = fileBytes s.vol.disk st :=
      fileBytes_congr there.mapped fun b _ found => released_disk (by
        have := (sound.holds.ledger.owned _ _ found).1
        omega)
    obtain ⟨table, content⟩ := removed.confined.content_eq ledger released bound here
    rw [table, content, released.read, there.read, released.contentOf_eq ledger,
      there.contentOf_eq sound.holds.ledger, bytes]
    exact ⟨rfl, rfl⟩

theorem Sound.write_dirs (sound : Sound s own node) (ok : WriteOk s fd buf)
    (run : cnwrite buf fd s = some (r, s')) : SameDirs s.vol s'.vol := by
  rcases sound.write ok run with ⟨_, same, _⟩ | ⟨n, own', _, _, _, _, _, mode, acted, _⟩
  · rw [same]
    exact .refl _
  · have file := (sound.copies n (by rw [mode]; decide)).1
    exact acted.confined.sameDirs sound.holds fun j mine => by rw [mine]; exact file

theorem Sound.seek_dirs (sound : Sound s own node) (ok : SeekOk s fd offset)
    (run : cnseek fd offset s = some (code, s')) : SameDirs s.vol s'.vol := by
  obtain ⟨n, _, _, ⟨_, _, same⟩ | ⟨_, ⟨_, same, _⟩ | ⟨_, used, own', _, _, _, acted, _⟩⟩⟩ :=
    sound.seek ok run
  · rw [same]
    exact .refl _
  · rw [same]
    exact .refl _
  · have file := (sound.copies n used).1
    exact acted.confined.sameDirs sound.holds fun j mine => by rw [mine]; exact file

theorem Sound.opened_file (sound : Sound s own node) (used : (s.fdTbl n).state ≠ FD_FREE) :
    IsFile s.vol.disk (s.fdTbl n).inodeId := by
  obtain ⟨st, there⟩ := sound.holds.files _ (sound.copies n used).1
  exact ⟨st, there.read, there.type⟩

end

section
variable {s s' : Session} {own : Owner} {node : Nodes} {op : Op} {r : Reply}

theorem Inv.loads_dirs (inv : Inv s own node) (sane : Sane s op) :
    ∀ j ∈ loads s.fs op, IsDir s.fs.vol.disk j := by
  cases op with
  | opendir k path => exact inv.sound.opendir_loads sane
  | cd path => exact inv.sound.opendir_loads sane
  | ls path =>
    have ok : PathOk s.fs path := sane
    exact inv.sound.opendir_loads ok.orDot
  | rmdir path =>
    have ok : RmdirOk s.fs path := sane
    exact inv.sound.opendir_loads ok.noFiles
  | mkdir path =>
    have ok : MkdirOk s.fs path := sane
    rw [loads]
    cases here : s.fs.cwd with
    | none => exact fun _ member => by cases member
    | some cwd =>
      obtain ⟨p, es, found⟩ := inv.sound.home cwd here
      obtain ⟨st, dir⟩ := inv.sound.holds.dirs _ _ _ found
      dsimp only
      rw [dir.read]
      exact inv.sound.holds.mkdir_loads found dir (ok.noFiles cwd here)
  | _ => exact fun _ member => by cases member

theorem Inv.typeSafe (inv : Inv s own node) (sane : Sane s op) (run : s.step op = some (r, s')) :
    TypeSafe s.fs op s'.fs := by
  refine ⟨inv.loads_dirs sane, ?_, ?_⟩
  · rintro (⟨fd, buf, rfl⟩ | ⟨fd, offset, rfl⟩)
    · obtain ⟨_, writes, _⟩ := Session.write_eq run
      exact inv.sound.write_dirs sane writes
    · obtain ⟨seeks, _, _⟩ := Session.global_eq run
      exact inv.sound.seek_dirs sane seeks
  · rintro (⟨path, rfl⟩ | ⟨path, rfl⟩)
    · obtain ⟨makes, _, _⟩ := Session.global_eq run
      exact inv.sound.mkdir_files sane makes
    · obtain ⟨removes, _, _⟩ := Session.global_eq run
      exact inv.sound.rmdir_files sane removes

/-- In every run of sane commands on a new file system: every open descriptor is on a regular
file, every command looks its path up in directories only, no write or seek changes a directory
and no `cnmkdir` or `cnrmdir` changes a regular file. -/
theorem type_safety {before : Fs} (booted : boot before = some s)
    (steps : Steps Session.step Sane s trace s') :
    (∀ n, (s'.fs.fdTbl n).state ≠ FD_FREE → IsFile s'.fs.vol.disk (s'.fs.fdTbl n).inodeId) ∧
    ∀ first op r rest, trace = first ++ (op, r) :: rest → ∃ m m',
      Steps Session.step Sane s first m ∧ m.step op = some (r, m') ∧ TypeSafe m.fs op m'.fs := by
  have start := boot_inv booted
  obtain ⟨own, node, last⟩ := start.run steps
  refine ⟨fun n used => last.sound.opened_file used, ?_⟩
  rintro first op r rest rfl
  obtain ⟨m, sofar, others⟩ := steps.split
  obtain ⟨own₁, node₁, inv⟩ := start.run sofar
  cases others with
  | @cons _ _ _ m' _ _ sane moved _ => exact ⟨m, m', sofar, moved, inv.typeSafe sane moved⟩

end

end

section Lp64
attribute [local instance] lp64

theorem type_safety_open : (fileOpened.fs.fdTbl 0).state = FD_WRITE ∧
    IsFile fileOpened.fs.vol.disk (fileOpened.fs.fdTbl 0).inodeId := by
  have mode := fileOpened_facts.1
  exact ⟨mode, (type_safety emptyBooted_eq (.single emptyBooted_sane fileOpened_eq)).1 0
    (by rw [mode]; decide)⟩

/-- The root directory opened as a file. -/
def dirOpened : Session := emptyBooted.after (.openFile .cwd dot FD_WRITE)

theorem dirOpened_run : (emptyBooted.step (.openFile .cwd dot FD_WRITE)).isSome ∧
    emptyBooted.reply (.openFile .cwd dot FD_WRITE) = ⟨0, []⟩ ∧
    (dirOpened.fs.fdTbl 0).state = FD_WRITE ∧ (dirOpened.fs.fdTbl 0).inodeId = 0 ∧
    (inodeRead dirOpened.fs.vol.disk 0).map Inode.type = some ITYPE_DIR := by decide +kernel

/-- `cnopen` of "." returns a descriptor on the directory. -/
theorem type_safety_dot : boot emptyStart = some emptyBooted ∧
    Steps Session.step (fun _ _ => True) emptyBooted [(.openFile .cwd dot FD_WRITE, ⟨0, []⟩)]
      dirOpened ∧
    (dirOpened.fs.fdTbl 0).state ≠ FD_FREE ∧
    IsDir dirOpened.fs.vol.disk (dirOpened.fs.fdTbl 0).inodeId ∧
    ¬ IsFile dirOpened.fs.vol.disk (dirOpened.fs.fdTbl 0).inodeId := by
  obtain ⟨defined, reply, mode, id, type⟩ := dirOpened_run
  have opens := Session.after_eq defined
  rw [reply] at opens
  obtain ⟨st, read, isDir⟩ := Option.map_eq_some_iff.mp type
  refine ⟨emptyBooted_eq, .single trivial opens, by rw [mode]; decide, ?_, ?_⟩
  · rw [id]
    exact ⟨st, read, isDir⟩
  · rw [id]
    rintro ⟨st', read', isFile⟩
    obtain rfl := Option.some.inj (read.symm.trans read')
    exact absurd (isDir.symm.trans isFile) (by decide)

end Lp64

end CdnwSh
