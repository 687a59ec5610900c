import CdnwSh.Abstraction
import CdnwSh.WrittenThrough

/-! The commands on names and directories as steps of the `FileSystem`: `cnmkdir`, `cnrmdir`,
`cncd`, `cnls`, `cnopendir`, `cncreat`, and `cnmount` and `cnumount`. -/
namespace CdnwSh

open ByteMemory RecordList FileStore

section
variable [InodeLayout] {s s' : Session} {fs : FileSystem} {own own' : Owner} {node : Nodes}
  {i j n p : Iptr} {es : List DirEntry} {e : DirEntry} {st : Inode} {r : Reply}

/-- The step is one of the `FileSystem`. -/
def Simulated (fs : FileSystem) (op : Op) (r : Reply) (s' : Session) : Prop :=
  ∃ own' fs', FileSystem.Step fs op r fs' ∧ Refines s' own' fs'

omit [InodeLayout] in
theorem Session.global_some {result : Option (Int × Fs)} (run : s.global result = some (r, s')) :
    ∃ code s₁, result = some (code, s₁) ∧ r = ⟨code, []⟩ ∧ s' = { s with fs := s₁ } := by
  obtain ⟨⟨code, s₁⟩, same, run⟩ := Option.bind_eq_some_iff.mp run
  cases run
  exact ⟨code, s₁, same, rfl, rfl⟩

theorem Refines.sound (refines : Refines s own fs) : Sound s.fs own fs.node := refines.globals.sound

theorem Refines.held (refines : Refines s own fs) (here : s.dir h = some d) :
    ∃ held, fs.dirs h = some held ∧ DirShown fs.node d held := by
  have related := refines.dirs h
  rw [here] at related
  cases shows : fs.dirs h with
  | none =>
    rw [shows] at related
    cases related
  | some held =>
    rw [shows] at related
    cases related with
    | some shown => exact ⟨held, rfl, shown⟩

theorem Refines.start_eq (refines : Refines s own fs) (path : Name) :
    fs.start path = walkStart s.fs path := by
  rw [FileSystem.start, walkStart]
  by_cases absolute : path.head? = some slash
  · rw [if_pos absolute, if_pos absolute]
  · rw [if_neg absolute, if_neg absolute]
    have related := refines.dirs .cwd
    rw [Session.dir] at related
    cases shows : fs.dirs .cwd with
    | none =>
      rw [shows] at related
      cases here : s.fs.cwd with
      | none => rfl
      | some d =>
        rw [here] at related
        cases related
    | some held =>
      rw [shows] at related
      cases here : s.fs.cwd with
      | none =>
        rw [here] at related
        cases related
      | some d =>
        rw [here] at related
        cases related with
        | some shown => exact congrArg some shown.dir.symm

theorem Refines.rel (refines : Refines s own fs) (same : s'.dir h = s.dir h)
    (files : ∀ j, fs.node j = some .file → node j = some .file) :
    Option.Rel (DirShown node) (s'.dir h) (fs.dirs h) := by
  have related := refines.dirs h
  rw [same]
  cases here : s.dir h with
  | none =>
    rw [here] at related
    cases shows : fs.dirs h with
    | none => exact .none
    | some held =>
      rw [shows] at related
      cases related
  | some d =>
    obtain ⟨held, shows, shown⟩ := refines.held here
    rw [shows]
    exact .some (shown.mono files)

theorem Refines.keep {fs' : FileSystem} (refines : Refines s own fs) (mirrors : Mirrors s'.fs own' fs')
    (handles : s'.handles = s.handles) (cwd : s'.fs.cwd = s.fs.cwd) (dirs : fs'.dirs = fs.dirs)
    (files : ∀ j, fs.node j = some .file → fs'.node j = some .file) : Refines s' own' fs' := by
  refine ⟨mirrors, fun h => ?_⟩
  rw [dirs]
  refine refines.rel ?_ files
  cases h with
  | cwd => exact cwd
  | held k => exact congrFun handles k

theorem Refines.moved {fs' : FileSystem} {shows : Option Snapshot} (refines : Refines s own fs)
    (mirrors : Mirrors s'.fs own' fs') (others : ∀ k, k ≠ h → s'.dir k = s.dir k)
    (mine : Option.Rel (DirShown fs'.node) (s'.dir h) shows)
    (dirs : fs'.dirs = Function.update fs.dirs h shows)
    (files : ∀ j, fs.node j = some .file → fs'.node j = some .file) : Refines s' own' fs' := by
  refine ⟨mirrors, fun k => ?_⟩
  rw [dirs]
  by_cases here : k = h
  · subst here
    rw [Function.update_self]
    exact mine
  · rw [Function.update_of_ne here]
    exact refines.rel (others k here) files

omit [InodeLayout] in
@[simp] theorem setDir_dir (s : Session) : (s.setDir h d).dir h = some d := by
  cases h with
  | cwd => rfl
  | held k => exact if_pos rfl

omit [InodeLayout] in
theorem setDir_other {h k : Handle} (s : Session) (apart : k ≠ h) : (s.setDir h d).dir k = s.dir k := by
  cases h with
  | cwd =>
    cases k with
    | cwd => exact absurd rfl apart
    | held k => rfl
  | held m =>
    cases k with
    | cwd => rfl
    | held k => exact if_neg fun same => apart (congrArg Handle.held same)

theorem Mirrors.withCwd {s : Fs} (mirrors : Mirrors s own fs)
    (home : ∀ d, cwd = some d → ∃ p es, fs.node d.inodeId = some (.dir p es)) :
    Mirrors { s with cwdStr := path, cwd := cwd } own fs := by
  have sound := mirrors.sound
  refine ⟨⟨sound.holds, sound.synced, sound.magic, home, sound.copies⟩, ?_, mirrors.host⟩
  exact mirrors.files.kept sound (.refl _) rfl rfl fun _ => id

theorem Refines.setDir {s₁ : Fs} {fs' : FileSystem} {held : Snapshot} (refines : Refines s own fs)
    (mirrors : Mirrors s₁ own' fs') (shown : DirShown fs'.node d held) (cwd : s₁.cwd = s.fs.cwd)
    (home : h = .cwd → ∃ p es, fs'.node held.dir = some (.dir p es))
    (dirs : fs'.dirs = Function.update fs.dirs h (some held))
    (files : ∀ j, fs.node j = some .file → fs'.node j = some .file) :
    Refines (({ s with fs := s₁ } : Session).setDir h d) own' fs' := by
  refine refines.moved (h := h) ?_ (fun k apart => ?_) ?_ dirs files
  · cases h with
    | cwd =>
      change Mirrors { s₁ with cwdStr := s₁.cwdStr, cwd := some d } own' fs'
      refine mirrors.withCwd fun x same => ?_
      cases same
      rw [shown.dir]
      exact home rfl
    | held k => exact mirrors
  · rw [setDir_other _ apart]
    cases k with
    | cwd => exact cwd
    | held k => rfl
  · rw [setDir_dir]
    exact .some shown

theorem Refines.hold {k : Nat} (refines : Refines s own fs) (shown : DirShown fs.node d ⟨i, recordsOf fs.node i⟩) :
    Refines (s.setDir (.held k) d) own (fs.hold (.held k) i) := by
  have globals := refines.globals
  exact refines.setDir ⟨globals.sound, globals.files, globals.host⟩ shown rfl (fun other => by cases other)
    rfl fun _ => id

/-- `cnopendir` fails where the path does not arrive, and otherwise reads where it ends. -/
theorem Refines.opens (refines : Refines s own fs) (ok : PathOk s.fs path)
    (run : cnopendir s.fs path = some found) : ∃ i, fs.start path = some i ∧
    ((arrives fs.node i (walkToks path) = none ∧ found = none) ∨
      ∃ j whole h, arrives fs.node i (walkToks path) = some (j, whole) ∧ found = some h ∧
        EndsAt s.fs.vol own fs.node (j, whole) h) := by
  obtain ⟨i, starts, arrived⟩ := refines.sound.opendir_arrives ok run
  refine ⟨i, (refines.start_eq path).trans starts, ?_⟩
  rcases arrived with lost | ⟨⟨j, whole⟩, h, arrived, same, ends⟩
  · exact .inl lost
  · exact .inr ⟨j, whole, h, arrived, same, ends⟩

theorem Refines.stand (refines : Refines s own fs) (found : fs.node j = some (.dir p es))
    (shown : DirShown fs.node d ⟨j, recordsOf fs.node j⟩) (path : Name) :
    Refines { s with fs := { s.fs with cwdStr := path, cwd := some d } } own (fs.hold .cwd j) := by
  have globals : Mirrors { s.fs with cwdStr := path, cwd := some d } own (fs.hold .cwd j) := by
    have mirrors : Mirrors { s.fs with cwdStr := path, cwd := some d } own fs :=
      refines.globals.withCwd fun x same => by
        cases same
        rw [shown.dir]
        exact ⟨p, es, found⟩
    exact ⟨mirrors.sound, mirrors.files, mirrors.host⟩
  refine refines.moved (h := .cwd) globals (fun k apart => ?_) (.some shown) rfl fun _ => id
  cases k with
  | cwd => exact absurd rfl apart
  | held k => rfl

/-- The current directory is missing only after an unmount has closed it. -/
def Released (s : Fs) : Prop := s.cwd = none → s.cwdClosed = true

omit [InodeLayout] in
theorem Released.here {s : Fs} (released : Released s) (closes : closeCwd s = some u) :
    ∃ cwd, s.cwd = some cwd := by
  refine Option.ne_none_iff_exists'.mp fun none => ?_
  rw [closeCwd, if_pos ⟨none, released none⟩] at closes
  cases closes

theorem Refines.cd (refines : Refines s own fs) (released : Released s.fs) (ok : PathOk s.fs path)
    (run : s.step (.cd path) = some (r, s')) : Simulated fs (.cd path) r s' := by
  obtain ⟨code, s₁, moves, rfl, rfl⟩ := Session.global_some run
  obtain ⟨found, opened, moves⟩ := Option.bind_eq_some_iff.mp moves
  obtain ⟨i, starts, ⟨lost, rfl⟩ | ⟨j, whole, d, arrived, rfl, ends⟩⟩ := refines.opens ok opened
  · cases moves
    exact ⟨own, fs, .cdFails starts lost, refines⟩
  · obtain ⟨_, closes, moves⟩ := Option.bind_eq_some_iff.mp moves
    cases moves
    obtain ⟨cwd, here⟩ := released.here closes
    obtain ⟨held, shows, _⟩ := refines.held (h := .cwd) here
    have shown := ends.dirShown refines.sound.holds
    obtain ⟨q, sub, _, there, _⟩ := ends
    exact ⟨own, _, .cd shows starts arrived, refines.stand there shown path⟩

theorem Refines.opendir (refines : Refines s own fs) (ok : PathOk s.fs path)
    (run : s.step (.opendir k path) = some (r, s')) : Simulated fs (.opendir k path) r s' := by
  obtain ⟨found, opened, run⟩ := Option.bind_eq_some_iff.mp run
  obtain ⟨i, starts, ⟨lost, rfl⟩ | ⟨j, whole, d, arrived, rfl, ends⟩⟩ := refines.opens ok opened
  · cases run
    exact ⟨own, fs, .opendirFails starts lost, refines⟩
  · cases run
    exact ⟨own, _, .opendir starts arrived, refines.hold (ends.dirShown refines.sound.holds)⟩

theorem Refines.closedir (refines : Refines s own fs) (run : s.step (.closedir k) = some (r, s')) :
    Simulated fs (.closedir k) r s' := by
  cases run
  have globals := refines.globals
  refine ⟨own, _, .closedir, refines.moved (h := .held k) ⟨globals.sound, globals.files, globals.host⟩
    (fun m apart => ?_) ?_ rfl fun _ => id⟩
  · cases m with
    | cwd => rfl
    | held m => exact if_neg fun same => apart (congrArg Handle.held same)
  · have closed : (if k = k then none else s.handles k) = none := if_pos rfl
    change Option.Rel _ (if k = k then none else s.handles k) none
    rw [closed]
    exact .none

omit [InodeLayout] in
/-- An empty path stands for the current directory. -/
theorem walkToks_orDot : walkToks (if path = [] then dot else path) = walkToks path := by
  by_cases empty : path = []
  · subst empty
    rfl
  · rw [if_neg empty]

/-- At its end a handle has the records of the directory before it, or none. -/
theorem EndsAt.readAll {v : Vol} {whole : Bool} (ends : EndsAt v own node (j, whole) d) :
    readAll d = some (if whole then recordsOf node j else []) := by
  obtain ⟨q, sub, st, found, dir, rfl⟩ := ends
  cases whole with
  | true =>
    rw [recordsOf_dir found]
    exact readAll_eq dir.lists
  | false => exact readAll_eq (show DirPtr.Lists _ [] from rfl)

theorem Refines.ls (refines : Refines s own fs) (ok : PathOk s.fs path)
    (run : s.step (.ls path) = some (r, s')) : Simulated fs (.ls path) r s' := by
  obtain ⟨⟨code, bytes⟩, lists, run⟩ := Option.bind_eq_some_iff.mp run
  cases run
  obtain ⟨_, lists⟩ : ¬ 256 ≤ path.length ∧ _ := by
    rw [cnls] at lists
    split at lists
    · cases lists
    next short => exact ⟨short, lists⟩
  obtain ⟨found, opened, lists⟩ := Option.bind_eq_some_iff.mp lists
  obtain ⟨i, starts, ended⟩ := refines.opens ok.orDot opened
  have begins : fs.start path = some i := by
    rw [← starts]
    by_cases empty : path = []
    · subst empty
      rfl
    · rw [if_neg empty]
  rw [walkToks_orDot] at ended
  rcases ended with ⟨lost, rfl⟩ | ⟨j, whole, d, arrived, rfl, ends⟩
  · cases lists
    exact ⟨own, fs, .lsFails begins lost, refines⟩
  · obtain ⟨entries, read, lists⟩ := Option.bind_eq_some_iff.mp lists
    cases lists
    obtain rfl := Option.some.inj (ends.readAll.symm.trans read)
    have text : ((if whole then recordsOf fs.node j else []).flatMap fun e => cstr e.name ++ [10]) =
        if whole then lsText (recordsOf fs.node j) else [] := by
      cases whole with
      | false => rfl
      | true =>
        have shown := ends.dirShown refines.sound.holds
        exact List.flatMap_congr fun e member => by
          rw [cstr_self (shown.text e member)]
          rfl
    rw [text]
    exact ⟨own, fs, .ls begins arrived, refines⟩

theorem cnmkdir_first {s s' : Fs} (ledger : Ledger s.vol own) (left : Pool.inode.free s.vol ≠ 0)
    (run : cnmkdir path s = some (0, s')) : ∃ n rest, freeList .inode s.vol = n :: rest ∧
      s'.vol.inodeBmCache = setBit s.vol.inodeBmCache n.toNat := by
  obtain ⟨cwd, _, run⟩ := Option.bind_eq_some_iff.mp run
  obtain ⟨st, read, run⟩ := Option.bind_eq_some_iff.mp run
  rcases (mkdirWalk_end read).2 _ run with
    ⟨_, failed⟩ | ⟨_, _, _, _, _, _, _, _, _, _, created⟩
  · cases failed
  · obtain ⟨_, n, rest, free, inodeBm, _⟩ := createBranch_made ledger left created
    exact ⟨n, rest, free, inodeBm⟩

omit [InodeLayout] in
theorem FileSystem.enter_eq (found : fs.node i = some (.dir p es)) : fs.enter i e = { fs with
    node := NameTree.insert scheme fs.node i p es e (newNode i e)
    files := fs.files.fill e.inode [] } := by
  rw [FileSystem.enter, found]

/-- A new entry on disk is one in the tree. -/
theorem Mirrors.enter {s s' : Fs} (mirrors : Mirrors s own fs)
    (entered : Entered s.vol own fs.node i p es e s'.vol own')
    (state : s' = { s with vol := s'.vol, ticks := s'.ticks })
    (empty : e.fileType ≠ ITYPE_DIR → contentOf s'.vol.disk e.inode = some []) :
    Mirrors s' own' (fs.enter i e) := by
  have holds := mirrors.sound.holds
  have tbl : s'.fdTbl = s.fdTbl := by rw [state]
  rw [FileSystem.enter_eq entered.found]
  refine ⟨mirrors.sound.entered entered (by rw [state]) tbl, ?_, mirrors.host.trans (by rw [state])⟩
  refine mirrors.files.entered mirrors.sound (entered.sameFiles holds) tbl (by rw [state])
    (holds.unowned entered.fresh).2.1 fun j file => ?_
  rcases NameTree.insert_cases (S := scheme) file with ⟨rfl, new⟩ | ⟨_, ⟨_, parent⟩ | ⟨_, before⟩⟩
  · exact .inr ⟨rfl, empty (newNode_file new.symm)⟩
  · cases parent
  · exact .inl before

theorem Refines.mkdir (refines : Refines s own fs) (ok : MkdirOk s.fs path)
    (run : s.step (.mkdir path) = some (r, s')) : Simulated fs (.mkdir path) r s' := by
  obtain ⟨code, s₁, makes, rfl, rfl⟩ := Session.global_some run
  have sound := refines.sound
  obtain ⟨cwd, here, _⟩ := Option.bind_eq_some_iff.mp makes
  obtain ⟨held, shows, shown⟩ := refines.held (h := .cwd) here
  obtain ⟨p, es, found⟩ := sound.home cwd here
  have place : mkdirTarget s.fs.vol.disk cwd.inodeId (strtok path) =
      newPlace fs.node held.dir (strtok path) := by
    rw [← shown.dir]
    exact sound.holds.newPlace_eq found (ok.noFiles cwd here)
  rcases sound.holds.mkdir here found ok.text (ok.noFiles cwd here) (ok.left cwd here) makes with
    ⟨stopped, rfl, rfl⟩ | ⟨j, q, sub, e, v', own', t, target, rfl, state, isDir, entered⟩
  · exact ⟨own, fs, .mkdirFails shows (place.symm.trans stopped), refines⟩
  · have left := (ok.left cwd here (by rw [target]; simp)).1
    obtain ⟨n, rest, free, inodeBm⟩ := cnmkdir_first sound.holds.ledger left makes
    subst state
    obtain ⟨fresh, record⟩ := entered.fresh_entry sound.holds free inodeBm
    rw [isDir] at record
    have step := FileSystem.Step.mkdir shows (place.symm.trans target) fresh
    rw [← record] at step
    have mirrors : Mirrors { s.fs with vol := v', ticks := t } own' (fs.enter j e) :=
      refines.globals.enter entered rfl fun other => absurd isDir other
    refine ⟨own', _, step, refines.keep mirrors rfl rfl ?_ ?_⟩
    · rw [FileSystem.enter_eq entered.found]
    · rw [FileSystem.enter_eq entered.found]
      exact (entered.next sound.holds).files

/-- Names that are all found lead to the same directory in the tree. -/
theorem Holds.descend_resolve {v : Vol} (holds : Holds v own node) (found : node i = some (.dir p es))
    (noFiles : NoFiles v.disk i toks) (resolved : resolve v.disk i toks = some j) :
    descend node i toks = (j, true) := by
  induction toks generalizing i p es with
  | nil =>
    cases resolved
    rfl
  | cons tok rest ih =>
    rw [resolve] at resolved
    rw [NoFiles] at noFiles
    rw [descend, ← holds.named_eq found]
    cases named : lookup v.disk i tok with
    | none =>
      rw [named] at resolved
      cases resolved
    | some e =>
      rw [named] at resolved noFiles
      obtain ⟨q, sub, _, inner, _⟩ := holds.component found named noFiles.1
      exact ih inner noFiles.2 resolved

theorem Refines.landed (refines : Refines s own fs) (ok : PathOk s.fs path)
    (land : landing s.fs path = some j) :
    ∃ i, fs.start path = some i ∧ arrives fs.node i (walkToks path) = some (j, true) := by
  obtain ⟨i, starts, resolved⟩ := Option.bind_eq_some_iff.mp land
  have holds := refines.sound.holds
  obtain ⟨p, es, found⟩ := holds.start_dir refines.sound.home starts
  refine ⟨i, (refines.start_eq path).trans starts, ?_⟩
  have noFiles := ok i starts
  cases toks : walkToks path with
  | nil =>
    rw [toks] at resolved
    cases resolved
    rfl
  | cons tok rest =>
    rw [toks] at resolved noFiles
    have whole := holds.descend_resolve found noFiles resolved
    rw [descend] at whole
    rw [arrives]
    cases named : named fs.node i tok with
    | none =>
      rw [named] at whole
      cases whole
    | some e =>
      rw [named] at whole
      exact congrArg some whole

/-- An empty directory is gone. -/
theorem Removed.sound {s : Fs} {ptr : UInt32} {v' : Vol} (removed : Removed s own node path i p es e ptr v')
    (sound : Sound s own node) :
    Sound { s with vol := v' } (own.drop ptr) (NameTree.erase scheme node i p es e) := by
  refine sound.next removed.holds (removed.next sound.holds.ledger) (fun d same => ?_)
    fun n _ => .inl rfl
  obtain ⟨q, sub, before⟩ := sound.home d same
  have apart : d.inodeId ≠ e.inode := by
    obtain ⟨cwd, here, stands⟩ := removed.here
    obtain rfl := Option.some.inj (here.symm.trans same)
    rw [stands]
    exact (sound.holds.tree.target_ne (.of removed.found removed.member)).symm
  obtain ⟨sub', after⟩ := removed.dirs before apart
  exact ⟨q, sub', after⟩

/-- `cnrmdir` fails where the path or the directory it names is not found or not empty. -/
theorem Refines.rmdir_refused (refines : Refines s own fs) (ok : RmdirOk s.fs path)
    (run : cnrmdir path s.fs = some (-1, s.fs)) : FileSystem.Step fs (.rmdir path) ⟨-1, []⟩ fs := by
  have holds := refines.sound.holds
  obtain ⟨d, e, d', st, opened, scanned, read, full⟩ := cnrmdir_refuses.mp run
  obtain ⟨i, starts, ⟨_, same⟩ | ⟨j, whole, _, arrived, same, ends⟩⟩ := refines.opens ok.noFiles opened
  · cases same
  cases same
  -- the walk came to its end, so the handle stands before the first record
  obtain ⟨j', land⟩ := Option.ne_none_iff_exists'.mp ok.whole
  obtain ⟨i', starts', arrived'⟩ := refines.landed ok.noFiles land
  obtain rfl := Option.some.inj (starts'.symm.trans starts)
  obtain ⟨rfl, rfl⟩ := Prod.mk.inj (Option.some.inj (arrived'.symm.trans arrived))
  obtain ⟨k, finds⟩ := (ends.dirShown holds).finds path
  obtain ⟨q, sub, st', found, dir, rfl⟩ := ends
  have named : named fs.node j' path = some e :=
    congrArg Prod.fst (Option.some.inj (finds.symm.trans scanned))
  rw [← holds.named_eq found] at named
  obtain ⟨member, _⟩ := holds.lookup_proper found named ok.notDot ok.notDotDot
  obtain ⟨inner, st₁, below, child, _⟩ := holds.child found member (ok.onlyDirs j' e land named)
  obtain rfl := Option.some.inj (child.read.symm.trans read)
  rw [holds.named_eq found] at named
  cases inner with
  | nil => exact absurd (UInt32.toNat_inj.mp (child.size_eq.trans (by decide))) full
  | cons f rest => exact .rmdirFull starts arrived named below

theorem Refines.rmdir (refines : Refines s own fs) (ok : RmdirOk s.fs path)
    (run : s.step (.rmdir path) = some (r, s')) : Simulated fs (.rmdir path) r s' := by
  obtain ⟨code, s₁, removes, rfl, rfl⟩ := Session.global_some run
  have sound := refines.sound
  have holds := sound.holds
  rcases holds.rmdir sound.home ok.noFiles ok.whole ok.notDot ok.notDotDot ok.onlyDirs removes with
    ⟨rfl, rfl⟩ | ⟨rfl, i, p, es, v', found, land, missing, rfl, confined, after⟩ |
    ⟨rfl, i, p, es, e, ptr, v', land, rfl, removed⟩
  · exact ⟨own, fs, refines.rmdir_refused ok removes, refines⟩
  · obtain ⟨start, starts, arrived⟩ := refines.landed ok.noFiles land
    rw [holds.named_eq found] at missing
    have mirrors : Mirrors { s.fs with vol := v' } own fs := by
      refine ⟨sound.next after confined.next sound.home fun n _ => .inl rfl, ?_, refines.globals.host⟩
      refine refines.globals.files.kept sound (confined.sameFiles holds fun j mine file => ?_) rfl rfl
        fun _ => id
      rw [mine, found] at file
      cases file
    exact ⟨own, fs, .rmdirNothing starts arrived missing, refines.keep mirrors rfl rfl rfl fun _ => id⟩
  · obtain ⟨start, starts, arrived⟩ := refines.landed ok.noFiles land
    have named : named fs.node i path = some e := by
      rw [← holds.named_eq removed.found, ← removed.name]
      exact holds.lookup_member removed.found removed.member
    have leave : fs.leave i e =
        { fs with node := NameTree.erase scheme fs.node i p es e } := by
      rw [FileSystem.leave, removed.found]
    have mirrors : Mirrors { s.fs with vol := v' } (own.drop ptr) (fs.leave i e) := by
      rw [leave]
      refine ⟨removed.sound sound, ?_, refines.globals.host⟩
      exact refines.globals.files.kept sound (sound.rmdir_files ok removes) rfl rfl fun j file =>
        NameTree.erase_file (S := scheme) file
    refine ⟨own.drop ptr, _, .rmdir starts arrived named removed.empty,
      refines.keep mirrors rfl rfl (by rw [leave]) ?_⟩
    rw [leave]
    exact (removed.next holds.ledger).files

theorem cncreat_first {s s' : Fs} {d d' : DirPtr} (ledger : Ledger s.vol own)
    (left : Pool.inode.free s.vol ≠ 0) (run : cncreat d name s = some (0, d', s')) :
    ∃ n rest, freeList .inode s.vol = n :: rest ∧
      s'.vol.inodeBmCache = setBit s.vol.inodeBmCache n.toNat := by
  obtain ⟨n, rest, free⟩ := ledger.head left
  refine ⟨n, rest, free, ?_⟩
  obtain ⟨⟨found, d₁⟩, _, run⟩ := Option.bind_eq_some_iff.mp run
  cases found with
  | some i => cases run
  | none =>
    obtain ⟨⟨m, d₂, s₁⟩, appended, run⟩ := Option.bind_eq_some_iff.mp run
    obtain ⟨d, written, run⟩ := Option.bind_eq_some_iff.mp run
    cases run
    rw [appendEntry, reserveInode, reserve_head (ledger.agrees .inode) free] at appended
    simp only [Option.bind_eq_bind, Option.bind_some, timeNull] at appended
    obtain ⟨data, stored, appended⟩ := Option.bind_eq_some_iff.mp appended
    obtain ⟨d, written, appended⟩ := Option.bind_eq_some_iff.mp appended
    obtain ⟨⟨c, d'⟩, flushed, appended⟩ := Option.bind_eq_some_iff.mp appended
    cases appended
    rfl

theorem NewFile.empty {s s' : Fs} {d : DirPtr} (new : NewFile s own node i name d s' own' p es e) :
    contentOf s'.vol.disk e.inode = some [] := by
  obtain ⟨t, read⟩ := new.inode
  obtain ⟨st, there⟩ := new.entered.holds.files e.inode (insert_newFile new.kind)
  obtain rfl := Option.some.inj (there.read.symm.trans read)
  exact there.contentOf_eq new.entered.confined.ledger

/-- The file `name` with the inode `n` is new in a directory, and its handle shows it. -/
structure FileMade (s : Fs) (own : Owner) (fs : FileSystem) (held : Snapshot) (n : Iptr) (name : Name)
    (d : DirPtr) (s' : Fs) (own' : Owner) : Prop where
  missing : held.shows.find? (fun e => e.name = name) = none
  fresh : FreshId fs.node n
  new : ∃ p es, NewFile s own fs.node held.dir name d s' own' p es (newEntry n ITYPE_FILE name)
  mirrors : Mirrors s' own' (fs.enter held.dir (newEntry n ITYPE_FILE name))

theorem Mirrors.creat {s s' : Fs} {d d' : DirPtr} (mirrors : Mirrors s own fs)
    (shown : DirShown fs.node d held) (ok : CreatOk s d name)
    (run : cncreat d name s = some (code, d', s')) :
    (∃ e, held.shows.find? (fun e => e.name = name) = some e ∧ code = -1 ∧ s' = s ∧
      DirShown fs.node d' held) ∨
    code = 0 ∧ ∃ n own', FileMade s own fs held n name d' s' own' := by
  have sound := mirrors.sound
  obtain ⟨k, stat⟩ := shown.stat name
  rcases sound.creat ok run with ⟨rfl, rfl, id, stat'⟩ |
    ⟨own', p, es, e, next, rfl, stat', new, after⟩
  · rw [stat, Option.some.injEq, Prod.mk.injEq] at stat'
    obtain ⟨found, rfl⟩ := stat'
    obtain ⟨e, found, _⟩ := Option.map_eq_some_iff.mp found
    exact .inl ⟨e, found, rfl, rfl, shown.reindex⟩
  · have left := (ok.missing next stat').2.2
    rw [stat, Option.some.injEq, Prod.mk.injEq, Option.map_eq_none_iff] at stat'
    obtain ⟨n, rest, free, inodeBm⟩ := cncreat_first sound.holds.ledger left run
    obtain ⟨fresh, record⟩ := new.entered.fresh_entry sound.holds free inodeBm
    rw [new.kind, new.named] at record
    rw [shown.dir] at new
    have made := mirrors.enter new.entered new.state fun _ => new.empty
    rw [record] at made new
    exact .inr ⟨rfl, e.inode, own', stat'.1, fresh, ⟨p, es, new⟩, made⟩

section
variable {s₀ s₁ : Fs} {d : DirPtr} {held : Snapshot} {name : Name}

theorem FileMade.parent (made : FileMade s₀ own fs held n name d s₁ own') (sound : Sound s₀ own fs.node) :
    ∃ p es, (fs.enter held.dir (newEntry n ITYPE_FILE name)).node held.dir = some (.dir p es) := by
  obtain ⟨p, es, new⟩ := made.new
  rw [FileSystem.enter_eq new.entered.found]
  exact ⟨p, _, new.parent sound⟩

theorem FileMade.shown (made : FileMade s₀ own fs held n name d s₁ own') (sound : Sound s₀ own fs.node) :
    DirShown (fs.enter held.dir (newEntry n ITYPE_FILE name)).node d
      ⟨held.dir, recordsOf (fs.enter held.dir (newEntry n ITYPE_FILE name)).node held.dir⟩ := by
  obtain ⟨p, es, new⟩ := made.new
  have after := made.mirrors.sound.holds
  rw [FileSystem.enter_eq new.entered.found] at after ⊢
  obtain ⟨st, _, handleOf⟩ := new.shows
  exact handleOf.dirShown after (new.parent sound)

theorem FileMade.files (made : FileMade s₀ own fs held n name d s₁ own') (sound : Sound s₀ own fs.node) :
    ∀ j, fs.node j = some .file →
      (fs.enter held.dir (newEntry n ITYPE_FILE name)).node j = some .file := by
  obtain ⟨p, es, new⟩ := made.new
  rw [FileSystem.enter_eq new.entered.found]
  exact (new.entered.next sound.holds).files

theorem FileMade.named (made : FileMade s₀ own fs held n name d s₁ own') (sound : Sound s₀ own fs.node) :
    (recordsOf (fs.enter held.dir (newEntry n ITYPE_FILE name)).node held.dir).find?
      (fun e => e.name = name) = some (newEntry n ITYPE_FILE name) := by
  obtain ⟨p, es, there⟩ := made.parent sound
  obtain ⟨_, _, new⟩ := made.new
  have lookup_eq : lookup s₁.vol.disk held.dir name = _ := made.mirrors.sound.holds.named_eq there
  rw [← CdnwSh.named, ← lookup_eq]
  exact new.entered.lookup sound.holds

/-- Besides the volume nothing changes. -/
structure SameButVol (s : Fs) (fs : FileSystem) (s' : Fs) (fs' : FileSystem) : Prop where
  cwd : s'.cwd = s.cwd
  fdTbl : s'.fdTbl = s.fdTbl
  fdBm : s'.fdBm = s.fdBm
  dirs : fs'.dirs = fs.dirs
  fds : fs'.files.fds = fs.files.fds
  host : fs'.host = fs.host

theorem FileMade.same (made : FileMade s₀ own fs held n name d s₁ own') :
    SameButVol s₀ fs s₁ (fs.enter held.dir (newEntry n ITYPE_FILE name)) := by
  obtain ⟨p, es, new⟩ := made.new
  rw [new.state, FileSystem.enter_eq new.entered.found]
  exact ⟨rfl, rfl, rfl, rfl, rfl, rfl⟩

theorem FileMade.isFile (made : FileMade s₀ own fs held n name d s₁ own') :
    (fs.enter held.dir (newEntry n ITYPE_FILE name)).node n = some .file := by
  obtain ⟨p, es, new⟩ := made.new
  rw [FileSystem.enter_eq new.entered.found]
  exact insert_newFile new.kind

end

theorem Refines.creat (refines : Refines s own fs) (ok : ∀ d, s.dir h = some d → CreatOk s.fs d name)
    (run : s.step (.creat h name) = some (r, s')) : Simulated fs (.creat h name) r s' := by
  obtain ⟨d, here, run⟩ := Option.bind_eq_some_iff.mp run
  obtain ⟨⟨code, d', s₁⟩, creates, run⟩ := Option.bind_eq_some_iff.mp run
  cases run
  obtain ⟨held, shows, shown⟩ := refines.held here
  have sound := refines.sound
  rcases refines.globals.creat shown (ok d here) creates with
    ⟨e, found, rfl, rfl, after⟩ | ⟨rfl, n, own', made⟩
  · refine ⟨own, fs, .creatFails shows found, refines.setDir refines.globals after rfl (fun cwd => ?_)
      (Function.update_eq_self_iff.mpr shows.symm).symm fun _ => id⟩
    subst cwd
    obtain ⟨p, es, there⟩ := sound.home d here
    exact ⟨p, es, shown.dir ▸ there⟩
  · have same := made.same
    have globals := made.mirrors
    refine ⟨own', _, .creat shows made.missing made.fresh, ?_⟩
    have created : Mirrors s₁ own' (fs.create h held.dir n name) :=
      ⟨globals.sound, globals.files, globals.host⟩
    exact refines.setDir created (made.shown sound) same.cwd (fun _ => made.parent sound)
      (congrArg (Function.update · h _) same.dirs) (made.files sound)

theorem Refines.umount (refines : Refines s own fs) (released : Released s.fs)
    (run : s.step .umount = some (r, s')) : Simulated fs .umount r s' := by
  obtain ⟨code, s₁, unmounts, rfl, rfl⟩ := Session.global_some run
  have sound := refines.sound
  obtain ⟨rfl, reloaded, after, cwd, tbl⟩ := sound.umount unmounts
  have files : FilesShown s₁ fs.node fs.files :=
    refines.globals.files.kept sound (reloaded.remounted sound.holds).files tbl
      (cnumount_table unmounts).fdBm fun _ => id
  have host : s₁.host = s.fs.host := by
    obtain ⟨_, _, rfl⟩ := cnumount_eq unmounts
    rfl
  obtain ⟨_, closes, _⟩ := Option.bind_eq_some_iff.mp unmounts
  obtain ⟨_, here⟩ := released.here closes
  obtain ⟨held, shows, _⟩ := refines.held (h := .cwd) here
  refine ⟨own, _, .umount shows, refines.moved (h := .cwd)
    ⟨after, files, refines.globals.host.trans host.symm⟩ (fun k apart => ?_) ?_ rfl fun _ => id⟩
  · cases k with
    | cwd => exact absurd rfl apart
    | held k => rfl
  · change Option.Rel _ s₁.cwd none
    rw [cwd]
    exact .none

/-- The tree and the files that a disk holds. -/
structure OnDisk (s : Fs) (own : Owner) (fs : FileSystem) : Prop where
  holds : Holds (.loaded s.vol.disk) own fs.node
  magic : magic (s.vol.disk 0) = FS_MAGIC
  content : ∀ i, fs.node i = some .file → contentOf s.vol.disk i = some (fs.files.content i)
  host : fs.host = s.host

/-- All of a sound state but its descriptors and handles is on its disk. -/
theorem Mirrors.onDisk {s : Fs} (mirrors : Mirrors s own fs) : OnDisk s own fs := by
  have synced := mirrors.sound.synced
  have reloaded : Reloaded s.vol (.loaded s.vol.disk) :=
    ⟨fun _ _ => rfl, synced.superblk, synced.blockBm, synced.inodeBm, loaded_synced⟩
  refine ⟨mirrors.sound.holds.reload reloaded, Eq.trans ?_ mirrors.sound.magic, mirrors.files.content,
    mirrors.host⟩
  exact reloaded.superblk.field (.inl (by decide)) (by decide)

theorem cnmount_host {s s' : Fs} (run : cnmount s = some (code, s')) : s'.host = s.host := by
  rw [cnmount_reset] at run
  obtain ⟨cwd, _, same⟩ := Option.map_eq_some_iff.mp run
  cases same
  rfl

/-- A mount brings back what the disk holds, with the root directory as `cwd` and nothing open. -/
theorem OnDisk.mount {s s' : Fs} (stored : OnDisk s own fs) (run : cnmount s = some (code, s')) :
    code = 0 ∧ Mirrors s' own (fs.withFiles ⟨fs.files.content, fun _ => none⟩) ∧
      ∃ d, s'.cwd = some d ∧ DirShown fs.node d ⟨0, recordsOf fs.node 0⟩ := by
  have host := cnmount_host run
  have closed := (cnmount_noneOpen run).agrees
  rw [← cnmount_loaded] at run
  obtain ⟨done, _, sound, ⟨d, here, q, es, st, found, dir, rfl⟩, disk, tbl⟩ :=
    stored.holds.mount loaded_synced stored.magic run
  have files : FilesShown s' fs.node ⟨fs.files.content, fun _ => none⟩ := by
    refine ⟨fun i file => ?_, fun n _ => ?_, fun n d found => ?_, ⟨fun m n d e found => ?_,
      fun n d found => ?_⟩, closed⟩
    · rw [disk]
      exact stored.content i file
    · rw [tbl]
      rfl
    all_goals cases found
  exact ⟨done, ⟨sound, files, stored.host.trans host.symm⟩, _, here, dir.handleOf.dirShown sound.holds found⟩

theorem Refines.mount (refines : Refines s own fs) (run : s.step .mount = some (r, s')) :
    Simulated fs .mount r s' := by
  obtain ⟨code, s₁, mounts, rfl, rfl⟩ := Session.global_some run
  obtain ⟨rfl, mirrors, d, here, shown⟩ := refines.globals.onDisk.mount mounts
  refine ⟨own, _, .mount, refines.moved (h := .cwd) ⟨mirrors.sound, mirrors.files, mirrors.host⟩
    (fun k apart => ?_) ?_ rfl fun _ => id⟩
  · cases k with
    | cwd => exact absurd rfl apart
    | held k => rfl
  · change Option.Rel _ s₁.cwd _
    rw [here]
    exact .some shown

end
end CdnwSh
