import CdnwSh.FileSystem
import CdnwSh.FullDirectory
import CdnwSh.RmdirExact
import CdnwSh.TableRestored
import CdnwSh.TypeSafety

/-! How a session shows a `FileSystem`: the paths on disk and in the tree, the handles, the
regular files and the descriptors. -/
namespace CdnwSh

open ByteMemory RecordList FileStore

section
variable [InodeLayout] {s s' : Fs} {v v' : Vol} {own own' : Owner} {node : Nodes} {i j p : Iptr}
  {es : List DirEntry} {st : Inode}

omit [InodeLayout] in
theorem recordsOf_dir (found : node i = some (.dir p es)) : recordsOf node i = records i p es := by
  rw [recordsOf, found]

theorem Holds.named_eq (holds : Holds v own node) (found : node i = some (.dir p es)) :
    lookup v.disk i tok = named node i tok := by
  rw [holds.lookup_eq found, named, recordsOf_dir found]

/-- The walk of `cnmkdir` on disk and in the tree. -/
theorem Holds.newPlace_eq (holds : Holds v own node) (found : node i = some (.dir p es))
    (noFiles : NoFilesMkdir v.disk i toks) : mkdirTarget v.disk i toks = newPlace node i toks := by
  induction toks generalizing i p es with
  | nil => rfl
  | cons tok rest ih =>
    rw [mkdirTarget, newPlace, ← holds.named_eq found]
    cases named : lookup v.disk i tok with
    | some e =>
      by_cases last : rest = []
      · simp only [last, if_true]
      · have inner := noFiles last
        rw [named] at inner
        obtain ⟨q, fs, st, sub, _⟩ := holds.component found named inner.1
        simp only [last, if_false]
        exact ih sub inner.2
    | none =>
      by_cases last : rest = []
      · simp only [last, if_true]
      · have inner := noFiles last
        rw [named] at inner
        simp only [last, if_false]
        exact ih found inner

/-- Where `cnopendir` ends: at a fresh handle of the directory the path leads to, or at the end
of the last one it found. -/
def EndsAt (v : Vol) (own : Owner) (node : Nodes) (place : Iptr × Bool) (h : DirPtr) : Prop :=
  ∃ q fs st, node place.1 = some (.dir q fs) ∧ DirAt v.disk own place.1 st (records place.1 q fs) ∧
    h = { handle v.disk place.1 st with index := if place.2 then 0 else st.size }

theorem EndsAt.opened (ends : EndsAt v own node place h) : ∃ k, Opened v own node place.1 k h := by
  obtain ⟨q, fs, st, found, dir, same⟩ := ends
  exact ⟨_, q, fs, st, found, dir, same⟩

theorem Holds.openWalk_descend (holds : Holds v own node) (found : node i = some (.dir p es))
    (dir : DirAt v.disk own i st (records i p es)) (noFiles : NoFiles v.disk i toks) :
    ∃ h, openWalk v.disk toks (handle v.disk i st) i = some (some h) ∧
      EndsAt v own node (descend node i toks) h := by
  induction toks generalizing i p es st with
  | nil => exact ⟨_, rfl, p, es, st, found, dir, rfl⟩
  | cons tok rest ih =>
    obtain ⟨k, scanned, ended⟩ := dir.findName_eq holds.ledger tok
    rw [openWalk, scanned, descend, ← holds.named_eq found]
    simp only [Option.bind_eq_bind, Option.bind_some]
    cases named : lookup v.disk i tok with
    | none =>
      rw [named] at ended
      obtain rfl := ended rfl
      exact ⟨_, (if_pos rfl).trans (openWalk_end rfl rfl), p, es, st, found, dir, rfl⟩
    | some e =>
      rw [NoFiles, named] at noFiles
      obtain ⟨q, fs, st', sub, dir'⟩ := holds.component found named noFiles.1
      dsimp only
      rw [dir'.inflate holds.ledger, Option.bind_some]
      exact ih sub dir' noFiles.2

/-- The walk of `cnopendir` on disk and in the tree. -/
theorem Holds.openWalk_arrives (holds : Holds v own node) (found : node i = some (.dir p es))
    (dir : DirAt v.disk own i st (records i p es)) (noFiles : NoFiles v.disk i (tok :: rest))
    (apart : i ≠ loaded)
    (run : openWalk v.disk (tok :: rest) (handle v.disk i st) loaded = some r) :
    (arrives node i (tok :: rest) = none ∧ r = none) ∨
    ∃ place h, arrives node i (tok :: rest) = some place ∧ r = some h ∧ EndsAt v own node place h := by
  obtain ⟨k, scanned, ended⟩ := dir.findName_eq holds.ledger tok
  rw [openWalk, scanned] at run
  simp only [Option.bind_eq_bind, Option.bind_some] at run
  rw [arrives, ← holds.named_eq found]
  cases named : lookup v.disk i tok with
  | none =>
    rw [named] at run
    dsimp only at run
    rw [show (handle v.disk i st).inodeId = i from rfl, if_neg apart] at run
    cases run
    exact .inl ⟨rfl, rfl⟩
  | some e =>
    rw [named] at run
    rw [NoFiles, named] at noFiles
    obtain ⟨q, fs, st', sub, dir'⟩ := holds.component found named noFiles.1
    dsimp only at run
    rw [dir'.inflate holds.ledger, Option.bind_some] at run
    obtain ⟨h, walked, ends⟩ := holds.openWalk_descend sub dir' noFiles.2
    rw [walked] at run
    cases run
    exact .inr ⟨_, h, rfl, rfl, ends⟩

/-- `cnopendir` opens what the path leads to in the tree. -/
theorem Sound.opendir_arrives (sound : Sound s own node) (ok : PathOk s path)
    (run : cnopendir s path = some r) : ∃ i, walkStart s path = some i ∧
    ((arrives node i (walkToks path) = none ∧ r = none) ∨
      ∃ place h, arrives node i (walkToks path) = some place ∧ r = some h ∧
        EndsAt s.vol own node place h) := by
  obtain ⟨_, run⟩ : ¬ 256 ≤ path.length ∧ _ := by
    rw [cnopendir] at run
    split at run
    · cases run
    next short => exact ⟨short, run⟩
  obtain ⟨dir, begins, run⟩ := Option.bind_eq_some_iff.mp run
  have starts : ∃ i, walkStart s path = some i := by
    unfold startDir at begins
    unfold walkStart
    split at begins
    next absolute => exact ⟨0, if_pos absolute⟩
    next relative =>
      obtain ⟨cwd, here, _⟩ := Option.bind_eq_some_iff.mp begins
      exact ⟨cwd.inodeId, by rw [if_neg relative, here]; rfl⟩
  obtain ⟨i, starts⟩ := starts
  obtain ⟨q, fs, st, found, at_i, inflated⟩ := sound.holds.start_handle sound.home starts
  obtain rfl := Option.some.inj (begins.symm.trans inflated)
  have bound := (sound.holds.inodes i (by rw [found]; simp)).1
  refine ⟨i, starts, ?_⟩
  split at run
  next root =>
    cases run
    subst root
    exact .inr ⟨(i, true), _, rfl, rfl, q, fs, st, found, at_i, rfl⟩
  next =>
    have noFiles := ok i starts
    rw [← walkToks] at run
    cases toks : walkToks path with
    | nil =>
      rw [toks] at run
      obtain ⟨next, read, _⟩ := cnreaddir_next at_i.lists
      rw [read] at run
      cases run
    | cons tok rest =>
      rw [toks] at run noFiles
      exact sound.holds.openWalk_arrives found at_i noFiles
        (by rintro rfl; exact absurd bound (by decide)) run

end

def modeOf (writes : Bool) : UInt8 := if writes then FD_WRITE else FD_READ

/-- A handle is the directory that was read. What it shows as regular files still are. -/
structure DirShown (node : Nodes) (d : DirPtr) (held : Snapshot) : Prop where
  dir : d.inodeId = held.dir
  lists : DirPtr.Lists { d with index := 0 } held.shows
  text : ∀ e ∈ held.shows, 0 ∉ e.name
  files : ∀ e ∈ held.shows, e.fileType = ITYPE_FILE → node e.inode = some .file

section
variable [InodeLayout]

/-- Descriptor `n` of the table is `d`. The inode of a writing one is on disk. -/
structure FdShown (s : Fs) (n : Nat) (d : Descriptor Iptr UInt8) : Prop where
  state : (s.fdTbl n).state = modeOf d.writes
  file : (s.fdTbl n).inodeId = d.file
  view : cachedBytes (s.fdTbl n) = d.view
  cursor : (s.fdTbl n).cursor.toNat = d.cursor
  inode : d.writes = true → inodeRead s.vol.disk d.file = some (s.fdTbl n).inode

/-- The regular files and the descriptors. -/
structure FilesShown (s : Fs) (node : Nodes) (t : Files Iptr UInt8) : Prop where
  content : ∀ i, node i = some .file → contentOf s.vol.disk i = some (t.content i)
  free : ∀ n, t.fds n = none → (s.fdTbl n).state = FD_FREE
  fds : ∀ n d, t.fds n = some d → FdShown s n d
  exclusive : Exclusive t
  table : TableAgrees s

/-- The globals without the working directory. -/
structure Mirrors (s : Fs) (own : Owner) (fs : FileSystem) : Prop where
  sound : Sound s own fs.node
  files : FilesShown s fs.node fs.files
  host : fs.host = s.host

structure Refines (s : Session) (own : Owner) (fs : FileSystem) : Prop where
  globals : Mirrors s.fs own fs
  dirs : ∀ h, Option.Rel (DirShown fs.node) (s.dir h) (fs.dirs h)

section
variable {s s' : Fs} {own own' : Owner} {node node' : Nodes} {i j : Iptr} {st : Inode}
  {t : Files Iptr UInt8} {d : Descriptor Iptr UInt8} {n : Nat}

omit [InodeLayout] in
theorem modeOf_used (writes : Bool) : modeOf writes ≠ FD_FREE := by cases writes <;> decide

omit [InodeLayout] in
theorem DirShown.reindex {h : DirPtr} (shown : DirShown node h held) :
    DirShown node { h with index := k } held :=
  ⟨shown.dir, shown.lists, shown.text, shown.files⟩

omit [InodeLayout] in
theorem DirShown.mono {h : DirPtr} (shown : DirShown node h held)
    (files : ∀ j, node j = some .file → node' j = some .file) : DirShown node' h held :=
  ⟨shown.dir, shown.lists, shown.text, fun e member isFile => files _ (shown.files e member isFile)⟩

omit [InodeLayout] in
theorem DirShown.finds {h : DirPtr} (shown : DirShown node h held) (name : Name) :
    ∃ k, findName { h with index := 0 } name =
      some (held.shows.find? (fun e => e.name = name), { h with index := k }) := by
  obtain ⟨next, scanned, ⟨k, rfl⟩, _⟩ :
      ∃ next, findName { h with index := 0 } name = some (_, next) ∧ _ := findName_eq shown.lists
  have same : held.shows.find? (fun e => cstr e.name = name) =
      held.shows.find? (fun e => e.name = name) :=
    List.find?_congr fun e member => by rw [cstr_self (shown.text e member)]
  rw [same] at scanned
  exact ⟨k, scanned⟩

omit [InodeLayout] in
theorem DirShown.stat {h : DirPtr} (shown : DirShown node h held) (name : Name) :
    ∃ k, cnstat h name =
      some ((held.shows.find? (fun e => e.name = name)).map (·.inode), { h with index := k }) := by
  obtain ⟨k, scanned⟩ := shown.finds name
  refine ⟨k, ?_⟩
  rw [cnstat, scanned]
  rfl

omit [InodeLayout] in
theorem DirShown.shown {h : DirPtr} (shown : DirShown node h held) : Shown node h :=
  ⟨held.shows, shown.lists, shown.files⟩

theorem HandleOf.dirShown {v : Vol} {h : DirPtr} {p : Iptr} {es : List DirEntry}
    (current : HandleOf h i st (records i p es)) (holds : Holds v own node)
    (found : node i = some (.dir p es)) : DirShown node h ⟨i, recordsOf node i⟩ := by
  rw [recordsOf_dir found]
  obtain ⟨rs, lists, files⟩ := current.shown holds found
  have tiles : DirPtr.Lists { h with index := 0 } (records i p es) := by
    unfold DirPtr.Lists
    rw [current.field.1]
    exact current.tiles
  obtain rfl := Tiles.unique lists tiles
  exact ⟨current.inodeId, tiles, fun e member => (holds.records_text found member).1, files⟩

theorem EndsAt.dirShown {v : Vol} {h : DirPtr} {place : Iptr × Bool} (ends : EndsAt v own node place h)
    (holds : Holds v own node) : DirShown node h ⟨place.1, recordsOf node place.1⟩ := by
  obtain ⟨q, fs, st, found, dir, rfl⟩ := ends
  exact (dir.handleOf.reindex (k := _)).dirShown holds found

theorem DirShown.current {v : Vol} {h : DirPtr} (shown : DirShown node h held) (holds : Holds v own node)
    (current : Current v h) : ∃ p es st, node held.dir = some (.dir p es) ∧
      DirAt v.disk own held.dir st (records held.dir p es) ∧
      HandleOf h held.dir st (records held.dir p es) ∧ held.shows = records held.dir p es := by
  obtain ⟨p, es, st, found, dir, handleOf⟩ := current.handleOf holds
  rw [shown.dir] at found dir handleOf
  have lists := (handleOf.dirShown holds found).lists
  rw [recordsOf_dir found] at lists
  exact ⟨p, es, st, found, dir, handleOf, Tiles.unique shown.lists lists⟩

/-- The pool hands out the first number that is not in use. -/
theorem Holds.freshId {v : Vol} (holds : Holds v own node)
    (free : freeList .inode v = i :: rest) : FreshId node i := by
  have member : i ∈ freeList .inode v := by rw [free]; exact List.mem_cons_self
  have inside := (mem_freeList.mp member).1
  refine ⟨(holds.unowned member).2.1, fun j below => ?_⟩
  have used : bit v.inodeBmCache j.toNat = true := by
    by_contra clear
    have there : j ∈ freeList .inode v :=
      mem_freeList.mpr ⟨Nat.lt_trans below inside, by simpa [Pool.cache] using clear⟩
    have sorted := freeList_sorted (p := .inode) (v := v)
    rw [free] at sorted there
    rcases List.mem_cons.mp there with rfl | later
    · exact Nat.lt_irrefl _ below
    · have := (List.pairwise_cons.mp sorted).1 j later
      omega
  obtain ⟨k, same, live⟩ := holds.exact_inodes _ used
  obtain rfl := UInt32.toNat_inj.mp same
  exact live

/-- A new entry, with the first inode that was left. -/
theorem Entered.fresh_entry {v v' : Vol} {p : Iptr} {es : List DirEntry} {e : DirEntry}
    (entered : Entered v own node i p es e v' own') (holds : Holds v own node)
    (free : freeList .inode v = j :: rest) (inodeBm : v'.inodeBmCache = setBit v.inodeBmCache j.toNat) :
    FreshId node e.inode ∧ e = newEntry e.inode e.fileType e.name := by
  have handed := entered.handed free inodeBm
  refine ⟨handed ▸ holds.freshId free, ?_⟩
  have padded := entered.proper.sound.padded
  rw [newEntry, ← padded]

theorem FilesShown.used (shown : FilesShown s node t) (found : t.fds n = some d) :
    (s.fdTbl n).state ≠ FD_FREE := by
  rw [(shown.fds n d found).state]
  exact modeOf_used _

theorem FilesShown.file (shown : FilesShown s node t) (sound : Sound s own node)
    (found : t.fds n = some d) : node d.file = some .file := by
  rw [← (shown.fds n d found).file]
  exact (sound.copies n (shown.used found)).1

theorem Holds.sameFile (holds : Holds v own node) (same : SameFiles v v') (file : node i = some .file) :
    inodeRead v'.disk i = inodeRead v.disk i ∧ contentOf v'.disk i = contentOf v.disk i := by
  obtain ⟨st, there⟩ := holds.files i file
  exact same i (holds.inodes i (by rw [file]; simp)).2 ⟨st, there.read, there.type⟩

/-- A descriptor that is not touched, on a file that is not changed. -/
theorem FdShown.frame (shown : FdShown s n d) (entry : s'.fdTbl n = s.fdTbl n)
    (inode : d.writes = true → inodeRead s'.vol.disk d.file = inodeRead s.vol.disk d.file) :
    FdShown s' n d where
  state := by rw [entry]; exact shown.state
  file := by rw [entry]; exact shown.file
  view := by rw [entry]; exact shown.view
  cursor := by rw [entry]; exact shown.cursor
  inode := fun writes => by rw [entry, inode writes]; exact shown.inode writes

/-- A change of the volume that keeps the files, and may add an empty one. -/
theorem FilesShown.entered (shown : FilesShown s node t) (sound : Sound s own node)
    (same : SameFiles s.vol s'.vol) (tbl : s'.fdTbl = s.fdTbl) (bm : s'.fdBm = s.fdBm)
    (fresh : node i = none) (files : ∀ j, node' j = some .file →
      node j = some .file ∨ j = i ∧ contentOf s'.vol.disk i = some []) :
    FilesShown s' node' (t.fill i []) where
  content := fun j file => by
    rcases files j file with before | ⟨rfl, empty⟩
    · have apart : j ≠ i := by
        rintro rfl
        rw [fresh] at before
        cases before
      rw [Files.content_fill_other apart, (sound.holds.sameFile same before).2]
      exact shown.content j before
    · rw [Files.content_fill]
      exact empty
  free := fun n none => by rw [tbl]; exact shown.free n none
  fds := fun n d found => (shown.fds n d found).frame (by rw [tbl]) fun _ =>
    (sound.holds.sameFile same (shown.file sound found)).1
  exclusive := shown.exclusive.fill
  table := shown.table.same (fun n => by rw [tbl]) bm

theorem FilesShown.kept (shown : FilesShown s node t) (sound : Sound s own node)
    (same : SameFiles s.vol s'.vol) (tbl : s'.fdTbl = s.fdTbl) (bm : s'.fdBm = s.fdBm)
    (files : ∀ j, node' j = some .file → node j = some .file) : FilesShown s' node' t where
  content := fun j file => by
    rw [(sound.holds.sameFile same (files j file)).2]
    exact shown.content j (files j file)
  free := fun n none => by rw [tbl]; exact shown.free n none
  fds := fun n d found => (shown.fds n d found).frame (by rw [tbl]) fun _ =>
    (sound.holds.sameFile same (shown.file sound found)).1
  exclusive := shown.exclusive
  table := shown.table.same (fun n => by rw [tbl]) bm

theorem FilesShown.isFree (shown : FilesShown s node t) (bound : n < 1024) :
    IsFree s n ↔ t.fds n = none := by
  refine ⟨fun free => ?_, fun none => ⟨bound, shown.free n none⟩⟩
  cases found : t.fds n with
  | none => rfl
  | some d => exact absurd free.2 (shown.used found)

/-- With one left, the first free descriptor is taken. -/
theorem FilesShown.freshFd (shown : FilesShown s node t) (left : IsFree s m) :
    (findFreeBit s.fdBm).toNat < 1024 ∧ FreshFd t (findFreeBit s.fdBm).toNat := by
  obtain ⟨free, least⟩ := shown.table.least left
  refine ⟨free.1, (shown.isFree free.1).mp free, fun k below none => ?_⟩
  have := least ((shown.isFree (Nat.lt_trans below free.1)).mpr none)
  omega

theorem FilesShown.setFd {e : Option (Descriptor Iptr UInt8)} (shown : FilesShown s node t)
    (vol : s'.vol = s.vol) (others : ∀ k, k ≠ n → s'.fdTbl k = s.fdTbl k)
    (free : e = none → (s'.fdTbl n).state = FD_FREE) (mine : ∀ d, e = some d → FdShown s' n d)
    (exclusive : Exclusive (t.setFd n e)) (table : TableAgrees s') :
    FilesShown s' node (t.setFd n e) where
  content := fun j isFile => by rw [vol]; exact shown.content j isFile
  free := fun k none => by
    by_cases here : k = n
    · subst here
      exact free (Files.fds_setFd.symm.trans none)
    · rw [Files.fds_setFd_other here] at none
      rw [others k here]
      exact shown.free k none
  fds := fun k d found => by
    by_cases here : k = n
    · subst here
      exact mine d (Files.fds_setFd.symm.trans found)
    · rw [Files.fds_setFd_other here] at found
      exact (shown.fds k d found).frame (others k here) fun _ => by rw [vol]
  exclusive := exclusive
  table := table

theorem FilesShown.open (shown : FilesShown s node t) (file : node i = some .file) {writes : Bool}
    (run : openFd s i (modeOf writes) = some (fd, s')) (opened : FdOpened s i (modeOf writes) n st s')
    (sound : Sound s' own node)
    (only : writes = true → ∀ m d, t.fds m = some d → d.writes = true → d.file ≠ i) :
    FilesShown s' node (t.opened n i writes) := by
  have there := opened.fileAt sound file
  have vol : s'.vol = s.vol := by rw [opened.state]
  have content : contentOf s.vol.disk i = some (fileBytes s.vol.disk st) :=
    there.contentOf_eq (vol ▸ sound.holds.ledger)
  have same : t.content i = fileBytes s.vol.disk st :=
    Option.some.inj ((shown.content i file).symm.trans content)
  refine shown.setFd vol opened.others (fun none => by cases none) (fun d found => ?_)
    (shown.exclusive.set (Nat.zero_le _) fun writes' m d _ found => only writes' m d found)
    (openFd_agrees shown.table (modeOf_used _) run)
  cases found
  refine ⟨by rw [opened.entry], by rw [opened.entry], ?_, by rw [opened.entry]; rfl, fun _ => ?_⟩
  · rw [cachedBytes, opened.data, opened.entry, same]
    rfl
  · rw [vol, opened.entry]
    exact opened.read

theorem FilesShown.close (shown : FilesShown s node t) (run : cnclose fd s = some (code, s')) :
    ∃ n : Nat, fd = (n : Int) ∧ s'.vol = s.vol ∧
      ((t.fds n = none ∧ code = -1 ∧ s' = s) ∨
        t.fds n ≠ none ∧ code = 0 ∧ FilesShown s' node (t.setFd n none)) := by
  have agrees := cnclose_agrees shown.table run
  obtain ⟨n, slot, ⟨free, code, same⟩ | ⟨used, code, fdBm, _, same⟩⟩ := cnclose_eq run
  · obtain ⟨number, bound⟩ := fdSlot_eq slot
    exact ⟨n, number, by rw [same], .inl ⟨(shown.isFree bound).mp ⟨bound, free⟩, code, same⟩⟩
  · obtain ⟨number, bound⟩ := fdSlot_eq slot
    have mine : s'.fdTbl n = (s.fdTbl n).closed := by
      rw [same]
      exact setFd_same
    have vol : s'.vol = s.vol := by rw [same]; rfl
    refine ⟨n, number, vol, .inr ⟨fun none => used (shown.free n none), code, ?_⟩⟩
    refine shown.setFd vol (fun k apart => ?_) (fun _ => by rw [mine]; rfl) (fun d found => by cases found)
      shown.exclusive.close agrees
    rw [same]
    exact setFd_other apart

end
end
end CdnwSh
