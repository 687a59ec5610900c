import CdnwSh.Sound

/-! Directory commands on a mounted file system, each with the condition under which it
keeps the invariant: `cnmkdir`, `cnrmdir`, `cncd` and `cncreat`. -/
namespace CdnwSh

open ByteMemory RecordList

variable [InodeLayout]

/-- The path enters no regular file, and a create branch finds an inode and a block. -/
structure MkdirOk (s : Fs) (path : Name) : Prop where
  text : 0 ∉ path
  noFiles : ∀ cwd, s.cwd = some cwd → NoFilesMkdir s.vol.disk cwd.inodeId (strtok path)
  left : ∀ cwd, s.cwd = some cwd → mkdirTarget s.vol.disk cwd.inodeId (strtok path) ≠ none →
    Pool.inode.free s.vol ≠ 0 ∧ Pool.block.free s.vol ≠ 0

/-- The walk to the parent enters no regular file and finds all its components, and a record
with the given name is a directory other than "." and "..". -/
structure RmdirOk (s : Fs) (path : Name) : Prop where
  noFiles : PathOk s (parentPath path)
  whole : Whole s (parentPath path)
  notDot : path ≠ dot
  notDotDot : path ≠ dotDot
  onlyDirs : ∀ i e, landing s (parentPath path) = some i → lookup s.vol.disk i path = some e →
    e.fileType = ITYPE_DIR

/-- The handle shows what its directory holds on disk. -/
structure Current (v : Vol) (h : DirPtr) : Prop where
  used : bit v.inodeBmCache h.inodeId.toNat = true
  inode : ∃ st, inodeRead v.disk h.inodeId = some st ∧ st.type = ITYPE_DIR ∧
    { h.inodeSt with modified := st.modified } = st
  size : h.data.size = 4096
  shows : ∀ rs, listing v.disk h.inodeId = some rs →
    Tiles (entryAt h.data) DirEntry.entryLen 0 h.inodeSt.size.toNat rs

/-- A name that the handle does not show is created through a current handle, has at most
255 bytes and finds an inode. -/
structure CreatOk (s : Fs) (h : DirPtr) (name : Name) : Prop where
  text : 0 ∉ name
  missing : ∀ next, cnstat h name = some (none, next) →
    name.length ≤ 255 ∧ Current s.vol h ∧ Pool.inode.free s.vol ≠ 0

section
variable {s s' : Fs} {v : Vol} {own : Owner} {node : Nodes} {i p j k : Iptr} {es : List DirEntry}
  {st : Inode} {h : DirPtr}

theorem Current.handleOf (current : Current v h) (holds : Holds v own node) :
    ∃ p es st, node h.inodeId = some (.dir p es) ∧
      DirAt v.disk own h.inodeId st (records h.inodeId p es) ∧
      HandleOf h h.inodeId st (records h.inodeId p es) := by
  obtain ⟨i, same, live⟩ := holds.exact_inodes _ current.used
  obtain rfl := UInt32.toNat_inj.mp same
  obtain ⟨st, read, type, inode⟩ := current.inode
  obtain ⟨p, es, found⟩ := holds.dir_node live read type
  obtain ⟨st', dir⟩ := holds.dirs _ _ _ found
  obtain rfl := Option.some.inj (read.symm.trans dir.read)
  have size : h.inodeSt.size = st.size := by rw [← inode]
  exact ⟨p, es, st, found, dir, rfl, inode, current.size,
    size ▸ current.shows _ (dir.listing_eq holds.ledger)⟩

theorem HandleOf.current (handleOf : HandleOf h i st (records i p es)) (holds : Holds v own node)
    (found : node i = some (.dir p es)) (dir : DirAt v.disk own i st (records i p es)) :
    Current v h := by
  have id := handleOf.inodeId
  refine ⟨?_, ⟨st, ?_, dir.type, handleOf.inode⟩, handleOf.size, fun rs listed => ?_⟩
  · rw [id]
    exact (holds.inodes i (by rw [found]; simp)).2
  · rw [id]
    exact dir.read
  · rw [id] at listed
    obtain rfl := Option.some.inj (listed.symm.trans (dir.listing_eq holds.ledger))
    rw [handleOf.field.1]
    exact handleOf.tiles

theorem Opened.current (opened : Opened v own node j k h) (holds : Holds v own node) :
    Current v h := by
  obtain ⟨q, fs, st, found, dir, rfl⟩ := opened
  exact (dir.handleOf.reindex (k := k)).current holds found dir

/-- The regular files a handle shows are regular files of the tree. -/
def Shown (node : Nodes) (h : DirPtr) : Prop :=
  ∃ rs, DirPtr.Lists { h with index := 0 } rs ∧
    ∀ e ∈ rs, e.fileType = ITYPE_FILE → node e.inode = some .file

omit [InodeLayout] in
theorem Shown.reindex (shown : Shown node h) : Shown node { h with index := k } := shown

omit [InodeLayout] in
theorem Shown.mono (shown : Shown node h)
    (files : ∀ j, node j = some .file → node' j = some .file) : Shown node' h := by
  obtain ⟨rs, lists, shows⟩ := shown
  exact ⟨rs, lists, fun e member isFile => files _ (shows e member isFile)⟩

theorem HandleOf.shown (current : HandleOf h i st (records i p es)) (holds : Holds v own node)
    (found : node i = some (.dir p es)) : Shown node h := by
  refine ⟨records i p es, ?_, fun e member isFile => ?_⟩
  · unfold DirPtr.Lists
    rw [current.field.1]
    exact current.tiles
  · rcases List.mem_cons.mp member with rfl | member
    · exact absurd isFile (show ITYPE_DIR ≠ ITYPE_FILE by decide)
    · rcases List.mem_cons.mp member with rfl | member
      · exact absurd isFile (show ITYPE_DIR ≠ ITYPE_FILE by decide)
      · refine holds.tree.leaf i e (.of found member) (decide_eq_false ?_)
        rw [isFile]
        decide

theorem Opened.shown (opened : Opened v own node j k h) (holds : Holds v own node) :
    Shown node h := by
  obtain ⟨q, fs, st, found, dir, rfl⟩ := opened
  exact (dir.handleOf.reindex (k := k)).shown holds found

/-- A new entry keeps the working directory and every descriptor. -/
theorem Sound.entered (sound : Sound s own node) (entered : Entered s.vol own node i p es e s'.vol own')
    (cwd : s'.cwd = s.cwd) (fds : s'.fdTbl = s.fdTbl) :
    Sound s' own' (NameTree.insert scheme node i p es e (newNode i e)) := by
  refine sound.next entered.holds (entered.next sound.holds) (fun dir same => ?_)
    fun n _ => .inl (by rw [fds])
  rw [cwd] at same
  obtain ⟨q, fs, before⟩ := sound.home dir same
  obtain ⟨more, after⟩ := entered.grown sound.holds _ _ _ before
  exact ⟨q, _, after⟩

theorem Sound.mkdir (sound : Sound s own node) (ok : MkdirOk s path)
    (run : cnmkdir path s = some (code, s')) :
    (code = -1 ∧ s' = s) ∨
    ∃ cwd j q fs e own', s.cwd = some cwd ∧ code = 0 ∧
      mkdirTarget s.vol.disk cwd.inodeId (strtok path) = some (j, e.name) ∧
      e.fileType = ITYPE_DIR ∧ s'.fdTbl = s.fdTbl ∧ s'.cwd = s.cwd ∧
      Entered s.vol own node j q fs e s'.vol own' ∧
      Sound s' own' (NameTree.insert scheme node j q fs e (newNode j e)) := by
  obtain ⟨cwd, here, _⟩ := Option.bind_eq_some_iff.mp run
  obtain ⟨p, es, found⟩ := sound.home cwd here
  rcases sound.holds.mkdir here found ok.text (ok.noFiles cwd here) (ok.left cwd here) run with
    ⟨_, failed⟩ | ⟨j, q, fs, e, v', own', t, target, done, rfl, isDir, entered⟩
  · exact .inl failed
  refine .inr ⟨cwd, j, q, fs, e, own', here, done, target, isDir, rfl, rfl, entered, ?_⟩
  exact sound.entered entered rfl rfl

theorem Sound.rmdir (sound : Sound s own node) (ok : RmdirOk s path)
    (run : cnrmdir path s = some (code, s')) :
    (code = -1 ∧ s' = s) ∨
    (code = 0 ∧ s'.fdTbl = s.fdTbl ∧ s'.cwd = s.cwd ∧ Sound s' own node ∧
      ∃ i p es, node i = some (.dir p es) ∧ Confined s.vol own (· = i) s'.vol own) ∨
    (code = 0 ∧ s'.fdTbl = s.fdTbl ∧ s'.cwd = s.cwd ∧
      ∃ i p es e ptr, Removed s own node path i p es e ptr s'.vol ∧
        Sound s' (own.drop ptr) (NameTree.erase scheme node i p es e)) := by
  rcases sound.holds.rmdir sound.home ok.noFiles ok.whole ok.notDot ok.notDotDot ok.onlyDirs run with
    failed | ⟨done, i, p, es, v', found, _, _, rfl, confined, holds⟩ |
    ⟨done, i, p, es, e, ptr, v', _, rfl, removed⟩
  · exact .inl failed
  · exact .inr (.inl ⟨done, rfl, rfl,
      sound.next holds confined.next sound.home fun n _ => .inl rfl, i, p, es, found, confined⟩)
  · refine .inr (.inr ⟨done, rfl, rfl, i, p, es, e, ptr, removed, ?_⟩)
    refine sound.next removed.holds (removed.next sound.holds.ledger) (fun dir same => ?_)
      fun n _ => .inl rfl
    obtain ⟨q, fs, before⟩ := sound.home dir same
    have apart : dir.inodeId ≠ e.inode := by
      obtain ⟨cwd, here, stands⟩ := removed.here
      obtain rfl := Option.some.inj (here.symm.trans same)
      rw [stands]
      exact (sound.holds.tree.target_ne (.of removed.found removed.member)).symm
    obtain ⟨fs', after⟩ := removed.dirs before apart
    exact ⟨q, fs', after⟩

theorem Sound.opendir (sound : Sound s own node) (ok : PathOk s path)
    (run : cnopendir s path = some (some h)) : ∃ j k, Opened s.vol own node j k h :=
  (sound.holds.opendir sound.home ok run).1 h rfl

theorem Opened.dirNode (opened : Opened v own node j k h) :
    ∃ p es, node h.inodeId = some (.dir p es) := by
  obtain ⟨q, fs, st, found, _, rfl⟩ := opened
  exact ⟨q, fs, found⟩

theorem Sound.cd (sound : Sound s own node) (ok : PathOk s path)
    (run : cncd path s = some (code, s')) :
    Sound s' own node ∧ ((code = -1 ∧ s' = s) ∨
      ∃ h j k, code = 0 ∧ Opened s.vol own node j k h ∧
        s' = { s with cwdStr := path, cwd := some h }) := by
  obtain ⟨r, opened, run⟩ := Option.bind_eq_some_iff.mp run
  cases r with
  | none =>
    cases run
    exact ⟨sound, .inl ⟨rfl, rfl⟩⟩
  | some h =>
    obtain ⟨_, _, run⟩ := Option.bind_eq_some_iff.mp run
    cases run
    obtain ⟨j, k, shows⟩ := sound.opendir ok opened
    refine ⟨⟨sound.holds, sound.synced, sound.magic, fun dir same => ?_, sound.copies⟩,
      .inr ⟨h, j, k, rfl, shows, rfl⟩⟩
    cases same
    exact shows.dirNode

/-- A new empty file, as `cncreat` leaves it in the directory and in the handle. -/
structure NewFile (s : Fs) (own : Owner) (node : Nodes) (i : Iptr) (name : Name) (h' : DirPtr)
    (s' : Fs) (own' : Owner) (p : Iptr) (es : List DirEntry) (e : DirEntry) : Prop where
  entered : Entered s.vol own node i p es e s'.vol own'
  named : e.name = name
  kind : e.fileType = ITYPE_FILE
  state : s' = { s with vol := s'.vol, ticks := s'.ticks }
  shows : ∃ st, DirAt s'.vol.disk own' i st (records i p (es ++ [e])) ∧
    HandleOf h' i st (records i p (es ++ [e]))
  inode : ∃ t, inodeRead s'.vol.disk e.inode = some (newInode ITYPE_FILE t)
  blocks : freeList .block s'.vol = freeList .block s.vol

theorem Sound.creat (sound : Sound s own node) (ok : CreatOk s h name)
    (run : cncreat h name s = some (code, h', s')) :
    (code = -1 ∧ s' = s ∧ ∃ id, cnstat h name = some (some id, h')) ∨
    ∃ own' p es e next, code = 0 ∧ cnstat h name = some (none, next) ∧
      NewFile s own node h.inodeId name h' s' own' p es e ∧
      Sound s' own' (NameTree.insert scheme node h.inodeId p es e (newNode h.inodeId e)) := by
  obtain ⟨⟨found, next⟩, stat, rest⟩ := Option.bind_eq_some_iff.mp run
  cases found with
  | some id =>
    cases rest
    exact .inl ⟨rfl, rfl, id, stat⟩
  | none =>
    obtain ⟨short, current, left⟩ := ok.missing next stat
    obtain ⟨p, es, st, found, dir, handleOf⟩ := current.handleOf sound.holds
    obtain ⟨k, stat', _⟩ := handleOf.stat sound.holds found name
    have missing : lookup s.vol.disk h.inodeId name = none := by
      rw [stat] at stat'
      simp only [Option.some.injEq, Prod.mk.injEq] at stat'
      exact Option.map_eq_none_iff.mp stat'.1.symm
    rcases sound.holds.creat found dir handleOf ok.text short (fun _ => left) run with
      ⟨given, _⟩ | ⟨e, v', own', t, st', named, done, rfl, isFile, entered, dir', handle', back, blocks⟩
    · exact absurd missing given
    refine .inr ⟨own', p, es, e, next, done, stat,
      ⟨entered, named, isFile, rfl, ⟨st', dir', handle'⟩, ⟨_, back⟩, blocks⟩, ?_⟩
    exact sound.entered entered rfl rfl

end
end CdnwSh
