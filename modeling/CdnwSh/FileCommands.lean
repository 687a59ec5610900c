import CdnwSh.Descriptors

/-! Commands that open files by name on a mounted file system: `cnopen`, `cncat`,
`cnimport` and `cnexport`. -/
namespace CdnwSh

open ByteMemory RecordList

variable [InodeLayout]

/-- The name is not a directory's, and creating it is safe. -/
structure OpenOk (s : Fs) (h : DirPtr) (name : Name) (mode : UInt8) : Prop where
  file : ∀ e next, findName { h with index := 0 } name = some (some e, next) →
    e.fileType = ITYPE_FILE
  creat : mode = FD_WRITE → CreatOk s h name

/-- The name is not that of a directory in the current one. -/
def FileName (s : Fs) (name : Name) : Prop :=
  ∀ cwd e, s.cwd = some cwd → lookup s.vol.disk cwd.inodeId name = some e → e.fileType = ITYPE_FILE

/-- The guest name is new, has at most 255 bytes and finds an inode, and the content of the
host file finds its blocks. -/
structure ImportOk (s : Fs) (hName gName : Name) : Prop where
  text : 0 ∉ gName
  short : gName.length ≤ 255
  inode : Pool.inode.free s.vol ≠ 0
  blocks : ∀ content, s.host.files hName = some content →
    newBlocks Inode.zero ((UInt32.ofNat content.length).toNat / 4096 + 1) ≤ Pool.block.free s.vol

/-- The outcomes of `cnopen`: no descriptor, a descriptor on a file that was there, or one
on a file that it created. -/
inductive OpenResult (s : Fs) (own : Owner) (node : Nodes) (h : DirPtr) (name : Name)
    (mode : UInt8) : Int → DirPtr → Fs → Prop where
  | failed : OpenResult s own node h name mode (-1) { h with index := k } s
  | found : cnstat h name = some (some i, h') → node i = some .file →
      FdOpened s i mode n st s' → Sound s' own node →
      OpenResult s own node h name mode (n : Int) h' s'
  | created : mode = FD_WRITE → cnstat h name = some (none, next) →
      NewFile s own node h.inodeId name h₁ s₁ own' p es e → FdOpened s₁ e.inode mode n st s' →
      Sound s' own' (NameTree.insert scheme node h.inodeId p es e (newNode h.inodeId e)) →
      OpenResult s own node h name mode (n : Int) { h₁ with index := k } s'

section
variable {s s' : Fs} {own : Owner} {node : Nodes} {i j k : Iptr} {h h' : DirPtr}

omit [InodeLayout] in
theorem findName_stat (found : cnstat h name = some (some number, h')) :
    ∃ e, findName { h with index := 0 } name = some (some e, h') ∧ e.inode = number := by
  obtain ⟨⟨entry, next⟩, scanned, rest⟩ := Option.bind_eq_some_iff.mp found
  cases entry with
  | none => cases rest
  | some e =>
    cases rest
    exact ⟨e, scanned, rfl⟩

omit [InodeLayout] in
theorem Shown.file (shown : Shown node h) (file : ∀ e next,
    findName { h with index := 0 } name = some (some e, next) → e.fileType = ITYPE_FILE)
    (found : cnstat h name = some (some number, h')) : node number = some .file := by
  obtain ⟨rs, lists, shows⟩ := shown
  obtain ⟨e, scanned, rfl⟩ := findName_stat found
  obtain ⟨h₁, same, _⟩ := findName_eq lists
  have isFile := file e h' scanned
  rw [scanned] at same
  simp only [Option.some.injEq, Prod.mk.injEq] at same
  exact shows e (List.mem_of_find?_eq_some same.1.symm) isFile

theorem Sound.openFile (sound : Sound s own node) (shown : Shown node h)
    (ok : OpenOk s h name mode) (run : cnopen h name mode s = some (fd, h', s')) :
    OpenResult s own node h name mode fd h' s' := by
  obtain ⟨⟨found, next⟩, stat, rest⟩ := Option.bind_eq_some_iff.mp run
  cases found with
  | some i =>
    obtain ⟨⟨fd₁, s₁⟩, opens, rest⟩ := Option.bind_eq_some_iff.mp rest
    cases rest
    have file := shown.file ok.file stat
    obtain ⟨n, st, rfl, opened, sound'⟩ := sound.openFd file opens
    exact .found stat file opened sound'
  | none =>
    obtain ⟨⟨code, h₁, s₁⟩, missing, tail⟩ := Option.bind_eq_some_iff.mp rest
    dsimp only at tail
    clear rest
    unfold createMissing at missing
    split at missing
    next write =>
      rcases sound.creat (h := next) ⟨(ok.creat write).text, fun next' stat' => by
          obtain ⟨k, rfl⟩ := cnstat_index stat
          rw [cnstat_rewind] at stat'
          obtain ⟨short, current, left⟩ := (ok.creat write).missing _ stat'
          exact ⟨short, ⟨current.used, current.inode, current.size, current.shows⟩, left⟩⟩ missing with
        ⟨_, _, id, again⟩ | ⟨own', p, es, e, _, rfl, _, new, sound₁⟩
      · rw [cnstat_again stat] at again
        cases again
      · obtain ⟨k, rfl⟩ := cnstat_index stat
        obtain ⟨st', dir, handleOf⟩ := new.shows
        have apart : h.inodeId ≠ e.inode :=
          (sound₁.holds.tree.target_ne (i := h.inodeId) (e := e) ((NameTree.entry_insert (S := scheme)
            new.entered.found (sound.holds.unowned new.entered.fresh).2.1 fun q fs same =>
              (newNode_dir same).2.2).mpr (.inr ⟨rfl, rfl⟩))).symm
        have parent : NameTree.insert scheme node h.inodeId p es e (newNode h.inodeId e) h.inodeId =
            some (.dir p (es ++ [e])) := NameTree.insert_parent (S := scheme) apart
        obtain ⟨k₁, stat₁, _⟩ := handleOf.stat sound₁.holds parent name
        have named := new.entered.lookup sound.holds
        rw [new.named] at named
        change lookup s₁.vol.disk h.inodeId name = some e at named
        rw [named] at stat₁
        rw [if_neg (by decide), stat₁] at tail
        simp only [Option.map_some, Option.bind_eq_bind, Option.bind_some] at tail
        obtain ⟨⟨fd₁, s₂⟩, opens, last⟩ := Option.bind_eq_some_iff.mp tail
        cases last
        have file : NameTree.insert scheme node h.inodeId p es e (newNode h.inodeId e) e.inode =
            some .file := insert_newFile new.kind
        obtain ⟨n, st, rfl, opened, sound'⟩ := sound₁.openFd file opens
        exact .created write stat new opened sound'
    next =>
      cases missing
      rw [if_neg (by decide), cnstat_again stat] at tail
      cases tail
      obtain ⟨k, rfl⟩ := cnstat_index stat
      exact .failed

theorem Sound.openDot (sound : Sound s own node) (run : cnopendir s dot = some r) :
    ∃ cwd h, s.cwd = some cwd ∧ r = some h ∧ Opened s.vol own node cwd.inodeId 0 h := by
  have relative : ¬ dot.head? = some slash := by decide
  cases here : s.cwd with
  | none =>
    rw [cnopendir, startDir, if_neg relative, here] at run
    split at run <;> cases run
  | some cwd =>
    obtain ⟨p, es, found⟩ := sound.home cwd here
    have starts : walkStart s dot = some cwd.inodeId := by
      rw [walkStart, if_neg relative, here]; rfl
    have toks : walkToks dot = [dot] := by decide
    have self : lookup s.vol.disk cwd.inodeId dot = some (dotEntry cwd.inodeId) := by
      rw [sound.holds.lookup_eq found]; rfl
    have noFiles : PathOk s dot := by
      intro i same
      obtain rfl := Option.some.inj (starts.symm.trans same)
      rw [toks, NoFiles, self]
      exact ⟨show ITYPE_DIR ≠ ITYPE_FILE by decide, trivial⟩
    have land : landing s dot = some cwd.inodeId := by
      rw [landing, starts, Option.bind_eq_bind, Option.bind_some, toks, resolve, self]
      rfl
    obtain ⟨_, landed, _⟩ := sound.holds.opendir sound.home noFiles run
    obtain ⟨h, rfl, opened⟩ := landed _ land
    exact ⟨cwd, h, rfl, rfl, opened⟩

/-- What a fresh handle shows is what its directory holds. -/
theorem Opened.findName_eq (opened : Opened s.vol own node j k h) (holds : Holds s.vol own node)
    (scanned : findName { h with index := 0 } name = some (found, next)) :
    found = lookup s.vol.disk j name := by
  obtain ⟨q, fs, st, found, dir, rfl⟩ := opened
  obtain ⟨_, same, _⟩ := (dir.handleOf.reindex (k := k)).findName holds found name
  rw [same] at scanned
  cases scanned
  rfl

theorem Opened.openRead (opened : Opened s.vol own node j 0 h) (holds : Holds s.vol own node)
    (here : s.cwd = some cwd) (stands : cwd.inodeId = j) (file : FileName s name) :
    OpenOk s h name FD_READ where
  file := fun e next scanned => by
    have named := opened.findName_eq holds scanned
    exact file cwd e here (by rw [stands, ← named])
  creat := fun write => absurd write (by decide)

/-- From `s`, sound with `node`, the state `s'` was reached, sound with `node'`. -/
def Reached (s : Fs) (own : Owner) (node : Nodes) (s' : Fs) (node' : Nodes) : Prop :=
  ∃ own', Sound s' own' node' ∧ Next s.vol own node s'.vol own' node' ∧ s'.cwd = s.cwd

theorem Sound.reached (sound : Sound s own node) : Reached s own node s node :=
  ⟨own, sound, .refl, rfl⟩

theorem Reached.read (reached : Reached s own node s₁ node')
    (run : cnread bytes fd s₁ = some (out, s')) : Reached s own node s' node' := by
  obtain ⟨own', sound, next, cwd⟩ := reached
  obtain ⟨sound', effect⟩ := sound.read run
  refine ⟨own', sound', ?_⟩
  rcases effect with rfl | ⟨_, _, _, rfl⟩
  · exact ⟨next, cwd⟩
  · exact ⟨next, cwd⟩

theorem FdOpened.reached (opened : FdOpened s i mode n st s') (sound : Sound s' own node) :
    Reached s own node s' node := by
  refine ⟨own, sound, ?_⟩
  rw [opened.state]
  exact ⟨.refl, rfl⟩

theorem Reached.close (reached : Reached s own node s₁ node')
    (run : cnclose fd s₁ = some (code, s')) : Reached s own node s' node' := by
  obtain ⟨own', sound, next, cwd⟩ := reached
  obtain ⟨sound', effect⟩ := sound.close run
  refine ⟨own', sound', ?_⟩
  rcases effect with ⟨_, rfl⟩ | ⟨_, _, _, _, _, _, rfl⟩
  · exact ⟨next, cwd⟩
  · exact ⟨next, cwd⟩

theorem Sound.withHost (sound : Sound s own node) : Sound { s with host := host } own node :=
  ⟨sound.holds, sound.synced, sound.magic, sound.home, sound.copies⟩

theorem Reached.withHost (reached : Reached s own node s' node') :
    Reached s own node { s' with host := host } node' := by
  obtain ⟨own', sound, next, cwd⟩ := reached
  exact ⟨own', sound.withHost, next, cwd⟩

theorem Sound.cat (sound : Sound s own node) (ok : FileName s name)
    (run : cncat name s = some (code, bytes, s')) : Reached s own node s' node := by
  obtain ⟨dir, opens, rest⟩ := cncat_eq run
  obtain ⟨cwd, h, here, same, opened⟩ := sound.openDot opens
  cases same
  rcases rest with ⟨_, _, _, _, rfl⟩ | ⟨_, _, _, _, _, s₁, stat, _, opens', reading⟩
  · exact sound.reached
  obtain ⟨k, rfl⟩ := cnstat_index stat
  have reached : Reached s own node s₁ node := by
    cases sound.openFile (h := { dir with index := k }) (opened.shown sound.holds)
      ⟨(opened.openRead sound.holds here rfl ok).file, fun write => absurd write (by decide)⟩
      opens' with
    | failed => exact sound.reached
    | found _ _ opened' sound' => exact opened'.reached sound'
    | created write => exact absurd write (by decide)
  rcases reading with ⟨_, _, _, rfl⟩ | ⟨_, _, reads⟩
  · exact reached
  · exact reached.read reads

/-- Export reads a file of the current directory and changes the host only. -/
theorem Sound.exportFile (sound : Sound s own node) (ok : FileName s gName)
    (run : cnexport gName hName s = some (code, s')) : Reached s own node s' node := by
  obtain ⟨_, dir, _, _, s₁, _, _, opens, opens', ⟨_, closes⟩, rest⟩ := cnexport_eq run
  have sound₀ : Sound { s with host := s.host.put hName [] } own node := sound.withHost
  obtain ⟨cwd, h, here, same, opened⟩ := sound₀.openDot opens
  cases same
  have reached : Reached s own node s₁ node := by
    cases sound₀.openFile (opened.shown sound₀.holds) (opened.openRead sound₀.holds here rfl ok)
      opens' with
    | failed => exact sound₀.reached
    | found _ _ opened' sound' => exact opened'.reached sound'
    | created write => exact absurd write (by decide)
  rcases rest with ⟨_, rfl, _⟩ | ⟨_, _, _, _, _, _, _, _, reads, ⟨_, rfl, _⟩ | ⟨_, rfl, _⟩⟩
  · exact reached.close closes
  · exact (reached.read reads).close closes
  · exact (reached.read reads).withHost.close closes

/-- A new empty file takes the content it is opened for. -/
theorem NewFile.writable (new : NewFile s own node i name h' s₁ own' p es e)
    (sound : Sound s own node) (ledger : Ledger s₁.vol own')
    (opened : FdOpened s₁ e.inode FD_WRITE n st s₂)
    (enough : newBlocks Inode.zero ((UInt32.ofNat content.length).toNat / 4096 + 1) ≤
      Pool.block.free s.vol) : WriteOk s₂ (n : Int) content := by
  intro m slot _
  obtain ⟨same, _⟩ := fdSlot_eq slot
  obtain rfl := Int.ofNat_inj.mp same
  obtain ⟨t, read⟩ := new.inode
  have inode : (s₂.fdTbl n).inode = newInode ITYPE_FILE t := by
    rw [opened.entry]
    exact Option.some.inj (opened.read.symm.trans read)
  have cursor : (s₂.fdTbl n).cursor = 0 := by rw [opened.entry]
  have count : Pool.block.free s₂.vol = Pool.block.free s.vol := by
    rw [opened.state]
    change Pool.block.free s₁.vol = _
    rw [← length_freeList (ledger.agrees .block), new.blocks,
      length_freeList (sound.holds.ledger.agrees .block)]
  intro _
  rw [count, inode, writeEnd, cursor]
  change newBlocks Inode.zero _ ≤ _
  rwa [show (0 : UInt32).toNat = 0 from rfl, Nat.zero_add]

theorem NewFile.parent (new : NewFile s own node i name h' s₁ own' p es e)
    (sound : Sound s own node) :
    NameTree.insert scheme node i p es e (newNode i e) i = some (.dir p (es ++ [e])) := by
  have free := (sound.holds.unowned new.entered.fresh).2.1
  have inside : NameTree.Entry (NameTree.insert scheme node i p es e (newNode i e)) i e :=
    (NameTree.entry_insert (S := scheme) new.entered.found free fun q fs same =>
      (newNode_dir same).2.2).mpr (.inr ⟨rfl, rfl⟩)
  exact NameTree.insert_parent (S := scheme) (new.entered.holds.tree.target_ne inside).symm

theorem NewFile.opens (new : NewFile s own node i name h₁ s₁ own' p es e)
    (sound : Sound s own node)
    (sound₁ : Sound s₁ own' (NameTree.insert scheme node i p es e (newNode i e)))
    (text : 0 ∉ name) (run : cnopen h₁ name FD_WRITE s₁ = some (fd, h₂, s₂)) (valid : ¬ fd < 0) :
    ∃ (n : Nat) (st : Inode), fd = (n : Int) ∧ FdOpened s₁ e.inode FD_WRITE n st s₂ ∧
      Sound s₂ own' (NameTree.insert scheme node i p es e (newNode i e)) := by
  obtain ⟨st, dir, handleOf⟩ := new.shows
  have parent := new.parent sound
  have named := new.entered.lookup sound.holds
  rw [new.named] at named
  obtain ⟨k, scanned, _⟩ := handleOf.findName sound₁.holds parent name
  obtain ⟨k', stat, _⟩ := handleOf.stat sound₁.holds parent name
  rw [named] at scanned stat
  have openOk : OpenOk s₁ h₁ name FD_WRITE := by
    refine ⟨fun e' next' found => ?_, fun _ => ⟨text, fun next' missing => ?_⟩⟩
    · rw [scanned] at found
      cases found
      exact new.kind
    · rw [stat] at missing
      cases missing
  cases sound₁.openFile (handleOf.shown sound₁.holds parent) openOk run with
  | failed => exact absurd (by decide) valid
  | found stat' _ opened' sound₂ =>
    rw [stat] at stat'
    cases stat'
    exact ⟨_, _, rfl, opened', sound₂⟩
  | created _ stat' =>
    rw [stat] at stat'
    cases stat'

/-- Import enters a new file in the current directory, whether it then succeeds or not. -/
theorem Sound.importFile (sound : Sound s own node) (ok : ImportOk s hName gName)
    (run : cnimport hName gName s = some (code, s')) :
    ∃ cwd p es e, s.cwd = some cwd ∧ node cwd.inodeId = some (.dir p es) ∧
      node e.inode = none ∧ e.name = gName ∧ e.fileType = ITYPE_FILE ∧
      Reached s own node s'
        (NameTree.insert scheme node cwd.inodeId p es e (newNode cwd.inodeId e)) := by
  obtain ⟨content, h, h₁, s₁, fd, h₂, s₂, s₃, reads, opens, creates, opens', _, ⟨_, closes⟩, rest⟩ :=
    cnimport_eq run
  obtain ⟨cwd, h', here, same, opened⟩ := sound.openDot opens
  cases same
  have stands : h.inodeId = cwd.inodeId := by
    obtain ⟨_, _, _, _, _, rfl⟩ := opened
    rfl
  rcases sound.creat (h := h) ⟨ok.text, fun _ _ => ⟨ok.short, opened.current sound.holds, ok.inode⟩⟩
    creates with ⟨failed, _⟩ | ⟨own', p, es, e, next, _, _, new, sound₁⟩
  · cases failed
  rw [stands] at new sound₁
  refine ⟨cwd, p, es, e, here, new.entered.found, (sound.holds.unowned new.entered.fresh).2.1,
    new.named, new.kind, ?_⟩
  -- the file could be opened, as the descriptor that is closed is in the table
  have valid : ¬ fd < 0 := by
    obtain ⟨n, slot, _⟩ := Option.bind_eq_some_iff.mp closes
    have := (fdSlot_eq slot).1
    omega
  obtain ⟨n, st, rfl, fdOpened, sound₂⟩ := new.opens sound sound₁ ok.text opens' valid
  have next₂ := new.entered.next sound.holds
  have vol₂ : s₂.vol = s₁.vol := by rw [fdOpened.state]
  rw [← vol₂] at next₂
  have cwd₂ : s₂.cwd = s.cwd := by rw [fdOpened.state, new.state]
  have reached : Reached s own node s₂
      (NameTree.insert scheme node cwd.inodeId p es e (newNode cwd.inodeId e)) :=
    ⟨own', sound₂, next₂, cwd₂⟩
  rcases rest with ⟨_, rfl, _⟩ | ⟨_, _, _, writes, _⟩
  · exact reached.close closes
  · rcases sound₂.write (new.writable sound sound₁.holds.ledger fdOpened
      (ok.blocks content reads)) writes with
      ⟨_, rfl, _⟩ | ⟨_, own₃, _, _, _, _, _, _, acted, _, sound₃⟩
    · exact reached.close closes
    · have written : Reached s own node s₃
          (NameTree.insert scheme node cwd.inodeId p es e (newNode cwd.inodeId e)) :=
        ⟨own₃, sound₃, next₂.trans acted.confined.next, acted.cwd.trans cwd₂⟩
      exact written.close closes

end
end CdnwSh
