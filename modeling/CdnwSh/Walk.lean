import CdnwSh.Volume

/-! Path walks of `cnopendir` and `cnmkdir` on a volume that holds a tree, for paths that
do not lead through a regular file. -/
namespace CdnwSh

open ByteMemory RecordList

variable [InodeLayout]

def resolve (d : Disk) : Iptr → List Name → Option Iptr
  | i, [] => some i
  | i, tok :: rest =>
    match lookup d i tok with
    | some e => resolve d e.inode rest
    | none => none

/-- The components that `cnopendir` finds one after the other are no regular files. -/
def NoFiles (d : Disk) : Iptr → List Name → Prop
  | _, [] => True
  | i, tok :: rest =>
    match lookup d i tok with
    | some e => e.fileType ≠ ITYPE_FILE ∧ NoFiles d e.inode rest
    | none => True

/-- The same for `cnmkdir`, which does not enter the last component and goes on in the
same directory after a missing one. -/
def NoFilesMkdir (d : Disk) : Iptr → List Name → Prop
  | _, [] => True
  | i, tok :: rest => rest ≠ [] →
    match lookup d i tok with
    | some e => e.fileType ≠ ITYPE_FILE ∧ NoFilesMkdir d e.inode rest
    | none => NoFilesMkdir d i rest

/-- The directory and the name for which `cnmkdir` reaches its create branch. -/
def mkdirTarget (d : Disk) : Iptr → List Name → Option (Iptr × Name)
  | _, [] => none
  | i, tok :: rest =>
    match lookup d i tok with
    | some e => if rest = [] then none else mkdirTarget d e.inode rest
    | none => if rest = [] then some (i, tok) else mkdirTarget d i rest

def walkStart (s : Fs) (path : Name) : Option Iptr :=
  if path.head? = some slash then some 0 else s.cwd.map (·.inodeId)

def walkToks (path : Name) : List Name := strtok (if path = [] then dot else path)

/-- No component of the path is a regular file. -/
def PathOk (s : Fs) (path : Name) : Prop :=
  ∀ i, walkStart s path = some i → NoFiles s.vol.disk i (walkToks path)

def landing (s : Fs) (path : Name) : Option Iptr := do
  resolve s.vol.disk (← walkStart s path) (walkToks path)

def FirstMissing (s : Fs) (path : Name) : Prop :=
  ∃ i tok rest, walkStart s path = some i ∧ walkToks path = tok :: rest ∧
    lookup s.vol.disk i tok = none

section
variable {v : Vol} {own : Owner} {node : Nodes} {i p : Iptr} {es : List DirEntry} {st : Inode}

theorem Holds.named_dir (holds : Holds v own node) (found : node i = some (.dir p es))
    (named : lookup v.disk i tok = some e) (noFile : e ∈ es → e.fileType ≠ ITYPE_FILE) :
    e.fileType = ITYPE_DIR ∧ ∃ q fs, node e.inode = some (.dir q fs) := by
  rw [holds.lookup_eq found] at named
  have member := List.mem_of_find?_eq_some named
  have isDir : e.fileType = ITYPE_DIR := by
    rcases List.mem_cons.mp member with rfl | member
    · rfl
    · rcases List.mem_cons.mp member with rfl | member
      · rfl
      · exact (holds.proper i e (.of found member)).kind.resolve_right (noFile member)
  exact ⟨isDir, holds.target_dir found member isDir⟩

theorem Holds.component (holds : Holds v own node) (found : node i = some (.dir p es))
    (named : lookup v.disk i tok = some e) (noFile : e.fileType ≠ ITYPE_FILE) :
    ∃ q fs st, node e.inode = some (.dir q fs) ∧ DirAt v.disk own e.inode st (records e.inode q fs) := by
  obtain ⟨_, q, fs, sub⟩ := holds.named_dir found named fun _ => noFile
  obtain ⟨st, dir⟩ := holds.dirs _ _ _ sub
  exact ⟨q, fs, st, sub, dir⟩

theorem DirAt.findName_eq (dir : DirAt v.disk own i st rs) (ledger : Ledger v own) (tok : Name) :
    ∃ k, findName (handle v.disk i st) tok =
        some (lookup v.disk i tok, { handle v.disk i st with index := k }) ∧
      (lookup v.disk i tok = none → k = st.size) := by
  obtain ⟨dir', scanned, ⟨k, rfl⟩, ended⟩ := CdnwSh.findName_eq dir.lists
  have named : lookup v.disk i tok = rs.find? fun e => cstr e.name = tok := by
    rw [lookup, dir.listing_eq ledger]; rfl
  exact ⟨k, by rw [scanned, named], fun none => ended (named ▸ none)⟩

omit [InodeLayout] in
theorem findName_end {dir : DirPtr} (ended : dir.index = dir.inodeSt.size) :
    findName dir tok = some (none, dir) := by
  rw [findName, findNameLoop, cnreaddir_end (Nat.le_of_eq (by rw [ended]))]
  rfl

theorem openWalk_end {dir : DirPtr} (ended : dir.index = dir.inodeSt.size)
    (same : dir.inodeId = loaded) : openWalk d toks dir loaded = some (some dir) := by
  induction toks with
  | nil => rfl
  | cons tok rest ih =>
    rw [openWalk, findName_end ended]
    simp only [Option.bind_eq_bind, Option.bind_some, same, if_true]
    exact ih

/-- `cnopendir` ends nowhere or at a directory of the tree; it ends at the directory the
path leads to when all components are found, and nowhere when the first is missing. -/
theorem Holds.openWalk_eq (holds : Holds v own node) (found : node i = some (.dir p es))
    (dir : DirAt v.disk own i st (records i p es)) (noFiles : NoFiles v.disk i toks)
    (loaded : Iptr) : ∃ r, openWalk v.disk toks (handle v.disk i st) loaded = some r ∧
      (∀ h, r = some h → ∃ j q fs st' k, node j = some (.dir q fs) ∧
        DirAt v.disk own j st' (records j q fs) ∧ h = { handle v.disk j st' with index := k }) ∧
      (∀ j, resolve v.disk i toks = some j → ∃ q fs st', node j = some (.dir q fs) ∧
        DirAt v.disk own j st' (records j q fs) ∧ r = some (handle v.disk j st')) ∧
      (∀ tok rest, toks = tok :: rest → lookup v.disk i tok = none → i ≠ loaded → r = none) := by
  induction toks generalizing i p es st loaded with
  | nil =>
    refine ⟨some (handle v.disk i st), rfl, fun h same => ?_, fun j same => ?_, by simp⟩
    · cases same
      exact ⟨i, p, es, st, 0, found, dir, rfl⟩
    · cases same
      exact ⟨p, es, st, found, dir, rfl⟩
  | cons tok rest ih =>
    obtain ⟨k, scanned, ended⟩ := dir.findName_eq holds.ledger tok
    rw [openWalk, scanned]
    simp only [Option.bind_eq_bind, Option.bind_some]
    cases named : lookup v.disk i tok with
    | none =>
      rw [named] at ended
      by_cases same : i = loaded
      · refine ⟨some { handle v.disk i st with index := k }, ?_, fun h eq => ?_, fun j eq => ?_, ?_⟩
        · exact (if_pos same).trans (openWalk_end (ended rfl) same)
        · cases eq
          exact ⟨i, p, es, st, k, found, dir, rfl⟩
        · rw [resolve, named] at eq; cases eq
        · rintro _ _ _ _ apart
          exact absurd same apart
      · refine ⟨none, if_neg same, by simp, fun j eq => ?_, fun _ _ _ _ _ => rfl⟩
        rw [resolve, named] at eq; cases eq
    | some e =>
      rw [NoFiles, named] at noFiles
      obtain ⟨q, fs, st', sub, dir'⟩ := holds.component found named noFiles.1
      obtain ⟨r, run, landed, resolved, _⟩ := ih sub dir' noFiles.2 e.inode
      dsimp only
      rw [dir'.inflate holds.ledger, Option.bind_some]
      refine ⟨r, run, landed, fun j eq => ?_, ?_⟩
      · rw [resolve, named] at eq
        exact resolved j eq
      · rintro _ _ same missing
        cases same
        rw [named] at missing
        cases missing

omit [InodeLayout] in
theorem home_of {s : Fs} {cwd : DirPtr} (here : s.cwd = some cwd)
    (found : node cwd.inodeId = some (.dir p es)) :
    ∀ dir, s.cwd = some dir → ∃ q fs, node dir.inodeId = some (.dir q fs) := by
  intro dir same
  obtain rfl := Option.some.inj (here.symm.trans same)
  exact ⟨p, es, found⟩

theorem Holds.start_dir {s : Fs} (holds : Holds s.vol own node)
    (home : ∀ dir, s.cwd = some dir → ∃ q fs, node dir.inodeId = some (.dir q fs))
    (starts : walkStart s path = some i) : ∃ q fs, node i = some (.dir q fs) := by
  unfold walkStart at starts
  split at starts
  · cases starts
    obtain ⟨fs, top⟩ := holds.tree.root_dir
    exact ⟨0, fs, top⟩
  · obtain ⟨cwd, here, rfl⟩ := Option.map_eq_some_iff.mp starts
    exact home cwd here

theorem Holds.start_handle {s : Fs} (holds : Holds s.vol own node)
    (home : ∀ dir, s.cwd = some dir → ∃ q fs, node dir.inodeId = some (.dir q fs))
    (starts : walkStart s path = some i) : ∃ q fs st, node i = some (.dir q fs) ∧
      DirAt s.vol.disk own i st (records i q fs) ∧ startDir s path = some (handle s.vol.disk i st) := by
  obtain ⟨q, fs, found⟩ := holds.start_dir home starts
  obtain ⟨st, dir⟩ := holds.dirs _ _ _ found
  refine ⟨q, fs, st, found, dir, ?_⟩
  unfold walkStart at starts
  unfold startDir
  split at starts
  next absolute =>
    cases starts
    rw [if_pos absolute, dir.inflate holds.ledger]
  next relative =>
    obtain ⟨cwd, here, rfl⟩ := Option.map_eq_some_iff.mp starts
    rw [if_neg relative, here]
    exact dir.inflate holds.ledger

/-- A handle of a directory of the tree, at some record of it. -/
def Opened (v : Vol) (own : Owner) (node : Nodes) (j k : Iptr) (h : DirPtr) : Prop :=
  ∃ q fs st, node j = some (.dir q fs) ∧ DirAt v.disk own j st (records j q fs) ∧
    h = { handle v.disk j st with index := k }

theorem Holds.opendir {s : Fs} (holds : Holds s.vol own node)
    (home : ∀ dir, s.cwd = some dir → ∃ q fs, node dir.inodeId = some (.dir q fs))
    (noFiles : PathOk s path) (run : cnopendir s path = some r) :
    (∀ h, r = some h → ∃ j k, Opened s.vol own node j k h) ∧
    (∀ j, landing s path = some j → ∃ h, r = some h ∧ Opened s.vol own node j 0 h) ∧
    (FirstMissing s path → r = none) := by
  have start : ∃ i, walkStart s path = some i := by
    by_cases absolute : path.head? = some slash
    · exact ⟨0, if_pos absolute⟩
    · cases here : s.cwd with
      | none =>
        rw [cnopendir, startDir, if_neg absolute, here] at run
        split at run <;> cases run
      | some cwd => exact ⟨cwd.inodeId, by rw [walkStart, if_neg absolute, here]; rfl⟩
  obtain ⟨i, starts⟩ := start
  obtain ⟨q, fs, st, found, dir, inflated⟩ := holds.start_handle home starts
  have bound := (holds.inodes i (by rw [found]; simp)).1
  have land : landing s path = resolve s.vol.disk i (walkToks path) := by
    rw [landing, starts]; rfl
  have direct (toks : walkToks path = []) (same : r = some (handle s.vol.disk i st)) :
      (∀ h, r = some h → ∃ j k, Opened s.vol own node j k h) ∧
      (∀ j, landing s path = some j → ∃ h, r = some h ∧ Opened s.vol own node j 0 h) ∧
      (FirstMissing s path → r = none) := by
    refine ⟨fun h eq => ?_, fun j eq => ?_, ?_⟩
    · rw [same] at eq
      cases eq
      exact ⟨i, 0, q, fs, st, found, dir, rfl⟩
    · rw [land, toks] at eq
      cases eq
      exact ⟨_, same, q, fs, st, found, dir, rfl⟩
    · rintro ⟨_, _, _, _, cons, _⟩
      rw [toks] at cons
      cases cons
  rw [cnopendir] at run
  split at run
  · cases run
  rw [inflated] at run
  simp only [Option.bind_eq_bind, Option.bind_some] at run
  split at run
  next root =>
    cases run
    subst root
    exact direct rfl rfl
  cases toks : walkToks path with
  | nil =>
    rw [← walkToks, toks] at run
    obtain ⟨next, read, _⟩ := cnreaddir_next dir.lists
    rw [read] at run
    cases run
  | cons tok rest =>
    rw [← walkToks, toks] at run
    have apart : i ≠ 6401 := by
      rintro rfl
      exact absurd bound (by decide)
    obtain ⟨r', walked, landed, resolved, missing⟩ := holds.openWalk_eq found dir
      (noFiles i starts) 6401
    rw [toks] at walked
    obtain rfl : r' = r := Option.some.inj (walked.symm.trans run)
    refine ⟨fun h eq => ?_, fun j eq => ?_, ?_⟩
    · obtain ⟨j, q, fs, st, k, found, dir, same⟩ := landed h eq
      exact ⟨j, k, q, fs, st, found, dir, same⟩
    · obtain ⟨q, fs, st, found, dir, same⟩ := resolved j (land.symm.trans eq)
      exact ⟨_, same, q, fs, st, found, dir, rfl⟩
    · rintro ⟨i', tok', rest', starts', toks', none⟩
      obtain rfl := Option.some.inj (starts.symm.trans starts')
      exact missing tok' rest' toks' none apart

theorem Holds.opendir_total {s : Fs} (holds : Holds s.vol own node)
    (home : ∀ dir, s.cwd = some dir → ∃ q fs, node dir.inodeId = some (.dir q fs))
    (noFiles : PathOk s path) (land : landing s path = some j) (some_tok : walkToks path ≠ [])
    (short : path.length ≤ 255) : ∃ r, cnopendir s path = some r := by
  obtain ⟨i, starts, _⟩ := Option.bind_eq_some_iff.mp land
  obtain ⟨q, fs, st, found, dir, inflated⟩ := holds.start_handle home starts
  obtain ⟨r, walked, _⟩ := holds.openWalk_eq found dir (noFiles i starts) 6401
  obtain ⟨tok, rest, toks⟩ := List.exists_cons_of_ne_nil some_tok
  rw [cnopendir, if_neg (by omega), inflated]
  simp only [Option.bind_eq_bind, Option.bind_some]
  split
  · exact ⟨_, rfl⟩
  · rw [toks] at walked
    rw [← walkToks, toks]
    exact ⟨r, walked⟩

/-- The create branch of `cnmkdir`: at the end of a directory without the name. -/
def Created (s : Fs) (own : Owner) (node : Nodes) (i : Iptr) (toks : List Name)
    (out : Int × Fs) : Prop :=
  ∃ j tok q fs st, mkdirTarget s.vol.disk i toks = some (j, tok) ∧ tok ∈ toks ∧
    tok.length ≤ 255 ∧ node j = some (.dir q fs) ∧ DirAt s.vol.disk own j st (records j q fs) ∧
    lookup s.vol.disk j tok = none ∧
    (do let (self, dir, s) ←
          appendEntry s { handle s.vol.disk j st with index := st.size } tok ITYPE_DIR
        let s ← createDir s self dir.inodeId
        return (0, s)) = some out

/-- `cnmkdir` stops at an existing last component or creates its target. -/
theorem Holds.mkdirWalk_eq {s : Fs} (holds : Holds s.vol own node) (found : node i = some (.dir p es))
    (dir : DirAt s.vol.disk own i st (records i p es)) (noFiles : NoFilesMkdir s.vol.disk i toks)
    (walked : mkdirWalk s toks st i = some out) :
    (mkdirTarget s.vol.disk i toks = none ∧ out = (-1, s)) ∨ Created s own node i toks out := by
  induction toks generalizing i p es st with
  | nil => cases walked
  | cons tok rest ih =>
    obtain ⟨k, scanned, ended⟩ := dir.findName_eq holds.ledger tok
    rw [mkdirWalk] at walked
    split at walked
    · cases walked
    next short =>
      rw [dir.loaded holds.ledger] at walked
      simp only [Option.bind_eq_bind, Option.bind_some] at walked
      change (findName (handle s.vol.disk i st) tok).bind _ = _ at walked
      rw [scanned, Option.bind_some] at walked
      have lift {j : Iptr} (same : mkdirTarget s.vol.disk i (tok :: rest) =
          mkdirTarget s.vol.disk j rest)
          (tail : (mkdirTarget s.vol.disk j rest = none ∧ out = (-1, s)) ∨
            Created s own node j rest out) :
          (mkdirTarget s.vol.disk i (tok :: rest) = none ∧ out = (-1, s)) ∨
            Created s own node i (tok :: rest) out := by
        rcases tail with stopped | ⟨k, t, q, fs, st', target, member, created⟩
        · exact .inl (same ▸ stopped)
        · exact .inr ⟨k, t, q, fs, st', same.trans target, List.mem_cons_of_mem _ member, created⟩
      cases named : lookup s.vol.disk i tok with
      | some e =>
        rw [named] at walked
        dsimp only at walked
        split at walked
        next last =>
          cases walked
          exact .inl ⟨by rw [mkdirTarget, named]; exact if_pos last, rfl⟩
        next more =>
          have inner := noFiles more
          rw [named] at inner
          obtain ⟨q, fs, st', sub, dir'⟩ := holds.component found named inner.1
          rw [dir'.read] at walked
          refine lift ?_ (ih sub dir' inner.2 walked)
          rw [mkdirTarget, named]
          exact if_neg more
      | none =>
        rw [named] at walked
        dsimp only at walked
        split at walked
        next last =>
          obtain rfl := ended named
          refine .inr ⟨i, tok, p, es, st, ?_, List.mem_cons_self, by omega, found, dir, named, walked⟩
          rw [mkdirTarget, named]
          exact if_pos last
        next more =>
          have inner := noFiles more
          rw [named] at inner
          refine lift ?_ (ih found dir inner walked)
          rw [mkdirTarget, named]
          exact if_neg more

end
end CdnwSh
