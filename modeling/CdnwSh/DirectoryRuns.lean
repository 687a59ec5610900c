import CdnwSh.Machine

/-! Runs of `cnmkdir`, `cnrmdir` and `cncd` on a fresh file system: the directories stay one
tree, as long as no walk of `cnrmdir` misses a component. -/
namespace CdnwSh

open ByteMemory RecordList PartialRun LeastIndex

/-- A path with some component, short enough for the buffers of `fs.c`. -/
structure PathLike (path : Name) : Prop where
  text : 0 ∉ path
  short : path.length ≤ 252
  some : strtok path ≠ []

/-- Neither "." nor "..". -/
def isProper (e : DirEntry) : Bool := e.name ≠ dot ∧ e.name ≠ dotDot

section
variable [InodeLayout]

/-- The commands of a directory run, each where it reserves nothing that is not left. -/
def DirCommand (s : Session) : Op → Prop
  | .mkdir path => PathLike path ∧ ∀ cwd, s.fs.cwd = some cwd →
      mkdirTarget s.fs.vol.disk cwd.inodeId (strtok path) ≠ none →
        Pool.inode.free s.fs.vol ≠ 0 ∧ Pool.block.free s.fs.vol ≠ 0
  | .rmdir path => PathLike path ∧ path ≠ dot ∧ path ≠ dotDot
  | .cd path => PathLike path ∨ path = [slash]
  | _ => False

/-- The walk of `cnrmdir` finds all components. -/
def RmdirWhole (s : Session) : Op → Prop
  | .rmdir path => Whole s.fs (parentPath path)
  | _ => True

/-- The volume is a tree of directories with exact bitmaps and counters, and `cwd` is in
it. -/
structure DirConsistent (s : Session) (node : Nodes) : Prop where
  tree : NameTree.Tree scheme 0 node
  listed : ∀ i p es, node i = some (.dir p es) →
    ∃ rs, listing s.fs.vol.disk i = some rs ∧ rs.filter isProper = es
  inodes : ∀ n, bit s.fs.vol.inodeBmCache n = true ↔ ∃ i : Iptr, i.toNat = n ∧ node i ≠ none
  types : ∀ i, node i ≠ none → ∃ st, inodeRead s.fs.vol.disk i = some st ∧
    st.type = ITYPE_DIR ∧ st.blocks = 1
  distinct : ∀ i j st st', node i ≠ none → node j ≠ none → inodeRead s.fs.vol.disk i = some st →
    inodeRead s.fs.vol.disk j = some st' → st.block0 = st'.block0 → i = j
  blocks : ∀ n, bit s.fs.vol.blockBmCache n = true ↔ n < 103 ∨
    ∃ i st, node i ≠ none ∧ inodeRead s.fs.vol.disk i = some st ∧ st.block0.toNat = n
  root : ∃ st, inodeRead s.fs.vol.disk 0 = some st ∧ st.block0 = 103
  inodeCount : freeInodeCount s.fs.vol.superblkCache =
    clearCount 6400 (bit s.fs.vol.inodeBmCache)
  blockCount : freeBlockCount s.fs.vol.superblkCache =
    clearCount 25600 (bit s.fs.vol.blockBmCache)
  cwd : ∃ h, s.fs.cwd = some h ∧ node h.inodeId ≠ none

section
variable {s s' : Session} {own : Owner} {node : Nodes} {i p : Iptr} {es : List DirEntry}

/-- A tree of directories only, below a mounted `cwd`. -/
structure DirInv (s : Session) (own : Owner) (node : Nodes) : Prop where
  inv : Inv s own node
  dirs : ∀ i, node i ≠ some .file
  mounted : s.fs.cwd ≠ none

omit [InodeLayout] in
theorem filter_records (proper : ∀ e ∈ es, Proper e) :
    (records i p es).filter isProper = es := by
  have self : isProper (dotEntry i) = false := by simp [isProper, dotEntry]
  have parent : isProper (dotDotEntry p) = false := by simp [isProper, dotDotEntry]
  rw [records, List.filter_cons, List.filter_cons, self, parent, List.filter_eq_self.mpr]
  · rfl
  · intro e member
    exact decide_eq_true ⟨(proper e member).notDot, (proper e member).notDotDot⟩

theorem DirConsistent.closed (consistent : DirConsistent s node) (holds : Iptr → Prop)
    (top : holds 0) (entries : ∀ i, holds i → ∀ e ∈ ((listing s.fs.vol.disk i).getD []).filter isProper,
      holds e.inode) (live : node i ≠ none) : holds i := by
  induction consistent.tree.reach live with
  | root => exact top
  | entry before entry ih =>
    obtain ⟨p, es, found, member⟩ := entry
    obtain ⟨rs, list, rfl⟩ := consistent.listed _ p es found
    exact entries _ (ih (by rw [found]; simp)) _ (by rw [list]; exact member)

theorem DirInv.dir (dirs : DirInv s own node) (live : node i ≠ none) :
    ∃ p es st, node i = some (.dir p es) ∧ DirAt s.fs.vol.disk own i st (records i p es) := by
  cases kind : node i with
  | none => exact absurd kind live
  | some n =>
    cases n with
    | file => exact absurd kind (dirs.dirs i)
    | dir p es =>
      obtain ⟨st, dir⟩ := dirs.inv.sound.holds.dirs i p es kind
      exact ⟨p, es, st, rfl, dir⟩

theorem DirInv.consistent (dirs : DirInv s own node) : DirConsistent s node := by
  have holds := dirs.inv.sound.holds
  constructor
  case tree => exact holds.tree
  case listed =>
    intro i p es found
    obtain ⟨st, dir⟩ := holds.dirs i p es found
    exact ⟨_, dir.listing_eq holds.ledger,
      filter_records fun e member => holds.proper i e (.of found member)⟩
  case inodes =>
    intro n
    refine ⟨holds.exact_inodes n, ?_⟩
    rintro ⟨i, rfl, live⟩
    exact (holds.inodes i live).2
  case types =>
    intro i live
    obtain ⟨p, es, st, _, dir⟩ := dirs.dir live
    exact ⟨st, dir.read, dir.type, dir.blocks⟩
  case distinct =>
    intro i j st st' one two read read' same
    obtain ⟨_, _, st₁, _, dir⟩ := dirs.dir one
    obtain ⟨_, _, st₂, _, dir'⟩ := dirs.dir two
    obtain rfl := Option.some.inj (read.symm.trans dir.read)
    obtain rfl := Option.some.inj (read'.symm.trans dir'.read)
    have owner := dir.owner
    rw [same, dir'.owner] at owner
    simp only [Option.some.injEq, Prod.mk.injEq] at owner
    exact owner.1.symm
  case blocks =>
    intro n
    constructor
    · intro used
      rcases holds.exact_blocks n used with low | ⟨b, ⟨i, r⟩, rfl, owned⟩
      · exact .inl low
      · obtain ⟨_, _, st, _, dir⟩ := dirs.dir (holds.owners b _ owned)
        exact .inr ⟨i, st, holds.owners b _ owned, dir.read, by rw [dir.only b r owned]⟩
    · rintro (low | ⟨i, st, live, read, rfl⟩)
      · exact holds.ledger.metadata n low
      · obtain ⟨_, _, st', _, dir⟩ := dirs.dir live
        obtain rfl := Option.some.inj (read.symm.trans dir.read)
        exact (holds.ledger.owned _ _ dir.owner).2.2
  case root => exact holds.root
  case inodeCount => exact holds.ledger.agrees .inode
  case blockCount => exact holds.ledger.agrees .block
  case cwd =>
    obtain ⟨h, here⟩ := Option.ne_none_iff_exists'.mp dirs.mounted
    obtain ⟨p, es, found⟩ := dirs.inv.sound.home h here
    exact ⟨h, here, by rw [found]; simp⟩

theorem DirInv.lookup_dir (dirs : DirInv s own node) (found : node i = some (.dir p es))
    (named : lookup s.fs.vol.disk i tok = some e) :
    e.fileType = ITYPE_DIR ∧ ∃ q fs, node e.inode = some (.dir q fs) := by
  have holds := dirs.inv.sound.holds
  refine holds.named_dir found named fun member isFile => ?_
  have leaf := holds.tree.leaf i e (.of found member) (decide_eq_false (by rw [isFile]; decide))
  exact dirs.dirs _ leaf

theorem DirInv.noFiles (dirs : DirInv s own node) (found : node i = some (.dir p es)) :
    NoFiles s.fs.vol.disk i toks := by
  induction toks generalizing i p es with
  | nil => trivial
  | cons tok rest ih =>
    rw [NoFiles]
    split
    next e named =>
      obtain ⟨isDir, q, fs, sub⟩ := dirs.lookup_dir found named
      exact ⟨by rw [isDir]; decide, ih sub⟩
    · trivial

theorem DirInv.noFilesMkdir (dirs : DirInv s own node) (found : node i = some (.dir p es)) :
    NoFilesMkdir s.fs.vol.disk i toks := by
  induction toks generalizing i p es with
  | nil => trivial
  | cons tok rest ih =>
    rw [NoFilesMkdir]
    intro _
    split
    next e named =>
      obtain ⟨isDir, q, fs, sub⟩ := dirs.lookup_dir found named
      exact ⟨by rw [isDir]; decide, ih sub⟩
    · exact ih found

theorem DirInv.pathOk (dirs : DirInv s own node) (path : Name) : PathOk s.fs path := by
  intro i starts
  obtain ⟨p, es, found⟩ := dirs.inv.sound.holds.start_dir dirs.inv.sound.home starts
  exact dirs.noFiles found

theorem DirInv.landing_dir (dirs : DirInv s own node) (land : landing s.fs path = some i) :
    ∃ p es, node i = some (.dir p es) := by
  obtain ⟨i₀, starts, walked⟩ := Option.bind_eq_some_iff.mp land
  have start := dirs.inv.sound.holds.start_dir dirs.inv.sound.home starts
  clear land starts
  generalize walkToks path = toks at walked
  induction toks generalizing i₀ with
  | nil => cases walked; exact start
  | cons tok rest ih =>
    obtain ⟨p, es, found⟩ := start
    rw [resolve] at walked
    split at walked
    next e named => exact ih _ (dirs.lookup_dir found named).2 walked
    · cases walked

theorem DirInv.mkdirOk (dirs : DirInv s own node) (text : 0 ∉ path)
    (left : ∀ cwd, s.fs.cwd = some cwd →
      mkdirTarget s.fs.vol.disk cwd.inodeId (strtok path) ≠ none →
        Pool.inode.free s.fs.vol ≠ 0 ∧ Pool.block.free s.fs.vol ≠ 0) : MkdirOk s.fs path := by
  refine ⟨text, fun cwd here => ?_, left⟩
  obtain ⟨p, es, found⟩ := dirs.inv.sound.home cwd here
  exact dirs.noFilesMkdir found

theorem DirInv.rmdirOk (dirs : DirInv s own node) (whole : Whole s.fs (parentPath path))
    (notDot : path ≠ dot) (notDotDot : path ≠ dotDot) : RmdirOk s.fs path := by
  refine ⟨dirs.pathOk _, whole, notDot, notDotDot, fun i e land named => ?_⟩
  obtain ⟨p, es, found⟩ := dirs.landing_dir land
  exact (dirs.lookup_dir found named).1

theorem DirInv.sane (dirs : DirInv s own node) (command : DirCommand s op)
    (whole : RmdirWhole s op) : Sane s op := by
  cases op with
  | mkdir path => exact dirs.mkdirOk command.1.text command.2
  | rmdir path => exact dirs.rmdirOk whole command.2.1 command.2.2
  | cd path => exact dirs.pathOk path
  | _ => exact absurd command id

def OnDirs : Op → Prop
  | .mkdir _ | .rmdir _ | .cd _ => True
  | _ => False

theorem DirInv.sane_step (dirs : DirInv s own node) (kind : OnDirs op) (sane : Sane s op)
    (run : s.step op = some (r, s')) : ∃ own' node', DirInv s' own' node' := by
  have sound := dirs.inv.sound
  have still (handles : s'.handles = s.handles) (same : s'.fs = s.fs) : DirInv s' own node := by
    refine ⟨dirs.inv.globals (by rw [same]; exact sound) handles
      (fun d here => .inl (same ▸ here)) fun _ => id, dirs.dirs, by rw [same]; exact dirs.mounted⟩
  cases op with
  | mkdir path =>
    obtain ⟨makes, _, handles⟩ := Session.global_eq run
    rcases sound.mkdir sane makes with ⟨_, same⟩ |
      ⟨_, j, q, fs, e, own', _, _, _, isDir, _, cwd, entered, after⟩
    · exact ⟨own, node, still handles same⟩
    · have next := entered.next sound.holds
      refine ⟨own', _, dirs.inv.globals after handles (fun d here => .inl (cwd ▸ here)) next.files,
        fun i file => dirs.dirs i (NameTree.insert_file file ?_), by rw [cwd]; exact dirs.mounted⟩
      rw [newNode, if_pos isDir]
      simp
  | rmdir path =>
    obtain ⟨removes, _, handles⟩ := Session.global_eq run
    rcases sound.rmdir sane removes with ⟨_, same⟩ | ⟨_, _, cwd, after, _⟩ |
      ⟨_, _, cwd, i, p, es, e, ptr, removed, after⟩
    · exact ⟨own, node, still handles same⟩
    · exact ⟨own, node, dirs.inv.globals after handles (fun d here => .inl (cwd ▸ here)) fun _ => id,
        dirs.dirs, by rw [cwd]; exact dirs.mounted⟩
    · have next := removed.next sound.holds.ledger
      exact ⟨_, _, dirs.inv.globals after handles (fun d here => .inl (cwd ▸ here)) next.files,
        fun i file => dirs.dirs i (NameTree.erase_file file), by rw [cwd]; exact dirs.mounted⟩
  | cd path =>
    obtain ⟨moves, _, handles⟩ := Session.global_eq run
    obtain ⟨after, ⟨_, same⟩ | ⟨h, j, k, _, opened, same⟩⟩ := sound.cd sane moves
    · exact ⟨own, node, still handles same⟩
    · refine ⟨own, node, dirs.inv.globals after handles (fun d here => ?_) fun _ => id, dirs.dirs,
        by rw [same]; simp⟩
      rw [same] at here
      cases here
      exact .inr (opened.shown sound.holds)
  | _ => exact absurd kind id

theorem DirInv.step (dirs : DirInv s own node) (command : DirCommand s op)
    (whole : RmdirWhole s op) (run : s.step op = some (r, s')) :
    ∃ own' node', DirInv s' own' node' := by
  refine dirs.sane_step ?_ (dirs.sane command whole) run
  cases op with
  | mkdir path => trivial
  | rmdir path => trivial
  | cd path => trivial
  | _ => exact absurd command id

theorem boot_dirs {before : Fs} (run : boot before = some s) : DirInv s rootOwner rootNodes := by
  obtain ⟨_, _, ⟨h, here, _⟩, _⟩ := boot_sound run
  refine ⟨boot_inv run, fun i file => ?_, by rw [here]; simp⟩
  obtain rfl := rootNodes_live (i := i) (by rw [file]; simp)
  cases file

/-- Over any earlier disk content, every run of `cnmkdir`, `cnrmdir` and `cncd` in which no
walk of `cnrmdir` misses a component keeps the tree, the inodes, the bitmaps, the counters
and `cwd` consistent. -/
theorem directory_runs {before : Fs} {s₀ : Session} (started : boot before = some s₀)
    (steps : Steps Session.step (fun s op => DirCommand s op ∧ RmdirWhole s op) s₀ trace s) :
    ∃ node, DirConsistent s node := by
  obtain ⟨own, node, dirs⟩ := steps.invariant (fun s => ∃ own node, DirInv s own node)
    (fun _ _ _ _ ⟨_, _, dirs⟩ ok run => dirs.step ok.1 ok.2 run) ⟨_, _, boot_dirs started⟩
  exact ⟨node, dirs.consistent⟩

end
end

section Lp64
attribute [local instance] lp64

theorem pathLike_a : PathLike [97] := ⟨by decide, by decide, by decide⟩

theorem emptyBooted_mkdir : (emptyBooted.step (.mkdir [97])).isSome := by decide +kernel

theorem dirCommand_a : DirCommand emptyBooted (.mkdir [97]) :=
  ⟨pathLike_a, fun _ _ _ => ⟨by decide +kernel, by decide +kernel⟩⟩

theorem directory_runs_mkdir_rmdir : ∃ s r₁ r₂,
    Steps Session.step (fun s op => DirCommand s op ∧ RmdirWhole s op) emptyBooted
      [(.mkdir [97], r₁), (.rmdir [97], r₂)] s ∧ ∃ node, DirConsistent s node := by
  have removed : ((emptyBooted.after (.mkdir [97])).step (.rmdir [97])).isSome := by
    decide +kernel
  have removes : DirCommand (emptyBooted.after (.mkdir [97])) (.rmdir [97]) :=
    ⟨pathLike_a, by decide, by decide⟩
  have whole : RmdirWhole (emptyBooted.after (.mkdir [97])) (.rmdir [97]) := by
    change landing _ _ ≠ none
    decide +kernel
  have steps : Steps Session.step (fun s op => DirCommand s op ∧ RmdirWhole s op) emptyBooted
      [(.mkdir [97], _), (.rmdir [97], _)] _ := .cons ⟨dirCommand_a, trivial⟩ (Session.after_eq emptyBooted_mkdir)
    (.single ⟨removes, whole⟩ (Session.after_eq removed))
  exact ⟨_, _, _, steps, directory_runs emptyBooted_eq steps⟩

/-- Directories a and a/b are made; removing a/x, which is missing, then empties directory
a: its entry b is gone and inode 2 is used but in no directory. -/
theorem directory_runs_wiped : ∃ s r₁ r₂ r₃,
    Steps Session.step DirCommand emptyBooted [(.mkdir [97], r₁), (.mkdir [97, 47, 98], r₂),
      (.rmdir [97, 47, 120], r₃)] s ∧ ¬ ∃ node, DirConsistent s node := by
  have two : ((emptyBooted.after (.mkdir [97])).step (.mkdir [97, 47, 98])).isSome := by
    decide +kernel
  have three : (((emptyBooted.after (.mkdir [97])).after (.mkdir [97, 47, 98])).step
      (.rmdir [97, 47, 120])).isSome := by
    decide +kernel
  have inner : DirCommand (emptyBooted.after (.mkdir [97])) (.mkdir [97, 47, 98]) :=
    ⟨⟨by decide, by decide, by decide⟩, fun _ _ _ => ⟨by decide +kernel, by decide +kernel⟩⟩
  have missing : DirCommand ((emptyBooted.after (.mkdir [97])).after (.mkdir [97, 47, 98]))
      (.rmdir [97, 47, 120]) := ⟨⟨by decide, by decide, by decide⟩, by decide, by decide⟩
  refine ⟨_, _, _, _, .cons dirCommand_a (Session.after_eq emptyBooted_mkdir)
    (.cons inner (Session.after_eq two) (.single missing (Session.after_eq three))), ?_⟩
  rintro ⟨node, consistent⟩
  obtain ⟨i, number, live⟩ := (consistent.inodes 2).mp (by decide +kernel)
  -- only inodes 0 and 1 are found below the root
  have below : i = 0 ∨ i = 1 := by
    refine consistent.closed (fun i => i = 0 ∨ i = 1) (.inl rfl) ?_ live
    rintro i (rfl | rfl)
    · decide +kernel
    · decide +kernel
  rcases below with rfl | rfl
  · cases number
  · cases number

end Lp64

end CdnwSh
