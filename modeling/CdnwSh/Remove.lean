import CdnwSh.Create

/-! Removing entries: what the copying loop of `cnrmdir` keeps, what its two releases
leave of everything else, and the tree without the removed directory. -/
namespace CdnwSh

open ByteMemory RecordList

section
variable {v v' : Vol} {own own' : Owner} {node : Nodes} {i p n ptr : Iptr} {st : Inode}
  {es rs done before : List DirEntry} {e : DirEntry} {new new' : Rebuilt}

/-- The records copied so far, at the start of the new directory. -/
structure Copied (new : Rebuilt) (rs : List DirEntry) : Prop where
  size : new.data.size = 4096
  sounds : ∀ r ∈ rs, r.Sound
  tiles : Tiles (entryAt new.data) DirEntry.entryLen 0 new.index.toNat rs
  same : new.size = new.index

theorem Copied.start : Copied ⟨callocBlocks 1, 0, 0⟩ [] := ⟨rfl, by simp, rfl, rfl⟩

theorem Copied.keep (copied : Copied new done) (sound : e.Sound) (kept : new.keep e = some new') :
    Copied new' (done ++ [e]) := by
  obtain ⟨data, stored, kept⟩ := Option.bind_eq_some_iff.mp kept
  cases kept
  obtain ⟨tiles, size⟩ := storeEntry_snoc copied.tiles copied.sounds sound stored
  have room : new.index.toNat + 8 + e.name.length ≤ 4096 := by
    unfold storeEntry at stored
    split at stored
    next inside => rw [copied.size] at inside; exact inside
    · cases stored
  have len := sound.len
  have short := sound.short
  have moved : (new.index + UInt32.ofNat e.entryLen).toNat = new.index.toNat + e.entryLen := by
    rw [UInt32.toNat_add, UInt32.toNat_ofNat']; omega
  refine ⟨size.trans copied.size, ?_, ?_, by rw [copied.same]⟩
  · intro r member
    rcases List.mem_append.mp member with old | last
    · exact copied.sounds r old
    · rw [List.mem_singleton.mp last]; exact sound
  · rw [moved]; exact tiles

variable [InodeLayout]

/-- Records with other names are carried over. -/
theorem rmdirLoop_skip {parent : DirPtr} (lists : parent.Lists (before ++ rs))
    (copied : Copied new done) (sounds : ∀ r ∈ before, r.Sound)
    (apart : ∀ r ∈ before, cstr r.name ≠ name)
    (run : rmdirLoop name fuel parent new v = some out) :
    ∃ fuel' parent' new', rmdirLoop name fuel' parent' new' v = some out ∧ parent'.Lists rs ∧
      Copied new' (done ++ before) := by
  induction before generalizing fuel parent new done with
  | nil => exact ⟨fuel, parent, new, run, lists, by rw [List.append_nil]; exact copied⟩
  | cons r before ih =>
    cases fuel with
    | zero => cases run
    | succ fuel =>
      obtain ⟨parent', read, _, _, rest⟩ := cnreaddir_next lists
      rw [rmdirLoop, read] at run
      simp only [Option.bind_eq_bind, Option.bind_some] at run
      rw [if_neg (apart r List.mem_cons_self)] at run
      obtain ⟨new', kept, run⟩ := Option.bind_eq_some_iff.mp run
      obtain ⟨fuel', parent'', new'', run, lists, copied⟩ := ih rest
        (copied.keep (sounds r List.mem_cons_self) kept)
        (fun s member => sounds s (List.mem_cons_of_mem _ member))
        (fun s member => apart s (List.mem_cons_of_mem _ member)) run
      rw [List.append_assoc] at copied
      exact ⟨fuel', parent'', new'', run, lists, copied⟩

theorem rmdirLoop_end {parent : DirPtr} (lists : parent.Lists [])
    (run : rmdirLoop name fuel parent new v = some out) : out = (some new, v) := by
  cases fuel with
  | zero => cases run
  | succ fuel =>
    have ended : parent.index.toNat = parent.inodeSt.size.toNat := lists
    rw [rmdirLoop, cnreaddir_end (Nat.le_of_eq ended.symm)] at run
    cases run
    rfl

/-- A directory without the name is copied as it is. -/
theorem rmdirLoop_kept {parent : DirPtr} (lists : parent.Lists rs) (copied : Copied new done)
    (sounds : ∀ r ∈ rs, r.Sound) (apart : ∀ r ∈ rs, cstr r.name ≠ name)
    (run : rmdirLoop name fuel parent new v = some out) :
    ∃ new', out = (some new', v) ∧ Copied new' (done ++ rs) := by
  obtain ⟨fuel', parent', new', run, lists, copied⟩ := rmdirLoop_skip
    (by rw [List.append_nil]; exact lists) copied sounds apart run
  exact ⟨new', rmdirLoop_end lists run, copied⟩

/-- At the record with the name, the directory it leads to is released unless it holds
more than its two own records. -/
theorem rmdirLoop_found {parent : DirPtr} (lists : parent.Lists (before ++ e :: rs))
    (copied : Copied new done) (sounds : ∀ r ∈ before ++ e :: rs, r.Sound)
    (apart : ∀ r ∈ before ++ rs, cstr r.name ≠ name) (named : cstr e.name = name)
    (read : inodeRead v.disk e.inode = some st) (block : st.block0.toNat < 25600)
    (bound : e.inode.toNat < 6400) (run : rmdirLoop name fuel parent new v = some out) :
    (st.size ≠ 24 ∧ out = (none, v)) ∨
    st.size = 24 ∧ ∃ new', out = (some new', (v.given .block st.block0).given .inode e.inode) ∧
      Copied new' (done ++ (before ++ rs)) := by
  obtain ⟨fuel', parent', new₁, run, lists, copied⟩ := rmdirLoop_skip lists copied
    (fun r member => sounds r (List.mem_append_left _ member))
    (fun r member => apart r (List.mem_append_left _ member)) run
  cases fuel' with
  | zero => cases run
  | succ fuel' =>
    obtain ⟨parent'', next, _, _, rest⟩ := cnreaddir_next lists
    rw [rmdirLoop, next] at run
    simp only [Option.bind_eq_bind, Option.bind_some] at run
    rw [if_pos named, read, Option.bind_some] at run
    split at run
    next full => cases run; exact .inl ⟨full, rfl⟩
    next empty =>
      rw [releaseBlock, release_eq (by omega), Option.bind_some, releaseInode,
        release_eq (by omega), Option.bind_some] at run
      obtain ⟨new', same, copied⟩ := rmdirLoop_kept rest copied
        (fun r member => sounds r (List.mem_append_right _ (List.mem_cons_of_mem _ member)))
        (fun r member => apart r (List.mem_append_right _ member)) run
      rw [List.append_assoc] at copied
      exact .inr ⟨not_not.mp empty, new', same, copied⟩

theorem Copied.write (copied : Copied new rs) (ledger : Ledger v own)
    (dir : DirAt v.disk own i st done) (bound : i.toNat < 6400)
    (written : inodeWrite v.disk i { st with size := new.size } = some d)
    (flushed : llwrite d { st with size := new.size } new.data = some d') :
    Confined v own (· = i) { v with disk := d' } own ∧
      DirAt d' own i { st with size := new.size } rs := by
  obtain ⟨inodeDone, back⟩ := inodeWrite_confined ledger bound written
  have resized : Mapped d own i { st with size := new.size } := by
    have mapped := inodeDone.copies _ _ dir.mapped
    exact ⟨mapped.few, mapped.data, mapped.single, mapped.indirect⟩
  have one : blockList d { st with size := new.size } = [st.block0] :=
    blockList_one dir.blocks
  have count : ({ st with size := new.size } : Inode).blocks.toNat = 1 := by
    rw [show ({ st with size := new.size } : Inode).blocks = 1 from dir.blocks]; rfl
  rw [llwrite_eq (resized.inside inodeDone.ledger) (by rw [count, copied.size])
    (fun many => by omega)] at flushed
  cases flushed
  obtain ⟨blockDone, table⟩ := scatter_confined (k := 0)
    inodeDone.ledger resized
  refine ⟨inodeDone.trans blockDone, (table i bound).trans back, dir.type, dir.blocks, dir.single,
    dir.owner, dir.only, ?_⟩
  rw [one, show ({ st with size := new.size } : Inode).size.toNat = new.index.toNat by
    rw [← copied.same]]
  refine copied.tiles.congr fun o r inside _ _ read => entryAt_congr read
    (Nat.le_of_eq copied.size) fun k _ upper => ?_
  have fits : o + 8 + r.name.length ≤ 4096 := by
    unfold entryAt at read
    dsimp only at read
    split at read
    next fits => cases read; rw [length_slice, ← copied.size]; exact fits
    · cases read
  have inBlock : k < 4096 := by omega
  simp [Extents.scatter, Block.mem, inBlock, Extents.chunk]

/-- `ptr` has no owner any more. -/
def Owner.drop (own : Owner) (ptr : UInt32) : Owner := fun b => if b = ptr then none else own b

omit [InodeLayout] in
theorem Owner.drop_of (found : own.drop ptr b = some o) : b ≠ ptr ∧ own b = some o := by
  unfold Owner.drop at found
  split at found
  · cases found
  next apart => exact ⟨apart, found⟩

omit [InodeLayout] in
theorem Owner.drop_other (apart : b ≠ ptr) : own.drop ptr b = own b := if_neg apart

/-- The volume after `cnrmdir` released a directory's block and inode. -/
def Vol.released (v : Vol) (ptr n : Iptr) : Vol := (v.given .block ptr).given .inode n

omit [InodeLayout] in
theorem released_disk (data : 3 ≤ b.toNat) : (v.released ptr n).disk b = v.disk b :=
  (given_disk data).trans (given_disk data)

omit [InodeLayout] in
theorem released_inodeBm (m : Nat) : bit (v.released ptr n).inodeBmCache m =
    (bit v.inodeBmCache m && decide (m ≠ n.toNat)) := by
  change bit (Pool.inode.cache ((v.given .block ptr).given .inode n)) m = _
  rw [given_cache, if_pos rfl, given_cache, if_neg (by decide), bit_clearBit, decide_not]
  rfl

omit [InodeLayout] in
theorem released_blockBm (m : Nat) : bit (v.released ptr n).blockBmCache m =
    (bit v.blockBmCache m && decide (m ≠ ptr.toNat)) := by
  change bit (Pool.block.cache ((v.given .block ptr).given .inode n)) m = _
  rw [given_cache, if_neg (by decide), given_cache, if_pos rfl, bit_clearBit, decide_not]
  rfl

omit [InodeLayout] in
theorem Ledger.released (ledger : Ledger v own) (owner : own ptr = some o) (bound : n.toNat < 6400)
    (used : bit v.inodeBmCache n.toNat = true) : Ledger (v.released ptr n) (own.drop ptr) := by
  obtain ⟨low, high, set⟩ := ledger.owned _ _ owner
  have agrees := given_agrees (p := .block) high set ledger.agrees
  have kept : bit (Pool.inode.cache (v.given .block ptr)) n.toNat = true := by
    rw [given_cache, if_neg (by decide)]; exact used
  refine ⟨given_agrees (p := .inode) bound kept agrees, fun m small => ?_, fun b o found => ?_⟩
  · rw [released_blockBm, ledger.metadata m small, Bool.true_and]
    exact decide_eq_true (by omega)
  · obtain ⟨apart, found⟩ := Owner.drop_of found
    obtain ⟨lower, upper, set⟩ := ledger.owned b o found
    have other : b.toNat ≠ ptr.toNat := fun same => apart (UInt32.toNat_inj.mp same)
    refine ⟨lower, upper, ?_⟩
    rw [released_blockBm, set, Bool.true_and]
    exact decide_eq_true other

section
variable (ledger : Ledger v own) (owner : own ptr = some (n, .data 0))
include owner

omit [InodeLayout] in
theorem Owner.drop_keeps (found : own b = some (i, r)) (apart : i ≠ n) :
    own.drop ptr b = some (i, r) := by
  rw [Owner.drop_other ?_, found]
  rintro rfl
  rw [owner] at found
  cases found
  exact apart rfl

include ledger

omit [InodeLayout] in
theorem Mapped.released (mapped : Mapped v.disk own i st) (apart : i ≠ n) :
    Mapped (v.released ptr n).disk (own.drop ptr) i st := by
  have list : blockList (v.released ptr n).disk st = blockList v.disk st :=
    blockList_congr fun many => released_disk (by
      have := (ledger.owned _ _ (mapped.single (mapped.indirect many))).1
      omega)
  refine ⟨mapped.few, fun k b found => ?_, fun given => ?_, mapped.indirect⟩
  · rw [list] at found
    exact Owner.drop_keeps owner (mapped.data k b found) apart
  · exact Owner.drop_keeps owner (mapped.single given) apart

theorem DirAt.released (dir : DirAt v.disk own i st rs) (apart : i ≠ n) (bound : i.toNat < 6400) :
    DirAt (v.released ptr n).disk (own.drop ptr) i st rs where
  read := (inodeRead_congr bound fun b low _ => released_disk low).trans dir.read
  type := dir.type
  blocks := dir.blocks
  single := dir.single
  owner := Owner.drop_keeps owner dir.owner apart
  only := fun _ r found => dir.only _ r (Owner.drop_of found).2
  tiles := by
    rw [released_disk (by have := (ledger.owned _ _ dir.owner).1; omega)]
    exact dir.tiles

theorem FileAt.released (file : FileAt v.disk own i st) (apart : i ≠ n) (bound : i.toNat < 6400) :
    FileAt (v.released ptr n).disk (own.drop ptr) i st :=
  ⟨(inodeRead_congr bound fun _ low _ => released_disk low).trans file.read, file.type,
    file.mapped.released ledger owner apart, file.blocks⟩

end

/-- The empty directory `e` is released and taken out of directory `i`, and nothing else
changes. -/
theorem Holds.erase (holds : Holds v own node) (found : node i = some (.dir p es)) (member : e ∈ es)
    (empty : node e.inode = some (.dir i [])) (owner : own ptr = some (e.inode, .data 0))
    (only : ∀ b r, own b = some (e.inode, r) → b = ptr)
    (confined : Confined (v.released ptr e.inode) (own.drop ptr) (· = i) v' (own.drop ptr))
    (before : inodeRead v.disk i = some st) (place : st'.data0 = st.data0)
    (dir : DirAt v'.disk (own.drop ptr) i st'
      (records i p (es.filter fun f => f.name ≠ e.name)))
    (inodeBm : v'.inodeBmCache = (v.released ptr e.inode).inodeBmCache) :
    Holds v' (own.drop ptr) (NameTree.erase scheme node i p es e) := by
  have apart : i ≠ e.inode := by
    intro same
    rw [← same, found] at empty
    cases empty
    cases member
  have entries (j f) := holds.tree.entry_erase (j := j) (f := f) found member empty apart
  have live (j) : NameTree.erase scheme node i p es e j ≠ none ↔ j ≠ e.inode ∧ node j ≠ none :=
    NameTree.erase_live (S := scheme) found
  constructor
  case ledger => exact confined.ledger
  case tree => exact holds.tree.erase found member empty
  case proper => exact fun j f entry => holds.proper j f ((entries j f).mp entry).1
  case inodes =>
    intro j present
    obtain ⟨gone, before⟩ := (live j).mp present
    obtain ⟨inside, used⟩ := holds.inodes j before
    refine ⟨inside, ?_⟩
    rw [inodeBm, released_inodeBm, used, Bool.true_and]
    exact decide_eq_true fun same => gone (UInt32.toNat_inj.mp same)
  case exact_inodes =>
    intro m set
    rw [inodeBm, released_inodeBm, Bool.and_eq_true] at set
    obtain ⟨j, rfl, before⟩ := holds.exact_inodes m set.1
    have gone : j ≠ e.inode := by
      rintro rfl
      exact of_decide_eq_true set.2 rfl
    exact ⟨j, rfl, (live j).mpr ⟨gone, before⟩⟩
  case exact_blocks =>
    intro m set
    rcases confined.used m set with old | new
    · rw [released_blockBm, Bool.and_eq_true] at old
      rcases holds.exact_blocks m old.1 with low | ⟨b, o, rfl, owned⟩
      · exact .inl low
      · have other : b ≠ ptr := by
          rintro rfl
          exact of_decide_eq_true old.2 rfl
        exact .inr ⟨b, o, rfl, (Owner.drop_other other).trans owned⟩
    · exact .inr new
  case owners =>
    intro b o owned
    obtain ⟨other, owned⟩ := Owner.drop_of owned
    refine (live o.1).mpr ⟨fun gone => ?_, holds.owners b o owned⟩
    obtain ⟨j, r⟩ := o
    simp only at gone
    subst gone
    exact other (only b r owned)
  case dirs =>
    intro j q fs kind
    obtain ⟨gone, ⟨rfl, parent⟩ | ⟨here, old⟩⟩ := NameTree.erase_cases (S := scheme) kind
    · cases parent
      exact ⟨st', dir⟩
    · obtain ⟨st, was⟩ := holds.dirs j q fs old
      have bound := (holds.inodes j (by rw [old]; simp)).1
      exact ⟨st, (was.released holds.ledger owner gone bound).frame confined here bound⟩
  case files =>
    intro j kind
    obtain ⟨gone, ⟨_, parent⟩ | ⟨here, old⟩⟩ := NameTree.erase_cases (S := scheme) kind
    · cases parent
    · obtain ⟨st, was⟩ := holds.files j old
      have bound := (holds.inodes j (by rw [old]; simp)).1
      exact ⟨st, (was.released holds.ledger owner gone bound).frame confined here bound⟩
  case root =>
    refine holds.root_kept before dir.read place fun here => ?_
    exact (confined.table 0 (by decide) here).trans
      (inodeRead_congr (by decide) fun b low _ => released_disk low)

/-- The walk of a path finds all its components. -/
def Whole (s : Fs) (path : Name) : Prop := landing s path ≠ none

/-- The path whose directory `cnrmdir` rewrites. -/
def parentPath (path : Name) : Name := path ++ slash :: dotDot

/-- Directory `e` is gone from directory `i`, the directory `cwd` stands in. -/
structure Removed (s : Fs) (own : Owner) (node : Nodes) (path : Name) (i p : Iptr)
    (es : List DirEntry) (e : DirEntry) (ptr : UInt32) (v' : Vol) : Prop where
  found : node i = some (.dir p es)
  member : e ∈ es
  name : e.name = path
  empty : node e.inode = some (.dir i [])
  owner : own ptr = some (e.inode, .data 0)
  here : ∃ cwd, s.cwd = some cwd ∧ cwd.inodeId = i
  confined : Confined (s.vol.released ptr e.inode) (own.drop ptr) (· = i) v' (own.drop ptr)
  holds : Holds v' (own.drop ptr) (NameTree.erase scheme node i p es e)

theorem Holds.lookup_proper (holds : Holds v own node) (found : node i = some (.dir p es))
    (named : lookup v.disk i tok = some e) (notDot : tok ≠ dot) (notDotDot : tok ≠ dotDot) :
    e ∈ es ∧ e.name = tok := by
  rw [holds.lookup_eq found] at named
  have isName : e.name = tok := by simpa using List.find?_some named
  refine ⟨?_, isName⟩
  rcases List.mem_cons.mp (List.mem_of_find?_eq_some named) with rfl | member
  · exact absurd isName.symm notDot
  · rcases List.mem_cons.mp member with rfl | member
    · exact absurd isName.symm notDotDot
    · exact member

theorem Holds.lookup_member (holds : Holds v own node) (found : node i = some (.dir p es))
    (member : e ∈ es) : lookup v.disk i e.name = some e := by
  have proper := holds.proper i e (.of found member)
  cases named : lookup v.disk i e.name with
  | none => exact absurd rfl (holds.unnamed found named e (by simp [records, member]))
  | some f =>
    obtain ⟨inside, same⟩ := holds.lookup_proper found named proper.notDot proper.notDotDot
    rw [holds.tree.name_inj (S := scheme) found inside member same]

theorem Holds.lookup_dots (holds : Holds v own node) (found : node i = some (.dir p es)) :
    lookup v.disk i dot = some (dotEntry i) ∧ lookup v.disk i dotDot = some (dotDotEntry p) := by
  rw [holds.lookup_eq found, holds.lookup_eq found]
  exact ⟨rfl, rfl⟩

/-- The parent of a directory named by a single component is where the walk starts. -/
theorem Holds.landing_parent {s : Fs} (holds : Holds s.vol own node)
    (home : ∀ dir, s.cwd = some dir → ∃ q fs, node dir.inodeId = some (.dir q fs))
    (noFiles : PathOk s (parentPath path)) (nonempty : path ≠ []) (clean : slash ∉ path)
    (notDot : path ≠ dot) (notDotDot : path ≠ dotDot)
    (land : landing s (parentPath path) = some i) : ∃ cwd, s.cwd = some cwd ∧ cwd.inodeId = i := by
  obtain ⟨c, rest, rfl⟩ := List.exists_cons_of_ne_nil nonempty
  have apart : c ≠ slash := fun same => clean (by simp [same])
  have relative : ¬ (parentPath (c :: rest)).head? = some slash := by simp [parentPath, apart]
  have toks : walkToks (parentPath (c :: rest)) = [c :: rest, dotDot] := by
    rw [walkToks, if_neg (by simp [parentPath]), parentPath, strtok_append_slash,
      strtok_single nonempty clean]
    rfl
  obtain ⟨i₀, starts, walked⟩ := Option.bind_eq_some_iff.mp land
  have noFiles := noFiles i₀ starts
  rw [walkStart, if_neg relative] at starts
  obtain ⟨cwd, here, rfl⟩ := Option.map_eq_some_iff.mp starts
  obtain ⟨q, fs, found⟩ := home cwd here
  rw [toks] at walked noFiles
  refine ⟨cwd, here, ?_⟩
  rw [resolve] at walked
  cases named : lookup s.vol.disk cwd.inodeId (c :: rest) with
  | none => rw [named] at walked; cases walked
  | some e =>
    rw [named] at walked
    rw [NoFiles, named] at noFiles
    obtain ⟨q', fs', st, sub, dir⟩ := holds.component found named noFiles.1
    have proper := (holds.lookup_proper found named notDot notDotDot).1
    have isDir : scheme.isDir e = true := by
      rcases (holds.proper _ e (.of found proper)).kind with isDir | isFile
      · exact decide_eq_true isDir
      · exact absurd isFile noFiles.1
    obtain ⟨gs, sub'⟩ := holds.tree.subdir _ e (.of found proper) isDir
    have parent : q' = cwd.inodeId := by
      rw [show scheme.target e = e.inode from rfl, sub] at sub'
      cases sub'
      rfl
    have up : lookup s.vol.disk e.inode dotDot = some (dotDotEntry q') := by
      rw [holds.lookup_eq sub]
      rfl
    dsimp only at walked
    rw [resolve, up] at walked
    cases walked
    exact parent.symm

theorem DirAt.empty (dir : DirAt v.disk own i st (records i p es)) (size : st.size = 24) :
    es = [] := by
  obtain ⟨_, _, _, _, tail⟩ := dir.tiles
  have stop : st.size.toNat = 24 := by rw [size]; rfl
  have start : 0 + (dotEntry i).entryLen + (dotDotEntry p).entryLen = 24 := rfl
  have := tail.length_le
  exact List.eq_nil_of_length_eq_zero (by omega)

theorem Holds.child (holds : Holds v own node) (found : node i = some (.dir p es)) (member : e ∈ es)
    (isDir : e.fileType = ITYPE_DIR) : ∃ fs st, node e.inode = some (.dir i fs) ∧
      DirAt v.disk own e.inode st (records e.inode i fs) ∧ i ≠ e.inode ∧ e.inode.toNat < 6400 ∧
      bit v.inodeBmCache e.inode.toNat = true := by
  obtain ⟨fs, sub⟩ := holds.tree.subdir i e (.of found member) (decide_eq_true isDir)
  change node e.inode = _ at sub
  obtain ⟨st, dir⟩ := holds.dirs _ _ _ sub
  obtain ⟨bound, used⟩ := holds.inodes e.inode (by rw [sub]; simp)
  exact ⟨fs, st, sub, dir, (holds.tree.target_ne (.of found member)).symm, bound, used⟩

theorem Holds.rewritten (holds : Holds v own node) (found : node i = some (.dir p es))
    (dir : DirAt v.disk own i st (records i p es)) (copied : Copied new (records i p es))
    (written : inodeWrite v.disk i { st with size := new.size } = some d)
    (flushed : llwrite d { st with size := new.size } new.data = some d') :
    Confined v own (· = i) { v with disk := d' } own ∧ Holds { v with disk := d' } own node := by
  have bound := (holds.inodes i (by rw [found]; simp)).1
  obtain ⟨confined, after⟩ := copied.write holds.ledger dir bound written flushed
  refine ⟨confined, holds.confined confined rfl (fun j same => ?_) (fun j q fs same kind => ?_)
    (fun j same kind => ?_) fun same => ?_⟩
  · rw [same, found]; simp
  · subst same
    rw [found] at kind
    cases kind
    exact ⟨_, after⟩
  · subst same
    rw [found] at kind
    cases kind
  · subst same
    exact holds.root_kept dir.read after.read rfl fun other => absurd rfl other

/-- `cnrmdir` changes nothing, rewrites a directory without changing its entries, or takes
an empty directory out of the current one. -/
theorem Holds.rmdir {s s' : Fs} (holds : Holds s.vol own node)
    (home : ∀ dir, s.cwd = some dir → ∃ q fs, node dir.inodeId = some (.dir q fs))
    (noFiles : PathOk s (parentPath path)) (whole : Whole s (parentPath path))
    (notDot : path ≠ dot) (notDotDot : path ≠ dotDot)
    (onlyDirs : ∀ i e, landing s (parentPath path) = some i →
      lookup s.vol.disk i path = some e → e.fileType = ITYPE_DIR)
    (run : cnrmdir path s = some (code, s')) :
    (code = -1 ∧ s' = s) ∨
    (code = 0 ∧ ∃ i p es v', node i = some (.dir p es) ∧ landing s (parentPath path) = some i ∧
      lookup s.vol.disk i path = none ∧ s' = { s with vol := v' } ∧
      Confined s.vol own (· = i) v' own ∧ Holds v' own node) ∨
    (code = 0 ∧ ∃ i p es e ptr v', landing s (parentPath path) = some i ∧
      s' = { s with vol := v' } ∧ Removed s own node path i p es e ptr v') := by
  obtain ⟨r, opened, run⟩ := Option.bind_eq_some_iff.mp run
  obtain ⟨parent, isSome, run⟩ := Option.bind_eq_some_iff.mp run
  obtain ⟨_, landed, _⟩ := holds.opendir home noFiles opened
  obtain ⟨i, land⟩ := Option.ne_none_iff_exists'.mp whole
  obtain ⟨h, rfl, p, es, st, found, dir, rfl⟩ := landed i land
  obtain rfl := Option.some.inj isSome
  obtain ⟨⟨out, v₁⟩, looped, run⟩ := Option.bind_eq_some_iff.mp run
  have one : (handle s.vol.disk i st).inodeSt.blocks.toNat = 1 := by
    rw [show (handle s.vol.disk i st).inodeSt.blocks = 1 from dir.blocks]; rfl
  have bound := (holds.inodes i (by rw [found]; simp)).1
  have sounds := holds.records_sound found
  have texts (r) (member : r ∈ records i p es) : cstr r.name = r.name :=
    (holds.records_text found member).2
  rw [one] at looped
  cases named : lookup s.vol.disk i path with
  | none =>
    have names := holds.unnamed found named
    obtain ⟨new, same, copied⟩ := rmdirLoop_kept dir.lists Copied.start sounds
      (fun r member => by rw [texts r member]; exact names r member) looped
    cases same
    obtain ⟨d, written, run⟩ := Option.bind_eq_some_iff.mp run
    obtain ⟨d', flushed, run⟩ := Option.bind_eq_some_iff.mp run
    cases run
    obtain ⟨confined, after⟩ := holds.rewritten found dir copied written flushed
    exact .inr (.inl ⟨rfl, i, p, es, _, found, land, named, rfl, confined, after⟩)
  | some e =>
    obtain ⟨member, isName⟩ := holds.lookup_proper found named notDot notDotDot
    have isDir := onlyDirs i e land named
    have proper := holds.proper i e (.of found member)
    obtain ⟨nonempty, clean⟩ := proper.dirName isDir
    rw [isName] at nonempty clean
    obtain ⟨fs, st₁, sub, child, apart, number, used⟩ := holds.child found member isDir
    obtain ⟨front, back, split, others⟩ := NameTree.split_entry (S := scheme)
      (holds.tree.names i p es found) member
    have rows : records i p es = (dotEntry i :: dotDotEntry p :: front) ++ e :: back := by
      rw [records, split]; rfl
    have different : ∀ r ∈ (dotEntry i :: dotDotEntry p :: front) ++ back, cstr r.name ≠ path := by
      intro r inside
      rcases List.mem_cons.mp inside with rfl | inside
      · exact fun same => notDot same.symm
      · rcases List.mem_cons.mp inside with rfl | inside
        · exact fun same => notDotDot same.symm
        · change r ∈ front ++ back at inside
          rw [← others] at inside
          obtain ⟨inEs, unlike⟩ := List.mem_filter.mp inside
          rw [texts r (List.mem_cons_of_mem _ (List.mem_cons_of_mem _ inEs)), ← isName]
          exact of_decide_eq_true unlike
    have texted : cstr e.name = path := by
      rw [texts e (List.mem_cons_of_mem _ (List.mem_cons_of_mem _ member)), isName]
    have lists := dir.lists
    rw [rows] at lists sounds
    rcases rmdirLoop_found lists Copied.start sounds different texted child.read
      (holds.ledger.owned _ _ child.owner).2.1 number looped with
      ⟨_, same⟩ | ⟨size, new, same, copied⟩
    · cases same
      cases run
      exact .inl ⟨rfl, rfl⟩
    · cases same
      obtain ⟨d, written, run⟩ := Option.bind_eq_some_iff.mp run
      obtain ⟨d', flushed, run⟩ := Option.bind_eq_some_iff.mp run
      cases run
      have empty := child.empty size
      subst empty
      obtain ⟨confined, after⟩ := copied.write
        (holds.ledger.released child.owner number used)
        (dir.released holds.ledger child.owner apart bound) bound written flushed
      have kept : [] ++ ((dotEntry i :: dotDotEntry p :: front) ++ back) =
          records i p (es.filter fun f => f.name ≠ e.name) :=
        congrArg (fun l => dotEntry i :: dotDotEntry p :: l) others.symm
      rw [kept] at after
      exact .inr (.inr ⟨rfl, i, p, es, e, _, _, land, rfl,
        ⟨found, member, isName, sub, child.owner,
          holds.landing_parent home noFiles nonempty clean notDot notDotDot land, confined,
          holds.erase found member sub child.owner child.only confined dir.read
            (show ({ st with size := new.size } : Inode).data0 = st.data0 from rfl) after rfl⟩⟩)

end
end CdnwSh
