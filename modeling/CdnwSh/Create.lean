import CdnwSh.Walk

/-! Creating entries: `appendEntry`, the end of `cnmkdir` and `cncreat` each change one
directory and one fresh inode, and the volume then holds the tree with the new node. -/
namespace CdnwSh

open ByteMemory RecordList

variable [InodeLayout]

section
variable {v v' : Vol} {own own' : Owner} {who : Iptr → Prop} {node : Nodes} {i p n : Iptr}
  {st : Inode} {es rs : List DirEntry}

/-- Taking an id is confined to whoever becomes its owner. -/
theorem taken_confined {pool : Pool} (ledger : Ledger v own) (free : ptr ∈ freeList pool v)
    (extended : own.Extends own')
    (new : ∀ b o, own' b = some o → own b = some o ∨ pool = .block ∧ b = ptr ∧ who o.1)
    (owned : pool = .block → ∃ o, own' ptr = some o) :
    Confined v own who (v.taken pool ptr) own' := by
  obtain ⟨bound, clear⟩ := mem_freeList.mp free
  have wide := limit_le (p := pool)
  have bits (q : Pool) (m : Nat) : bit (q.cache (v.taken pool ptr)) m =
      (bit (q.cache v) m || decide (q = pool ∧ m = ptr.toNat)) := by
    rw [taken_cache]
    split
    next same => rw [bit_setBit (by omega)]; simp [same]
    next apart => simp [apart]
  have kept (q : Pool) (m : Nat) (set : bit (q.cache v) m = true) :
      bit (q.cache (v.taken pool ptr)) m = true := by rw [bits, set, Bool.true_or]
  constructor
  case ledger =>
    refine ⟨taken_agrees bound clear ledger.agrees, fun m low => kept .block m (ledger.metadata m low),
      fun b o found => ?_⟩
    rcases new b o found with old | ⟨rfl, rfl, _⟩
    · obtain ⟨low, high, used⟩ := ledger.owned b o old
      exact ⟨low, high, kept .block _ used⟩
    · obtain ⟨low, high, _⟩ := ledger.fresh free
      refine ⟨low, high, ?_⟩
      have := bits .block b.toNat
      rw [decide_eq_true ⟨rfl, rfl⟩, Bool.or_true] at this
      exact this
  case extends' => exact extended
  case new =>
    intro b o found
    rcases new b o found with old | ⟨_, _, mine⟩
    · exact .inl old
    · exact .inr mine
  case copies =>
    intro j copy held
    refine (held.frame fun many => ?_).extend extended
    have low := (ledger.owned _ _ (held.single (held.indirect many))).1
    exact (taken_disk (by omega)).symm
  case disk =>
    intro b o found _
    exact taken_disk (by have := (ledger.owned b o found).1; omega)
  case table =>
    intro j inside _
    exact inodeRead_congr inside fun b low _ => taken_disk low
  case inodes => exact fun m set => kept .inode m set
  case used =>
    intro m set
    have := bits .block m
    rw [show bit (Pool.block.cache (v.taken pool ptr)) m = true from set] at this
    rcases (Bool.or_eq_true _ _).mp this.symm with old | new
    · exact .inl old
    · obtain ⟨same, value⟩ := of_decide_eq_true new
      obtain ⟨o, found⟩ := owned same.symm
      exact .inr ⟨ptr, o, value.symm, found⟩
  case flush => exact taken_flushes

theorem set_confined (ledger : Ledger v own) (owner : own b = some (i, .data k)) :
    Confined v own (· = i) { v with disk := Extents.set v.disk b blk } own ∧
    ∀ j : Iptr, j.toNat < 6400 → inodeRead (Extents.set v.disk b blk) j = inodeRead v.disk j := by
  have low := (ledger.owned _ _ owner).1
  have table (j : Iptr) (bound : j.toNat < 6400) :
      inodeRead (Extents.set v.disk b blk) j = inodeRead v.disk j := by
    refine inodeRead_congr bound fun c _ high => Extents.set_other ?_
    rintro rfl
    omega
  refine ⟨ledger.confined (fun c _ other => Extents.set_other ?_) fun j bound _ => table j bound,
    table⟩
  rintro rfl
  exact other k owner

/-- A handle that shows what directory `i` holds on disk, wherever it stands. -/
structure HandleOf (h : DirPtr) (i : Iptr) (st : Inode) (rs : List DirEntry) : Prop where
  inodeId : h.inodeId = i
  inode : { h.inodeSt with modified := st.modified } = st
  size : h.data.size = 4096
  tiles : Tiles (entryAt h.data) DirEntry.entryLen 0 st.size.toNat rs

omit [InodeLayout] in
theorem HandleOf.field (current : HandleOf h i st rs) : h.inodeSt.size = st.size ∧
    h.inodeSt.type = st.type ∧ h.inodeSt.blocks = st.blocks ∧ h.inodeSt.data0 = st.data0 ∧
    h.inodeSt.data1 = st.data1 := by
  have same := current.inode
  refine ⟨?_, ?_, ?_, ?_, ?_⟩ <;> rw [← same]

theorem DirAt.handleOf (dir : DirAt d own i st rs) : HandleOf (handle d i st) i st rs :=
  ⟨rfl, rfl, rfl, dir.tiles⟩

omit [InodeLayout] in
theorem HandleOf.reindex (current : HandleOf h i st rs) : HandleOf { h with index := k } i st rs :=
  ⟨current.inodeId, current.inode, current.size, current.tiles⟩

/-- What `appendEntry` leaves: one more record in the directory and in the handle. -/
structure Appended (v : Vol) (own : Owner) (i : Iptr) (rs : List DirEntry) (e : DirEntry)
    (st' : Inode) (h' : DirPtr) (v' : Vol) : Prop where
  fresh : e.inode ∈ freeList .inode v
  confined : Confined v own (· = i) v' own
  dir : DirAt v'.disk own i st' (rs ++ [e])
  handle : HandleOf h' i st' (rs ++ [e])
  inodeBm : v'.inodeBmCache = setBit v.inodeBmCache e.inode.toNat
  blocks : freeList .block v' = freeList .block v

theorem appendEntry_spec {s : Fs} (ledger : Ledger s.vol own)
    (dir : DirAt s.vol.disk own i st rs) (current : HandleOf h i st rs)
    (ended : h.index = h.inodeSt.size) (bound : i.toNat < 6400) (sounds : ∀ r ∈ rs, r.Sound)
    (short : name.length ≤ 255) (left : Pool.inode.free s.vol ≠ 0)
    (run : appendEntry s h name fileType = some (n, h', s')) :
    ∃ v' st', s' = { s with vol := v', ticks := s.ticks + 1 } ∧ st'.data0 = st.data0 ∧
      Appended s.vol own i rs ⟨n, entryLenOf name.length, fileType, name⟩ st' h' v' := by
  obtain ⟨size, type, blocks, data0, data1⟩ := current.field
  have whole : name.length % 256 = name.length := Nat.mod_eq_of_lt (by omega)
  obtain ⟨ptr, rest, free⟩ := List.exists_cons_of_ne_nil
    (show freeList .inode s.vol ≠ [] by
      intro none
      rw [← length_freeList (ledger.agrees .inode), none] at left
      exact left rfl)
  have member : ptr ∈ freeList .inode s.vol := by rw [free]; exact List.mem_cons_self
  rw [appendEntry, reserveInode, reserve_head (ledger.agrees .inode) free] at run
  simp only [Option.bind_eq_bind, Option.bind_some, whole] at run
  obtain ⟨data, stored, run⟩ := Option.bind_eq_some_iff.mp run
  simp only [timeNull] at run
  obtain ⟨d, written, run⟩ := Option.bind_eq_some_iff.mp run
  obtain ⟨⟨code, d'⟩, flushed, run⟩ := Option.bind_eq_some_iff.mp run
  have sound : DirEntry.Sound ⟨ptr, entryLenOf name.length, fileType, name⟩ := ⟨short, rfl⟩
  obtain ⟨tiles, dataSize⟩ := storeEntry_snoc (e := ⟨ptr, entryLenOf name.length, fileType, name⟩)
    current.tiles sounds sound (by rw [← size, ← ended]; exact stored)
  have room : st.size.toNat + 8 + name.length ≤ 4096 := by
    unfold storeEntry at stored
    split at stored
    next inside => rw [ended, size, current.size] at inside; exact inside
    · cases stored
  have grown : (h.inodeSt.size + UInt32.ofNat (entryLenOf name.length)).toNat =
      st.size.toNat + entryLenOf name.length := by
    have len := sound.len
    rw [UInt32.toNat_add, UInt32.toNat_ofNat', size]
    simp only at len
    omega
  have reserved : Confined s.vol own (· = i) (s.vol.taken .inode ptr) own :=
    taken_confined ledger member (.refl own) (fun _ _ found => .inl found) (by simp)
  rw [current.inodeId] at written
  obtain ⟨inodeDone, back⟩ := inodeWrite_confined reserved.ledger bound written
  have owner := dir.owner
  obtain ⟨low, high, _⟩ := ledger.owned _ _ owner
  simp only [data0] at flushed
  rw [blkWriteBuf_inside high (by rw [dataSize, current.size])] at flushed
  cases flushed
  cases run
  obtain ⟨blockDone, table⟩ := set_confined inodeDone.ledger owner
  have kept := table i bound
  refine ⟨_, { h.inodeSt with
    size := h.inodeSt.size + UInt32.ofNat (entryLenOf name.length),
    modified := s.clock s.ticks }, rfl, data0, ⟨member, (reserved.trans inodeDone).trans blockDone,
    ⟨kept.trans back, type.trans dir.type, blocks.trans dir.blocks, data1.trans dir.single, ?_, ?_, ?_⟩,
    ⟨current.inodeId, rfl, dataSize.trans current.size, ?_⟩, rfl, ?_⟩⟩
  · simp only [data0]; exact owner
  · simp only [data0]; exact dir.only
  · simp only [data0, grown, Extents.set_same]
    have sounds' : ∀ r ∈ rs ++ [⟨n, entryLenOf name.length, fileType, name⟩], r.Sound := by
      intro r inside
      rcases List.mem_append.mp inside with old | last
      · exact sounds r old
      · rw [List.mem_singleton.mp last]; exact sound
    refine tiles.congr fun o r inside _ _ read => entryAt_congr read ?_ fun k _ upper => ?_
    · rw [dataSize, current.size]
    · have fits : o + 8 + r.name.length ≤ data.size := entryAt_inside read
      rw [dataSize, current.size] at fits
      change (Block.ofMem data.mem 0).mem k = _
      rw [Block.mem_ofMem (by omega), Nat.zero_add]
  · rw [grown]; exact tiles
  · exact freeList_congr rfl

/-- `ptr` becomes the first block of inode `n`. -/
def Owner.give (own : Owner) (ptr n : Iptr) : Owner :=
  fun b => if b = ptr then some (n, .data 0) else own b

omit [InodeLayout] in
theorem Owner.give_same : own.give ptr n ptr = some (n, .data 0) := if_pos rfl

omit [InodeLayout] in
theorem Owner.give_new (found : own.give ptr n b = some o) :
    own b = some o ∨ b = ptr ∧ o = (n, .data 0) := by
  unfold Owner.give at found
  split at found
  next same => exact .inr ⟨same, (Option.some.inj found).symm⟩
  · exact .inl found

omit [InodeLayout] in
theorem Owner.give_extends (unowned : own ptr = none) : own.Extends (own.give ptr n) := by
  intro b o found
  have apart : b ≠ ptr := by
    rintro rfl
    rw [unowned] at found
    cases found
  exact (if_neg apart).trans found

/-- The new directory owns the block it gets. -/
theorem createDir_spec {s : Fs} (ledger : Ledger s.vol own) (bound : n.toNat < 6400)
    (unowned : ∀ b r, own b ≠ some (n, r)) (left : Pool.block.free s.vol ≠ 0)
    (run : createDir s n p = some s') :
    ∃ v' own' st, s' = { s with vol := v', ticks := s.ticks + 1 } ∧
      Confined s.vol own (· = n) v' own' ∧ DirAt v'.disk own' n st (records n p []) ∧
      v'.inodeBmCache = s.vol.inodeBmCache := by
  obtain ⟨ptr, rest, free⟩ := List.exists_cons_of_ne_nil
    (show freeList .block s.vol ≠ [] by
      intro none
      rw [← length_freeList (ledger.agrees .block), none] at left
      exact left rfl)
  have member : ptr ∈ freeList .block s.vol := by rw [free]; exact List.mem_cons_self
  obtain ⟨low, high, free'⟩ := ledger.fresh member
  rw [createDir] at run
  simp only [timeNull, reserveBlock] at run
  rw [reserve_head (ledger.agrees .block) free] at run
  simp only [Option.bind_eq_bind, Option.bind_some] at run
  obtain ⟨d, written, run⟩ := Option.bind_eq_some_iff.mp run
  rw [blkWrite_inside high] at run
  cases run
  have reserved : Confined s.vol own (· = n) (s.vol.taken .block ptr) (own.give ptr n) := by
    refine taken_confined ledger member (Owner.give_extends free') (fun b o found => ?_)
      fun _ => ⟨_, Owner.give_same⟩
    rcases Owner.give_new found with old | ⟨rfl, rfl⟩
    · exact .inl old
    · exact .inr ⟨rfl, rfl, rfl⟩
  obtain ⟨inodeDone, back⟩ := inodeWrite_confined reserved.ledger bound written
  obtain ⟨blockDone, table⟩ := set_confined inodeDone.ledger
    (Owner.give_same (n := n))
  refine ⟨_, _, { newInode ITYPE_DIR (s.clock s.ticks) with
    size := 24, blocks := 1, data0 := (Vector.replicate 8 0).setIfInBounds 0 ptr }, rfl,
    (reserved.trans inodeDone).trans blockDone,
    ⟨(table n bound).trans back, rfl, rfl, rfl, Owner.give_same, fun b r found => ?_, ?_⟩, rfl⟩
  · rcases Owner.give_new found with old | ⟨rfl, _⟩
    · exact absurd old (unowned b r)
    · rfl
  · have place : ((Vector.replicate 8 (0 : UInt32)).setIfInBounds 0 ptr)[0] = ptr := rfl
    simp only [place, Extents.set_same]
    exact newDirBlock_tiles n p

omit [InodeLayout] in
theorem newInode_mapped : Mapped d own i (newInode type time) where
  few := Nat.zero_le _
  data := fun k ptr found => by
    have none : blockList d (newInode type time) = [] :=
      List.eq_nil_of_length_eq_zero (by rw [length_blockList]; rfl)
    rw [none] at found
    cases found
  single := fun given => absurd rfl given
  indirect := fun many => absurd many (by simp [newInode, Inode.zero])

/-- The node of a new entry of directory `i`. -/
def newNode (i : Iptr) (e : DirEntry) : NameTree.Node Iptr DirEntry :=
  if e.fileType = ITYPE_DIR then .dir i [] else .file

omit [InodeLayout] in
theorem newNode_dir (same : newNode i e = .dir q fs) : e.fileType = ITYPE_DIR ∧ q = i ∧ fs = [] := by
  unfold newNode at same
  split at same
  next isDir => cases same; exact ⟨isDir, rfl, rfl⟩
  · cases same

omit [InodeLayout] in
theorem newNode_file (same : newNode i e = .file) : e.fileType ≠ ITYPE_DIR := by
  unfold newNode at same
  split at same
  · cases same
  next isFile => exact isFile

omit [InodeLayout] in
theorem insert_newDir (isDir : e.fileType = ITYPE_DIR) :
    NameTree.insert scheme node i p es e (newNode i e) e.inode = some (.dir i []) := by
  refine (NameTree.insert_target (S := scheme)).trans ?_
  rw [newNode, if_pos isDir]

omit [InodeLayout] in
theorem insert_newFile (isFile : e.fileType = ITYPE_FILE) :
    NameTree.insert scheme node i p es e (newNode i e) e.inode = some .file := by
  refine (NameTree.insert_target (S := scheme)).trans ?_
  rw [newNode, isFile]
  rfl

/-- One new entry in directory `i` with a fresh inode, and nothing else. -/
theorem Holds.insert (holds : Holds v own node) (found : node i = some (.dir p es))
    (before : inodeRead v.disk i = some st) (fresh : e.inode ∈ freeList .inode v)
    (proper : Proper e) (unnamed : lookup v.disk i e.name = none)
    (confined : Confined v own (fun j => j = i ∨ j = e.inode) v' own')
    (dir : DirAt v'.disk own' i st' (records i p es ++ [e])) (place : st'.data0 = st.data0)
    (inodeBm : v'.inodeBmCache = setBit v.inodeBmCache e.inode.toNat)
    (subdir : e.fileType = ITYPE_DIR → ∃ st, DirAt v'.disk own' e.inode st (records e.inode i []))
    (file : e.fileType ≠ ITYPE_DIR → ∃ st, FileAt v'.disk own' e.inode st) :
    Holds v' own' (NameTree.insert scheme node i p es e (newNode i e)) := by
  obtain ⟨bound, clear⟩ := mem_freeList.mp fresh
  have free : node e.inode = none := by
    by_contra live
    exact Bool.false_ne_true (clear.symm.trans (holds.inodes _ live).2)
  have bits (m : Nat) : bit v'.inodeBmCache m = (bit v.inodeBmCache m || decide (m = e.inode.toNat)) := by
    rw [inodeBm, bit_setBit (Nat.lt_of_lt_of_le bound limit_le)]
  have names : e.name ∉ es.map DirEntry.name := by
    intro member
    obtain ⟨f, inside, named⟩ := List.mem_map.mp member
    rw [holds.lookup_eq found, List.find?_eq_none] at unnamed
    exact unnamed f (List.mem_cons_of_mem _ (List.mem_cons_of_mem _ inside)) (by simpa using named)
  have childless : ∀ q fs, newNode i e = .dir q fs → fs = [] := fun q fs same =>
    (newNode_dir same).2.2
  have entries (j f) := NameTree.entry_insert (S := scheme) (j := j) (f := f) (e := e) found free
    childless
  have others (j) (live : node j ≠ none) (other : j ≠ i) : ¬ (j = i ∨ j = e.inode) := by
    rintro (same | same)
    · exact other same
    · rw [same] at live; exact live free
  have live (j) : NameTree.insert scheme node i p es e (newNode i e) j ≠ none ↔
      j = e.inode ∨ node j ≠ none := NameTree.insert_live (S := scheme) found
  constructor
  case ledger => exact confined.ledger
  case tree => exact holds.tree.insert found free names (by simp [scheme, newNode])
  case proper =>
    intro j f entry
    rcases (entries j f).mp entry with old | ⟨_, rfl⟩
    · exact holds.proper j f old
    · exact proper
  case inodes =>
    intro j present
    rcases (live j).mp present with rfl | before
    · exact ⟨bound, by rw [bits]; simp⟩
    · obtain ⟨inside, used⟩ := holds.inodes j before
      exact ⟨inside, by rw [bits, used, Bool.true_or]⟩
  case exact_inodes =>
    intro m set
    rw [bits] at set
    rcases (Bool.or_eq_true _ _).mp set with old | new
    · obtain ⟨j, value, before⟩ := holds.exact_inodes m old
      exact ⟨j, value, (live j).mpr (.inr before)⟩
    · exact ⟨e.inode, (of_decide_eq_true new).symm, (live e.inode).mpr (.inl rfl)⟩
  case exact_blocks => exact fun m set => holds.blocks_kept confined set
  case owners =>
    intro b o owned
    refine (live o.1).mpr ?_
    rcases confined.new b o owned with old | same | new
    · exact .inr (holds.owners b o old)
    · exact .inr (by rw [same, found]; simp)
    · exact .inl new
  case dirs =>
    intro j q fs kind
    rcases NameTree.insert_cases (S := scheme) kind with ⟨rfl, new⟩ | ⟨_, ⟨rfl, parent⟩ | ⟨here, before⟩⟩
    · obtain ⟨isDir, rfl, rfl⟩ := newNode_dir new.symm
      exact subdir isDir
    · cases parent
      exact ⟨st', by simpa [records] using dir⟩
    · exact holds.dir_kept confined before (others j (by rw [before]; simp) here)
  case files =>
    intro j kind
    rcases NameTree.insert_cases (S := scheme) kind with ⟨rfl, new⟩ | ⟨_, ⟨_, parent⟩ | ⟨here, before⟩⟩
    · exact file (newNode_file new.symm)
    · cases parent
    · exact holds.file_kept confined before (others j (by rw [before]; simp) here)
  case root =>
    obtain ⟨fs, top⟩ := holds.tree.root_dir
    have live : node 0 ≠ none := by rw [top]; simp
    exact holds.root_kept before dir.read place fun here =>
      confined.table 0 (holds.inodes 0 live).1 (others 0 live here)

/-- One new entry `e` in directory `i`. -/
structure Entered (v : Vol) (own : Owner) (node : Nodes) (i p : Iptr) (es : List DirEntry)
    (e : DirEntry) (v' : Vol) (own' : Owner) : Prop where
  found : node i = some (.dir p es)
  fresh : e.inode ∈ freeList .inode v
  proper : Proper e
  unnamed : lookup v.disk i e.name = none
  confined : Confined v own (fun j => j = i ∨ j = e.inode) v' own'
  holds : Holds v' own' (NameTree.insert scheme node i p es e (newNode i e))

theorem Holds.unnamed (holds : Holds v own node) (found : node i = some (.dir p es))
    (none : lookup v.disk i tok = none) : ∀ e ∈ records i p es, e.name ≠ tok := by
  rw [holds.lookup_eq found, List.find?_eq_none] at none
  intro e member
  simpa using none e member

theorem Entered.lookup (entered : Entered v own node i p es e v' own') (holds : Holds v own node) :
    lookup v'.disk i e.name = some e := by
  have names := holds.unnamed entered.found entered.unnamed
  have apart : i ≠ e.inode := by
    have clear := (mem_freeList.mp entered.fresh).2
    rintro rfl
    have used := (holds.inodes e.inode (by rw [entered.found]; simp)).2
    exact Bool.false_ne_true (clear.symm.trans used)
  rw [entered.holds.lookup_eq (NameTree.insert_parent (S := scheme) apart),
    show records i p (es ++ [e]) = records i p es ++ [e] from rfl, List.find?_append,
    List.find?_eq_none.mpr fun r member => by simpa using names r member]
  simp

theorem Holds.unowned (holds : Holds v own node) (fresh : n ∈ freeList .inode v) :
    n.toNat < 6400 ∧ node n = none ∧ ∀ b r, own b ≠ some (n, r) := by
  obtain ⟨bound, clear⟩ := mem_freeList.mp fresh
  have free : node n = none := by
    by_contra live
    exact Bool.false_ne_true (clear.symm.trans (holds.inodes _ live).2)
  exact ⟨bound, free, fun b r owned => holds.owners b _ owned free⟩

/-- `cnmkdir` fails and changes nothing, or enters a new directory in its target. -/
theorem Holds.mkdir {s s' : Fs} {cwd : DirPtr} (holds : Holds s.vol own node)
    (here : s.cwd = some cwd) (found : node cwd.inodeId = some (.dir p es)) (text : 0 ∉ path)
    (noFiles : NoFilesMkdir s.vol.disk cwd.inodeId (strtok path))
    (left : mkdirTarget s.vol.disk cwd.inodeId (strtok path) ≠ none →
      Pool.inode.free s.vol ≠ 0 ∧ Pool.block.free s.vol ≠ 0)
    (run : cnmkdir path s = some (code, s')) :
    (mkdirTarget s.vol.disk cwd.inodeId (strtok path) = none ∧ code = -1 ∧ s' = s) ∨
    ∃ j q fs e v' own' t, mkdirTarget s.vol.disk cwd.inodeId (strtok path) = some (j, e.name) ∧
      code = 0 ∧ s' = { s with vol := v', ticks := t } ∧ e.fileType = ITYPE_DIR ∧
      Entered s.vol own node j q fs e v' own' := by
  obtain ⟨st, dir⟩ := holds.dirs _ _ _ found
  rw [cnmkdir, here] at run
  simp only [Option.bind_eq_bind, Option.bind_some, dir.read] at run
  rcases holds.mkdirWalk_eq found dir noFiles run with ⟨stopped, same⟩ | created
  · cases same
    exact .inl ⟨stopped, rfl, rfl⟩
  obtain ⟨j, tok, q, fs, st, target, member, short, found, dir, missing, run⟩ := created
  obtain ⟨inodes, blocks⟩ := left (by rw [target]; simp)
  obtain ⟨⟨n, h, s₁⟩, appended, run⟩ := Option.bind_eq_some_iff.mp run
  obtain ⟨s₂, made, run⟩ := Option.bind_eq_some_iff.mp run
  cases run
  have bound := (holds.inodes j (by rw [found]; simp)).1
  obtain ⟨v₁, st', rfl, place, entry⟩ := appendEntry_spec holds.ledger dir
    (h := { handle s.vol.disk j st with index := st.size }) dir.handleOf.reindex rfl bound
    (holds.records_sound found) short inodes appended
  obtain ⟨number, free, unowned⟩ := holds.unowned entry.fresh
  have left₁ : Pool.block.free v₁ ≠ 0 := by
    rw [← length_freeList (entry.confined.ledger.agrees .block), entry.blocks,
      length_freeList (holds.ledger.agrees .block)]
    exact blocks
  obtain ⟨v', own', st'', rfl, confined, child, inodeBm⟩ := createDir_spec
    entry.confined.ledger number unowned left₁ made
  have names := holds.unnamed found missing
  obtain ⟨clean, nonempty, _, sub⟩ := strtok_mem member
  have apart : j ≠ n := by
    rintro rfl
    rw [free] at found
    cases found
  have parent := entry.dir.frame confined apart bound
  have proper : Proper ⟨n, entryLenOf tok.length, ITYPE_DIR, tok⟩ :=
    ⟨⟨short, rfl⟩, fun zero => text (sub 0 zero),
      fun same => names (dotEntry j) List.mem_cons_self same.symm,
      fun same => names (dotDotEntry q) (List.mem_cons_of_mem _ List.mem_cons_self) same.symm,
      .inl rfl, fun _ => ⟨nonempty, clean⟩⟩
  have whole := (entry.confined.mono fun k same => (Or.inl same : k = j ∨ k = n)).trans
    (confined.mono fun k => .inr)
  refine .inr ⟨j, q, fs, ⟨n, entryLenOf tok.length, ITYPE_DIR, tok⟩, v', own', s.ticks + 1 + 1,
    target, rfl, rfl, rfl, ⟨found, entry.fresh, proper, missing, whole, ?_⟩⟩
  have self : h.inodeId = j := entry.handle.inodeId
  rw [self] at child
  exact holds.insert found dir.read entry.fresh proper missing whole parent place
    (inodeBm.trans entry.inodeBm) (fun _ => ⟨_, child⟩) fun isFile => absurd rfl isFile

/-- A scan of a handle that shows directory `i` is a lookup in it. -/
theorem HandleOf.findName (current : HandleOf h i st (records i p es)) (holds : Holds v own node)
    (found : node i = some (.dir p es)) (name : Name) :
    ∃ k, findName { h with index := 0 } name =
        some (lookup v.disk i name, { h with index := k }) ∧
      (lookup v.disk i name = none → k = h.inodeSt.size) := by
  have lists : DirPtr.Lists { h with index := 0 } (records i p es) := by
    have same : h.inodeSt.size = st.size := current.field.1
    unfold DirPtr.Lists
    rw [same]
    exact current.tiles
  obtain ⟨h₁, scanned, ⟨k, rfl⟩, ended⟩ := findName_eq lists
  have named : lookup v.disk i name =
      (records i p es).find? fun e => cstr e.name = name := by
    rw [holds.lookup_eq found, holds.find_eq found]
  exact ⟨k, by rw [scanned, named], fun none => ended (named ▸ none)⟩

theorem HandleOf.stat (current : HandleOf h i st (records i p es)) (holds : Holds v own node)
    (found : node i = some (.dir p es)) (name : Name) :
    ∃ k, cnstat h name = some ((lookup v.disk i name).map (·.inode), { h with index := k }) ∧
      (lookup v.disk i name = none → k = h.inodeSt.size) := by
  obtain ⟨k, scanned, ended⟩ := current.findName holds found name
  exact ⟨k, by rw [cnstat, scanned]; rfl, ended⟩

/-- `cncreat` fails on a name it finds, or enters a new empty file. -/
theorem Holds.creat {s s' : Fs} {h : DirPtr} (holds : Holds s.vol own node)
    (found : node i = some (.dir p es)) (dir : DirAt s.vol.disk own i st (records i p es))
    (current : HandleOf h i st (records i p es)) (text : 0 ∉ name) (short : name.length ≤ 255)
    (left : lookup s.vol.disk i name = none → Pool.inode.free s.vol ≠ 0)
    (run : cncreat h name s = some (code, h', s')) :
    (lookup s.vol.disk i name ≠ none ∧ code = -1 ∧ s' = s ∧ HandleOf h' i st (records i p es)) ∨
    ∃ e v' own' t st', e.name = name ∧ code = 0 ∧ s' = { s with vol := v', ticks := t } ∧
      e.fileType = ITYPE_FILE ∧ Entered s.vol own node i p es e v' own' ∧
      DirAt v'.disk own' i st' (records i p (es ++ [e])) ∧
      HandleOf h' i st' (records i p (es ++ [e])) ∧
      inodeRead v'.disk e.inode = some (newInode ITYPE_FILE (s.clock (s.ticks + 1))) ∧
      freeList .block v' = freeList .block s.vol := by
  obtain ⟨k, scanned, ended⟩ := current.stat holds found name
  rw [cncreat, scanned] at run
  simp only [Option.bind_eq_bind, Option.bind_some] at run
  cases missing : lookup s.vol.disk i name with
  | some e =>
    rw [missing] at run
    cases run
    exact .inl ⟨by simp, rfl, rfl, current.reindex⟩
  | none =>
    rw [missing] at run
    dsimp only [Option.map_none] at run
    obtain ⟨⟨n, h₂, s₁⟩, appended, run⟩ := Option.bind_eq_some_iff.mp run
    obtain ⟨d, written, run⟩ := Option.bind_eq_some_iff.mp run
    cases run
    have bound := (holds.inodes i (by rw [found]; simp)).1
    obtain ⟨v₁, st', rfl, place, entry⟩ := appendEntry_spec holds.ledger dir
      (h := { h with index := k }) current.reindex (ended missing) bound
      (holds.records_sound found) short (left missing) appended
    obtain ⟨number, free, unowned⟩ := holds.unowned entry.fresh
    obtain ⟨confined, back⟩ := inodeWrite_confined entry.confined.ledger number written
    have names := holds.unnamed found missing
    have apart : i ≠ n := by
      rintro rfl
      rw [free] at found
      cases found
    have parent := entry.dir.frame confined apart bound
    have proper : Proper ⟨n, entryLenOf name.length, ITYPE_FILE, name⟩ :=
      ⟨⟨short, rfl⟩, text, fun same => names (dotEntry i) List.mem_cons_self same.symm,
        fun same => names (dotDotEntry p) (List.mem_cons_of_mem _ List.mem_cons_self) same.symm,
        .inr rfl, fun isDir => absurd isDir (show ITYPE_FILE ≠ ITYPE_DIR by decide)⟩
    have whole := (entry.confined.mono fun k same => (Or.inl same : k = i ∨ k = n)).trans
      (confined.mono fun k => .inr)
    refine .inr ⟨⟨n, entryLenOf name.length, ITYPE_FILE, name⟩, _, own, _, st', rfl, rfl, rfl, rfl,
      ⟨found, entry.fresh, proper, missing, whole, ?_⟩, parent, entry.handle, back,
      by rw [← entry.blocks]; exact freeList_congr rfl⟩
    exact holds.insert found dir.read entry.fresh proper missing whole parent place entry.inodeBm
      (fun isDir => absurd isDir (show ITYPE_FILE ≠ ITYPE_DIR by decide))
      fun _ => ⟨_, back, rfl, newInode_mapped, rfl⟩

end
end CdnwSh
