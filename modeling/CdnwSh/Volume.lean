import CdnwSh.Library.NameTree
import CdnwSh.OpenFile
import CdnwSh.Entries
import Mathlib.Data.List.Find
import Mathlib.Data.List.TakeWhile

/-! The volume as a tree of named files and directories. `Holds` connects a map from
inode numbers to nodes, in which a directory is the list of its proper entries, with
inodes, directory blocks, bitmaps and counters. -/
namespace CdnwSh

open ByteMemory RecordList

abbrev Nodes := Iptr → Option (NameTree.Node Iptr DirEntry)

/-- Directory entries as the entries of a name tree. -/
def scheme : NameTree.Scheme Iptr DirEntry Name :=
  ⟨DirEntry.inode, DirEntry.name, fun e => e.fileType = ITYPE_DIR⟩

/-- The records of a directory: "." and ".." before the proper entries. -/
def records (i p : Iptr) (es : List DirEntry) : List DirEntry := dotEntry i :: dotDotEntry p :: es

/-- What `cnmkdir` and `cncreat` make sure of for a new entry. -/
structure Proper (e : DirEntry) : Prop where
  sound : e.Sound
  text : 0 ∉ e.name
  notDot : e.name ≠ dot
  notDotDot : e.name ≠ dotDot
  kind : e.fileType = ITYPE_DIR ∨ e.fileType = ITYPE_FILE
  dirName : e.fileType = ITYPE_DIR → e.name ≠ [] ∧ slash ∉ e.name

variable [InodeLayout]

/-- Inode `i` is a directory of one block, which holds the records `rs`. -/
structure DirAt (d : Disk) (own : Owner) (i : Iptr) (st : Inode) (rs : List DirEntry) : Prop where
  read : inodeRead d i = some st
  type : st.type = ITYPE_DIR
  blocks : st.blocks = 1
  single : st.data1 = 0
  owner : own st.block0 = some (i, .data 0)
  only : ∀ b r, own b = some (i, r) → b = st.block0
  tiles : Tiles (entryAt ⟨4096, (d st.block0).mem⟩) DirEntry.entryLen 0 st.size.toNat rs

structure FileAt (d : Disk) (own : Owner) (i : Iptr) (st : Inode) : Prop where
  read : inodeRead d i = some st
  type : st.type = ITYPE_FILE
  mapped : Mapped d own i st
  blocks : st.blocks.toNat = blocksFor st.size.toNat

/-- The volume holds the nodes: used inodes are the nodes, used blocks are the metadata
and what the nodes own. -/
structure Holds (v : Vol) (own : Owner) (node : Nodes) : Prop where
  ledger : Ledger v own
  tree : NameTree.Tree scheme 0 node
  proper : ∀ i e, NameTree.Entry node i e → Proper e
  inodes : ∀ i, node i ≠ none → i.toNat < 6400 ∧ bit v.inodeBmCache i.toNat = true
  exact_inodes : ∀ n, bit v.inodeBmCache n = true → ∃ i : Iptr, i.toNat = n ∧ node i ≠ none
  exact_blocks : ∀ n, bit v.blockBmCache n = true →
    n < 103 ∨ ∃ (b : UInt32) (o : _), b.toNat = n ∧ own b = some o
  owners : ∀ b o, own b = some o → node o.1 ≠ none
  dirs : ∀ i p es, node i = some (.dir p es) → ∃ st, DirAt v.disk own i st (records i p es)
  files : ∀ i, node i = some .file → ∃ st, FileAt v.disk own i st
  root : ∃ st, inodeRead v.disk 0 = some st ∧ st.block0 = 103

section
variable {v v' : Vol} {d d' : Disk} {own own' : Owner} {node : Nodes} {i p : Iptr} {st : Inode}
  {es rs : List DirEntry}

/-- The handle `inflatedir` makes of a directory. -/
def handle (d : Disk) (i : Iptr) (st : Inode) : DirPtr :=
  ⟨st, i, 0, ⟨4096, (d st.block0).mem⟩⟩

omit [InodeLayout] in
theorem blockList_one (blocks : st.blocks = 1) : blockList d st = [st.block0] := by
  have one : st.blocks.toNat = 1 := by rw [blocks]; rfl
  rw [blockList, singleList_nil (by omega), List.append_nil, Inode.direct, one]
  apply List.ext_getElem?
  intro k
  cases k with
  | zero => simp
  | succ k => simp

omit [InodeLayout] in
theorem gather_one (b : UInt32) : Extents.gather 0 d [b] = (d b).mem := by
  funext j
  rw [Extents.gather_cons (by decide), Block.mem]
  by_cases low : j < 4096
  · rw [dif_pos low, dif_pos low]
  · rw [dif_neg low, dif_neg low, Extents.gather_nil]

omit [InodeLayout] in
theorem inside_one (blocks : st.blocks = 1) (inside : st.block0.toNat < 25600) : Inside d st := by
  have one : st.blocks.toNat = 1 := by rw [blocks]; rfl
  refine ⟨by omega, fun ptr member => ?_, fun many => by omega⟩
  rw [blockList_one blocks] at member
  rw [List.mem_singleton.mp member]
  exact inside

theorem inflatedir_one (read : inodeRead d i = some st) (blocks : st.blocks = 1)
    (inside : st.block0.toNat < 25600) : inflatedir d i = some (handle d i st) := by
  have one : st.blocks.toNat = 1 := by rw [blocks]; rfl
  rw [inflatedir, read]
  simp only [Option.bind_eq_bind, Option.bind_some]
  rw [llread_eq (inside_one blocks inside), blockList_one blocks, gather_one, one]
  rfl

theorem DirAt.mapped (dir : DirAt d own i st rs) : Mapped d own i st where
  few := by rw [dir.blocks]; decide
  data := fun k ptr found => by
    rw [blockList_one dir.blocks] at found
    cases k with
    | zero => cases found; exact dir.owner
    | succ k => simp at found
  single := fun given => absurd dir.single given
  indirect := fun many => by rw [dir.blocks] at many; exact absurd many (by decide)

theorem DirAt.inflate (dir : DirAt v.disk own i st rs) (ledger : Ledger v own) :
    inflatedir v.disk i = some (handle v.disk i st) :=
  inflatedir_one dir.read dir.blocks (ledger.owned _ _ dir.owner).2.1

theorem DirAt.loaded (dir : DirAt v.disk own i st rs) (ledger : Ledger v own) :
    llread v.disk st (callocBlocks st.blocks.toNat) = some ⟨4096, (v.disk st.block0).mem⟩ := by
  have read := llread_eq (dir.mapped.inside ledger)
  rw [blockList_one dir.blocks, gather_one, dir.blocks] at read
  rw [dir.blocks]
  exact read

theorem DirAt.lists (dir : DirAt d own i st rs) : (handle d i st).Lists rs := dir.tiles

theorem DirAt.listing_eq (dir : DirAt v.disk own i st rs) (ledger : Ledger v own) :
    listing v.disk i = some rs := by
  rw [listing, dir.inflate ledger]
  exact readAll_eq dir.lists

theorem DirAt.frame (dir : DirAt v.disk own i st rs) (confined : Confined v own who v' own')
    (apart : ¬ who i) (bound : i.toNat < 6400) : DirAt v'.disk own' i st rs where
  read := (confined.table i bound apart).trans dir.read
  type := dir.type
  blocks := dir.blocks
  single := dir.single
  owner := confined.extends' _ _ dir.owner
  only := fun b r found => by
    rcases confined.new b _ found with old | mine
    · exact dir.only b r old
    · exact absurd mine apart
  tiles := by
    rw [confined.disk _ _ dir.owner apart]
    exact dir.tiles

theorem FileAt.frame (file : FileAt v.disk own i st) (confined : Confined v own who v' own')
    (apart : ¬ who i) (bound : i.toNat < 6400) : FileAt v'.disk own' i st :=
  ⟨(confined.table i bound apart).trans file.read, file.type, confined.copies _ _ file.mapped,
    file.blocks⟩

omit [InodeLayout] in
theorem cstr_self (text : 0 ∉ name) : cstr name = name := by
  rw [cstr, List.takeWhile_eq_self_iff]
  intro b member
  exact decide_eq_true (by rintro rfl; exact text member)

theorem Holds.records_text (holds : Holds v own node) (found : node i = some (.dir p es))
    (member : e ∈ records i p es) : 0 ∉ e.name ∧ cstr e.name = e.name := by
  have text : 0 ∉ e.name := by
    rcases List.mem_cons.mp member with rfl | member
    · simp [dotEntry, dot]
    · rcases List.mem_cons.mp member with rfl | member
      · simp [dotDotEntry, dotDot]
      · exact (holds.proper i e (.of found member)).text
  exact ⟨text, cstr_self text⟩

theorem Holds.records_sound (holds : Holds v own node) (found : node i = some (.dir p es)) :
    ∀ e ∈ records i p es, e.Sound := by
  intro e member
  rcases List.mem_cons.mp member with rfl | member
  · exact dotEntry_sound
  · rcases List.mem_cons.mp member with rfl | member
    · exact dotDotEntry_sound
    · exact (holds.proper i e (.of found member)).sound

theorem Holds.find_eq (holds : Holds v own node) (found : node i = some (.dir p es)) (tok : Name) :
    (records i p es).find? (fun e => cstr e.name = tok) =
      (records i p es).find? (fun e => e.name = tok) := by
  apply List.find?_congr
  intro e member
  rw [(holds.records_text found member).2]

/-- The entry a path component names in a directory. -/
def lookup (d : Disk) (i : Iptr) (tok : Name) : Option DirEntry := do
  (← listing d i).find? fun e => cstr e.name = tok

theorem Holds.lookup_eq (holds : Holds v own node) (found : node i = some (.dir p es)) :
    lookup v.disk i tok = (records i p es).find? (fun e => e.name = tok) := by
  obtain ⟨st, dir⟩ := holds.dirs i p es found
  rw [lookup, dir.listing_eq holds.ledger]
  exact holds.find_eq found tok

theorem Holds.dir_node (holds : Holds v own node) (live : node i ≠ none)
    (read : inodeRead v.disk i = some st) (type : st.type = ITYPE_DIR) :
    ∃ p es, node i = some (.dir p es) := by
  cases kind : node i with
  | none => exact absurd kind live
  | some n =>
    cases n with
    | file =>
      obtain ⟨st', file⟩ := holds.files i kind
      obtain rfl := Option.some.inj (read.symm.trans file.read)
      exact absurd (type.symm.trans file.type) (by decide)
    | dir p es => exact ⟨p, es, rfl⟩

theorem Holds.usedDir (holds : Holds v own node) (used : bit v.inodeBmCache i.toNat = true)
    (read : inodeRead v.disk i = some st) (type : st.type = ITYPE_DIR) :
    ∃ p es, node i = some (.dir p es) ∧ DirAt v.disk own i st (records i p es) := by
  obtain ⟨j, same, live⟩ := holds.exact_inodes _ used
  obtain rfl := UInt32.toNat_inj.mp same
  obtain ⟨p, es, found⟩ := holds.dir_node live read type
  obtain ⟨st', dir⟩ := holds.dirs _ p es found
  obtain rfl := Option.some.inj (dir.read.symm.trans read)
  exact ⟨p, es, found, dir⟩

theorem Holds.target_dir (holds : Holds v own node) (found : node i = some (.dir p es))
    (member : e ∈ records i p es) (isDir : e.fileType = ITYPE_DIR) :
    ∃ q fs, node e.inode = some (.dir q fs) := by
  rcases List.mem_cons.mp member with rfl | member
  · exact ⟨p, es, found⟩
  · rcases List.mem_cons.mp member with rfl | member
    · by_cases top : i = 0
      · subst top
        obtain ⟨fs, root⟩ := holds.tree.root_dir
        rw [found] at root
        cases root
        exact ⟨0, es, found⟩
      · obtain ⟨f, ⟨q, fs, parent, _⟩, _⟩ := holds.tree.parent found top
        exact ⟨q, fs, parent⟩
    · obtain ⟨fs, sub⟩ := holds.tree.subdir i e (.of found member) (by simp [scheme, isDir])
      exact ⟨i, fs, sub⟩

/-- The used blocks after a confined change. -/
theorem Holds.blocks_kept (holds : Holds v own node) (confined : Confined v own who v' own')
    (set : bit v'.blockBmCache m = true) :
    m < 103 ∨ ∃ b o, b.toNat = m ∧ own' b = some o := by
  rcases confined.used m set with old | new
  · rcases holds.exact_blocks m old with low | ⟨b, o, same, owned⟩
    · exact .inl low
    · exact .inr ⟨b, o, same, confined.extends' b o owned⟩
  · exact .inr new

theorem Holds.dir_kept (holds : Holds v own node) (confined : Confined v own who v' own')
    (kind : node j = some (.dir q fs)) (apart : ¬ who j) :
    ∃ st, DirAt v'.disk own' j st (records j q fs) := by
  obtain ⟨st, dir⟩ := holds.dirs j q fs kind
  exact ⟨st, dir.frame confined apart (holds.inodes j (by rw [kind]; simp)).1⟩

theorem Holds.file_kept (holds : Holds v own node) (confined : Confined v own who v' own')
    (kind : node j = some .file) (apart : ¬ who j) : ∃ st, FileAt v'.disk own' j st := by
  obtain ⟨st, file⟩ := holds.files j kind
  exact ⟨st, file.frame confined apart (holds.inodes j (by rw [kind]; simp)).1⟩

theorem Holds.root_kept (holds : Holds v own node) (before : inodeRead v.disk i = some st)
    (after : inodeRead d i = some st') (place : st'.data0 = st.data0)
    (others : (0 : Iptr) ≠ i → inodeRead d 0 = inodeRead v.disk 0) :
    ∃ st, inodeRead d 0 = some st ∧ st.block0 = 103 := by
  obtain ⟨root, read, block⟩ := holds.root
  by_cases here : (0 : Iptr) = i
  · subst here
    obtain rfl := Option.some.inj (before.symm.trans read)
    exact ⟨st', after, by rw [Inode.block0, place]; exact block⟩
  · exact ⟨root, (others here).trans read, block⟩

/-- A change confined to some nodes, each of which is afterwards what it was, keeps the
tree. -/
theorem Holds.confined (holds : Holds v own node) (confined : Confined v own who v' own')
    (inodeBm : v'.inodeBmCache = v.inodeBmCache) (live : ∀ j, who j → node j ≠ none)
    (dirs : ∀ j q fs, who j → node j = some (.dir q fs) →
      ∃ st, DirAt v'.disk own' j st (records j q fs))
    (files : ∀ j, who j → node j = some .file → ∃ st, FileAt v'.disk own' j st)
    (root : who 0 → ∃ st, inodeRead v'.disk 0 = some st ∧ st.block0 = 103) :
    Holds v' own' node := by
  constructor
  case ledger => exact confined.ledger
  case tree => exact holds.tree
  case proper => exact holds.proper
  case inodes =>
    intro j present
    rw [inodeBm]
    exact holds.inodes j present
  case exact_inodes =>
    intro m set
    rw [inodeBm] at set
    exact holds.exact_inodes m set
  case exact_blocks => exact fun m set => holds.blocks_kept confined set
  case owners =>
    intro b o owned
    rcases confined.new b o owned with old | mine
    · exact holds.owners b o old
    · exact live _ mine
  case dirs =>
    intro j q fs kind
    by_cases mine : who j
    · exact dirs j q fs mine kind
    · exact holds.dir_kept confined kind mine
  case files =>
    intro j kind
    by_cases mine : who j
    · exact files j mine kind
    · exact holds.file_kept confined kind mine
  case root =>
    by_cases mine : who 0
    · exact root mine
    · obtain ⟨st, read, block⟩ := holds.root
      exact ⟨st, (confined.table 0 (by decide) mine).trans read, block⟩

end
end CdnwSh
