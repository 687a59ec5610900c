import CdnwSh.Library.PartialRun
import CdnwSh.MkdirEffect

/-! A row of `cncreat` calls through one handle from `cnopendir`: each new name gets the next
record and the next inode, and a name that is there is refused. -/
namespace CdnwSh

open ByteMemory RecordList

/-- The names that are made, in order: those that are not there yet. -/
def newNames (old : List Name) : List Name → List Name
  | [] => []
  | name :: rest => if name ∈ old then newNames old rest else name :: newNames (old ++ [name]) rest

def namesOf (rs : List DirEntry) : List Name := rs.map DirEntry.name

/-- The bytes that the records of these names take. -/
def recordBytes (names : List Name) : Nat := (names.map fun name => entryLenOf name.length).sum

theorem mem_newNames (member : name ∈ names) : name ∈ old ∨ name ∈ newNames old names := by
  induction names generalizing old with
  | nil => cases member
  | cons first rest ih =>
    rw [newNames]
    by_cases here : first ∈ old
    · rw [if_pos here]
      rcases List.mem_cons.mp member with rfl | later
      · exact .inl here
      · exact ih later
    · rw [if_neg here, List.mem_cons]
      rcases List.mem_cons.mp member with rfl | later
      · exact .inr (.inl rfl)
      · have step : name ∈ old ++ [first] ∨ name ∈ newNames (old ++ [first]) rest := ih later
        rcases step with before | new
        · rcases List.mem_append.mp before with before | same
          · exact .inl before
          · exact .inr (.inl (List.mem_singleton.mp same))
        · exact .inr (.inr new)

section
variable [InodeLayout]

/-- Every call of a row succeeds exactly when its name is not in directory `i` before it, and
otherwise returns -1 and changes nothing but where the handle stands. -/
def CreatesEach (i : Iptr) : DirPtr → Fs → List Name → DirPtr → Fs → Prop
  | h, s, [], h', s' => h' = h ∧ s' = s
  | h, s, name :: rest, h', s' =>
    (lookup s.vol.disk i name = none →
      ∃ h₁ s₁, cncreat h name s = some (0, h₁, s₁) ∧ CreatesEach i h₁ s₁ rest h' s') ∧
    (lookup s.vol.disk i name ≠ none →
      ∃ k, cncreat h name s = some (-1, { h with index := k }, s) ∧
        CreatesEach i { h with index := k } s rest h' s')

/-- Between the calls: the records made so far, with the inodes that were first in the free
list of `v`. -/
structure Made (v : Vol) (i p : Iptr) (es made : List DirEntry) (own : Owner) (node : Nodes)
    (h : DirPtr) (s : Fs) : Prop where
  holds : Holds s.vol own node
  found : node i = some (.dir p (es ++ made))
  handle : ∃ st, DirAt s.vol.disk own i st (records i p (es ++ made)) ∧
    HandleOf h i st (records i p (es ++ made))
  inodes : freeList .inode v = made.map DirEntry.inode ++ freeList .inode s.vol
  empty : ∀ e ∈ made, e.fileType = ITYPE_FILE ∧
    ∃ time, inodeRead s.vol.disk e.inode = some (newInode ITYPE_FILE time)

section
variable {v v' : Vol} {s s' : Fs} {own own' : Owner} {node node' : Nodes} {i p n : Iptr}
  {st : Inode} {es made : List DirEntry} {e : DirEntry} {h h' : DirPtr} {names : List Name}

theorem Holds.handleOf (holds : Holds s.vol own node) (run : cnopendir s path = some (some h))
    (found : node h.inodeId = some (.dir p es)) :
    ∃ st, DirAt s.vol.disk own h.inodeId st (records h.inodeId p es) ∧
      HandleOf h h.inodeId st (records h.inodeId p es) := by
  obtain ⟨st, dir⟩ := holds.dirs _ _ _ found
  have same := cnopendir_fresh run
  rw [dir.inflate holds.ledger, Option.some.injEq] at same
  have shows : HandleOf { h with index := 0 } h.inodeId st (records h.inodeId p es) := by
    rw [← same]
    exact dir.handleOf
  exact ⟨st, dir, shows.reindex (k := h.index)⟩

theorem Holds.missing_iff (holds : Holds v own node) (found : node i = some (.dir p es)) :
    lookup v.disk i name = none ↔ name ∉ namesOf (records i p es) := by
  rw [holds.lookup_eq found, List.find?_eq_none, namesOf]
  simp

theorem Holds.creat_total (holds : Holds s.vol own node) (found : node i = some (.dir p es))
    (dir : DirAt s.vol.disk own i st (records i p es)) (current : HandleOf h i st (records i p es))
    (short : name.length ≤ 255) (missing : lookup s.vol.disk i name = none)
    (free : freeList .inode s.vol = n :: rest) (fits : Fits n)
    (room : extent es + entryLenOf name.length ≤ 4096) :
    ∃ h' s', cncreat h name s = some (0, h', s') ∧
      s'.vol.inodeBmCache = setBit s.vol.inodeBmCache n.toNat := by
  obtain ⟨k, stat, ended⟩ := current.stat holds found name
  have bound := (holds.inodes i (by rw [found]; simp)).1
  have number := (mem_freeList.mp (show n ∈ freeList .inode s.vol by
    rw [free]; exact List.mem_cons_self)).1
  have inside : st.size.toNat + 8 + name.length ≤ 4096 := by
    rw [dir.size_eq]
    rw [entryLenOf] at room
    omega
  obtain ⟨h', d, appended⟩ : ∃ h' d, appendEntry s { h with index := k } name ITYPE_FILE =
      some (n, h', { s with vol := { s.vol.taken .inode n with disk := d }, ticks := s.ticks + 1 }) :=
    appendEntry_total holds.ledger dir current.reindex (ended missing) bound short inside free
  rw [cncreat, stat, missing]
  simp only [Option.map_none, Option.bind_eq_bind, Option.bind_some]
  rw [appended]
  simp only [Option.bind_some, timeNull]
  rw [inodeWrite_eq number, if_pos fits]
  exact ⟨_, _, rfl, rfl⟩

theorem Made.create (sofar : Made v i p es made own node h s) (text : 0 ∉ name)
    (short : name.length ≤ 255) (missing : lookup s.vol.disk i name = none)
    (free : freeList .inode s.vol = n :: rest) (fits : Fits n)
    (room : extent (es ++ made) + entryLenOf name.length ≤ 4096) :
    ∃ h' s' e own' node', cncreat h name s = some (0, h', s') ∧ e.name = name ∧
      Made v i p es (made ++ [e]) own' node' h' s' ∧ freeList .inode s'.vol = rest := by
  obtain ⟨st, dir, current⟩ := sofar.handle
  have holds := sofar.holds
  have found := sofar.found
  have inodes : Pool.inode.free s.vol ≠ 0 := by
    rw [← length_freeList (holds.ledger.agrees .inode), free]
    simp
  obtain ⟨h', s', run, inodeBm⟩ := holds.creat_total found dir current short missing free fits room
  rcases holds.creat found dir current text short (fun _ => inodes) run with
    ⟨named, _⟩ | ⟨e, v', own', t, st', named, _, rfl, kind, entered, dir', handle, back, _⟩
  · exact absurd missing named
  have apart := entered.apart holds
  have handed := entered.handed free inodeBm
  have cache : Pool.inode.cache v' = Pool.inode.cache (s.vol.taken .inode n) :=
    inodeBm.trans (taken_cache (q := .inode) (p := .inode)).symm
  have left : freeList .inode v' = rest := (freeList_congr cache).trans (freeList_taken free)
  refine ⟨h', _, e, own', _, run, named, ⟨entered.holds, ?_, ⟨st', ?_, ?_⟩, ?_, fun f member => ?_⟩, left⟩
  · rw [← List.append_assoc]
    exact NameTree.insert_parent (S := scheme) apart
  · rw [← List.append_assoc]
    exact dir'
  · rw [← List.append_assoc]
    exact handle
  · change freeList .inode v = _ ++ freeList .inode v'
    rw [left, sofar.inodes, free, List.map_append, List.append_assoc, ← handed]
    rfl
  · rcases List.mem_append.mp member with before | last
    · obtain ⟨file, time, read⟩ := sofar.empty f before
      refine ⟨file, time, ?_⟩
      have listed : f.inode ∈ freeList .inode v := by
        rw [sofar.inodes]
        exact List.mem_append_left _ (List.mem_map_of_mem before)
      have other : f.inode ≠ e.inode := by
        have nodup := freeList_nodup (p := .inode) (v := v)
        rw [sofar.inodes, free] at nodup
        rintro same
        exact List.disjoint_of_nodup_append nodup (List.mem_map_of_mem before)
          (by rw [same, handed]; exact List.mem_cons_self)
      have outside : f.inode ≠ i := by
        intro same
        rw [same, dir.read, Option.some.injEq] at read
        have type := dir.type
        rw [read] at type
        cases type
      refine (entered.confined.table f.inode (mem_freeList.mp listed).1 ?_).trans read
      rintro (same | same)
      · exact outside same
      · exact other same
    · rw [List.mem_singleton.mp last]
      exact ⟨kind, _, back⟩

theorem Made.refused (sofar : Made v i p es made own node h s)
    (named : lookup s.vol.disk i name ≠ none) :
    ∃ k, cncreat h name s = some (-1, { h with index := k }, s) ∧
      Made v i p es made own node { h with index := k } s := by
  obtain ⟨st, dir, current⟩ := sofar.handle
  obtain ⟨k, stat, _⟩ := current.stat sofar.holds sofar.found name
  obtain ⟨e, found⟩ := Option.ne_none_iff_exists'.mp named
  refine ⟨k, ?_, sofar.holds, sofar.found, ⟨st, dir, current.reindex⟩, sofar.inodes, sofar.empty⟩
  rw [cncreat, stat, found]
  rfl

theorem Made.run (sofar : Made v i p es made own node h s)
    (texts : ∀ name ∈ names, 0 ∉ name ∧ name.length ≤ 255)
    (old : List Name) (before : old = namesOf (records i p (es ++ made)))
    (room : extent (es ++ made) + recordBytes (newNames old names) ≤ 4096)
    (free : freeList .inode s.vol = first ++ rest) (enough : first.length = (newNames old names).length)
    (table : ∀ n ∈ first, Fits n) :
    ∃ h' s' more own' node', CreatesEach i h s names h' s' ∧
      Made v i p es (made ++ more) own' node' h' s' ∧ namesOf more = newNames old names := by
  induction names generalizing h s made own node old first with
  | nil => exact ⟨h, s, [], own, node, ⟨rfl, rfl⟩, by rw [List.append_nil]; exact sofar, rfl⟩
  | cons name names ih =>
    obtain ⟨text, short⟩ := texts name List.mem_cons_self
    have later : ∀ other ∈ names, 0 ∉ other ∧ other.length ≤ 255 := fun other member =>
      texts other (List.mem_cons_of_mem _ member)
    have missing_iff : lookup s.vol.disk i name = none ↔ name ∉ old := by
      rw [before]
      exact sofar.holds.missing_iff sofar.found
    rw [newNames] at room enough ⊢
    by_cases present : name ∈ old
    · rw [if_pos present] at room enough ⊢
      have named : lookup s.vol.disk i name ≠ none := fun none => missing_iff.mp none present
      obtain ⟨k, refused, same⟩ := sofar.refused named
      obtain ⟨h', s', more, own', node', creates, after, made⟩ :=
        ih same later old before room free enough table
      exact ⟨h', s', more, own', node', ⟨fun none => absurd none named, fun _ => ⟨k, refused, creates⟩⟩,
        after, made⟩
    · rw [if_neg present] at room enough ⊢
      have missing : lookup s.vol.disk i name = none := missing_iff.mpr present
      rw [recordBytes, List.map_cons, List.sum_cons, ← recordBytes] at room
      cases first with
      | nil => cases enough
      | cons n first =>
        obtain ⟨h₁, s₁, e, own₁, node₁, created, rfl, next, left⟩ := sofar.create text short missing
          free (table n List.mem_cons_self) (by omega)
        have length : entryLenOf e.name.length = e.entryLen :=
          (next.holds.proper i e (.of next.found (by simp))).sound.padded.symm
        obtain ⟨h', s', more, own', node', creates, after, made⟩ :=
          ih next later (old ++ [e.name]) (by rw [before]; simp [namesOf, records])
            (by rw [← List.append_assoc, extent_append, ← length]; omega) left
            (Nat.succ_inj.mp enough) fun m member => table m (List.mem_cons_of_mem _ member)
        refine ⟨h', s', e :: more, own', node',
          ⟨fun _ => ⟨h₁, s₁, created, creates⟩, fun named => absurd missing named⟩, ?_, ?_⟩
        · rw [List.append_assoc] at after
          exact after
        · rw [← made]
          rfl

end

/-- A row of `cncreat` calls through a handle from `cnopendir`, on a volume that holds a tree and
with room and inodes for the new names: each call succeeds exactly when its name is not there
yet. Then the directory on disk lists its old records and behind them the new names in order,
each a file with an inode of its own that was free and is empty, and `cnstat` through the
handle finds every name with the inode of its record. -/
theorem create_many {s : Fs} {own : Owner} {node : Nodes} {path : Name} {h : DirPtr} {p : Iptr}
    {es rs : List DirEntry} {names : List Name} (holds : Holds s.vol own node)
    (opened : cnopendir s path = some (some h)) (found : node h.inodeId = some (.dir p es))
    (listed : listing s.vol.disk h.inodeId = some rs)
    (texts : ∀ name ∈ names, 0 ∉ name ∧ 1 ≤ name.length ∧ name.length ≤ 255)
    (room : ∀ st, inodeRead s.vol.disk h.inodeId = some st →
      st.size.toNat + recordBytes (newNames (namesOf rs) names) ≤ 4096 * st.blocks.toNat)
    (enough : (newNames (namesOf rs) names).length ≤ Pool.inode.free s.vol)
    (table : ∀ n ∈ (freeList .inode s.vol).take (newNames (namesOf rs) names).length, Fits n) :
    ∃ h' s' made, CreatesEach h.inodeId h s names h' s' ∧
      listing s'.vol.disk h.inodeId = some (rs ++ made) ∧
      namesOf made = newNames (namesOf rs) names ∧ (made.map DirEntry.inode).Nodup ∧
      (∀ e ∈ made, e.fileType = ITYPE_FILE ∧ bit s.vol.inodeBmCache e.inode.toNat = false ∧
        ∃ st, inodeRead s'.vol.disk e.inode = some st ∧ st.type = ITYPE_FILE ∧ st.size = 0 ∧
          st.blocks = 0) ∧
      ∀ name ∈ names, ∃ e next, (rs ++ made).find? (fun e => e.name = name) = some e ∧
        cnstat h' name = some (some e.inode, next) := by
  obtain ⟨st, dir, current⟩ := holds.handleOf opened found
  rw [dir.listing_eq holds.ledger, Option.some.injEq] at listed
  subst listed
  have space := room st dir.read
  rw [dir.size_eq, dir.blocks] at space
  have start : Made s.vol h.inodeId p es [] own node h s :=
    ⟨holds, by rw [List.append_nil]; exact found, ⟨st, by rw [List.append_nil]; exact ⟨dir, current⟩⟩,
      rfl, fun e member => by cases member⟩
  rw [← length_freeList (holds.ledger.agrees .inode)] at enough
  obtain ⟨h', s', made, own', node', creates, after, names_eq⟩ := start.run
    (fun name member => ⟨(texts name member).1, (texts name member).2.2⟩) _ (by rw [List.append_nil])
    (by rw [List.append_nil]; exact space) (List.take_append_drop _ _).symm (List.length_take_of_le enough)
    table
  rw [List.nil_append] at after
  have inodes := after.inodes
  obtain ⟨st', dir', current'⟩ := after.handle
  refine ⟨h', s', made, creates, ?_, names_eq, ?_, fun e member => ?_, fun name member => ?_⟩
  · rw [dir'.listing_eq after.holds.ledger]
    rfl
  · have nodup := freeList_nodup (p := .inode) (v := s.vol)
    rw [inodes] at nodup
    exact nodup.of_append_left
  · obtain ⟨file, time, read⟩ := after.empty e member
    have free : e.inode ∈ freeList .inode s.vol := by
      rw [inodes]
      exact List.mem_append_left _ (List.mem_map_of_mem member)
    exact ⟨file, (mem_freeList.mp free).2, _, read, rfl, rfl, rfl⟩
  · have listed : name ∈ namesOf (records h.inodeId p (es ++ made)) := by
      have shape : namesOf (records h.inodeId p (es ++ made)) =
          namesOf (records h.inodeId p es) ++ namesOf made := by simp [namesOf, records]
      rw [shape, names_eq, List.mem_append]
      exact mem_newNames member
    obtain ⟨k, stat, _⟩ := current'.stat after.holds after.found name
    have named : lookup s'.vol.disk h.inodeId name ≠ none := fun none =>
      (after.holds.missing_iff after.found).mp none listed
    obtain ⟨e, looked⟩ := Option.ne_none_iff_exists'.mp named
    refine ⟨e, _, ?_, by rw [stat, looked]; rfl⟩
    rw [after.holds.lookup_eq after.found] at looked
    exact looked

end

section Lp64
attribute [local instance] lp64

theorem rootOpened : ((cnopendir emptyBooted.fs [slash]).bind id).map (·.inodeId) = some 0 ∧
    (inodeRead emptyBooted.fs.vol.disk 0).map (fun st => (st.size, st.blocks)) = some (24, 1) ∧
    Pool.inode.free emptyBooted.fs.vol = 6399 := by decide +kernel

/-- The same name twice in the root directory of a fresh file system. -/
theorem create_many_twice : ∃ h h' s' made, cnopendir emptyBooted.fs [slash] = some (some h) ∧
    CreatesEach 0 h emptyBooted.fs [[102], [102]] h' s' ∧
    listing s'.vol.disk 0 = some ([dotEntry 0, dotDotEntry 0] ++ made) ∧ namesOf made = [[102]] := by
  obtain ⟨sound, _⟩ := boot_sound emptyBooted_eq
  obtain ⟨opened, sizes, free⟩ := rootOpened
  obtain ⟨h, opened, root⟩ := Option.map_eq_some_iff.mp opened
  obtain ⟨found, opens, rfl⟩ := Option.bind_eq_some_iff.mp opened
  have node : rootNodes 0 = some (.dir 0 []) := rfl
  obtain ⟨st, dir⟩ := sound.holds.dirs 0 0 [] node
  have lists := dir.listing_eq sound.holds.ledger
  have left : Pool.inode.free emptyBooted.fs.vol ≠ 0 := by rw [free]; decide
  rw [← root] at node lists
  have texts : ∀ name ∈ [[102], [102]], (0 : UInt8) ∉ name ∧ 1 ≤ name.length ∧ name.length ≤ 255 := by
    decide
  obtain ⟨h', s', made, creates, after, names, _⟩ := create_many sound.holds opens node lists texts
    (fun st' read => by
      rw [root] at read
      rw [read, Option.map_some, Option.some.injEq, Prod.mk.injEq] at sizes
      rw [sizes.1, sizes.2, root]
      decide)
    (by rw [free, root]; decide) fun n member => emptyBooted_nextFits n (by
      rw [root] at member
      obtain ⟨first, rest, ids⟩ := sound.holds.ledger.head left
      rw [ids] at member ⊢
      rw [List.mem_singleton.mp member]
      rfl)
  rw [root] at creates after names
  exact ⟨h, h', s', made, opens, creates, after, names⟩

end Lp64

end CdnwSh
