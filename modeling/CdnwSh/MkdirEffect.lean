import CdnwSh.FileRuns
import CdnwSh.FullDirectory

/-! What making a directory changes: with an inode, a block and room for the record,
`cnmkdir` succeeds, and everything but the current directory and the new one stays. -/
namespace CdnwSh

open ByteMemory RecordList

section
variable [InodeLayout]

/-- The table slot of the inode that is handed out next lies inside its block. -/
def NextFits (v : Vol) : Prop := ∀ i, (freeList .inode v).head? = some i → Fits i

/-- Directory `name` was made in directory `j`, with inode `i` and block `b`. -/
structure DirMade (v : Vol) (j i : Iptr) (b : UInt32) (name : Name) (v' : Vol) : Prop where
  freeInode : i.toNat < 6400 ∧ bit v.inodeBmCache i.toNat = false
  freeBlock : b.toNat < 25600 ∧ bit v.blockBmCache b.toNat = false
  entered : ∃ rs, listing v.disk j = some rs ∧
    listing v'.disk j = some (rs ++ [⟨i, entryLenOf name.length, ITYPE_DIR, name⟩])
  child : listing v'.disk i = some [dotEntry i, dotDotEntry j]
  inodeBm : ∀ n, bit v'.inodeBmCache n = (bit v.inodeBmCache n || decide (n = i.toNat))
  blockBm : ∀ n, bit v'.blockBmCache n = (bit v.blockBmCache n || decide (n = b.toNat))
  inodes : Pool.inode.free v' + 1 = Pool.inode.free v
  blocks : Pool.block.free v' + 1 = Pool.block.free v
  others : ∀ k : Iptr, bit v.inodeBmCache k.toNat = true → k ≠ j →
    inodeRead v'.disk k = inodeRead v.disk k ∧ listing v'.disk k = listing v.disk k ∧
      contentOf v'.disk k = contentOf v.disk k
  synced : v.Synced → v'.Synced

section
variable {s s' : Fs} {v v' : Vol} {own own' : Owner} {who : Iptr → Prop} {node : Nodes} {i p n : Iptr}
  {st : Inode} {es rs : List DirEntry} {h : DirPtr}

omit [InodeLayout] in
theorem Ledger.head {pool : Pool} (ledger : Ledger v own) (left : pool.free v ≠ 0) :
    ∃ ptr rest, freeList pool v = ptr :: rest :=
  List.exists_cons_of_ne_nil fun none => by
    rw [← length_freeList (ledger.agrees pool), none] at left
    exact left rfl

theorem appendEntry_total (ledger : Ledger s.vol own) (dir : DirAt s.vol.disk own i st rs)
    (current : HandleOf h i st rs) (ended : h.index = h.inodeSt.size) (bound : i.toNat < 6400)
    (short : name.length ≤ 255) (room : st.size.toNat + 8 + name.length ≤ 4096)
    (free : freeList .inode s.vol = n :: rest) :
    ∃ h' d, appendEntry s h name fileType = some (n, h',
      { s with vol := { s.vol.taken .inode n with disk := d }, ticks := s.ticks + 1 }) := by
  obtain ⟨size, _, _, data0, _⟩ := current.field
  have whole : name.length % 256 = name.length := Nat.mod_eq_of_lt (by omega)
  have inside : h.index.toNat + 8 + name.length ≤ h.data.size := by
    rw [ended, size, current.size]
    exact room
  have fits := fits_of_read bound dir.read
  have high := (ledger.owned _ _ dir.owner).2.1
  rw [appendEntry, reserveInode, reserve_head (ledger.agrees .inode) free]
  simp only [Option.bind_eq_bind, Option.bind_some, whole, timeNull]
  rw [storeEntry, if_pos inside, Option.bind_some, current.inodeId, inodeWrite_eq bound,
    if_pos fits, Option.bind_some]
  simp only [data0]
  rw [blkWriteBuf_inside high (by rw [current.size])]
  exact ⟨_, _, rfl⟩

theorem createDir_total (ledger : Ledger s.vol own) (bound : n.toNat < 6400) (fits : Fits n)
    (free : freeList .block s.vol = ptr :: rest) :
    ∃ d, createDir s n p =
      some { s with vol := { s.vol.taken .block ptr with disk := d }, ticks := s.ticks + 1 } := by
  have high := (mem_freeList.mp (show ptr ∈ freeList .block s.vol by
    rw [free]; exact List.mem_cons_self)).1
  rw [createDir]
  simp only [timeNull, reserveBlock]
  rw [reserve_head (ledger.agrees .block) free]
  simp only [Option.bind_eq_bind, Option.bind_some]
  rw [inodeWrite_eq bound, if_pos fits, Option.bind_some, blkWrite_inside high]
  exact ⟨_, rfl⟩

theorem Holds.mkdir_single {cwd : DirPtr} (holds : Holds s.vol own node) (here : s.cwd = some cwd)
    (found : node cwd.inodeId = some (.dir p es)) (single : strtok name = [name])
    (short : name.length ≤ 255) : ∃ st, DirAt s.vol.disk own cwd.inodeId st (records cwd.inodeId p es) ∧
      cnmkdir name s =
        if lookup s.vol.disk cwd.inodeId name = none then (do
          let (self, dir, s) ← appendEntry s
            { handle s.vol.disk cwd.inodeId st with index := st.size } name ITYPE_DIR
          let s ← createDir s self dir.inodeId
          return (0, s) : Option (Int × Fs))
        else some (-1, s) := by
  obtain ⟨st, dir⟩ := holds.dirs _ _ _ found
  obtain ⟨k, scanned, ended⟩ := dir.findName_eq holds.ledger name
  refine ⟨st, dir, ?_⟩
  rw [cnmkdir, here]
  simp only [Option.bind_eq_bind, Option.bind_some, dir.read, single]
  rw [mkdirWalk, if_neg (by omega), dir.loaded holds.ledger]
  simp only [Option.bind_eq_bind, Option.bind_some]
  change (findName (handle s.vol.disk cwd.inodeId st) name).bind _ = _
  rw [scanned, Option.bind_some]
  cases named : lookup s.vol.disk cwd.inodeId name with
  | some e =>
    simp only [if_true, reduceCtorEq, if_false]
    rfl
  | none =>
    obtain rfl := ended named
    simp only [if_true]

theorem contentOf_inflate : contentOf d i =
    (inflatedir d i).map fun h => slice h.data.mem 0 h.inodeSt.size.toNat := by
  rw [contentOf, inflatedir]
  cases inodeRead d i with
  | none => rfl
  | some st =>
    simp only [Option.bind_eq_bind, Option.bind_some]
    cases llread d st (callocBlocks st.blocks.toNat) <;> rfl

theorem Holds.frame (holds : Holds v own node) (confined : Confined v own who v' own')
    (used : bit v.inodeBmCache i.toNat = true) (apart : ¬ who i) :
    inodeRead v'.disk i = inodeRead v.disk i ∧ listing v'.disk i = listing v.disk i ∧
      contentOf v'.disk i = contentOf v.disk i := by
  obtain ⟨j, same, live⟩ := holds.exact_inodes _ used
  obtain rfl := UInt32.toNat_inj.mp same
  have bound := (holds.inodes _ live).1
  have inflate : inflatedir v'.disk j = inflatedir v.disk j := by
    cases kind : node j with
    | none => exact absurd kind live
    | some n =>
      cases n with
      | file =>
        obtain ⟨st, file⟩ := holds.files j kind
        exact confined.inflatedir_eq holds.ledger bound apart file.read file.mapped
      | dir p es =>
        obtain ⟨st, dir⟩ := holds.dirs j p es kind
        exact confined.inflatedir_eq holds.ledger bound apart dir.read dir.mapped
  refine ⟨confined.table j bound apart, ?_, ?_⟩
  · rw [listing, listing, inflate]
  · rw [contentOf_inflate, contentOf_inflate, inflate]

omit [InodeLayout] in
theorem taken_both (ledger : Ledger v own) (inode : freeList .inode v = n :: rest)
    (block : freeList .block v = ptr :: rest')
    (inodeBm : v'.inodeBmCache = setBit v.inodeBmCache n.toNat)
    (blockBm : v'.blockBmCache = setBit v.blockBmCache ptr.toNat) (agrees : ∀ q : Pool, q.Agrees v') :
    (∀ m, bit v'.inodeBmCache m = (bit v.inodeBmCache m || decide (m = n.toNat))) ∧
    (∀ m, bit v'.blockBmCache m = (bit v.blockBmCache m || decide (m = ptr.toNat))) ∧
    Pool.inode.free v' + 1 = Pool.inode.free v ∧ Pool.block.free v' + 1 = Pool.block.free v := by
  have inodeIn : n ∈ freeList .inode v := by rw [inode]; exact List.mem_cons_self
  have blockIn : ptr ∈ freeList .block v := by rw [block]; exact List.mem_cons_self
  have boundN := (mem_freeList.mp inodeIn).1
  have boundB := (mem_freeList.mp blockIn).1
  refine ⟨fun m => ?_, fun m => ?_, ?_, ?_⟩
  · rw [inodeBm, bit_setBit (Nat.lt_of_lt_of_le boundN limit_le)]
  · rw [blockBm, bit_setBit (Nat.lt_of_lt_of_le boundB limit_le)]
  · have same : freeList .inode v' = freeList .inode (v.taken .inode n) :=
      freeList_congr (inodeBm.trans (taken_cache (q := .inode) (p := .inode)).symm)
    rw [← length_freeList (agrees .inode), ← length_freeList (ledger.agrees .inode), same,
      freeList_taken inode, inode]
    rfl
  · have same : freeList .block v' = freeList .block (v.taken .block ptr) :=
      freeList_congr (blockBm.trans (taken_cache (q := .block) (p := .block)).symm)
    rw [← length_freeList (agrees .block), ← length_freeList (ledger.agrees .block), same,
      freeList_taken block, block]
    rfl

/-- The new directory gets the first inode and the first block that are left. -/
theorem Holds.mkdir_total {cwd : DirPtr} (holds : Holds s.vol own node) (table : NextFits s.vol)
    (here : s.cwd = some cwd) (found : node cwd.inodeId = some (.dir p es))
    (toks : strtok name = [name]) (short : name.length ≤ 255)
    (missing : lookup s.vol.disk cwd.inodeId name = none)
    (inode : freeList .inode s.vol = n :: rest) (block : freeList .block s.vol = ptr :: rest')
    (room : EntryRoom s.vol.disk cwd.inodeId name) :
    ∃ s', cnmkdir name s = some (0, s') ∧ s' = { s with vol := s'.vol, ticks := s'.ticks } ∧
      s'.vol.inodeBmCache = setBit s.vol.inodeBmCache n.toNat ∧
      s'.vol.blockBmCache = setBit s.vol.blockBmCache ptr.toNat := by
  obtain ⟨st, dir, run⟩ := holds.mkdir_single here found toks short
  have bound := (holds.inodes _ (by rw [found]; simp)).1
  have number := (mem_freeList.mp (show n ∈ freeList .inode s.vol by
    rw [inode]; exact List.mem_cons_self)).1
  have inodes : Pool.inode.free s.vol ≠ 0 := by
    rw [← length_freeList (holds.ledger.agrees .inode), inode]
    simp
  have inside : st.size.toNat + 8 + name.length ≤ 4096 := by
    have fits := room st dir.read
    rw [dir.blocks] at fits
    change st.size.toNat + entryLenOf name.length ≤ 4096 at fits
    rw [entryLenOf] at fits
    omega
  have current : HandleOf { handle s.vol.disk cwd.inodeId st with index := st.size } cwd.inodeId st
      (records cwd.inodeId p es) := dir.handleOf.reindex
  obtain ⟨h', d, appended⟩ : ∃ h' d, appendEntry s
      { handle s.vol.disk cwd.inodeId st with index := st.size } name ITYPE_DIR = some (n, h',
        { s with vol := { s.vol.taken .inode n with disk := d }, ticks := s.ticks + 1 }) :=
    appendEntry_total holds.ledger dir current rfl bound short inside inode
  obtain ⟨v₁, st', same, _, entry⟩ := appendEntry_spec holds.ledger dir current rfl
    bound (holds.records_sound found) short inodes appended
  rw [Fs.mk.injEq] at same
  obtain rfl := same.1
  obtain ⟨d', made⟩ := createDir_total (p := h'.inodeId)
    (s := { s with vol := { s.vol.taken .inode n with disk := d }, ticks := s.ticks + 1 })
    entry.confined.ledger number (table n (by rw [inode]; rfl)) (entry.blocks.trans block)
  rw [if_pos missing, appended, Option.bind_eq_bind, Option.bind_some] at run
  dsimp only at run
  rw [made, Option.bind_eq_bind, Option.bind_some] at run
  exact ⟨_, run, rfl, rfl, rfl⟩

theorem Entered.handed {e : DirEntry} (entered : Entered v own node i p es e v' own')
    (inode : freeList .inode v = n :: rest)
    (inodeBm : v'.inodeBmCache = setBit v.inodeBmCache n.toNat) : e.inode = n := by
  have member : n ∈ freeList .inode v := by rw [inode]; exact List.mem_cons_self
  have clear : bit v.inodeBmCache e.inode.toNat = false := (mem_freeList.mp entered.fresh).2
  have target : NameTree.insert scheme node i p es e (newNode i e) e.inode = some (newNode i e) :=
    NameTree.insert_target (S := scheme)
  have used := (entered.holds.inodes e.inode (by rw [target]; simp)).2
  rw [inodeBm, bit_setBit (Nat.lt_of_lt_of_le (mem_freeList.mp member).1 limit_le), clear,
    Bool.false_or] at used
  exact UInt32.toNat_inj.mp (of_decide_eq_true used)

theorem Entered.apart {e : DirEntry} (entered : Entered v own node i p es e v' own')
    (holds : Holds v own node) : i ≠ e.inode := by
  have clear : bit v.inodeBmCache e.inode.toNat = false := (mem_freeList.mp entered.fresh).2
  rintro rfl
  have used := (holds.inodes _ (show node e.inode ≠ none by rw [entered.found]; simp)).2
  rw [clear] at used
  cases used

theorem Entered.dirMade {j q : Iptr} {fs : List DirEntry} {e : DirEntry}
    (entered : Entered v own node j q fs e v' own') (holds : Holds v own node)
    (isDir : e.fileType = ITYPE_DIR)
    (inode : freeList .inode v = n :: rest) (block : freeList .block v = ptr :: rest')
    (inodeBm : v'.inodeBmCache = setBit v.inodeBmCache n.toNat)
    (blockBm : v'.blockBmCache = setBit v.blockBmCache ptr.toNat) :
    DirMade v j n ptr e.name v' := by
  obtain ⟨inodeBits, blockBits, inodeCount, blockCount⟩ := taken_both holds.ledger inode block
    inodeBm blockBm entered.confined.ledger.agrees
  have target : NameTree.insert scheme node j q fs e (newNode j e) e.inode = some (.dir j []) :=
    insert_newDir isDir
  have clear : bit v.inodeBmCache e.inode.toNat = false := (mem_freeList.mp entered.fresh).2
  have apart := entered.apart holds
  have handed := entered.handed inode inodeBm
  have record : e = ⟨n, entryLenOf e.name.length, ITYPE_DIR, e.name⟩ := by
    rw [← handed, ← isDir, ← entered.proper.sound.padded]
  obtain ⟨_, before⟩ := holds.dirs j q fs entered.found
  obtain ⟨_, parent⟩ := entered.holds.dirs j q (fs ++ [e])
    (NameTree.insert_parent (S := scheme) apart)
  obtain ⟨_, child⟩ := entered.holds.dirs e.inode j [] target
  have ledger := entered.confined.ledger
  refine ⟨mem_freeList.mp (by rw [inode]; exact List.mem_cons_self),
    mem_freeList.mp (by rw [block]; exact List.mem_cons_self),
    ⟨records j q fs, before.listing_eq holds.ledger, ?_⟩, ?_, inodeBits, blockBits, inodeCount,
    blockCount, fun k used other => ?_, entered.confined.flush.synced⟩
  · rw [parent.listing_eq ledger, ← record]
    rfl
  · rw [← handed]
    exact child.listing_eq ledger
  · refine holds.frame entered.confined used ?_
    rintro (same | same)
    · exact other same
    · rw [same, clear] at used
      cases used

/-- A new name with an inode, a block and room for its record is made a directory. -/
theorem Holds.mkdir_made {cwd : DirPtr} (holds : Holds s.vol own node) (table : NextFits s.vol)
    (here : s.cwd = some cwd) (found : node cwd.inodeId = some (.dir p es)) (text : 0 ∉ name)
    (single : slash ∉ name) (short : 1 ≤ name.length ∧ name.length ≤ 255)
    (missing : lookup s.vol.disk cwd.inodeId name = none)
    (inode : freeList .inode s.vol = n :: rest) (block : freeList .block s.vol = ptr :: rest')
    (room : EntryRoom s.vol.disk cwd.inodeId name) :
    ∃ s' e own', cnmkdir name s = some (0, s') ∧ s' = { s with vol := s'.vol, ticks := s'.ticks } ∧
      e.name = name ∧ e.fileType = ITYPE_DIR ∧ e.inode = n ∧
      Entered s.vol own node cwd.inodeId p es e s'.vol own' ∧
      DirMade s.vol cwd.inodeId n ptr name s'.vol ∧
      s'.vol.inodeBmCache = setBit s.vol.inodeBmCache n.toNat ∧
      s'.vol.blockBmCache = setBit s.vol.blockBmCache ptr.toNat := by
  have nonempty : name ≠ [] := by
    rintro rfl
    exact absurd short.1 (by decide)
  have toks := strtok_single nonempty single
  obtain ⟨s', run, kept, inodeBm, blockBm⟩ := holds.mkdir_total table here found toks short.2
    missing inode block room
  have noFiles : NoFilesMkdir s.vol.disk cwd.inodeId (strtok name) := by
    rw [toks]
    exact fun more => absurd rfl more
  have target : mkdirTarget s.vol.disk cwd.inodeId (strtok name) = some (cwd.inodeId, name) := by
    rw [toks, mkdirTarget, missing]
    exact if_pos rfl
  have left {pool : Pool} {first : Iptr} {more : List Iptr}
      (free : freeList pool s.vol = first :: more) : pool.free s.vol ≠ 0 := by
    rw [← length_freeList (holds.ledger.agrees pool), free]
    simp
  rcases holds.mkdir here found text noFiles (fun _ => ⟨left inode, left block⟩) run with
    ⟨stopped, _⟩ | ⟨j, q, fs, e, v', own', t, target', _, rfl, isDir, entered⟩
  · rw [target] at stopped
    cases stopped
  · rw [target] at target'
    cases target'
    cases found.symm.trans entered.found
    exact ⟨_, e, own', run, kept, rfl, isDir, entered.handed inode inodeBm, entered,
      entered.dirMade holds isDir inode block inodeBm blockBm, inodeBm, blockBm⟩

end

/-- On a volume that holds a tree, with a directory as the current one: a name that is there
makes `cnmkdir` fail without any change; any other name is made a directory whenever an inode, a
block and room for its record are left. -/
theorem mkdir_effect {s : Fs} {own : Owner} {node : Nodes} {cwd : DirPtr} {p : Iptr}
    {es : List DirEntry} {name : Name} (holds : Holds s.vol own node) (table : NextFits s.vol)
    (here : s.cwd = some cwd) (found : node cwd.inodeId = some (.dir p es)) (text : 0 ∉ name)
    (single : slash ∉ name) (short : 1 ≤ name.length ∧ name.length ≤ 255) :
    (lookup s.vol.disk cwd.inodeId name ≠ none → cnmkdir name s = some (-1, s)) ∧
    (lookup s.vol.disk cwd.inodeId name = none → Pool.inode.free s.vol ≠ 0 →
      Pool.block.free s.vol ≠ 0 → EntryRoom s.vol.disk cwd.inodeId name →
      ∃ i b s', cnmkdir name s = some (0, s') ∧
        s' = { s with vol := s'.vol, ticks := s'.ticks } ∧
        DirMade s.vol cwd.inodeId i b name s'.vol) := by
  have nonempty : name ≠ [] := by
    rintro rfl
    exact absurd short.1 (by decide)
  have toks := strtok_single nonempty single
  refine ⟨fun named => ?_, fun missing inodes blocks room => ?_⟩
  · obtain ⟨_, _, run⟩ := holds.mkdir_single here found toks short.2
    rw [run, if_neg named]
  · obtain ⟨n, rest, inode⟩ := holds.ledger.head inodes
    obtain ⟨ptr, rest', block⟩ := holds.ledger.head blocks
    obtain ⟨s', _, _, run, kept, _, _, _, _, made, _⟩ := holds.mkdir_made table here found text single short
      missing inode block room
    exact ⟨n, ptr, s', run, kept, made⟩

end

section Lp64
attribute [local instance] lp64

theorem emptyBooted_nextFits : NextFits emptyBooted.fs.vol := by
  intro i head
  obtain ⟨rest, free⟩ := List.head?_eq_some_iff.mp head
  have taken := reserve_head ((boot_inv emptyBooted_eq).sound.holds.ledger.agrees .inode) free
  have first : (reserve .inode emptyBooted.fs.vol).map (·.1) = some 1 := by decide +kernel
  rw [taken] at first
  cases first
  decide

theorem mkdir_effect_first : ∃ i b s', cnmkdir [97] emptyBooted.fs = some (0, s') ∧
    s' = { emptyBooted.fs with vol := s'.vol, ticks := s'.ticks } ∧
    DirMade emptyBooted.fs.vol 0 i b [97] s'.vol := by
  obtain ⟨sound, _, ⟨h, here, opened⟩, _⟩ := boot_sound emptyBooted_eq
  have stands : h.inodeId = 0 := by
    obtain ⟨_, _, _, _, _, rfl⟩ := opened
    rfl
  have found : rootNodes h.inodeId = some (.dir 0 []) := by
    rw [stands]
    rfl
  have facts : lookup emptyBooted.fs.vol.disk 0 [97] = none ∧
      Pool.inode.free emptyBooted.fs.vol ≠ 0 ∧ Pool.block.free emptyBooted.fs.vol ≠ 0 := by
    decide +kernel
  have room : EntryRoom emptyBooted.fs.vol.disk h.inodeId [97] :=
    (sound.holds.room_iff found).mpr (by decide)
  obtain ⟨_, made⟩ := mkdir_effect sound.holds emptyBooted_nextFits here found
    (show (0 : UInt8) ∉ [97] by decide) (by decide) (by decide)
  rw [stands] at made room
  exact made facts.1 facts.2.1 facts.2.2 room

end Lp64

end CdnwSh
