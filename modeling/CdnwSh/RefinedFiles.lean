import CdnwSh.RefinedNames
import CdnwSh.Seeks

/-! The commands on descriptors and whole files as steps of the `FileSystem`: `cnopen`,
`cnclose`, `cnread`, `cnwrite`, `cnseek`, `cncat`, `cnimport` and `cnexport`. -/
namespace CdnwSh

open ByteMemory RecordList FileStore

/-- No other descriptor writes to the file. -/
def Unwritten (t : Files Iptr UInt8) (i : Iptr) : Prop :=
  ∀ m d, t.fds m = some d → d.writes = true → d.file ≠ i

/-- The outcomes of `cnopen` as the `FileSystem` shows them. -/
inductive Opening [InodeLayout] (s : Fs) (own : Owner) (fs : FileSystem) (held : Snapshot) (name : Name) :
    Bool → Int → DirPtr → Fs → Prop where
  | failed : held.shows.find? (fun e => e.name = name) = none → DirShown fs.node d held →
      Opening s own fs held name false (-1) d s
  | found {k : Nat} : held.shows.find? (fun e => e.name = name) = some e → FreshFd fs.files k →
      k = (findFreeBit s.fdBm).toNat → s'.cwd = s.cwd → s'.vol = s.vol → DirShown fs.node d held →
      Mirrors s' own (fs.withFiles (fs.files.opened k e.inode writes)) →
      Opening s own fs held name writes k d s'
  | created {k : Nat} {s₁ s' : Fs} : FileMade s own fs held n name d s₁ own' → FreshFd fs.files k →
      s'.cwd = s.cwd → s'.vol = s₁.vol →
      Mirrors s' own' ((fs.enter held.dir (newEntry n ITYPE_FILE name)).withFiles
        ((fs.enter held.dir (newEntry n ITYPE_FILE name)).files.opened k n true)) →
      Opening s own fs held name true k { d with index := i } s'

section
variable [InodeLayout] {s s' : Fs} {fs : FileSystem} {own own' : Owner} {node : Nodes}
  {i j n p : Iptr} {es : List DirEntry} {e : DirEntry} {st : Inode} {r : Reply} {k : Nat}
  {d : Descriptor Iptr UInt8}

theorem Mirrors.close (mirrors : Mirrors s own fs) (run : cnclose fd s = some (code, s')) :
    ∃ k : Nat, fd = (k : Int) ∧ ((fs.files.fds k = none ∧ code = -1 ∧ s' = s) ∨
      fs.files.fds k ≠ none ∧ code = 0 ∧ s'.cwd = s.cwd ∧
        Mirrors s' own (fs.withFiles (fs.files.setFd k none))) := by
  obtain ⟨k, rfl, vol, failed | ⟨used, rfl, files⟩⟩ := mirrors.files.close run
  · exact ⟨k, rfl, .inl failed⟩
  · obtain ⟨after, ⟨same, _⟩ | ⟨_, _, _, _, _, _, same⟩⟩ := mirrors.sound.close run
    · cases same
    · exact ⟨k, rfl, .inr ⟨used, rfl, by rw [same]; rfl, after, files,
        mirrors.host.trans (by rw [same]; rfl)⟩⟩

omit [InodeLayout] in
theorem slice_ahead (inside : start + count ≤ size) :
    slice m start count = ((slice m 0 size).drop start).take count := by
  apply List.ext_getElem?
  intro k
  rw [List.getElem?_take, List.getElem?_drop, getElem?_slice, getElem?_slice]
  by_cases low : k < count
  · rw [if_pos low, if_pos low, if_pos (by omega), Nat.zero_add]
  · rw [if_neg low, if_neg low]

theorem FdShown.length (shown : FdShown s k d) : d.view.length = (s.fdTbl k).inode.size.toNat := by
  rw [← shown.view, cachedBytes, length_slice]

theorem FilesShown.move {t : Files Iptr UInt8} {cursor : UInt32} (shown : FilesShown s node t)
    (found : t.fds k = some d) (inside : cursor.toNat ≤ d.view.length) :
    FilesShown (s.setFd k { s.fdTbl k with cursor := cursor }) node
      (t.setFd k (some (d.move cursor.toNat))) := by
  have mine : (s.setFd k { s.fdTbl k with cursor := cursor }).fdTbl k =
      { s.fdTbl k with cursor := cursor } := setFd_same
  have before := shown.fds k d found
  refine shown.setFd rfl (fun m apart => setFd_other apart) (fun none => by cases none)
    (fun d' same => ?_) (shown.exclusive.update found inside rfl rfl) (shown.table.same (fun m => ?_) rfl)
  · cases same
    refine ⟨?_, ?_, ?_, ?_, fun writes => ?_⟩ <;> rw [mine]
    · exact before.state
    · exact before.file
    · exact before.view
    · rfl
    · exact before.inode writes
  · by_cases here : m = k
    · rw [here, mine]
    · rw [setFd_other here]

/-- A read that starts inside the file, or reads nothing. -/
def ReadOk (s : Fs) (fd : Int) (bytes : Nat) : Prop :=
  ∀ n, fdSlot fd = some n → (s.fdTbl n).state = FD_READ →
    bytes = 0 ∨ (s.fdTbl n).cursor < (s.fdTbl n).inode.size

omit [InodeLayout] in
theorem modeOf_inj (same : modeOf writes = modeOf writes') : writes = writes' := by
  cases writes <;> cases writes' <;> first | rfl | exact absurd same (by decide)

omit [InodeLayout] in
theorem modeOf_write : decide (modeOf writes = FD_WRITE) = writes := by cases writes <;> decide

/-- The mode of the table is that of the descriptor. -/
theorem FilesShown.mode {t : Files Iptr UInt8} (shown : FilesShown s node t) (writes : Bool)
    (mode : (s.fdTbl k).state = modeOf writes) : ∃ d, t.fds k = some d ∧ d.writes = writes := by
  cases found : t.fds k with
  | none => exact absurd (mode.symm.trans (shown.free k found)) (modeOf_used writes)
  | some d => exact ⟨d, rfl, modeOf_inj ((shown.fds k d found).state.symm.trans mode)⟩

theorem FilesShown.other_mode {t : Files Iptr UInt8} (shown : FilesShown s node t) (writes : Bool)
    (other : (s.fdTbl k).state ≠ modeOf writes) : ∀ d, t.fds k = some d → d.writes = !writes := by
  intro d found
  have state := (shown.fds k d found).state
  have differs : d.writes ≠ writes := fun same => other (same ▸ state)
  cases writes <;> simpa using differs

omit [InodeLayout] in
theorem left_behind {cursor size : UInt32} (less : cursor < size) :
    (size - (cursor + 1)).toNat = size.toNat - cursor.toNat - 1 := by
  have small := size.toNat_lt
  have less := UInt32.lt_iff_toNat_lt.mp less
  have next : (cursor + 1).toNat = cursor.toNat + 1 := by
    rw [UInt32.toNat_add, show (1 : UInt32).toNat = 1 from rfl]
    omega
  rw [UInt32.toNat_sub_of_le _ _ (UInt32.le_iff_toNat_le.mpr (by omega)), next]
  omega

theorem Mirrors.read (mirrors : Mirrors s own fs) (ok : ReadOk s fd bytes)
    (run : cnread bytes fd s = some (out, s')) :
    ∃ k : Nat, fd = (k : Int) ∧
      (((∀ d, fs.files.fds k = some d → d.writes = true) ∧ out = [] ∧ s' = s) ∨
      ∃ d, fs.files.fds k = some d ∧ d.writes = false ∧
        out = d.ahead (min bytes (d.view.length - d.cursor - 1)) ∧ s'.cwd = s.cwd ∧
        Mirrors s' own (fs.withFiles (fs.files.setFd k (some (d.move (d.cursor + out.length)))))) := by
  obtain ⟨k, slot, ⟨other, rfl, rfl⟩ | ⟨mode, read, length, same⟩⟩ := cnread_eq run
  · obtain ⟨rfl, _⟩ := fdSlot_eq slot
    exact ⟨k, rfl, .inl ⟨mirrors.files.other_mode false other, rfl, rfl⟩⟩
  obtain ⟨rfl, _⟩ := fdSlot_eq slot
  obtain ⟨d, found, reads⟩ := mirrors.files.mode false mode
  have shown := mirrors.files.fds k d found
  have within := mirrors.files.exclusive.within k d found
  have size := shown.length
  have cursor := shown.cursor
  have small := (s.fdTbl k).inode.size.toNat_lt
  have count : out.length = min bytes (d.view.length - d.cursor - 1) := by
    rw [length]
    rcases ok k slot mode with rfl | less
    · rw [Nat.zero_min, Nat.zero_min]
    · rw [left_behind less, size, cursor]
  have inside : d.cursor + out.length ≤ d.view.length := by
    have low : out.length ≤ d.view.length - d.cursor - 1 := count ▸ Nat.min_le_right _ _
    omega
  have moved : ((s.fdTbl k).cursor + UInt32.ofNat out.length).toNat = d.cursor + out.length := by
    rw [UInt32.toNat_add, UInt32.toNat_ofNat', cursor]
    omega
  refine ⟨k, rfl, .inr ⟨d, found, reads, ?_, by rw [same]; rfl, ?_⟩⟩
  · rw [← count, Descriptor.ahead, ← shown.view, cachedBytes, ← slice_ahead (by omega), ← cursor]
    exact readData_some read
  · rw [same, ← moved]
    exact ⟨mirrors.sound.setFd rfl rfl rfl id, mirrors.files.move found (by omega), mirrors.host⟩

theorem FilesShown.acted {t : Files Iptr UInt8} {d' : Descriptor Iptr UInt8} (shown : FilesShown s node t)
    (sound : Sound s own node) (found : t.fds k = some d) (writes : d.writes = true)
    (acted : Acted s own k s' own') (fdBm : s'.fdBm = s.fdBm) (mine : FdShown s' k d')
    (file : d'.file = d.file) (mode : d'.writes = d.writes) (inside : d'.cursor ≤ d'.view.length)
    (content : contentOf s'.vol.disk d.file = some bytes) :
    FilesShown s' node ((t.setFd k (some d')).fill d.file bytes) := by
  have before := shown.fds k d found
  have holds := sound.holds
  have apart (j) (isFile : node j = some .file) (other : j ≠ d.file) :
      inodeRead s'.vol.disk j = inodeRead s.vol.disk j ∧ contentOf s'.vol.disk j = contentOf s.vol.disk j := by
    obtain ⟨st, there⟩ := holds.files j isFile
    exact acted.confined.content_eq holds.ledger there (holds.inodes j (by rw [isFile]; simp)).1
      (by rw [before.file]; exact other)
  constructor
  case content =>
    intro j isFile
    by_cases here : j = d.file
    · rw [here, Files.content_fill]
      exact content
    · rw [Files.content_fill_other here, (apart j isFile here).2]
      exact shown.content j isFile
  case free =>
    intro m none
    by_cases here : m = k
    · rw [here, Files.fds_fill, Files.fds_setFd] at none
      cases none
    · rw [Files.fds_fill, Files.fds_setFd_other here] at none
      rw [acted.others m here]
      exact shown.free m none
  case fds =>
    intro m e open'
    by_cases here : m = k
    · rw [here, Files.fds_fill, Files.fds_setFd, Option.some.injEq] at open'
      rw [here, ← open']
      exact mine
    · rw [Files.fds_fill, Files.fds_setFd_other here] at open'
      refine (shown.fds m e open').frame (acted.others m here) fun writer => ?_
      refine (apart e.file (shown.file sound open') fun same => here ?_).1
      exact shown.exclusive.writer m k e d open' found writer writes same
  case exclusive => exact (shown.exclusive.update found inside file mode).fill
  case table =>
    refine shown.table.same (fun m => ?_) fdBm
    by_cases here : m = k
    · rw [here]
      exact acted.open'
    · rw [acted.others m here]

omit [InodeLayout] in
theorem scattered_bytes {v : Vol} (mapped : Mapped v.disk own i st)
    (blocks : st.blocks.toNat = blocksFor st.size.toNat) :
    fileBytes (v.scattered st mem).disk st = slice mem 0 st.size.toNat := by
  have list : blockList (v.scattered st mem).disk st = blockList v.disk st :=
    blockList_congr fun many => Extents.scatter_out fun member => by
      obtain ⟨k, found⟩ := mapped.mem member
      rw [mapped.single (mapped.indirect many)] at found
      simp at found
  rw [fileBytes, list]
  refine slice_congr fun j _ high => Extents.gather_scatter mapped.nodup ?_
  rw [length_blockList, blocks]
  exact Nat.lt_of_lt_of_le (by omega) size_le_blocks

/-- Behind a write the cursor is inside the cache, so it has not wrapped. -/
theorem Stored.end_eq {fde : FdEntry} {v : Vol} (stored : Stored s own k buf s' own' fde v)
    (cursor : fde.cursor = (s.fdTbl k).cursor) :
    (writeEnd (s.fdTbl k) buf).toNat = (s.fdTbl k).cursor.toNat + buf.length := by
  have small := (s.fdTbl k).cursor.toNat_lt
  rw [writeEnd, UInt32.toNat_ofNat']
  rcases stored.room with rfl | room
  · exact Nat.mod_eq_of_lt small
  · rw [stored.copy.cache, cursor] at room
    have few := stored.copy.mapped.few
    exact Nat.mod_eq_of_lt (by omega)

/-- The copy that is written is that of the descriptor, grown to the end of the write. -/
theorem Stored.grown_eq {fde : FdEntry} {v : Vol} (stored : Stored s own k buf s' own' fde v) :
    fde.cursor = (s.fdTbl k).cursor ∧
    fde.inode.size.toNat =
      max (s.fdTbl k).inode.size.toNat ((s.fdTbl k).cursor.toNat + buf.length) ∧
    slice (dataBuf fde.data).mem 0 (s.fdTbl k).inode.size.toNat = cachedBytes (s.fdTbl k) := by
  rcases stored.grown with ⟨enough, rfl, _, _⟩ | ⟨more, grown⟩
  · have ends := stored.end_eq rfl
    have enough := mt UInt32.lt_iff_toNat_lt.mpr enough
    exact ⟨rfl, by omega, rfl⟩
  · have cursor : fde.cursor = (s.fdTbl k).cursor := by rw [grown.same]
    have ends := stored.end_eq cursor
    have more := UInt32.lt_iff_toNat_lt.mp more
    refine ⟨cursor, by rw [grown.size]; omega, ?_⟩
    rw [cachedBytes, grown.data, dataBuf_some]
    exact slice_congr fun j _ high => if_pos (by omega)

/-- What was written is in the descriptor. -/
theorem Stored.view {fde : FdEntry} {v : Vol} (stored : Stored s own k buf s' own' fde v)
    (within : (s.fdTbl k).cursor.toNat ≤ (s.fdTbl k).inode.size.toNat) :
    cachedBytes (s'.fdTbl k) = (cachedBytes (s.fdTbl k)).splice (s.fdTbl k).cursor.toNat buf := by
  obtain ⟨cursor, size, kept⟩ := stored.grown_eq
  rw [cachedBytes, stored.inode, size, stored.cache, cursor, slice_splice within, kept]

theorem cnwrite_host (run : cnwrite buf fd s = some (count, s')) : s'.host = s.host := by
  obtain ⟨_, _, ⟨_, _, rfl⟩ | ⟨_, fde, s₁, _, _, grows, _, _, _, rfl⟩⟩ := cnwrite_eq run
  · rfl
  · change s₁.host = s.host
    rw [growFd_only grows]

theorem cnseek_host (run : cnseek fd offset s = some (code, s')) : s'.host = s.host := by
  obtain ⟨_, _, ⟨_, _, rfl⟩ | ⟨fde, s₁, grows, _, rfl⟩⟩ := cnseek_eq run
  · rfl
  · change s₁.host = s.host
    rw [growFd_only grows]

theorem FdShown.seekEnd {offset : UInt32} (shown : FdShown s k d) :
    (s.fdTbl k).cursor + offset = UInt32.ofNat (d.cursor + offset.toNat) := by
  rw [← shown.cursor, UInt32.ofNat_add, UInt32.ofNat_toNat, UInt32.ofNat_toNat]

/-- The host refuses the cache of a descriptor where it refuses the bytes it is to show. -/
theorem Mirrors.refuses {required : UInt32} {n : Nat} (mirrors : Mirrors s own fs) (found : fs.files.fds k = some d)
    (ends : required = UInt32.ofNat n) : Refused s (s.fdTbl k) required ↔ fs.host.Refuses d n := by
  have shown := mirrors.files.fds k d found
  rw [Refused, Host.Refuses, CacheGranted, Bool.not_eq_true, UInt32.lt_iff_toNat_lt, shown.length,
    mirrors.host, ends]

omit [InodeLayout] in
/-- Memory is refused to an empty descriptor where it is refused at all. -/
theorem Host.refuses_empty {host : Host} {d : Descriptor Iptr UInt8} {n : Nat} (empty : d.view = []) :
    host.Refuses d n ↔ ¬ CacheGranted host.heap n := by
  refine ⟨fun refuses => refuses.2, fun refused => ⟨?_, refused⟩⟩
  rw [empty]
  refine Nat.pos_of_ne_zero fun none => refused ?_
  -- a cache of one block is always granted
  have zero : UInt32.ofNat n = 0 := UInt32.toNat_inj.mp none
  rw [CacheGranted, zero]
  exact host.heap.small _ (by decide)

theorem Mirrors.write (mirrors : Mirrors s own fs) (ok : WriteOk s fd buf)
    (run : cnwrite buf fd s = some (count, s')) :
    ∃ k : Nat, fd = (k : Int) ∧
      (((∀ d, fs.files.fds k = some d → d.writes = false) ∧ count = 0 ∧ s' = s) ∨
      ∃ d, fs.files.fds k = some d ∧ d.writes = true ∧
        (fs.host.Refuses d (d.cursor + buf.length) ∧ count = 0 ∧ s' = s ∨
        ¬ fs.host.Refuses d (d.cursor + buf.length) ∧ count = buf.length ∧ s'.cwd = s.cwd ∧
          ∃ own', Mirrors s' own' (fs.withFiles (fs.files.written k d buf)))) := by
  have sound := mirrors.sound
  have used := cnwrite_used run
  obtain ⟨k, slot, _⟩ := cnwrite_eq run
  obtain ⟨rfl, small⟩ := fdSlot_eq slot
  refine ⟨k, rfl, ?_⟩
  by_cases other : (s.fdTbl k).state ≠ FD_WRITE
  · exact .inl ⟨mirrors.files.other_mode true other, cnwrite_fails run (.inl other)⟩
  have mode := not_not.mp other
  obtain ⟨d, found, writes⟩ := mirrors.files.mode true mode
  have shown := mirrors.files.fds k d found
  have refuses := mirrors.refuses found
    (congrArg (fun cursor => UInt32.ofNat (cursor + buf.length)) shown.cursor)
  refine .inr ⟨d, found, writes, ?_⟩
  by_cases refused : Refused s (s.fdTbl k) (writeEnd (s.fdTbl k) buf)
  · exact .inl ⟨refuses.mp refused, cnwrite_fails run (.inr refused)⟩
  obtain ⟨_, _, failed⟩ | ⟨n, own', fde, v, same, _, rfl, _, acted, stored, after⟩ := sound.write ok run
  · exact ((failed k rfl).elim (absurd mode) fun no => absurd no refused)
  obtain rfl := Int.ofNat_inj.mp same
  have within := mirrors.files.exclusive.within k d found
  have isFile := mirrors.files.file sound found
  obtain ⟨cursor, size, _⟩ := stored.grown_eq
  have ends := stored.end_eq cursor
  have bytes : cachedBytes (s'.fdTbl k) = (d.write buf).view := by
    rw [stored.view (by rw [shown.cursor, ← shown.length]; exact within), shown.view, shown.cursor]
    rfl
  have inode : inodeRead s'.vol.disk d.file = some (s'.fdTbl k).inode := by
    rw [← shown.file]
    rcases acted.inode with ⟨same, read⟩ | read
    · rw [read, same, shown.file]
      exact shown.inode writes
    · exact read
  have content : contentOf s'.vol.disk d.file = some (d.write buf).view := by
    obtain ⟨st, there⟩ := after.holds.files d.file isFile
    obtain rfl := Option.some.inj (there.read.symm.trans inode)
    rw [there.contentOf_eq after.holds.ledger, ← bytes, stored.vol, stored.inode,
      scattered_bytes stored.copy.mapped stored.copy.blocks, cachedBytes, stored.inode]
  have mine : FdShown s' k (d.write buf) := by
    refine ⟨acted.open'.trans shown.state, acted.id.trans shown.file, bytes, ?_, fun _ => inode⟩
    have small := (writeEnd (s.fdTbl k) buf).toNat_lt
    rw [stored.cursor, UInt32.toNat_add, UInt32.toNat_ofNat', cursor, shown.cursor]
    change _ = d.cursor + buf.length
    rw [shown.cursor] at ends
    omega
  refine .inr ⟨mt refuses.mpr refused, rfl, acted.cwd, own', after, ?_, ?_⟩
  · exact mirrors.files.acted sound found writes acted used.fdBm mine rfl rfl
      (Descriptor.write_within within) content
  · exact mirrors.host.trans (cnwrite_host run).symm

/-- A seek does not wrap, and grows only a file that its descriptor writes. -/
def SeekStays (s : Fs) (fd : Int) (offset : UInt32) : Prop :=
  ∀ n, fdSlot fd = some n → (s.fdTbl n).state ≠ FD_FREE →
    (s.fdTbl n).cursor.toNat + offset.toNat < 2 ^ 32 ∧
    ((s.fdTbl n).inode.size < (s.fdTbl n).cursor + offset → (s.fdTbl n).state = FD_WRITE)

theorem FdGrown.cachedBytes {fde fde' : FdEntry} {required : UInt32} {v' : Vol}
    (grown : FdGrown s own fde required fde' v' own') (more : fde.inode.size.toNat < required.toNat) :
    CdnwSh.cachedBytes fde' = CdnwSh.cachedBytes fde ++
      List.replicate (required.toNat - fde.inode.size.toNat) 0 := by
  have size : required.toNat =
      fde.inode.size.toNat + (required.toNat - fde.inode.size.toNat) := by omega
  rw [CdnwSh.cachedBytes, grown.size, grown.data, dataBuf_some, size, slice_append, ← size]
  congr 1
  · exact slice_congr fun j _ high => if_pos (by omega)
  · refine List.eq_replicate_iff.mpr ⟨length_slice, fun b member => ?_⟩
    obtain ⟨j, inside, rfl⟩ := List.mem_map.mp member
    exact if_neg (by omega)

theorem FilesShown.grown {t : Files Iptr UInt8} {required : UInt32} {fde : FdEntry}
    (shown : FilesShown s node t) (sound : Sound s own node) (found : t.fds k = some d) (writes : d.writes = true)
    (grown : FdGrown s own (s.fdTbl k) required fde s'.vol own')
    (more : (s.fdTbl k).inode.size.toNat < required.toNat) (after : Sound s' own' node) :
    ∃ junk, contentOf s'.vol.disk d.file = some (t.content d.file ++ junk) ∧
      d.view.length + junk.length = required.toNat := by
  have before := shown.fds k d found
  have isFile := shown.file sound found
  obtain ⟨st, there⟩ := sound.holds.files d.file isFile
  obtain rfl := Option.some.inj ((before.inode writes).symm.trans there.read)
  obtain ⟨st', there'⟩ := after.holds.files d.file isFile
  have onDisk := grown.onDisk
  rw [before.file] at onDisk
  obtain rfl := Option.some.inj (onDisk.symm.trans there'.read)
  have old : t.content d.file = fileBytes s.vol.disk (s.fdTbl k).inode :=
    Option.some.inj ((shown.content d.file isFile).symm.trans (there.contentOf_eq sound.holds.ledger))
  obtain ⟨_, kept⟩ := grown.kept (by rw [there.blocks]; exact size_le_blocks) more
  have length : (t.content d.file).length = (s.fdTbl k).inode.size.toNat := by
    rw [old, fileBytes, length_slice]
  rw [← old, ← length] at kept
  obtain ⟨junk, new⟩ := List.prefix_iff_eq_take.mpr kept.symm
  refine ⟨junk, by rw [there'.contentOf_eq after.holds.ledger, new], ?_⟩
  have total := congrArg List.length new
  rw [List.length_append, fileBytes, length_slice, grown.size, length] at total
  rw [before.length]
  exact total

/-- A descriptor that is free stays so when its cursor is set. -/
theorem FilesShown.free_move {t : Files Iptr UInt8} {cursor : UInt32} (shown : FilesShown s node t)
    (none : t.fds k = none) : FilesShown (s.setFd k { s.fdTbl k with cursor := cursor }) node t := by
  have mine : (s.setFd k { s.fdTbl k with cursor := cursor }).fdTbl k =
      { s.fdTbl k with cursor := cursor } := setFd_same
  have files : FilesShown (s.setFd k { s.fdTbl k with cursor := cursor }) node (t.setFd k .none) := by
    refine shown.setFd rfl (fun m apart => setFd_other apart)
      (fun _ => by rw [mine]; exact shown.free k none) (fun d same => by cases same)
      shown.exclusive.close (shown.table.same (fun m => ?_) rfl)
    by_cases here : m = k
    · rw [here, mine]
    · rw [setFd_other here]
  rwa [Files.setFd_self none] at files

theorem Mirrors.seek (mirrors : Mirrors s own fs) (ok : SeekOk s fd offset) (stays : SeekStays s fd offset)
    (run : cnseek fd offset s = some (code, s')) :
    ∃ k : Nat, fd = (k : Int) ∧
      ((∃ d, fs.files.fds k = some d ∧ fs.host.Refuses d (d.cursor + offset.toNat) ∧ code = -1 ∧ s' = s) ∨
      code = 0 ∧ s'.cwd = s.cwd ∧ ∃ own',
        ((fs.files.fds k = none ∧ Mirrors s' own' fs) ∨
        (∃ d, fs.files.fds k = some d ∧ d.cursor + offset.toNat ≤ d.view.length ∧
          Mirrors s' own' (fs.withFiles (fs.files.setFd k (some (d.move offset.toNat))))) ∨
        ∃ d junk, fs.files.fds k = some d ∧ d.writes = true ∧
          ¬ fs.host.Refuses d (d.cursor + offset.toNat) ∧
          d.view.length + junk.length = d.cursor + offset.toNat ∧ junk ≠ [] ∧
          Mirrors s' own' (fs.withFiles
            (fs.files.grown k d (List.replicate junk.length 0) offset.toNat junk)))) := by
  have sound := mirrors.sound
  have host := cnseek_host run
  have used := cnseek_used run
  have open_of (k : Nat) (used : (s.fdTbl k).state ≠ FD_FREE) : ∃ d, fs.files.fds k = some d :=
    Option.ne_none_iff_exists'.mp fun none => used (mirrors.files.free k none)
  obtain ⟨k, rfl, small, ⟨refused, rfl, rfl⟩ | ⟨rfl, ⟨enough, same, after⟩ |
    ⟨more, used', own', fde, grown, mine, acted, after⟩⟩⟩ := sound.seek ok run
  · obtain ⟨d, found⟩ := open_of k (ok k (fdSlot_small small) refused.1).1
    have shown := mirrors.files.fds k d found
    exact ⟨k, rfl, .inl ⟨d, found, (mirrors.refuses found shown.seekEnd).mp refused, rfl, rfl⟩⟩
  · refine ⟨k, rfl, .inr ⟨rfl, by rw [same]; rfl, own, ?_⟩⟩
    cases found : fs.files.fds k with
    | none => exact .inl ⟨rfl, after, same ▸ mirrors.files.free_move found, mirrors.host.trans host.symm⟩
    | some d =>
      have shown := mirrors.files.fds k d found
      obtain ⟨wraps, _⟩ := stays k (fdSlot_small small) (mirrors.files.used found)
      have enough := mt UInt32.lt_iff_toNat_lt.mpr enough
      rw [UInt32.toNat_add, Nat.mod_eq_of_lt wraps, shown.cursor, ← shown.length] at enough
      refine .inr (.inl ⟨d, rfl, by omega, after, ?_, mirrors.host.trans host.symm⟩)
      rw [same]
      exact mirrors.files.move found (by omega)
  · obtain ⟨d, found⟩ := open_of k used'
    have shown := mirrors.files.fds k d found
    have granted : ¬ fs.host.Refuses d (d.cursor + offset.toNat) := by
      rw [← mirrors.refuses found shown.seekEnd]
      intro refused
      rw [cnseek_refused small refused] at run
      cases run
    obtain ⟨wraps, mode⟩ := stays k (fdSlot_small small) used'
    have writes : d.writes = true := by
      obtain ⟨e, same, writes⟩ := mirrors.files.mode true (mode more)
      obtain rfl := Option.some.inj (same.symm.trans found)
      exact writes
    have ends : ((s.fdTbl k).cursor + offset).toNat = d.cursor + offset.toNat := by
      rw [UInt32.toNat_add, Nat.mod_eq_of_lt wraps, shown.cursor]
    have less := UInt32.lt_iff_toNat_lt.mp more
    obtain ⟨junk, content, length⟩ := mirrors.files.grown sound found writes grown less after
    rw [ends] at length
    have view : cachedBytes (s'.fdTbl k) = d.view ++ List.replicate junk.length 0 := by
      rw [mine]
      change cachedBytes fde = _
      rw [grown.cachedBytes less, ends, ← shown.length, shown.view,
        show d.cursor + offset.toNat - d.view.length = junk.length by omega]
    have inside : (d.grow (List.replicate junk.length 0) offset.toNat).cursor ≤
        (d.grow (List.replicate junk.length 0) offset.toNat).view.length := by
      change offset.toNat ≤ (d.view ++ List.replicate junk.length 0).length
      rw [List.length_append, List.length_replicate]
      omega
    have shown' : FdShown s' k (d.grow (List.replicate junk.length 0) offset.toNat) := by
      refine ⟨acted.open'.trans shown.state, acted.id.trans shown.file, view, by rw [mine]; rfl,
        fun _ => ?_⟩
      rw [mine]
      change inodeRead s'.vol.disk d.file = some fde.inode
      rw [← shown.file]
      exact grown.onDisk
    refine ⟨k, rfl, .inr ⟨rfl, acted.cwd, own', .inr (.inr ⟨d, junk, found, writes, granted, length, ?_,
      after, ?_, mirrors.host.trans host.symm⟩)⟩⟩
    · rintro rfl
      rw [shown.length, List.length_nil, Nat.add_zero, ← ends] at length
      omega
    · exact mirrors.files.acted sound found writes acted used.fdBm shown' rfl rfl inside content

theorem Mirrors.openFd {writes : Bool} (mirrors : Mirrors s own fs) (file : fs.node i = some .file)
    (left : IsFree s m) (only : writes = true → Unwritten fs.files i)
    (run : openFd s i (modeOf writes) = some (fd, s')) :
    ∃ k : Nat, fd = (k : Int) ∧ k = (findFreeBit s.fdBm).toNat ∧ k < 1024 ∧ FreshFd fs.files k ∧
      s'.cwd = s.cwd ∧ s'.vol = s.vol ∧ Mirrors s' own (fs.withFiles (fs.files.opened k i writes)) := by
  obtain ⟨k, st, rfl, opened, after⟩ := mirrors.sound.openFd file run
  obtain ⟨k', same, taken⟩ := openFd_taken run
  obtain rfl := Int.ofNat_inj.mp same
  obtain ⟨small, fresh⟩ := mirrors.files.freshFd left
  rw [← taken.search] at small fresh
  have host : s'.host = s.host := by rw [opened.state]
  exact ⟨k, rfl, taken.search, small, fresh, by rw [opened.state], by rw [opened.state], after,
    mirrors.files.open file run opened after only, mirrors.host.trans host.symm⟩

/-- No descriptor is on a new file. -/
theorem FileMade.unopened {s₁ : Fs} {h : DirPtr} (made : FileMade s own fs held n name h s₁ own')
    (mirrors : Mirrors s own fs) (found : fs.files.fds k = some d) : d.file ≠ n := by
  rintro rfl
  have file := mirrors.files.file mirrors.sound found
  rw [made.fresh.free] at file
  cases file

/-- Where a handle stands makes no difference to a file that is created through it. -/
theorem CreatOk.reindex {d : DirPtr} {k : UInt32} (ok : CreatOk s d name) :
    CreatOk s { d with index := k } name := by
  refine ⟨ok.text, fun next again => ?_⟩
  rw [cnstat_rewind] at again
  obtain ⟨short, current, left⟩ := ok.missing next again
  exact ⟨short, ⟨current.used, current.inode, current.size, current.shows⟩, left⟩

theorem Mirrors.openFile {d d' : DirPtr} {writes : Bool} (mirrors : Mirrors s own fs)
    (shown : DirShown fs.node d held) (ok : OpenOk s d name (modeOf writes)) (left : IsFree s m)
    (only : writes = true → ∀ e, held.shows.find? (fun e => e.name = name) = some e →
      Unwritten fs.files e.inode)
    (run : cnopen d name (modeOf writes) s = some (fd, d', s')) :
    Opening s own fs held name writes fd d' s' := by
  obtain ⟨k, stat⟩ := shown.stat name
  obtain ⟨k', scanned⟩ := shown.finds name
  rw [cnopen, stat] at run
  simp only [Option.bind_eq_bind, Option.bind_some] at run
  cases found : held.shows.find? (fun e => e.name = name) with
  | some e =>
    rw [found] at run scanned
    obtain ⟨⟨fd₁, s₁⟩, opens, run⟩ := Option.bind_eq_some_iff.mp run
    cases run
    have file := shown.files e (List.mem_of_find?_eq_some found) (ok.file e _ scanned)
    obtain ⟨k, rfl, search, _, fresh, cwd, vol, after⟩ :=
      mirrors.openFd file left (fun writer => only writer e found) opens
    exact .found found fresh search cwd vol shown.reindex after
  | none =>
    rw [found] at run
    simp only [Option.map_none] at run
    obtain ⟨⟨code, d₁, s₁⟩, missing, run⟩ := Option.bind_eq_some_iff.mp run
    rw [found] at stat
    dsimp only at run
    cases writes with
    | false =>
      cases missing
      rw [if_neg (by decide), cnstat_rewind, stat] at run
      cases run
      exact .failed found shown.reindex
    | true =>
      rcases mirrors.creat shown.reindex (ok.creat rfl).reindex missing with
        ⟨e, there, _⟩ | ⟨rfl, n, own', made⟩
      · rw [found] at there
        cases there
      obtain ⟨j, stat'⟩ := (made.shown mirrors.sound).stat name
      rw [made.named mirrors.sound] at stat'
      rw [if_neg (by decide), stat'] at run
      simp only [Option.map_some, Option.bind_some] at run
      obtain ⟨⟨fd₁, s₂⟩, opens, run⟩ := Option.bind_eq_some_iff.mp run
      cases run
      have same := made.same
      have left₁ : IsFree s₁ m := ⟨left.1, by rw [same.fdTbl]; exact left.2⟩
      obtain ⟨k, rfl, _, _, fresh, cwd, vol, after⟩ := made.mirrors.openFd made.isFile left₁
        (fun _ m d open' _ => made.unopened mirrors (same.fds ▸ open')) opens
      have first : FreshFd fs.files k :=
        ⟨same.fds ▸ fresh.free, fun m below => same.fds ▸ fresh.least m below⟩
      exact .created made first (cwd.trans same.cwd) vol after

theorem Opened.dirShown {v : Vol} {h : DirPtr} {cursor : UInt32} (opened : Opened v own node j cursor h)
    (holds : Holds v own node) : DirShown node h ⟨j, recordsOf node j⟩ := by
  obtain ⟨q, sub, st, found, dir, rfl⟩ := opened
  exact (dir.handleOf.reindex (k := _)).dirShown holds found

theorem FilesShown.size {t : Files Iptr UInt8} (shown : FilesShown s node t) (sound : Sound s own node)
    (file : node i = some .file) (read : inodeRead s.vol.disk i = some st) :
    (t.content i).length = st.size.toNat := by
  obtain ⟨st', there⟩ := sound.holds.files i file
  obtain rfl := Option.some.inj (there.read.symm.trans read)
  have same := (shown.content i file).symm.trans (there.contentOf_eq sound.holds.ledger)
  rw [Option.some.inj same, fileBytes, length_slice]

omit [InodeLayout] in
theorem toInt8_small (small : k < 128) : toInt8 (k : Int) = (k : Int) := by
  unfold toInt8
  rw [Int.bmod_def]
  omega

theorem Mirrors.readOk {s₁ : Fs} (opened : Mirrors s₁ own (fs.withFiles (fs.files.opened k i false)))
    (size : (fs.files.content i).length = count) : ReadOk s₁ k count := by
  have shown := opened.files.fds k ⟨i, false, fs.files.content i, 0⟩ Files.fds_setFd
  intro m slot _
  obtain ⟨same, _⟩ := fdSlot_eq slot
  obtain rfl := Int.ofNat_inj.mp same
  rcases Nat.eq_zero_or_pos count with none | some
  · exact .inl none
  · refine .inr (UInt32.lt_iff_toNat_lt.mpr ?_)
    rw [shown.cursor, ← shown.length, size]
    exact some

theorem Mirrors.readWhole {s₁ : Fs} (opened : Mirrors s₁ own (fs.withFiles (fs.files.opened k i false)))
    (size : (fs.files.content i).length = count)
    (run : cnread count k s₁ = some (out, s')) :
    out = (fs.files.content i).take ((fs.files.content i).length - 1) ∧ s'.cwd = s₁.cwd ∧
      Mirrors s' own (fs.withFiles
        (fs.files.setFd k (some ⟨i, false, fs.files.content i, out.length⟩))) := by
  have found : (fs.files.opened k i false).fds k = some ⟨i, false, fs.files.content i, 0⟩ :=
    Files.fds_setFd
  obtain ⟨m, same, ⟨other, _⟩ | ⟨d, here, _, bytes, cwd, after⟩⟩ := opened.read (opened.readOk size) run
  · obtain rfl := Int.ofNat_inj.mp same
    cases other _ found
  · obtain rfl := Int.ofNat_inj.mp same
    obtain rfl := Option.some.inj (found.symm.trans here)
    have all : out = (fs.files.content i).take ((fs.files.content i).length - 1) := by
      rw [bytes, Descriptor.ahead, List.drop_zero, ← size, Nat.sub_zero,
        Nat.min_eq_right (Nat.sub_le _ _)]
    refine ⟨all, cwd, ?_⟩
    change Mirrors s' own (fs.withFiles ((fs.files.setFd k _).setFd k _)) at after
    rw [Files.setFd_setFd, Nat.zero_add] at after
    exact after

theorem Mirrors.cat (mirrors : Mirrors s own fs) (ok : FileName s name) (left : IsFree s m)
    (small : m < 128) (run : cncat name s = some (code, bytes, s')) :
    ∃ cwd, s.cwd = some cwd ∧ s'.cwd = s.cwd ∧
      ((named fs.node cwd.inodeId name = none ∧ code = -1 ∧ bytes = [] ∧ s' = s) ∨
      ∃ e k, named fs.node cwd.inodeId name = some e ∧ FreshFd fs.files k ∧ code = 0 ∧
        bytes = (fs.files.content e.inode).take ((fs.files.content e.inode).length - 1) ∧
        Mirrors s' own (fs.withFiles
          (fs.files.setFd k (some ⟨e.inode, false, fs.files.content e.inode, bytes.length⟩)))) := by
  have sound := mirrors.sound
  obtain ⟨dir, opens, rest⟩ := cncat_eq run
  obtain ⟨cwd, h, here, same, opened⟩ := sound.openDot opens
  cases same
  have shown := opened.dirShown sound.holds
  obtain ⟨k, stat⟩ := shown.stat name
  change cnstat dir name = some ((named fs.node cwd.inodeId name).map (·.inode), _) at stat
  refine ⟨cwd, here, ?_⟩
  rcases rest with ⟨_, missing, rfl, rfl, rfl⟩ | ⟨i, _, inode, fd, _, s₁, stat', read, opens', reading⟩
  · rw [stat, Option.some.injEq, Prod.mk.injEq, Option.map_eq_none_iff] at missing
    exact ⟨rfl, .inl ⟨missing.1, rfl, rfl, rfl⟩⟩
  rw [stat, Option.some.injEq, Prod.mk.injEq] at stat'
  obtain ⟨found, rfl⟩ := stat'
  obtain ⟨e, entry, rfl⟩ := Option.map_eq_some_iff.mp found
  have fits : OpenOk s { dir with index := k } name (modeOf false) :=
    ⟨(opened.openRead sound.holds here rfl ok).file, fun write => absurd write (by decide)⟩
  have opening := mirrors.openFile shown.reindex fits left (fun writes => by cases writes) opens'
  cases opening with
  | failed missing => exact absurd (missing.symm.trans entry) (by simp)
  | @found _ _ _ _ k there fresh search cwd' vol _ mirrors' =>
    obtain rfl := Option.some.inj (entry.symm.trans there)
    have below : k < 128 := by
      by_contra high
      exact fresh.least m (by omega) ((mirrors.files.isFree left.1).mp left)
    rw [toInt8_small below] at reading
    obtain ⟨negative, _⟩ | ⟨_, rfl, reads⟩ := reading
    · omega
    have file : fs.node e.inode = some .file := mirrors'.files.file mirrors'.sound Files.fds_setFd
    obtain ⟨bytes, same, after⟩ := mirrors'.readWhole (mirrors.files.size sound file read) reads
    exact ⟨same.trans cwd', .inr ⟨e, k, entry, fresh, rfl, bytes, after⟩⟩

/-- A descriptor that was free before is given back. -/
theorem Mirrors.closeNew (mirrors : Mirrors s own (fs.withFiles (fs.files.setFd k (some d))))
    (free : fs.files.fds k = none) (run : cnclose k s = some (code, s')) :
    s'.cwd = s.cwd ∧ Mirrors s' own fs := by
  have found : (fs.files.setFd k (some d)).fds k = some d := Files.fds_setFd
  obtain ⟨m, same, ⟨none, _⟩ | ⟨_, _, cwd, after⟩⟩ := mirrors.close run
  · obtain rfl := Int.ofNat_inj.mp same
    exact absurd (none.symm.trans found) (by simp)
  · obtain rfl := Int.ofNat_inj.mp same
    refine ⟨cwd, ?_⟩
    change Mirrors s' own (fs.withFiles ((fs.files.setFd k _).setFd k _)) at after
    rw [Files.setFd_setFd, Files.setFd_self free] at after
    exact after

theorem Mirrors.withHost (mirrors : Mirrors s own fs) (host : Host) :
    Mirrors { s with host := host } own { fs with host := host } :=
  ⟨mirrors.sound.withHost, mirrors.files.kept mirrors.sound (.refl _) rfl rfl fun _ => id, rfl⟩

omit [InodeLayout] in
theorem put_put {host : Host} : (host.put name bytes).put name bytes' = host.put name bytes' := by
  simp only [Host.put, Host.mk.injEq, and_true]
  funext other
  by_cases same : other = name
  · simp [same]
  · simp [same]

theorem Mirrors.closeEmptied (mirrors : Mirrors s own (fs.withFiles (fs.files.setFd k (some d))))
    (emptied : fs.host.put name [] = fs.host) (free : fs.files.fds k = none)
    (run : cnclose k { s with host := s.host.put name [] } = some (code, s')) :
    s'.cwd = s.cwd ∧ Mirrors s' own fs := by
  have same : s.host.put name [] = s.host := by
    rw [← mirrors.host]
    exact emptied
  rw [same] at run
  exact mirrors.closeNew free run

/-- A file is opened for reading, read and closed, and nothing of it is kept. -/
theorem Mirrors.borrowed {dir dir₁ : DirPtr} {s₁ s₃ : Fs} (mirrors : Mirrors s own fs) (ok : FileName s gName)
    (left : IsFree s m) (opens : cnopendir s dot = some (some dir))
    (opens' : cnopen dir gName FD_READ s = some (gFile, dir₁, s₁))
    (closes : cnclose gFile s₃ = some (code, s')) :
    ∃ (k : Nat) (i : Iptr), gFile = (k : Int) ∧ fs.files.fds k = none ∧ fs.node i = some .file ∧
      s₁.cwd = s.cwd ∧ s₁.vol = s.vol ∧ (∃ next, cnstat dir₁ gName = some (some i, next)) ∧
      Mirrors s₁ own (fs.withFiles (fs.files.opened k i false)) := by
  have sound := mirrors.sound
  obtain ⟨cwd, h, here, same, opened⟩ := sound.openDot opens
  cases same
  have shown := opened.dirShown sound.holds
  have fits : OpenOk s dir gName (modeOf false) := opened.openRead sound.holds here rfl ok
  have opening := mirrors.openFile shown fits left (fun writes => by cases writes) opens'
  cases opening with
  | failed => exact (no_close_of_negative (by decide) closes).elim
  | @found _ _ _ _ k there fresh search cwd' vol after mirrors₁ =>
    obtain ⟨j, stat⟩ := after.stat gName
    rw [there] at stat
    exact ⟨k, _, rfl, fresh.free, mirrors₁.files.file mirrors₁.sound Files.fds_setFd, cwd', vol,
      ⟨_, stat⟩, mirrors₁⟩

theorem Mirrors.exportFile (mirrors : Mirrors s own fs) (ok : FileName s gName) (left : IsFree s m)
    (run : cnexport gName hName s = some (code, s')) :
    code = -1 ∧ s'.cwd = s.cwd ∧ Mirrors s' own { fs with host := fs.host.put hName [] } := by
  obtain ⟨room, dir, gFile, _, s₁, s₃, _, opens, opens', ⟨_, closes⟩, rest⟩ := cnexport_eq run
  have mirrors₀ := mirrors.withHost (s.host.put hName [])
  rw [← mirrors.host] at mirrors₀ opens opens'
  obtain ⟨k, i, rfl, free, file, cwd, vol, ⟨_, stat⟩, mirrors₁⟩ :=
    mirrors₀.borrowed ok left opens opens' closes
  rcases rest with ⟨rfl, rfl, _⟩ | ⟨_, i', _, inode, bytes, s₂, stat', read, reads, rest⟩
  · obtain ⟨same, after⟩ := mirrors₁.closeNew free closes
    exact ⟨rfl, same.trans cwd, after⟩
  rw [stat, Option.some.injEq, Prod.mk.injEq, Option.some.injEq] at stat'
  obtain ⟨rfl, _⟩ := stat'
  have size := mirrors₁.files.size mirrors₁.sound file read
  obtain ⟨all, cwd₂, mirrors₂⟩ := mirrors₁.readWhole size reads
  rcases rest with ⟨rfl, rfl, _⟩ | ⟨whole, rfl, rfl⟩
  · obtain ⟨same, after⟩ := mirrors₂.closeNew free closes
    exact ⟨rfl, (same.trans cwd₂).trans cwd, after⟩
  · -- as the last byte is never read, only an empty file is read whole
    obtain rfl : bytes = [] := by
      have length : bytes.length =
          min ((fs.files.content i).length - 1) (fs.files.content i).length := by
        rw [all]
        exact List.length_take
      have size : (fs.files.content i).length = inode.size.toNat := size
      exact List.eq_nil_of_length_eq_zero (by omega)
    rw [List.take_nil] at closes ⊢
    obtain ⟨same, after⟩ := mirrors₂.closeEmptied put_put free closes
    exact ⟨rfl, (same.trans cwd₂).trans cwd, after⟩

theorem FileMade.opened {d d₁ : DirPtr} {s₁ s₂ : Fs} (made : FileMade s own fs held n name d s₁ own')
    (mirrors : Mirrors s own fs) (text : 0 ∉ name) (left : IsFree s m) (valid : ¬ fd < 0)
    (run : cnopen d name FD_WRITE s₁ = some (fd, d₁, s₂)) :
    ∃ k : Nat, fd = (k : Int) ∧ fs.files.fds k = none ∧ s₂.cwd = s.cwd ∧ s₂.vol = s₁.vol ∧
      Mirrors s₂ own' ((fs.enter held.dir (newEntry n ITYPE_FILE name)).withFiles
        ((fs.enter held.dir (newEntry n ITYPE_FILE name)).files.opened k n true)) := by
  have shown := made.shown mirrors.sound
  have named := made.named mirrors.sound
  have same := made.same
  have left₁ : IsFree s₁ m := ⟨left.1, by rw [same.fdTbl]; exact left.2⟩
  have fits : OpenOk s₁ d name (modeOf true) := by
    obtain ⟨k, scanned⟩ := shown.finds name
    obtain ⟨k', stat⟩ := shown.stat name
    rw [named] at scanned stat
    refine ⟨fun e next found => ?_, fun _ => ⟨text, fun next missing => ?_⟩⟩
    · rw [scanned, Option.some.injEq, Prod.mk.injEq, Option.some.injEq] at found
      rw [← found.1]
      rfl
    · rw [stat] at missing
      cases missing
  have opening := made.mirrors.openFile shown fits left₁ (fun _ e found m d open' _ => by
    obtain rfl := Option.some.inj (named.symm.trans found)
    exact made.unopened mirrors (same.fds ▸ open')) run
  cases opening with
  | @found _ _ _ _ k there fresh search cwd vol _ mirrors₂ =>
    obtain rfl := Option.some.inj (named.symm.trans there)
    exact ⟨k, rfl, same.fds ▸ fresh.free, cwd.trans same.cwd, vol, mirrors₂⟩
  | created again =>
    have missing := again.missing
    rw [named] at missing
    cases missing

section
variable {d d₁ : DirPtr} {s₁ s₂ : Fs}

theorem FileMade.filled (made : FileMade s own fs held n name d s₁ own') :
    (fs.enter held.dir (newEntry n ITYPE_FILE name)).files = fs.files.fill n [] := by
  obtain ⟨p, es, new⟩ := made.new
  rw [FileSystem.enter_eq new.entered.found]
  rfl

theorem FileMade.writable (made : FileMade s own fs held n name d s₁ own') (mirrors : Mirrors s own fs)
    (text : 0 ∉ name) (valid : ¬ fd < 0) (run : cnopen d name FD_WRITE s₁ = some (fd, d₁, s₂))
    (enough : newBlocks Inode.zero ((UInt32.ofNat content.length).toNat / 4096 + 1) ≤
      Pool.block.free s.vol) : WriteOk s₂ fd content := by
  obtain ⟨p, es, new⟩ := made.new
  have sound₁ := made.mirrors.sound
  rw [FileSystem.enter_eq new.entered.found] at sound₁
  obtain ⟨k, st, rfl, opened, _⟩ := new.opens mirrors.sound sound₁ text run valid
  exact new.writable mirrors.sound sound₁.holds.ledger opened enough

end

/-- A new file is written through its first descriptor, which is closed. It stays empty where
the host refuses its cache. -/
theorem Mirrors.fillNew {s₃ : Fs} (mirrors : Mirrors s own (fs.withFiles (fs.files.opened k n true)))
    (free : fs.files.fds k = none) (empty : fs.files.content n = []) (ok : WriteOk s k bytes)
    (writes : cnwrite bytes k s = some (count, s₃)) (closes : cnclose k s₃ = some (code, s')) :
    s'.cwd = s.cwd ∧
      (¬ CacheGranted fs.host.heap bytes.length ∧ count = 0 ∧ Mirrors s' own fs ∨
      CacheGranted fs.host.heap bytes.length ∧ count = bytes.length ∧
        ∃ own', Mirrors s' own' (fs.withFiles (fs.files.fill n bytes))) := by
  have found : (fs.files.opened k n true).fds k = some ⟨n, true, fs.files.content n, 0⟩ :=
    Files.fds_setFd
  obtain ⟨m, same, ⟨other, _⟩ | ⟨d, here, _, outcome⟩⟩ := mirrors.write ok writes
  · obtain rfl := Int.ofNat_inj.mp same
    cases other _ found
  obtain rfl := Int.ofNat_inj.mp same
  obtain rfl := Option.some.inj (found.symm.trans here)
  change fs.host.Refuses _ (0 + bytes.length) ∧ _ ∨ ¬ fs.host.Refuses _ (0 + bytes.length) ∧ _ at outcome
  rw [Nat.zero_add, Host.refuses_empty empty, not_not] at outcome
  rcases outcome with ⟨refused, rfl, rfl⟩ | ⟨granted, rfl, cwd, own', mirrors₃⟩
  · obtain ⟨cwd, after⟩ := mirrors.closeNew free closes
    exact ⟨cwd, .inl ⟨refused, rfl, after⟩⟩
  obtain ⟨m, same, ⟨none, _⟩ | ⟨_, _, cwd', after⟩⟩ := mirrors₃.close closes
  · obtain rfl := Int.ofNat_inj.mp same
    exact absurd (none.symm.trans Files.fds_setFd) (by simp)
  · obtain rfl := Int.ofNat_inj.mp same
    refine ⟨cwd'.trans cwd, .inr ⟨granted, rfl, own', ?_⟩⟩
    rw [← Files.fill_through free empty]
    exact after

/-- The file that an import makes and opens, and what is left of the import. -/
theorem Mirrors.imports (mirrors : Mirrors s own fs) (ok : ImportOk s hName gName) (left : IsFree s m)
    (run : cnimport hName gName s = some (code, s')) :
    ∃ content cwd n own' d d₁ s₁ s₂ s₃, ∃ k : Nat, s.host.files hName = some content ∧ s.cwd = some cwd ∧
      FileMade s own fs ⟨cwd.inodeId, recordsOf fs.node cwd.inodeId⟩ n gName d s₁ own' ∧
      cnopen d gName FD_WRITE s₁ = some ((k : Int), d₁, s₂) ∧ fs.files.fds k = none ∧ s₂.cwd = s.cwd ∧
      s₂.vol = s₁.vol ∧
      Mirrors s₂ own' ((fs.enter cwd.inodeId (newEntry n ITYPE_FILE gName)).withFiles
        ((fs.enter cwd.inodeId (newEntry n ITYPE_FILE gName)).files.opened k n true)) ∧
      (∃ c, cnclose k s₃ = some (c, s')) ∧
      (code = -1 ∧ s₃ = s₂ ∧ min (s₂.host.readable hName) content.length ≠ content.length ∨
        min (s₂.host.readable hName) content.length = content.length ∧
          ∃ result, cnwrite content k s₂ = some (result, s₃) ∧ code = if result = 0 then -1 else 0) := by
  have sound := mirrors.sound
  obtain ⟨content, d, d₁, s₁, gFile, d₂, s₂, s₃, reads, opens, creates, opens', _, ⟨c, closes⟩, rest⟩ :=
    cnimport_eq run
  obtain ⟨cwd, h, here, same, opened⟩ := sound.openDot opens
  cases same
  have creat : CreatOk s d gName :=
    ⟨ok.text, fun _ _ => ⟨ok.short, opened.current sound.holds, ok.inode⟩⟩
  rcases mirrors.creat (opened.dirShown sound.holds) creat creates with
    ⟨_, _, failed, _⟩ | ⟨_, n, own', made⟩
  · cases failed
  -- the descriptor that is closed is in the table
  have valid : ¬ gFile < 0 := fun negative => no_close_of_negative negative closes
  obtain ⟨k, rfl, free, cwd₂, vol, mirrors₂⟩ := made.opened mirrors ok.text left valid opens'
  refine ⟨content, cwd, n, own', d₁, d₂, s₁, s₂, s₃, k, reads, here, made, opens', free, cwd₂, vol,
    mirrors₂, ⟨c, closes⟩, ?_⟩
  rcases rest with ⟨code, same, negative | short⟩ | ⟨_, delivered, writes⟩
  · exact absurd negative valid
  · exact .inl ⟨code, same, short⟩
  · exact .inr ⟨delivered, writes⟩

/-- An import makes a file, which holds what the host delivers. -/
theorem Mirrors.importFile (mirrors : Mirrors s own fs) (ok : ImportOk s hName gName) (left : IsFree s m)
    (run : cnimport hName gName s = some (code, s')) :
    ∃ cwd n own' bytes, s.cwd = some cwd ∧ s'.cwd = s.cwd ∧ FreshId fs.node n ∧
      fs.host.files hName = some bytes ∧ (code = if imported fs.host hName bytes = [] then -1 else 0) ∧
      (∀ j, fs.node j = some .file →
        (fs.enter cwd.inodeId (newEntry n ITYPE_FILE gName)).node j = some .file) ∧
      (fs.enter cwd.inodeId (newEntry n ITYPE_FILE gName)).dirs = fs.dirs ∧
      Mirrors s' own' ((fs.enter cwd.inodeId (newEntry n ITYPE_FILE gName)).withFiles
        (fs.files.fill n (imported fs.host hName bytes))) := by
  have sound := mirrors.sound
  obtain ⟨content, cwd, n, own', d, d₁, s₁, s₂, s₃, k, reads, here, made, opens', free, cwd₂, _,
    mirrors₂, ⟨_, closes⟩, rest⟩ := mirrors.imports ok left run
  have valid : ¬ (k : Int) < 0 := by omega
  have same := made.same
  have free' : (fs.enter cwd.inodeId (newEntry n ITYPE_FILE gName)).files.fds k = none :=
    same.fds ▸ free
  have host₂ : s₂.host = fs.host := mirrors₂.host.symm.trans same.host
  have bytes : fs.host.files hName = some content := by rw [mirrors.host]; exact reads
  rcases rest with ⟨rfl, rfl, short⟩ | ⟨delivered, result, writes, rfl⟩
  · obtain ⟨cwd₃, after⟩ := mirrors₂.closeNew free' closes
    have none : imported fs.host hName content = [] := by
      rw [host₂] at short
      exact if_neg fun whole => short whole.1
    refine ⟨cwd, n, own', content, here, cwd₃.trans cwd₂, made.fresh, bytes, by rw [if_pos none],
      made.files sound, same.dirs, ?_⟩
    rw [none, ← made.filled]
    exact after
  · rw [host₂] at delivered
    have empty : (fs.enter cwd.inodeId (newEntry n ITYPE_FILE gName)).files.content n = [] := by
      rw [made.filled]
      exact Files.content_fill
    have heap : (fs.enter cwd.inodeId (newEntry n ITYPE_FILE gName)).host.heap = fs.host.heap :=
      congrArg Host.heap same.host
    obtain ⟨cwd₃, outcome⟩ := mirrors₂.fillNew free' empty
      (made.writable mirrors ok.text valid opens' (ok.blocks content reads)) writes closes
    rw [heap] at outcome
    rcases outcome with ⟨refused, rfl, after⟩ | ⟨granted, rfl, own₃, after⟩
    · have none : imported fs.host hName content = [] := if_neg fun whole => refused whole.2
      refine ⟨cwd, n, own', content, here, cwd₃.trans cwd₂, made.fresh, bytes,
        by rw [if_pos none, if_pos rfl], made.files sound, same.dirs, ?_⟩
      rw [none, ← made.filled]
      exact after
    · have all : imported fs.host hName content = content := if_pos ⟨delivered, granted⟩
      rw [made.filled, Files.fill_fill] at after
      refine ⟨cwd, n, own₃, content, here, cwd₃.trans cwd₂, made.fresh, bytes, ?_, made.files sound,
        same.dirs, by rw [all]; exact after⟩
      rw [all]
      simp only [List.length_eq_zero_iff]

end

section
variable [InodeLayout] {s s' : Session} {fs : FileSystem} {own : Owner} {r : Reply}

theorem Refines.close (refines : Refines s own fs) (run : s.step (.close fd) = some (r, s')) :
    Simulated fs (.close fd) r s' := by
  obtain ⟨code, s₁, closes, rfl, rfl⟩ := Session.global_some run
  obtain ⟨k, rfl, ⟨none, rfl, rfl⟩ | ⟨used, rfl, cwd, mirrors⟩⟩ := refines.globals.close closes
  · exact ⟨own, fs, .closeFails rfl none, refines⟩
  · exact ⟨own, _, .close rfl used, refines.keep mirrors rfl cwd rfl fun _ => id⟩

theorem Refines.read (refines : Refines s own fs) (ok : ReadOk s.fs fd bytes)
    (run : s.step (.read fd bytes) = some (r, s')) : Simulated fs (.read fd bytes) r s' := by
  obtain ⟨⟨out, s₁⟩, reads, run⟩ := Option.bind_eq_some_iff.mp run
  cases run
  obtain ⟨k, rfl, ⟨other, rfl, rfl⟩ | ⟨d, found, mode, bytes, cwd, mirrors⟩⟩ :=
    refines.globals.read ok reads
  · exact ⟨own, fs, .readFails rfl other, refines⟩
  · exact ⟨own, _, .read rfl found mode bytes, refines.keep mirrors rfl cwd rfl fun _ => id⟩

theorem Refines.write (refines : Refines s own fs) (ok : WriteOk s.fs fd buf)
    (run : s.step (.write fd buf) = some (r, s')) : Simulated fs (.write fd buf) r s' := by
  obtain ⟨⟨count, s₁⟩, writes, run⟩ := Option.bind_eq_some_iff.mp run
  cases run
  obtain ⟨k, rfl, ⟨other, rfl, rfl⟩ | ⟨d, found, mode, ⟨refused, rfl, rfl⟩ |
    ⟨granted, rfl, cwd, own', mirrors⟩⟩⟩ := refines.globals.write ok writes
  · exact ⟨own, fs, .writeFails rfl other, refines⟩
  · exact ⟨own, fs, .writeRefused rfl found mode refused, refines⟩
  · exact ⟨own', _, .write rfl found mode granted, refines.keep mirrors rfl cwd rfl fun _ => id⟩

theorem Refines.seek (refines : Refines s own fs) (ok : SeekOk s.fs fd offset)
    (stays : SeekStays s.fs fd offset) (run : s.step (.seek fd offset) = some (r, s')) :
    Simulated fs (.seek fd offset) r s' := by
  obtain ⟨code, s₁, seeks, rfl, rfl⟩ := Session.global_some run
  obtain ⟨k, rfl, ⟨d, found, refused, rfl, rfl⟩ | ⟨rfl, cwd, own', ⟨none, mirrors⟩ |
    ⟨d, found, inside, mirrors⟩ | ⟨d, junk, found, mode, granted, length, some, mirrors⟩⟩⟩ :=
      refines.globals.seek ok stays seeks
  · exact ⟨own, fs, .seekRefused rfl found refused, refines⟩
  · exact ⟨own', fs, .seekClosed rfl none, refines.keep mirrors rfl cwd rfl fun _ => id⟩
  · exact ⟨own', _, .seek rfl found inside, refines.keep mirrors rfl cwd rfl fun _ => id⟩
  · exact ⟨own', _, .seekGrows rfl found mode granted length some,
      refines.keep mirrors rfl cwd rfl fun _ => id⟩

/-- A descriptor is left, and a file is written by one descriptor at a time. -/
structure OpenFits (s : Session) (h : Handle) (name : Name) (mode : UInt8) : Prop where
  known : mode = FD_READ ∨ mode = FD_WRITE
  left : ∃ n, IsFree s.fs n
  single : mode = FD_WRITE → ∀ d i next, s.dir h = some d → cnstat d name = some (some i, next) →
    ∀ n, (s.fs.fdTbl n).state = FD_WRITE → (s.fs.fdTbl n).inodeId ≠ i

theorem Refines.openFile (refines : Refines s own fs)
    (ok : ∀ d, s.dir h = some d → OpenOk s.fs d name mode) (fits : OpenFits s h name mode)
    (run : s.step (.openFile h name mode) = some (r, s')) : Simulated fs (.openFile h name mode) r s' := by
  obtain ⟨d, here, run⟩ := Option.bind_eq_some_iff.mp run
  obtain ⟨⟨fd, d', s₁⟩, opens, run⟩ := Option.bind_eq_some_iff.mp run
  cases run
  obtain ⟨held, shows, shown⟩ := refines.held here
  obtain ⟨m, left⟩ := fits.left
  have sound := refines.sound
  have home : h = .cwd → ∃ p es, fs.node held.dir = some (.dir p es) := by
    rintro rfl
    obtain ⟨p, es, there⟩ := sound.home d here
    exact ⟨p, es, shown.dir ▸ there⟩
  obtain ⟨writes, rfl⟩ : ∃ writes, mode = modeOf writes := by
    rcases fits.known with rfl | rfl
    · exact ⟨false, rfl⟩
    · exact ⟨true, rfl⟩
  have only : writes = true → ∀ e, held.shows.find? (fun e => e.name = name) = some e →
      Unwritten fs.files e.inode := by
    rintro rfl e found m f open' writer same
    obtain ⟨k, stat⟩ := shown.stat name
    rw [found] at stat
    have fdShown := refines.globals.files.fds m f open'
    have state := fdShown.state
    rw [writer] at state
    exact fits.single rfl d _ _ here stat m state (fdShown.file.trans same)
  have opening := refines.globals.openFile shown (ok d here) left only opens
  cases opening with
  | failed missing after =>
    exact ⟨own, fs, .openFails shows missing (by decide), refines.setDir refines.globals after rfl home
      (Function.update_eq_self_iff.mpr shows.symm).symm fun _ => id⟩
  | found there fresh _ cwd vol after mirrors =>
    have step : FileSystem.Step fs (.openFile h name (modeOf writes)) _ _ :=
      .openFound shows there fresh
    rw [modeOf_write] at step
    exact ⟨own, _, step, refines.setDir mirrors after cwd home
      (Function.update_eq_self_iff.mpr shows.symm).symm fun _ => id⟩
  | created made fresh cwd vol mirrors =>
    exact ⟨_, _, .openNew shows made.missing made.fresh fresh,
      refines.setDir ⟨mirrors.sound, mirrors.files, mirrors.host⟩ (made.shown sound).reindex cwd
        (fun _ => made.parent sound) (congrArg (Function.update · h _) made.same.dirs)
        (made.files sound)⟩

theorem Refines.cat (refines : Refines s own fs) (ok : FileName s.fs name) (left : IsFree s.fs m)
    (small : m < 128) (run : s.step (.cat name) = some (r, s')) : Simulated fs (.cat name) r s' := by
  obtain ⟨⟨code, bytes, s₁⟩, cats, run⟩ := Option.bind_eq_some_iff.mp run
  cases run
  obtain ⟨cwd, here, same, outcome⟩ := refines.globals.cat ok left small cats
  obtain ⟨held, shows, shown⟩ := refines.held (h := .cwd) here
  rw [shown.dir] at outcome
  rcases outcome with ⟨missing, rfl, rfl, rfl⟩ | ⟨e, k, found, fresh, rfl, bytes, mirrors⟩
  · exact ⟨own, fs, .catFails shows missing, refines⟩
  · exact ⟨own, _, .cat shows found fresh bytes, refines.keep mirrors rfl same rfl fun _ => id⟩

theorem Refines.importFile (refines : Refines s own fs) (ok : ImportOk s.fs hName gName)
    (left : IsFree s.fs m) (run : s.step (.importFile hName gName) = some (r, s')) :
    Simulated fs (.importFile hName gName) r s' := by
  obtain ⟨code, s₁, imports, rfl, rfl⟩ := Session.global_some run
  obtain ⟨cwd, n, own', bytes, here, same, fresh, reads, rfl, files, dirs, mirrors⟩ :=
    refines.globals.importFile ok left imports
  obtain ⟨held, shows, shown⟩ := refines.held (h := .cwd) here
  rw [shown.dir] at files dirs mirrors
  exact ⟨own', _, .importFile shows fresh reads, refines.keep mirrors rfl same dirs files⟩

theorem Refines.exportFile (refines : Refines s own fs) (ok : FileName s.fs gName) (left : IsFree s.fs m)
    (run : s.step (.exportFile gName hName) = some (r, s')) :
    Simulated fs (.exportFile gName hName) r s' := by
  obtain ⟨code, s₁, exports, rfl, rfl⟩ := Session.global_some run
  obtain ⟨rfl, same, mirrors⟩ := refines.globals.exportFile ok left exports
  exact ⟨own, _, .exportFile, refines.keep mirrors rfl same rfl fun _ => id⟩

end
end CdnwSh
