import CdnwSh.CleanFlag
import CdnwSh.Refinement

/-! A new process on the device of one that was killed. It finds the tree as it was, and of the
files all but one byte at most: `blockdev_attach` writes 0 over the last byte of the device. -/
namespace CdnwSh

open ByteMemory RecordList FileStore

/-- A byte of a file that ends one of its blocks may be 0 now. -/
inductive FileSystem.Reattached (fs : FileSystem) : FileSystem → Prop where
  | same : Reattached fs fs
  | zeroed : fs.node i = some .file →
      Reattached fs (fs.withFiles (fs.files.fill i ((fs.files.content i).set (4096 * k + 4095) 0)))

section
variable {d : Disk} {b : UInt32}

theorem attached_other (apart : b ≠ 25599) : d.attached b = d b := Extents.set_other apart

theorem attached_mem (other : i ≠ 4095) : (d.attached b).mem i = (d b).mem i := by
  by_cases last : b = 25599
  · rw [Block.mem, Block.mem, last, Disk.attached, Extents.set_same]
    simp only [if_neg other]
  · rw [attached_other last]

theorem attached_zero (zero : (d b).mem 4095 = 0) : d.attached b = d b := by
  by_cases last : b = 25599
  · funext i
    rw [last, Disk.attached, Extents.set_same]
    by_cases here : i.val = 4095
    · rw [Block.mem_apply _ (by decide)] at zero
      rw [if_pos here, ← zero, last]
      exact congrArg (d 25599) (Fin.ext here).symm
    · exact if_neg here
  · exact attached_other last

theorem attached_self (zero : (d 25599).mem 4095 = 0) : d.attached = d := by
  funext b
  by_cases last : b = 25599
  · rw [last]
    exact attached_zero zero
  · exact attached_other last

theorem loaded_attached : Vol.loaded d.attached = { Vol.loaded d with disk := d.attached } := by
  rw [Vol.loaded, attached_other (by decide), attached_other (by decide), attached_other (by decide)]
  rfl

/-- A pointer into the device is less than 2^24, so that its last byte is 0. -/
theorem indirect_attached (bound : k < 1024) (inside : (indirect (d b) k).toNat < 25600) :
    indirect (d.attached b) k = indirect (d b) k := by
  by_cases last : k = 1023
  · subst last
    have high : (d b).mem 4095 = 0 := by
      have value : (indirect (d b) 1023).toNat = readLE (d b).mem 4092 4 := by
        rw [indirect, UInt32.toNat_ofNat']
        exact Nat.mod_eq_of_lt (Nat.lt_of_lt_of_eq readLE_lt (by decide))
      rw [value] at inside
      simp only [readLE, Nat.reduceAdd] at inside
      refine UInt8.toNat_inj.mp ?_
      change ((d b).mem 4095).toNat = 0
      omega
    rw [attached_zero high]
  · rw [indirect, indirect, readLE_congr fun i _ high => attached_mem (by omega)]

variable [InodeLayout] {own : Owner} {node : Nodes} {i : Iptr} {st : Inode}

theorem inodeRead_attached (bound : i.toNat < 6400) : inodeRead d.attached i = inodeRead d i :=
  inodeRead_congr bound fun b _ high => attached_other (by rintro rfl; exact absurd high (by decide))

omit [InodeLayout] in
theorem Inside.blockList_attached (inside : Inside d st) : blockList d.attached st = blockList d st := by
  have few := inside.few
  rw [blockList, blockList]
  congr 1
  refine List.map_congr_left fun k member => ?_
  have bound := List.mem_range.mp member
  exact indirect_attached (by omega) (inside.behind _ (List.mem_map_of_mem member))

omit [InodeLayout] in
theorem Mapped.attached (mapped : Mapped d own i st) (inside : Inside d st) :
    Mapped d.attached own i st where
  few := mapped.few
  data := by
    rw [inside.blockList_attached]
    exact mapped.data
  single := mapped.single
  indirect := mapped.indirect

omit [InodeLayout] in
/-- The bytes of a file without a block at the end of the device. -/
theorem Inside.fileBytes_kept (inside : Inside d st) (apart : 25599 ∉ blockList d st) :
    fileBytes d.attached st = fileBytes d st := by
  rw [fileBytes, fileBytes, inside.blockList_attached, Extents.gather_congr fun b member =>
    attached_other (by rintro rfl; exact apart member)]

omit [InodeLayout] in
/-- The bytes of a file whose `k`-th block is the last one of the device. -/
theorem Inside.fileBytes_zeroed (inside : Inside d st) (distinct : (blockList d st).Nodup)
    (last : (blockList d st)[k]? = some 25599) :
    fileBytes d.attached st = (fileBytes d st).set (4096 * k + 4095) 0 := by
  rw [fileBytes, fileBytes, inside.blockList_attached]
  apply List.ext_getElem?
  intro j
  rw [List.getElem?_set, getElem?_slice, getElem?_slice, length_slice, Nat.zero_add,
    Disk.attached, Extents.gather_set distinct last (by decide)]
  have byte : Extents.gather 0 d (blockList d st) (4096 * k + j % 4096) =
      d 25599 ⟨j % 4096, Nat.mod_lt _ (by decide)⟩ := Extents.gather_at k ⟨j % 4096, _⟩ last
  by_cases here : 4096 * k + 4095 = j
  · have place : j / 4096 = k ∧ j % 4096 = 4095 := by omega
    simp only [if_pos here, if_pos place.1, if_pos place.2]
    rw [here]
  · rw [if_neg here]
    by_cases inside : j / 4096 = k
    · have other : j % 4096 ≠ 4095 := by omega
      have whole : 4096 * k + j % 4096 = j := by omega
      rw [whole] at byte
      simp only [if_pos inside, if_neg other, byte]
    · rw [if_neg inside]

/-- A directory at the end of the device has entries that run past its block. -/
def Overhangs (d : Disk) : Prop :=
  ∃ (i : Iptr) (st : Inode), bit (Vol.loaded d).inodeBmCache i.toNat = true ∧ inodeRead d i = some st ∧
    st.type = ITYPE_DIR ∧ st.block0 = 25599 ∧ 4096 < st.size.toNat

theorem Holds.not_overhangs (holds : Holds (.loaded d) own node) (free : bit (d 1) 25599 = false) :
    ¬ Overhangs d := by
  rintro ⟨i, st, used, read, type, last, _⟩
  obtain ⟨p, es, _, dir⟩ := holds.usedDir used read type
  have taken : bit (d 1) st.block0.toNat = true := (holds.ledger.owned _ _ dir.owner).2.2
  rw [last] at taken
  exact absurd (taken.symm.trans free) (by decide)

/-- No entry that ends in its block has a byte at the end of it. -/
theorem DirAt.attached {rs : List DirEntry} (dir : DirAt d own i st rs) (sounds : ∀ e ∈ rs, e.Sound)
    (bound : i.toNat < 6400) (within : st.block0 = 25599 → st.size.toNat ≤ 4096) :
    DirAt d.attached own i st rs where
  read := (inodeRead_attached bound).trans dir.read
  type := dir.type
  blocks := dir.blocks
  single := dir.single
  owner := dir.owner
  only := dir.only
  tiles := by
    by_cases last : st.block0 = 25599
    · refine dir.tiles.congr fun o e member _ high read =>
        entryAt_congr read (Nat.le_refl _) fun j _ inside => attached_mem ?_
      have := (sounds e member).len
      have := within last
      omega
    · rw [attached_other last]
      exact dir.tiles

theorem FileAt.attached (file : FileAt d own i st) (inside : Inside d st) (bound : i.toNat < 6400) :
    FileAt d.attached own i st :=
  ⟨(inodeRead_attached bound).trans file.read, file.type, file.mapped.attached inside, file.blocks⟩

theorem Holds.attached (holds : Holds (.loaded d) own node) (whole : ¬ Overhangs d) :
    Holds (.loaded d.attached) own node := by
  rw [loaded_attached]
  exact {
    ledger := holds.ledger.withDisk
    tree := holds.tree
    proper := holds.proper
    inodes := holds.inodes
    exact_inodes := holds.exact_inodes
    exact_blocks := holds.exact_blocks
    owners := holds.owners
    dirs := fun i p es found => by
      obtain ⟨bound, used⟩ := holds.inodes i (by rw [found]; simp)
      obtain ⟨st, dir⟩ := holds.dirs i p es found
      refine ⟨st, dir.attached (holds.records_sound found) bound fun last => ?_⟩
      by_contra past
      exact whole ⟨i, st, used, dir.read, dir.type, last, by omega⟩
    files := fun i found => by
      obtain ⟨st, file⟩ := holds.files i found
      exact ⟨st, file.attached (file.mapped.inside holds.ledger) (holds.inodes i (by rw [found]; simp)).1⟩
    root := by
      obtain ⟨st, read, block⟩ := holds.root
      exact ⟨st, (inodeRead_attached (by decide)).trans read, block⟩ }

/-- The bytes of a file on the device before and after. -/
theorem Holds.contents (holds : Holds (.loaded d) own node) (file : FileAt d own i st)
    (bound : i.toNat < 6400) : Inside d st ∧ contentOf d i = some (fileBytes d st) ∧
      contentOf d.attached i = some (fileBytes d.attached st) := by
  have before : FileAt (Vol.loaded d).disk own i st := file
  have inside : Inside d st := before.mapped.inside holds.ledger
  have after : FileAt (Vol.loaded d.attached).disk own i st := file.attached inside bound
  have ledger : Ledger (.loaded d.attached) own := by
    rw [loaded_attached]
    exact holds.ledger.withDisk
  exact ⟨inside, before.contentOf_eq holds.ledger, after.contentOf_eq ledger⟩

end

section
variable [InodeLayout] {s s' : Fs} {own : Owner} {fs : FileSystem}

/-- What is on the device when a new process has attached it. -/
theorem OnDisk.attached (stored : OnDisk s own fs) (whole : ¬ Overhangs s.vol.disk)
    (disk : s'.vol.disk = s.vol.disk.attached) (host : s'.host = s.host) :
    ∃ fs', fs.Reattached fs' ∧ OnDisk s' own fs' := by
  obtain ⟨holds, magic, content, before⟩ := stored
  have after := holds.attached whole
  have magic' : CdnwSh.magic (s'.vol.disk 0) = FS_MAGIC := by
    rw [disk, attached_other (by decide)]
    exact magic
  -- a file without the last block of the device keeps its bytes
  have kept {i : Iptr} {st : Inode} (found : fs.node i = some .file) (file : FileAt s.vol.disk own i st)
      (apart : 25599 ∉ blockList s.vol.disk st) : contentOf s'.vol.disk i = some (fs.files.content i) := by
    obtain ⟨inside, old, new⟩ := holds.contents file (holds.inodes i (by rw [found]; simp)).1
    rw [disk, new, inside.fileBytes_kept apart, ← old]
    exact content i found
  by_cases last : ∃ (i : Iptr) (st : Inode) (k : Nat), fs.node i = some .file ∧ FileAt s.vol.disk own i st ∧
      (blockList s.vol.disk st)[k]? = some 25599
  · obtain ⟨i, st, k, found, file, place⟩ := last
    refine ⟨_, .zeroed (i := i) (k := k) found, disk ▸ after, magic', fun j kind => ?_, before.trans host.symm⟩
    by_cases here : j = i
    · subst here
      obtain ⟨inside, old, new⟩ := holds.contents file (holds.inodes j (by rw [found]; simp)).1
      have same := Option.some.inj ((content j kind).symm.trans old)
      rw [disk, new, inside.fileBytes_zeroed file.mapped.nodup place, ← same]
      exact congrArg some Files.content_fill.symm
    · obtain ⟨st', file'⟩ := holds.files j kind
      rw [kept kind file' fun member => ?_]
      · exact congrArg some (Files.content_fill_other here).symm
      · obtain ⟨_, owner⟩ := file'.mapped.mem member
        rw [file.mapped.data k _ place] at owner
        cases owner
        exact here rfl
  · refine ⟨fs, .same, disk ▸ after, magic', fun i found => ?_, before.trans host.symm⟩
    obtain ⟨st, file⟩ := holds.files i found
    refine kept found file fun member => ?_
    obtain ⟨k, place⟩ := List.mem_iff_getElem?.mp member
    exact last ⟨i, st, k, found, file, place⟩

end
end CdnwSh
