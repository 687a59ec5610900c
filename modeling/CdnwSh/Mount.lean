import CdnwSh.FileCommands

/-! Making, mounting and unmounting: the volume that `cnmkfs` writes holds the tree of one
empty directory, and `cnmount` and `cnumount` keep any volume whose caches are on disk. -/
namespace CdnwSh

open ByteMemory RecordList LeastIndex

theorem bit_setBits (inside : ∀ n ∈ indices, n < 32768) :
    bit (setBits blk indices) m = (bit blk m || decide (m ∈ indices)) := by
  induction indices generalizing blk with
  | nil => simp [setBits]
  | cons n rest ih =>
    rw [setBits, List.foldl_cons, ← setBits, ih fun k member => inside k (List.mem_cons_of_mem _ member),
      bit_setBit (inside n List.mem_cons_self)]
    simp [Bool.or_assoc]

theorem bit_zero : bit Block.zero m = false := by
  unfold bit
  by_cases inside : m / 8 < 4096
  · rw [Block.mem_apply _ inside]; simp [Block.zero]
  · simp [Block.mem, inside]

theorem blockBitmapInit_bit : bit blockBitmapInit m = decide (m < 104) := by
  rw [blockBitmapInit, bit_setBits (by intro n member; have := List.mem_range.mp member; omega),
    bit_zero]
  simp

theorem inodeBitmapInit_bit : bit inodeBitmapInit m = decide (m < 1) := by
  rw [inodeBitmapInit, bit_setBits (by simp), bit_zero]
  simp

theorem superblockInit_fields : getField superblockInit 1032 4 = 6399 ∧
    getField superblockInit 1036 4 = 25496 ∧ magic superblockInit = FS_MAGIC ∧
    fsState superblockInit = VALID_FS := by decide +kernel

/-- Two superblocks that differ at most in the state field. -/
def SameSuperblk (sb sb' : Block) : Prop :=
  ∀ i : Fin 4096, i.val ≠ 1046 → i.val ≠ 1047 → sb' i = sb i

theorem SameSuperblk.field (same : SameSuperblk sb sb') (apart : off + n ≤ 1046 ∨ 1048 ≤ off)
    (inside : off + n ≤ 4096) : getField sb' off n = getField sb off n := by
  refine readLE_congr fun k low high => ?_
  have bound : k < 4096 := by omega
  rw [Block.mem_apply _ bound, Block.mem_apply _ bound]
  exact same ⟨k, bound⟩ (by simp only; omega) (by simp only; omega)

theorem sameSuperblk_state : SameSuperblk sb (setField sb 1046 2 value) := by
  intro i low high
  exact setField_apply_other i (by omega)

/-- Caches that were written to disk and read again, up to the state field. -/
structure Reloaded (v v' : Vol) : Prop where
  disk : ∀ b : UInt32, 3 ≤ b.toNat → v'.disk b = v.disk b
  superblk : SameSuperblk v.superblkCache v'.superblkCache
  blockBm : v'.blockBmCache = v.blockBmCache
  inodeBm : v'.inodeBmCache = v.inodeBmCache
  synced : v'.Synced

section
variable [InodeLayout] {v v' v'' : Vol} {own : Owner} {node : Nodes} {i : Iptr} {st : Inode}
  {rs : List DirEntry} {s s' : Fs}

omit [InodeLayout] in
theorem Reloaded.free (same : Reloaded v v') (p : Pool) : p.free v' = p.free v := by
  cases p
  · exact same.superblk.field (.inl (by decide)) (by decide)
  · exact same.superblk.field (.inl (by decide)) (by decide)

omit [InodeLayout] in
theorem Reloaded.cache (same : Reloaded v v') (p : Pool) : p.cache v' = p.cache v := by
  cases p
  exacts [same.inodeBm, same.blockBm]

omit [InodeLayout] in
theorem Reloaded.trans (first : Reloaded v v') (second : Reloaded v' v'') : Reloaded v v'' where
  disk := fun b low => (second.disk b low).trans (first.disk b low)
  superblk := fun i low high => (second.superblk i low high).trans (first.superblk i low high)
  blockBm := second.blockBm.trans first.blockBm
  inodeBm := second.inodeBm.trans first.inodeBm
  synced := second.synced

omit [InodeLayout] in
theorem Ledger.reload (ledger : Ledger v own) (same : Reloaded v v') : Ledger v' own :=
  ⟨fun p => by rw [Pool.Agrees, same.free, same.cache]; exact ledger.agrees p,
    by rw [same.blockBm]; exact ledger.metadata, by rw [same.blockBm]; exact ledger.owned⟩

omit [InodeLayout] in
theorem Mapped.reload (mapped : Mapped v.disk own i st) (ledger : Ledger v own)
    (same : Reloaded v v') : Mapped v'.disk own i st :=
  mapped.frame fun many => (same.disk _ (by
    have := (ledger.owned _ _ (mapped.single (mapped.indirect many))).1
    omega)).symm

theorem DirAt.reload (dir : DirAt v.disk own i st rs) (ledger : Ledger v own)
    (same : Reloaded v v') (bound : i.toNat < 6400) : DirAt v'.disk own i st rs where
  read := (inodeRead_congr bound fun b low _ => same.disk b low).trans dir.read
  type := dir.type
  blocks := dir.blocks
  single := dir.single
  owner := dir.owner
  only := dir.only
  tiles := by
    rw [same.disk _ (by have := (ledger.owned _ _ dir.owner).1; omega)]
    exact dir.tiles

theorem FileAt.reload (file : FileAt v.disk own i st) (ledger : Ledger v own)
    (same : Reloaded v v') (bound : i.toNat < 6400) : FileAt v'.disk own i st where
  read := (inodeRead_congr bound fun b low _ => same.disk b low).trans file.read
  type := file.type
  mapped := file.mapped.reload ledger same
  blocks := file.blocks

theorem Holds.reload (holds : Holds v own node) (same : Reloaded v v') : Holds v' own node where
  ledger := holds.ledger.reload same
  tree := holds.tree
  proper := holds.proper
  inodes := by rw [same.inodeBm]; exact holds.inodes
  exact_inodes := by rw [same.inodeBm]; exact holds.exact_inodes
  exact_blocks := by rw [same.blockBm]; exact holds.exact_blocks
  owners := holds.owners
  dirs := fun j p es found => by
    obtain ⟨st, dir⟩ := holds.dirs j p es found
    exact ⟨st, dir.reload holds.ledger same (holds.inodes j (by rw [found]; simp)).1⟩
  files := fun j found => by
    obtain ⟨st, file⟩ := holds.files j found
    exact ⟨st, file.reload holds.ledger same (holds.inodes j (by rw [found]; simp)).1⟩
  root := by
    obtain ⟨st, read, block⟩ := holds.root
    exact ⟨st, (inodeRead_congr (by decide) fun b low _ => same.disk b low).trans read, block⟩

/-- The state in which `cnmount` opens the root directory. -/
def Fs.reset (s : Fs) : Fs :=
  let good := magic (s.vol.disk 0) = FS_MAGIC ∧ fsState (s.vol.disk 0) = VALID_FS
  { s with
    vol := ⟨s.vol.disk, if good then setField (s.vol.disk 0) 1046 2 ERROR_FS else s.vol.disk 0,
      s.vol.disk 1, s.vol.disk 2⟩
    superblk := true, vfsState := if good then VFS_GOOD else VFS_BLANK,
    fdTbl := fun _ => FdEntry.zero, cwdStr := [slash],
    fdBm := fun i => if i.val < 128 then 0 else s.fdBm i }

theorem cnmount_reset (s : Fs) : cnmount s =
    (cnopendir s.reset [slash]).map fun cwd =>
      (0, { s.reset with cwd := cwd, cwdClosed := false }) := by
  rw [cnmount, blkRead_inside (by decide)]
  simp only [Option.bind_eq_bind, Option.bind_some]
  rw [blkRead_inside (by decide), Option.bind_some, blkRead_inside (by decide), Option.bind_some,
    Option.map_eq_bind]
  rfl

/-- What `cnmount` loads. -/
theorem cnmount_eq (run : cnmount s = some (code, s')) :
    code = 0 ∧ ∃ sb cwd, SameSuperblk (s.vol.disk 0) sb ∧
      s'.vol = ⟨s.vol.disk, sb, s.vol.disk 1, s.vol.disk 2⟩ ∧ s'.superblk = true ∧
      s'.fdTbl = (fun _ => FdEntry.zero) ∧ s'.cwd = cwd ∧
      ∃ s₀ : Fs, s₀.vol = s'.vol ∧ cnopendir s₀ [slash] = some cwd := by
  rw [cnmount_reset] at run
  obtain ⟨cwd, opens, run⟩ := Option.map_eq_some_iff.mp run
  cases run
  refine ⟨rfl, _, cwd, ?_, rfl, rfl, rfl, rfl, _, ?_, opens⟩
  · split
    · exact sameSuperblk_state
    · exact fun _ _ _ => rfl
  · rfl

/-- The root directory is opened from the disk alone. -/
theorem DirAt.opensRoot (dir : DirAt v.disk own 0 st rs) (ledger : Ledger v own)
    (same : s.vol.disk = v.disk) : cnopendir s [slash] = some (some (handle v.disk 0 st)) := by
  have absolute : List.head? [slash] = some slash := rfl
  rw [cnopendir, if_neg (by decide), startDir, if_pos absolute, same, dir.inflate ledger]
  rfl

/-- A mount needs the root directory only. -/
theorem Holds.mounts (holds : Holds v own node) (same : s.vol.disk = v.disk) :
    ∃ s', cnmount s = some (0, s') := by
  obtain ⟨es, top⟩ := holds.tree.root_dir
  obtain ⟨st, dir⟩ := holds.dirs 0 0 es top
  have opens : cnopendir s.reset [slash] = some (some (handle v.disk 0 st)) :=
    dir.opensRoot holds.ledger same
  rw [cnmount_reset, opens]
  exact ⟨_, rfl⟩

/-- The handle of the root directory. -/
theorem Holds.openRoot (holds : Holds s.vol own node) (run : cnopendir s [slash] = some r) :
    ∃ h es, r = some h ∧ node 0 = some (.dir 0 es) ∧ Opened s.vol own node 0 0 h := by
  obtain ⟨es, top⟩ := holds.tree.root_dir
  obtain ⟨st, dir⟩ := holds.dirs 0 0 es top
  rw [dir.opensRoot holds.ledger rfl] at run
  cases run
  exact ⟨_, es, rfl, top, 0, es, st, top, dir, rfl⟩

/-- Mounting a volume whose caches are on disk: all descriptors are closed, `cwd` is the
root directory, everything else is what it was. -/
theorem Holds.mount (holds : Holds s.vol own node) (synced : s.vol.Synced)
    (magic : magic s.vol.superblkCache = FS_MAGIC) (run : cnmount s = some (code, s')) :
    code = 0 ∧ Reloaded s.vol s'.vol ∧ Sound s' own node ∧
      (∃ h, s'.cwd = some h ∧ Opened s'.vol own node 0 0 h) ∧ s'.vol.disk = s.vol.disk ∧
      ∀ n, s'.fdTbl n = FdEntry.zero := by
  obtain ⟨done, sb, cwd, same, vol, _, fds, here, s₀, vol₀, opens⟩ := cnmount_eq run
  have superblk : SameSuperblk s.vol.superblkCache sb := fun i low high =>
    (same i low high).trans (synced.superblk i low high)
  have reloaded : Reloaded s.vol s'.vol := by
    rw [vol]
    exact ⟨fun _ _ => rfl, superblk, synced.blockBm, synced.inodeBm,
      ⟨fun i low high => (same i low high).symm, rfl, rfl⟩⟩
  have holds' := holds.reload reloaded
  rw [← vol₀] at holds'
  obtain ⟨h, es, rfl, top, opened⟩ := holds'.openRoot opens
  rw [vol₀] at holds' opened
  have root : h.inodeId = 0 := by
    obtain ⟨_, _, _, _, _, rfl⟩ := opened
    rfl
  refine ⟨done, reloaded, ⟨holds', reloaded.synced, ?_, fun dir same => ?_, fun n used => ?_⟩,
    ⟨h, here, opened⟩, by rw [vol], fun n => by rw [fds]⟩
  · rw [← magic]
    exact reloaded.superblk.field (.inl (by decide)) (by decide)
  · rw [here, Option.some.injEq] at same
    rw [← same, root]
    exact ⟨0, es, top⟩
  · rw [fds] at used
    exact absurd rfl used

/-- The caches that `cnumount` writes. -/
def Vol.unmounted (v : Vol) : Vol :=
  ({ v with superblkCache := setField v.superblkCache 1046 2 VALID_FS } : Vol).flushed

omit [InodeLayout] in
theorem cnumount_eq (run : cnumount s = some (code, s')) :
    s.superblk = true ∧ code = 0 ∧
      s' = { s with vol := s.vol.unmounted, cwd := none, cwdClosed := true } := by
  obtain ⟨_, _, run⟩ := Option.bind_eq_some_iff.mp run
  split at run
  next loaded =>
    cases run
    exact ⟨loaded, rfl, rfl⟩
  · cases run

omit [InodeLayout] in
theorem cnumount_some (here : s.cwd = some cwd) (loaded : s.superblk = true) :
    cnumount s = some (0, { s with vol := s.vol.unmounted, cwd := none, cwdClosed := true }) := by
  rw [cnumount, closeCwd_some here]
  simp only [Option.bind_eq_bind, Option.bind_some, if_pos loaded, flushMetadata_eq]
  rfl

/-- Unmounting writes the caches back. -/
theorem Sound.umount (sound : Sound s own node) (run : cnumount s = some (code, s')) :
    code = 0 ∧ Reloaded s.vol s'.vol ∧ Sound s' own node ∧ s'.cwd = none ∧ s'.fdTbl = s.fdTbl := by
  obtain ⟨_, rfl, rfl⟩ := cnumount_eq run
  have reloaded : Reloaded s.vol s.vol.unmounted :=
    ⟨fun b data => flushed_disk data, sameSuperblk_state, rfl, rfl, flushed_synced⟩
  refine ⟨rfl, reloaded, ⟨sound.holds.reload reloaded, reloaded.synced, ?_, by simp, fun n used => ?_⟩,
    rfl, rfl⟩
  · refine Eq.trans ?_ sound.magic
    exact reloaded.superblk.field (.inl (by decide)) (by decide)
  · obtain ⟨file, copy⟩ := sound.copies n used
    exact ⟨file, copy.type, copy.mapped.reload sound.holds.ledger reloaded, copy.blocks, copy.cache⟩

/-- The tree of an empty root directory and the owner of its block. -/
def rootNodes : Nodes := fun i => if i = 0 then some (.dir 0 []) else none
def rootOwner : Owner := fun b => if b = 103 then some (0, .data 0) else none

omit [InodeLayout] in
theorem rootNodes_entry : ¬ NameTree.Entry rootNodes i e := by
  rintro ⟨p, es, found, member⟩
  unfold rootNodes at found
  split at found
  · cases found
    cases member
  · cases found

omit [InodeLayout] in
theorem rootNodes_live (live : rootNodes i ≠ none) : i = 0 := by
  unfold rootNodes at live
  by_contra other
  exact live (if_neg other)

omit [InodeLayout] in
theorem rootNodes_tree : NameTree.Tree scheme 0 rootNodes where
  root_dir := ⟨[], rfl⟩
  names := fun i p es found => by
    unfold rootNodes at found
    split at found
    · cases found
      exact List.nodup_nil
    · cases found
  proper := fun i e entry => absurd entry rootNodes_entry
  subdir := fun i e entry => absurd entry rootNodes_entry
  leaf := fun i e entry => absurd entry rootNodes_entry
  once := fun i e j f entry => absurd entry rootNodes_entry
  entered := fun i live top => absurd (rootNodes_live live) top
  ranked := ⟨fun _ => 0, fun i p es found top =>
    absurd (rootNodes_live (by rw [found]; simp)) top⟩

/-- The blocks that `cnmkfs` writes. -/
structure Formatted (v : Vol) : Prop where
  superblk : v.disk 0 = superblockInit
  blockBm : v.disk 1 = blockBitmapInit
  inodeBm : v.disk 2 = inodeBitmapInit
  root : ∃ st, DirAt v.disk rootOwner 0 st (records 0 0 []) ∧ st.block0 = 103

/-- The device with superblock and bitmaps, and the root directory's inode. -/
def initialDisk (d : Disk) : Disk :=
  Extents.set (Extents.set (Extents.set d 0 superblockInit) 1 blockBitmapInit) 2 inodeBitmapInit

def rootInode (s : Fs) : Inode :=
  { newInode ITYPE_DIR (s.clock s.ticks) with
    size := 24, blocks := 1, data0 := (Vector.replicate 8 0).setIfInBounds 0 103 }

theorem cnmkfs_eq (s : Fs) : cnmkfs s =
    (inodeWrite (initialDisk s.vol.disk) 0 (rootInode s)).map fun d =>
      (0, { s with ticks := s.ticks + 1,
                   vol := { s.vol with disk := Extents.set d 103 (newDirBlock 0 0) } }) := by
  rw [cnmkfs, blkWrite_inside (by decide)]
  simp only [Option.bind_eq_bind, Option.bind_some]
  rw [blkWrite_inside (by decide), Option.bind_some, blkWrite_inside (by decide), Option.bind_some,
    Option.map_eq_bind, writeRootDir, timeNull]
  simp only [Option.bind_eq_bind, Option.bind_assoc,
    blkWrite_inside (show (103 : UInt32).toNat < 25600 by decide)]
  rfl

theorem cnmkfs_formatted (run : cnmkfs s = some (code, s')) : code = 0 ∧ Formatted s'.vol := by
  rw [cnmkfs_eq] at run
  obtain ⟨d, written, run⟩ := Option.map_eq_some_iff.mp run
  cases run
  obtain ⟨_, back, _, outside⟩ := inodeWrite_spec (by decide) written
  have fixed (b : UInt32) (low : b.toNat < 3) : Extents.set d 103 (newDirBlock 0 0) b = d b :=
    Extents.set_other (by rintro rfl; exact absurd low (by decide))
  refine ⟨rfl, ?_, ?_, ?_, _, ⟨(inodeRead_congr (by decide) fun b _ high => Extents.set_other (by
    rintro rfl; exact absurd high (by decide))).trans back, rfl, rfl, rfl, rfl, ?_, ?_⟩, rfl⟩
  · exact (fixed 0 (by decide)).trans ((outside 0 (by decide)).trans (by simp [initialDisk, Extents.set]))
  · exact (fixed 1 (by decide)).trans ((outside 1 (by decide)).trans (by simp [initialDisk, Extents.set]))
  · exact (fixed 2 (by decide)).trans ((outside 2 (by decide)).trans (by simp [initialDisk, Extents.set]))
  · intro b r found
    unfold rootOwner at found
    split at found
    next same => exact same
    · cases found
  · change Tiles (entryAt ⟨4096, Block.mem (Extents.set d 103 (newDirBlock 0 0) 103)⟩) _ _ _ _
    rw [Extents.set_same]
    exact newDirBlock_tiles 0 0

/-- The volume of an empty file system. -/
theorem Formatted.holds (formatted : Formatted v) (superblk : SameSuperblk superblockInit sb) :
    Holds ⟨v.disk, sb, blockBitmapInit, inodeBitmapInit⟩ rootOwner rootNodes := by
  obtain ⟨inodes, blocks, _⟩ := superblockInit_fields
  obtain ⟨st, root, place⟩ := formatted.root
  constructor
  case ledger =>
    refine ⟨fun p => ?_, fun n low => ?_, fun b o found => ?_⟩
    · cases p
      · exact ((superblk.field (.inl (by decide)) (by decide)).trans inodes).trans
          (clearCount_initial (n := 6400) fun n _ => inodeBitmapInit_bit).symm
      · exact ((superblk.field (.inl (by decide)) (by decide)).trans blocks).trans
          (clearCount_initial (n := 25600) fun n _ => blockBitmapInit_bit).symm
    · exact blockBitmapInit_bit.trans (decide_eq_true (by omega))
    · unfold rootOwner at found
      split at found
      next same =>
        subst same
        exact ⟨by decide, by decide, blockBitmapInit_bit.trans (by decide)⟩
      · cases found
  case tree => exact rootNodes_tree
  case proper => exact fun i e entry => absurd entry rootNodes_entry
  case inodes =>
    intro i live
    obtain rfl := rootNodes_live live
    exact ⟨by decide, inodeBitmapInit_bit.trans (by decide)⟩
  case exact_inodes =>
    intro n used
    have zero : n = 0 := by
      have := of_decide_eq_true (inodeBitmapInit_bit.symm.trans used)
      omega
    exact ⟨0, by rw [zero]; rfl, by simp [rootNodes]⟩
  case exact_blocks =>
    intro n used
    have low : n < 104 := of_decide_eq_true (blockBitmapInit_bit.symm.trans used)
    by_cases last : n = 103
    · exact .inr ⟨103, (0, .data 0), by rw [last]; rfl, rfl⟩
    · exact .inl (by omega)
  case owners =>
    intro b o found
    unfold rootOwner at found
    split at found
    · cases found
      simp [rootNodes]
    · cases found
  case dirs =>
    intro i p es found
    obtain rfl := rootNodes_live (i := i) (by rw [found]; simp)
    cases found
    exact ⟨st, root⟩
  case files =>
    intro i found
    obtain rfl := rootNodes_live (i := i) (by rw [found]; simp)
    cases found
  case root => exact ⟨st, root.read, place⟩

/-- `cnmkfs` and `cnmount` leave an empty file system, whatever was there before. -/
theorem boot_sound {before : Fs} {session : Session} (run : boot before = some session) :
    Sound session.fs rootOwner rootNodes ∧ (∀ k, session.handles k = none) ∧
      (∃ h, session.fs.cwd = some h ∧ Opened session.fs.vol rootOwner rootNodes 0 0 h) ∧
      ∀ n, session.fs.fdTbl n = FdEntry.zero := by
  obtain ⟨⟨code, s₁⟩, makes, run⟩ := Option.bind_eq_some_iff.mp run
  obtain ⟨⟨code', s₂⟩, mounts, run⟩ := Option.bind_eq_some_iff.mp run
  cases run
  obtain ⟨_, formatted⟩ := cnmkfs_formatted makes
  obtain ⟨_, sb, cwd, same, vol, _, fds, here, s₀, vol₀, opens⟩ := cnmount_eq mounts
  rw [formatted.superblk] at same
  rw [formatted.blockBm, formatted.inodeBm] at vol
  have holds := formatted.holds same
  rw [← vol] at holds
  have holds₀ := holds
  rw [← vol₀] at holds₀
  obtain ⟨h, es, rfl, top, opened⟩ := holds₀.openRoot opens
  rw [vol₀] at opened
  have root : h.inodeId = 0 := by
    obtain ⟨_, _, _, _, _, rfl⟩ := opened
    rfl
  refine ⟨⟨holds, ?_, ?_, fun dir eq => ?_, fun n used => ?_⟩, fun _ => rfl, ⟨h, here, opened⟩,
    fun n => by rw [fds]⟩
  · rw [vol]
    exact ⟨fun i low high => by rw [formatted.superblk]; exact (same i low high).symm,
      formatted.blockBm, formatted.inodeBm⟩
  · rw [vol]
    exact (same.field (.inl (by decide)) (by decide)).trans superblockInit_fields.2.2.1
  · rw [here, Option.some.injEq] at eq
    rw [← eq, root]
    exact ⟨0, es, top⟩
  · rw [fds] at used
    exact absurd rfl used

/-- The volume whose caches are just read. -/
def Vol.loaded (d : Disk) : Vol := ⟨d, d 0, d 1, d 2⟩

/-- The disk holds a file system. -/
def Mountable (d : Disk) : Prop :=
  ∃ own node, Holds (.loaded d) own node ∧ magic (d 0) = FS_MAGIC

omit [InodeLayout] in
theorem loaded_synced : (Vol.loaded d).Synced := ⟨fun _ _ _ => rfl, rfl, rfl⟩

/-- The caches of a sound state are on its disk. -/
theorem Sound.mountable {s : Fs} (sound : Sound s own node) : Mountable s.vol.disk := by
  have superblk : SameSuperblk s.vol.superblkCache (s.vol.disk 0) := sound.synced.superblk
  have reloaded : Reloaded s.vol (.loaded s.vol.disk) :=
    ⟨fun _ _ => rfl, superblk, sound.synced.blockBm, sound.synced.inodeBm, loaded_synced⟩
  refine ⟨own, node, sound.holds.reload reloaded, Eq.trans ?_ sound.magic⟩
  exact superblk.field (.inl (by decide)) (by decide)

theorem cnmkfs_mountable {s s' : Fs} (run : cnmkfs s = some (code, s')) :
    Mountable s'.vol.disk := by
  obtain ⟨_, formatted⟩ := cnmkfs_formatted run
  have holds := formatted.holds (show SameSuperblk superblockInit superblockInit from fun _ _ _ => rfl)
  refine ⟨rootOwner, rootNodes, ?_, ?_⟩
  · rw [Vol.loaded, formatted.superblk, formatted.blockBm, formatted.inodeBm]
    exact holds
  · rw [formatted.superblk]
    exact superblockInit_fields.2.2.1

/-- `cnmount` does not look at the caches it finds. -/
theorem cnmount_loaded (s : Fs) : cnmount { s with vol := .loaded s.vol.disk } = cnmount s := by
  rw [cnmount_reset, cnmount_reset]
  rfl

theorem cnmount_unclean {s s' : Fs} (isMagic : magic (s.vol.disk 0) = FS_MAGIC)
    (run : cnmount s = some (code, s')) : fsState s'.vol.superblkCache ≠ VALID_FS := by
  rw [cnmount_reset] at run
  obtain ⟨cwd, _, run⟩ := Option.map_eq_some_iff.mp run
  cases run
  dsimp only [Fs.reset]
  split
  · rw [fsState, getField_setField (by decide)]
    decide
  next unclean => exact fun valid => unclean ⟨isMagic, valid⟩

end
end CdnwSh
