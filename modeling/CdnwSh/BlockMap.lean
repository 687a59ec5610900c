import CdnwSh.Growth
import CdnwSh.WholeFile
import CdnwSh.AllocatorRuns

/-! What `realloc_fs_blocks` does to the block map of one file, without an owner for every
block: the allocator's counters and bitmaps agree and the file's own pointers are different
blocks in use. Growth that stays behind the indirect block makes no demand on where that block
lies, for `realloc_fs_blocks` works on a copy of it. -/
namespace CdnwSh

/-- Counters and bitmaps agree, and superblock, bitmaps and inode table are in use. -/
structure AllocOk (v : Vol) : Prop where
  agrees : ∀ p : Pool, p.Agrees v
  metadata : ∀ n, n < 103 → bit v.blockBmCache n = true

/-- The pointers of a file, its indirect block among them, are different blocks in use; it has
an indirect block where it needs one. -/
structure BlockMap (v : Vol) (st : Inode) : Prop where
  distinct : (filePointers v.disk st).Nodup
  used : ∀ ptr ∈ filePointers v.disk st, ptr.toNat < 25600 ∧ bit v.blockBmCache ptr.toNat = true
  single : st.data1 = 0 ↔ st.blocks.toNat ≤ 8

/-- The indirect block, when growth from `st` to `st'` created it. -/
def created (st st' : Inode) : List Iptr :=
  if st.data1 = 0 ∧ st'.data1 ≠ 0 then [st'.data1] else []

/-- The file `st` grown to `need` blocks: `fresh` are its new data blocks. -/
structure MapGrown (v : Vol) (st : Inode) (need : Nat) (v' : Vol) (st' : Inode)
    (fresh : List Iptr) : Prop where
  blocks : st'.blocks.toNat = need
  others : st' = { st with data0 := st'.data0, blocks := st'.blocks, data1 := st'.data1 }
  list : blockList v'.disk st' = blockList v.disk st ++ fresh
  length : fresh.length = need - st.blocks.toNat
  distinct : (fresh ++ created st st').Nodup
  taken : ∀ ptr ∈ fresh ++ created st st', ptr.toNat < 25600 ∧
    bit v.blockBmCache ptr.toNat = false ∧ bit v'.blockBmCache ptr.toNat = true
  kept : st.data1 ≠ 0 → st'.data1 = st.data1
  single : st'.data1 ≠ 0 ↔ 8 < need
  count : Pool.block.free v' + (need - st.blocks.toNat + (created st st').length) = Pool.block.free v
  disk : ∀ b : UInt32, b ≠ 0 → b ≠ 1 → b ≠ 2 → b ≠ st'.data1 → v'.disk b = v.disk b

structure Enlarged (v : Vol) (st : Inode) (need : Nat) (v' : Vol) (st' : Inode) : Prop where
  took : Took v .block ((freeList .block v).take (newBlocks st need)) v'
  blocks : st'.blocks.toNat = need
  same : st' = { st with data0 := st'.data0, blocks := st'.blocks, data1 := st'.data1 }
  single : st'.data1 = (freshSingle (freeList .block v) st need).headD st.data1
  list : blockList v'.disk st' = blockList v.disk st ++ freshData (freeList .block v) st need
  disk : ∀ b : UInt32, 3 ≤ b.toNat → b ≠ st'.data1 → v'.disk b = v.disk b

section
variable {v v' : Vol} {st st' : Inode} {need : UInt32}

theorem Accounted.allocOk {s : Allocs} (acc : Accounted s) : AllocOk s.vol :=
  ⟨acc.agrees, fun n low => (acc.bits .block n).mpr (.inl (by
    change n < 104
    omega))⟩

theorem AllocOk.fresh (sane : AllocOk v) (free : ptr ∈ freeList .block v) :
    103 ≤ ptr.toNat ∧ ptr.toNat < 25600 ∧ bit v.blockBmCache ptr.toNat = false := by
  obtain ⟨bound, clear⟩ := mem_freeList.mp free
  refine ⟨?_, bound, clear⟩
  by_contra low
  exact Bool.false_ne_true (clear.symm.trans (sane.metadata _ (by omega)))

theorem newBlocks_eq (more : st.blocks.toNat < n) :
    newBlocks st n = n - st.blocks.toNat + singleShare st n := by
  unfold newBlocks directShare indirectShare
  omega

theorem directShare_many (many : 8 < st.blocks.toNat) : directShare st n = 0 := by
  unfold directShare
  omega

theorem Enlarged.of_few (sane : AllocOk v) (file : BlockMap v st) (few : st.blocks.toNat ≤ 8)
    (more : st.blocks.toNat < need.toNat) (room : need.toNat ≤ 1032)
    (enough : newBlocks st need.toNat ≤ (freeList .block v).length) :
    ∃ st' v', reallocFsBlocks v st need = some (st', v') ∧ Enlarged v st need.toNat v' st' := by
  have missing := file.single.mpr few
  have grow : Growable v st need.toNat := by
    refine ⟨sane.agrees, fun ptr member => ?_, fun given => absurd missing given,
      fun many => absurd few (by omega), more, room, enough⟩
    have := sane.fresh member
    omega
  obtain ⟨st', v', run, grown⟩ := reallocFsBlocks_grown grow
  exact ⟨st', v', run, grown.took, grown.blocks, grown.same, grown.single, grown.list,
    fun b data apart => grown.disk b data fun _ => apart⟩

theorem Enlarged.of_many (sane : AllocOk v) (file : BlockMap v st) (many : 8 < st.blocks.toNat)
    (more : st.blocks.toNat < need.toNat) (room : need.toNat ≤ 1032)
    (enough : newBlocks st need.toNat ≤ (freeList .block v).length) :
    ∃ st' v', reallocFsBlocks v st need = some (st', v') ∧ Enlarged v st need.toNat v' st' := by
  have given : st.data1 ≠ 0 := fun missing => absurd (file.single.mp missing) (by omega)
  have noDirect := directShare_many (n := need.toNat) many
  have noSingle : singleShare st need.toNat = 0 := if_neg fun h => given h.2
  have behind : indirectShare st need.toNat = need.toNat - st.blocks.toNat := by
    rw [indirectShare, Nat.max_eq_right (by omega)]
  have all := newBlocks_eq more
  rw [noSingle, Nat.add_zero] at all
  have inside : st.data1.toNat < 25600 := by
    refine (file.used st.data1 (List.mem_append_right _ ?_)).1
    rw [if_pos many]
    exact List.mem_cons_self
  have old : oldIndirect v.disk st = v.disk st.data1 := if_neg given
  let w := v.takenAll .block ((freeList .block v).take (newBlocks st need.toNat))
  let fresh := (freeList .block v).take (need.toNat - st.blocks.toNat)
  let entries := placeIndirect (v.disk st.data1) (st.blocks.toNat - 8) fresh
  have length : fresh.length = need.toNat - st.blocks.toNat := by
    rw [List.length_take]
    omega
  have second : growIndirect v st need = some ({ st with data1 := st.data1, blocks := need },
      { w with disk := Extents.set w.disk st.data1 entries }) := by
    have run := growIndirect_eq sane.agrees (fun ptr member => (sane.fresh member).2.1)
      (fun _ => inside) (by omega) more room (if_neg given).symm rfl (by omega)
      (show w = _ by rw [Nat.zero_add, ← all]) rfl
    rw [old] at run
    exact run
  have skips : growDirect v st need = some (st, v) :=
    if_neg fun few => absurd (UInt32.le_iff_toNat_le.mp few) (by
      change ¬ st.blocks.toNat ≤ 8
      omega)
  have run : reallocFsBlocks v st need = some ({ st with data1 := st.data1, blocks := need },
      { w with disk := Extents.set w.disk st.data1 entries }) := by
    rw [reallocFsBlocks, if_pos (UInt32.lt_iff_toNat_lt.mpr more), skips]
    exact second
  refine ⟨_, _, run, ?_⟩
  constructor
  case took => exact (takenAll_took sane.agrees (List.take_append_drop _ _).symm).withDisk
  case blocks => rfl
  case same => rfl
  case single =>
    rw [freshSingle, noSingle]
    rfl
  case list =>
    have data : freshData (freeList .block v) st need.toNat = fresh := by
      rw [freshData, noDirect, noSingle, behind]
      rfl
    have tail : singleList (Extents.set w.disk st.data1 entries)
        { st with data1 := st.data1, blocks := need } = singleList v.disk st ++ fresh := by
      rw [singleList, Extents.set_same]
      exact indirect_append (by omega) (by dsimp only; omega)
    rw [data, blockList, tail, blockList, direct_full (by dsimp only; omega), direct_full (by omega),
      List.append_assoc]
  case disk => exact fun b data apart => (Extents.set_other apart).trans (takenAll_disk data)

/-- A file that grows behind eight blocks without an indirect block gets one, and no other file does. -/
theorem Enlarged.created_eq (sane : AllocOk v) (large : Enlarged v st n v' st')
    (enough : newBlocks st n ≤ (freeList .block v).length) :
    created st st' = freshSingle (freeList .block v) st n ∧
      (created st st').length = singleShare st n := by
  by_cases needs : 8 < n ∧ st.data1 = 0
  · have one : singleShare st n = 1 := if_pos needs
    unfold newBlocks at enough
    obtain ⟨ptr, rest, found⟩ := List.exists_cons_of_length_pos
      (show 0 < ((freeList .block v).drop (directShare st n)).length by
        rw [List.length_drop]
        omega)
    have single : freshSingle (freeList .block v) st n = [ptr] := by
      rw [freshSingle, one, found]
      rfl
    have free : ptr ∈ freeList .block v :=
      List.mem_of_mem_drop (show ptr ∈ (freeList .block v).drop (directShare st n) by
        rw [found]
        exact List.mem_cons_self)
    have owner : st'.data1 = ptr := by
      rw [large.single, single]
      rfl
    have given : ptr ≠ 0 := by
      rintro rfl
      exact absurd (sane.fresh free).1 (by decide)
    rw [created, if_pos ⟨needs.2, by rw [owner]; exact given⟩, single, owner, one]
    exact ⟨rfl, rfl⟩
  · have none : singleShare st n = 0 := if_neg needs
    have single : freshSingle (freeList .block v) st n = [] := by
      rw [freshSingle, none]
      rfl
    have owner : st'.data1 = st.data1 := by
      rw [large.single, single]
      rfl
    rw [created, owner, if_neg fun both => both.2 both.1, single, none]
    exact ⟨rfl, rfl⟩

theorem length_freshData {free : List Iptr} (more : st.blocks.toNat < n)
    (enough : newBlocks st n ≤ free.length) :
    (freshData free st n).length = n - st.blocks.toNat := by
  rw [freshData, List.length_append, List.length_take, List.length_take, List.length_drop]
  unfold newBlocks directShare indirectShare at *
  omega

theorem Enlarged.kept (large : Enlarged v st n v' st') (same : ¬ (8 < n ∧ st.data1 = 0)) :
    st'.data1 = st.data1 := by
  have none : singleShare st n = 0 := if_neg same
  rw [large.single, freshSingle, none]
  rfl

theorem Enlarged.taken (large : Enlarged v st n v' st')
    (member : ptr ∈ (freeList .block v).take (newBlocks st n)) :
    ptr.toNat < 25600 ∧ bit v.blockBmCache ptr.toNat = false ∧ bit v'.blockBmCache ptr.toNat = true := by
  obtain ⟨bound, clear⟩ := mem_freeList.mp (List.mem_of_mem_take member)
  refine ⟨bound, clear, (large.took.bits .block _).trans ?_⟩
  rw [decide_eq_true ⟨rfl, List.mem_map_of_mem member⟩, Bool.or_true]

theorem Enlarged.grown (sane : AllocOk v) (file : BlockMap v st) (more : st.blocks.toNat < n)
    (enough : newBlocks st n ≤ (freeList .block v).length) (large : Enlarged v st n v' st') :
    MapGrown v st n v' st' (freshData (freeList .block v) st n) := by
  obtain ⟨news, count⟩ := large.created_eq sane enough
  have free := freeList_nodup (p := .block) (v := v)
  obtain ⟨nodup, apart⟩ : (freshData (freeList .block v) st n).Nodup ∧
      ∀ ptr ∈ freshSingle (freeList .block v) st n, ptr ∉ freshData (freeList .block v) st n :=
    fresh_nodup free
  constructor
  case blocks => exact large.blocks
  case others => exact large.same
  case list => exact large.list
  case length => exact length_freshData more enough
  case distinct =>
    rw [news]
    refine List.nodup_append.mpr ⟨nodup, ?_, fun a data b single same => apart b single (same ▸ data)⟩
    exact free.sublist ((List.take_sublist _ _).trans (List.drop_sublist _ _))
  case taken =>
    intro ptr member
    rw [news] at member
    refine large.taken (mem_fresh.mpr ?_)
    exact (List.mem_append.mp member).symm
  case kept => exact fun given => large.kept fun needs => given needs.2
  case single =>
    by_cases needs : 8 < n ∧ st.data1 = 0
    · refine iff_of_true (fun missing => ?_) needs.1
      rw [created, if_neg fun both => both.2 missing, singleShare, if_pos needs] at count
      cases count
    · rw [large.kept needs]
      by_cases many : 8 < n
      · exact iff_of_true (fun missing => needs ⟨many, missing⟩) many
      · exact iff_of_false (not_not.mpr (file.single.mpr (by omega))) many
  case count =>
    rw [large.took.free_eq (sane.agrees .block), List.length_take, count, ← newBlocks_eq more,
      Nat.min_eq_left enough, Nat.sub_add_cancel]
    rw [← length_freeList (sane.agrees .block)]
    exact enough
  case disk =>
    intro b super blockBm inodeBm other
    refine large.disk b ?_ other
    rw [ne_eq, ← UInt32.toNat_inj] at super blockBm inodeBm
    by_contra low
    have : b.toNat = 0 ∨ b.toNat = 1 ∨ b.toNat = 2 := by omega
    rcases this with zero | one | two
    · exact super zero
    · exact blockBm one
    · exact inodeBm two

theorem MapGrown.pointers (file : BlockMap v st) (more : st.blocks.toNat < n)
    (grown : MapGrown v st n v' st' fresh) :
    (filePointers v'.disk st').Perm (filePointers v.disk st ++ (fresh ++ created st st')) := by
  have owned := grown.single
  rw [filePointers, filePointers, grown.list, grown.blocks, created]
  by_cases given : st.data1 = 0
  · have few := file.single.mp given
    rw [if_neg (show ¬ 8 < st.blocks.toNat by omega), List.append_nil, List.append_assoc]
    by_cases many : 8 < n
    · rw [if_pos many, if_pos ⟨given, owned.mpr many⟩]
    · rw [if_neg many, if_neg fun both => many (owned.mp both.2)]
  · have many : 8 < st.blocks.toNat := by
      have := mt file.single.mpr given
      omega
    rw [if_pos (by omega), if_pos many, grown.kept given, if_neg fun both => given both.1,
      List.append_nil, List.append_assoc, List.append_assoc]
    exact List.perm_append_comm.append_left _

theorem MapGrown.again (sane : AllocOk v) (file : BlockMap v st) (more : st.blocks.toNat < n)
    (took : Took v .block ptrs v') (grown : MapGrown v st n v' st' fresh) :
    AllocOk v' ∧ BlockMap v' st' := by
  have stays {k : Nat} (used : bit v.blockBmCache k = true) : bit v'.blockBmCache k = true := by
    refine (took.bits .block k).trans ?_
    rw [show bit (Pool.block.cache v) k = true from used, Bool.true_or]
  have pointers := grown.pointers file more
  refine ⟨⟨took.agrees, fun k low => stays (sane.metadata k low)⟩, ?_, fun ptr member => ?_, ?_⟩
  · rw [pointers.nodup_iff]
    refine List.nodup_append.mpr ⟨file.distinct, grown.distinct, fun a old b new same => ?_⟩
    have used := (file.used a old).2
    rw [same, (grown.taken b new).2.1] at used
    cases used
  · rcases List.mem_append.mp (pointers.mem_iff.mp member) with old | new
    · exact ⟨(file.used ptr old).1, stays (file.used ptr old).2⟩
    · exact ⟨(grown.taken ptr new).1, (grown.taken ptr new).2.2⟩
  · rw [grown.blocks, ← not_iff_not, ← ne_eq, grown.single, Nat.not_le]

end

/-- `realloc_fs_blocks` from any consistent state, for any file and any larger number of blocks
that the block map has room for and the free blocks suffice for. -/
theorem block_map_grows {v : Vol} {st : Inode} {need : UInt32} (sane : AllocOk v)
    (file : BlockMap v st) (more : st.blocks < need) (room : need.toNat ≤ 8 + 1024)
    (enough : need.toNat - st.blocks.toNat + (if 8 < need.toNat ∧ st.data1 = 0 then 1 else 0) ≤
      Pool.block.free v) :
    ∃ st' v' fresh, reallocFsBlocks v st need = some (st', v') ∧
      MapGrown v st need.toNat v' st' fresh ∧ AllocOk v' ∧ BlockMap v' st' := by
  have above := UInt32.lt_iff_toNat_lt.mp more
  have left : newBlocks st need.toNat ≤ (freeList .block v).length := by
    rw [newBlocks_eq above, length_freeList (sane.agrees .block)]
    exact enough
  obtain ⟨st', v', run, large⟩ : ∃ st' v', reallocFsBlocks v st need = some (st', v') ∧
      Enlarged v st need.toNat v' st' := by
    by_cases few : st.blocks.toNat ≤ 8
    · exact Enlarged.of_few sane file few above room left
    · exact Enlarged.of_many sane file (Nat.lt_of_not_le few) above room left
  have grown := large.grown sane file above left
  exact ⟨st', v', _, run, grown, grown.again sane file above large.took⟩

section Lp64
attribute [local instance] lp64

theorem block_map_grows_nine : ∃ v st' v' fresh, reallocFsBlocks v Inode.zero 9 = some (st', v') ∧
    List.length fresh = 9 ∧ blockList v'.disk st' = fresh ∧ st'.data1 ≠ 0 ∧
    Pool.block.free v = 25496 ∧ Pool.block.free v' = 25486 := by
  obtain ⟨s, made⟩ := cnmkfs_defined emptyStart
  have acc := (cnmkfs_formatted made).2.accounted (show SameSuperblk superblockInit superblockInit from
    fun _ _ _ => rfl)
  have file : BlockMap ⟨s.vol.disk, superblockInit, blockBitmapInit, inodeBitmapInit⟩ Inode.zero :=
    ⟨List.nodup_nil, fun ptr member => absurd member List.not_mem_nil, by decide⟩
  have free : Pool.block.free ⟨s.vol.disk, superblockInit, blockBitmapInit, inodeBitmapInit⟩ = 25496 :=
    superblockInit_fields.2.1
  obtain ⟨st', v', fresh, run, grown, _⟩ := block_map_grows acc.allocOk file
    (show Inode.zero.blocks < 9 by decide) (by decide) (by rw [free]; decide)
  have owned : st'.data1 ≠ 0 := grown.single.mpr (by decide)
  have count := grown.count
  rw [created, if_pos ⟨rfl, owned⟩, free] at count
  exact ⟨_, st', v', fresh, run, grown.length, grown.list, owned, free, by
    have nine : (9 : UInt32).toNat - Inode.zero.blocks.toNat = 9 := rfl
    rw [nine, List.length_singleton] at count
    omega⟩

end Lp64

end CdnwSh
