import CdnwSh.FileArray
import CdnwSh.Resize

/-! Writing a file in pieces. Growing in two stages reserves the same blocks in the same places
as growing at once, so an appended file has the block map, the bitmap and the counters of a
single write. -/
namespace CdnwSh

open ByteMemory PartialRun

section
variable {v v₀ v' w : Vol} {st st₀ st' : Inode} {m n : Nat} {i : Iptr} {ptrs xs ys : List Iptr}
  {own own₀ : Owner}

theorem placeDirect_append : placeDirect st (xs ++ ys) = placeDirect (placeDirect st xs) ys :=
  List.foldl_append

/-- Only the pointers and their number matter for where the next ones go. -/
theorem placeDirect_congr (data0 : st.data0 = st'.data0) (blocks : st.blocks = st'.blocks) :
    (placeDirect st ptrs).data0 = (placeDirect st' ptrs).data0 := by
  induction ptrs generalizing st st' with
  | nil => exact data0
  | cons ptr ptrs ih =>
    refine @ih
      { st with data0 := st.data0.setIfInBounds st.blocks.toNat ptr, blocks := st.blocks + 1 }
      { st' with data0 := st'.data0.setIfInBounds st'.blocks.toNat ptr, blocks := st'.blocks + 1 }
      ?_ ?_
    · change st.data0.setIfInBounds _ _ = st'.data0.setIfInBounds _ _
      rw [data0, blocks]
    · change st.blocks + 1 = st'.blocks + 1
      rw [blocks]

theorem placeIndirect_append {sInd : Block} {j k : Nat} (length : xs.length = k) :
    placeIndirect (placeIndirect sInd j xs) (j + k) ys = placeIndirect sInd j (xs ++ ys) := by
  induction xs generalizing sInd j k with
  | nil =>
    obtain rfl : 0 = k := length
    rfl
  | cons ptr xs ih =>
    obtain rfl : xs.length + 1 = k := length
    rw [List.cons_append, placeIndirect, placeIndirect, ← ih rfl, Nat.add_right_comm, Nat.add_assoc]

/-- The shares of two stages add up. -/
theorem share_split (blocks : st.blocks.toNat = m) (lower : st₀.blocks.toNat ≤ m) (upper : m ≤ n)
    (single : st.data1 = 0 ↔ st₀.data1 = 0 ∧ m ≤ 8) :
    directShare st₀ n = directShare st₀ m + directShare st n ∧
    singleShare st₀ n = singleShare st₀ m + singleShare st n ∧
    indirectShare st₀ n = indirectShare st₀ m + indirectShare st n := by
  unfold directShare singleShare indirectShare
  rw [blocks]
  refine ⟨by omega, ?_, by omega⟩
  by_cases missing : st₀.data1 = 0
  · simp only [single, missing, true_and, and_true]
    split <;> split <;> split <;> omega
  · simp only [single, missing, false_and, and_false, if_false]

/-- The bitmaps, the counters and the blocks they are kept in are the same. -/
structure SameMeta (v w : Vol) : Prop where
  superblk : v.superblkCache = w.superblkCache
  blockBm : v.blockBmCache = w.blockBmCache
  inodeBm : v.inodeBmCache = w.inodeBmCache
  disk : ∀ b : UInt32, b.toNat < 3 → v.disk b = w.disk b

theorem SameMeta.refl (v : Vol) : SameMeta v v := ⟨rfl, rfl, rfl, fun _ _ => rfl⟩

theorem SameMeta.symm (same : SameMeta v w) : SameMeta w v :=
  ⟨same.superblk.symm, same.blockBm.symm, same.inodeBm.symm, fun b low => (same.disk b low).symm⟩

theorem SameMeta.trans (first : SameMeta v v') (second : SameMeta v' w) : SameMeta v w :=
  ⟨first.superblk.trans second.superblk, first.blockBm.trans second.blockBm,
    first.inodeBm.trans second.inodeBm, fun b low => (first.disk b low).trans (second.disk b low)⟩

theorem SameMeta.withDisk {d : Disk} (same : ∀ b : UInt32, b.toNat < 3 → d b = v.disk b) :
    SameMeta { v with disk := d } v := ⟨rfl, rfl, rfl, same⟩

theorem SameMeta.flushed (superblk : v.superblkCache = w.superblkCache)
    (blockBm : v.blockBmCache = w.blockBmCache) (inodeBm : v.inodeBmCache = w.inodeBmCache) :
    SameMeta v.flushed w.flushed := by
  refine ⟨superblk, blockBm, inodeBm, fun b low => ?_⟩
  have which : b = 0 ∨ b = 1 ∨ b = 2 := by
    rw [← UInt32.toNat_inj, ← UInt32.toNat_inj, ← UInt32.toNat_inj]
    change b.toNat = 0 ∨ b.toNat = 1 ∨ b.toNat = 2
    omega
  rcases which with rfl | rfl | rfl
  · simp [Vol.flushed, Extents.set, superblk]
  · simp [Vol.flushed, Extents.set, blockBm]
  · simp [Vol.flushed, Extents.set, inodeBm]

theorem SameMeta.taken (same : SameMeta v w) (ptr : Iptr) :
    SameMeta (v.taken .block ptr) (w.taken .block ptr) := by
  have count : Pool.block.free v = Pool.block.free w := by
    rw [Pool.free, Pool.free, same.superblk]
  refine .flushed ?_ ?_ same.inodeBm
  · change setField v.superblkCache _ 4 (Pool.block.free v - 1) =
      setField w.superblkCache _ 4 (Pool.block.free w - 1)
    rw [same.superblk, count]
  · change setBit v.blockBmCache ptr.toNat = setBit w.blockBmCache ptr.toNat
    rw [same.blockBm]

theorem SameMeta.takenAll (same : SameMeta v w) :
    SameMeta (v.takenAll .block ptrs) (w.takenAll .block ptrs) := by
  induction ptrs generalizing v w with
  | nil => exact same
  | cons ptr ptrs ih => exact ih (same.taken ptr)

/-- The copy `st` of an inode has the block map, and `v` the bitmap and the counters, that
growing `st₀` in `v₀` to `need` blocks gives. -/
structure GrownTo (v₀ : Vol) (st₀ : Inode) (need : Nat) (v : Vol) (st : Inode) : Prop where
  rest : st = { st₀ with size := st.size, blocks := st.blocks, modified := st.modified,
                         data0 := st.data0, data1 := st.data1 }
  blocks : st.blocks.toNat = need
  data0 : st.data0 = (directInode v₀ st₀ need).data0
  data1 : st.data1 = grownSingle v₀ st₀ need
  entries : oldIndirect v.disk st = grownEntries v₀ st₀ need
  caches : SameMeta v (v₀.takenAll .block ((freeList .block v₀).take (newBlocks st₀ need)))

theorem GrownTo.start (linked : 8 < st.blocks.toNat → st.data1 ≠ 0) :
    GrownTo v st st.blocks.toNat v st := by
  have none : newBlocks st st.blocks.toNat = 0 := newBlocks_none linked (Nat.le_refl _)
  have direct : directShare st st.blocks.toNat = 0 := by unfold directShare; omega
  have single : singleShare st st.blocks.toNat = 0 := if_neg fun h => linked h.1 h.2
  have behind : indirectShare st st.blocks.toNat = 0 := by unfold indirectShare; omega
  refine ⟨rfl, rfl, ?_, ?_, ?_, ?_⟩
  · rw [directInode, direct]
    rfl
  · rw [grownSingle, freshSingle, single]
    rfl
  · rw [grownEntries, behind]
    rfl
  · rw [none]
    exact .refl v

/-- Size and time, the inode table and the data blocks do not matter. -/
theorem GrownTo.congr (grown : GrownTo v₀ st₀ n v st)
    (same : st' = { st with size := st'.size, modified := st'.modified }) (caches : SameMeta v' v)
    (indirect : st.data1 ≠ 0 → v'.disk st.data1 = v.disk st.data1) : GrownTo v₀ st₀ n v' st' := by
  have owner : st'.data1 = st.data1 := by rw [same]
  refine ⟨?_, ?_, ?_, owner.trans grown.data1, ?_, caches.trans grown.caches⟩
  · rw [same, grown.rest]
  · rw [same]
    exact grown.blocks
  · rw [same]
    exact grown.data0
  · rw [← grown.entries, oldIndirect, oldIndirect, owner]
    split
    · rfl
    next given => exact indirect given

theorem GrownTo.free (grown : GrownTo v₀ st₀ m v st) (agrees : ∀ q : Pool, q.Agrees v₀)
    (enough : newBlocks st₀ m ≤ (freeList .block v₀).length) :
    freeList .block v = (freeList .block v₀).drop (newBlocks st₀ m) :=
  (freeList_congr (p := .block) grown.caches.blockBm).trans (takenAll_spec agrees enough).2

theorem GrownTo.single (grown : GrownTo v₀ st₀ m v st) (ledger : Ledger v₀ own)
    (enough : newBlocks st₀ m ≤ (freeList .block v₀).length) :
    st.data1 = 0 ↔ st₀.data1 = 0 ∧ m ≤ 8 := by
  rw [grown.data1, grownSingle, freshSingle]
  by_cases missing : 8 < m ∧ st₀.data1 = 0
  · have one : singleShare st₀ m = 1 := if_pos missing
    obtain ⟨ptr, rest, front⟩ := List.exists_cons_of_length_pos
      (show 0 < ((freeList .block v₀).drop (directShare st₀ m)).length by
        rw [newBlocks, one] at enough
        rw [List.length_drop]
        omega)
    have low := (ledger.fresh (List.mem_of_mem_drop (front ▸ List.mem_cons_self))).1
    rw [one, front]
    refine ⟨fun zero => ?_, fun h => by omega⟩
    rw [show ptr = 0 from zero] at low
    exact absurd low (by decide)
  · rw [show singleShare st₀ m = 0 from if_neg missing, List.take_zero, List.headD_nil]
    exact ⟨fun zero => ⟨zero, by by_contra many; exact missing ⟨by omega, zero⟩⟩, fun h => h.1⟩

/-- The stages of growth to `m` and on to `n` blocks: what is left of the free list in between,
and how the shares add up. -/
structure Stages (v₀ : Vol) (st₀ : Inode) (m n : Nat) (v : Vol) (st : Inode) : Prop where
  lower : st₀.blocks.toNat ≤ m
  upper : m ≤ n
  enough : newBlocks st₀ n ≤ (freeList .block v₀).length
  missing : st.data1 = 0 ↔ st₀.data1 = 0 ∧ m ≤ 8
  free : freeList .block v = (freeList .block v₀).drop (newBlocks st₀ m)
  direct : directShare st₀ n = directShare st₀ m + directShare st n
  single : singleShare st₀ n = singleShare st₀ m + singleShare st n
  indirect : indirectShare st₀ n = indirectShare st₀ m + indirectShare st n

theorem GrownTo.stages (grown : GrownTo v₀ st₀ m v st) (ledger : Ledger v₀ own)
    (lower : st₀.blocks.toNat ≤ m) (upper : m ≤ n)
    (enough : newBlocks st₀ n ≤ (freeList .block v₀).length) : Stages v₀ st₀ m n v st := by
  have first := (newBlocks_mono upper).trans enough
  have single := grown.single ledger first
  obtain ⟨directs, singles, behinds⟩ := share_split grown.blocks lower upper single
  exact ⟨lower, upper, enough, single, grown.free ledger.agrees first, directs, singles, behinds⟩

theorem Stages.total (stages : Stages v₀ st₀ m n v st) :
    newBlocks st₀ n = newBlocks st₀ m + newBlocks st n := by
  have direct := stages.direct
  have single := stages.single
  have indirect := stages.indirect
  unfold newBlocks
  omega

/-- The second stage takes the indirect block that a single stage takes. -/
theorem GrownTo.next_single (grown : GrownTo v₀ st₀ m v st) (stages : Stages v₀ st₀ m n v st) :
    grownSingle v st n = grownSingle v₀ st₀ n := by
  have blocks := grown.blocks
  rw [grownSingle, grownSingle, freshSingle, freshSingle, stages.single, stages.free]
  by_cases now : singleShare st n = 0
  · rw [now, Nat.add_zero, List.take_zero, List.headD_nil, grown.data1, grownSingle, freshSingle]
    by_cases before : singleShare st₀ m = 0
    · rw [before, List.take_zero, List.take_zero]
    · have many : 8 < m := by
        by_contra few
        exact before (if_neg fun h => few h.1)
      rw [stages.direct, show directShare st n = 0 by unfold directShare; omega, Nat.add_zero]
  · obtain ⟨many, missing⟩ : 8 < n ∧ st.data1 = 0 := by
      by_contra none
      exact now (if_neg none)
    obtain ⟨none, few⟩ := stages.missing.mp missing
    rw [show singleShare st₀ m = 0 from if_neg (by omega), Nat.zero_add, newBlocks_few few,
      List.drop_drop, ← stages.direct, missing, none]

/-- And enters its blocks behind those of the first stage. -/
theorem GrownTo.next_entries (grown : GrownTo v₀ st₀ m v st) (stages : Stages v₀ st₀ m n v st) :
    grownEntries v st n = grownEntries v₀ st₀ n := by
  have blocks := grown.blocks
  have lower := stages.lower
  have length : (((freeList .block v₀).drop (directShare st₀ m + singleShare st₀ m)).take
      (indirectShare st₀ m)).length = indirectShare st₀ m := by
    have enough := stages.total ▸ stages.enough
    rw [List.length_take, List.length_drop]
    unfold newBlocks at enough
    omega
  have place : max 8 m - 8 = max 8 st₀.blocks.toNat - 8 + indirectShare st₀ m := by
    unfold indirectShare
    omega
  rw [grownEntries, grownEntries, grown.entries, grownEntries, stages.free, List.drop_drop, blocks,
    place, placeIndirect_append length, stages.direct, stages.single, stages.indirect, newBlocks]
  congr 1
  by_cases before : indirectShare st₀ m = 0
  · rw [before, List.take_zero, List.nil_append, Nat.zero_add]
    congr 2
    omega
  · have many : 8 < m := by unfold indirectShare at before; omega
    have direct : directShare st n = 0 := by unfold directShare; omega
    have one : singleShare st n = 0 := if_neg fun h => by
      have := (stages.missing.mp h.2).2
      omega
    rw [direct, one, List.take_add, List.drop_drop]
    simp only [Nat.add_zero]

theorem GrownTo.next_direct (grown : GrownTo v₀ st₀ m v st) (stages : Stages v₀ st₀ m n v st) :
    (directInode v st n).data0 = (directInode v₀ st₀ n).data0 := by
  have blocks := grown.blocks
  have lower := stages.lower
  rw [directInode, directInode, stages.direct]
  by_cases few : m ≤ 8
  · have length : ((freeList .block v₀).take (directShare st₀ m)).length = directShare st₀ m := by
      have enough := stages.total ▸ stages.enough
      rw [List.length_take]
      unfold newBlocks at enough
      omega
    rw [stages.free, newBlocks_few few, List.take_add, placeDirect_append]
    refine placeDirect_congr grown.data0 ?_
    rw [← UInt32.toNat_inj, blocks, (placeDirect_share length).1, length]
    unfold directShare
    omega
  · rw [show directShare st n = 0 by unfold directShare; omega, Nat.add_zero]
    exact grown.data0

/-- What a loop over the indirect block finds after growth. -/
theorem Growable.oldIndirect_eq (grow : Growable v st n) :
    oldIndirect (grownVol v st n).disk (grownInode v st n) = grownEntries v st n := by
  rw [oldIndirect]
  by_cases many : 8 < n
  · obtain ⟨low, _⟩ := grow.single_range many
    have given : (grownInode v st n).data1 ≠ 0 := fun zero => by
      rw [show (freshSingle (freeList .block v) st n).headD st.data1 = 0 from zero] at low
      exact absurd low (by decide)
    rw [if_neg given, grownVol, if_pos many]
    exact Extents.set_same
  · have none : singleShare st n = 0 := if_neg fun h => many h.1
    have behind : indirectShare st n = 0 := by unfold indirectShare; omega
    have same : (grownInode v st n).data1 = st.data1 := by
      change grownSingle v st n = st.data1
      rw [grownSingle, freshSingle, none]
      rfl
    rw [same, grownVol, if_neg many, grownEntries, behind, List.take_zero, placeIndirect, oldIndirect]
    split
    · rfl
    next given => exact takenAll_disk (grow.single given).1

theorem Growable.sameMeta (grow : Growable v st n) : SameMeta (grownVol v st n)
    (v.takenAll .block ((freeList .block v).take (newBlocks st n))) := by
  rw [grownVol]
  split
  next many =>
    refine .withDisk fun b low => Extents.set_other ?_
    rintro rfl
    have := (grow.single_range many).1
    unfold grownSingle at low
    omega
  · exact .refl _

theorem GrownTo.grow (grown : GrownTo v₀ st₀ m v st) (ledger : Ledger v₀ own)
    (lower : st₀.blocks.toNat ≤ m) (grow : Growable v st n)
    (enough : newBlocks st₀ n ≤ (freeList .block v₀).length) :
    GrownTo v₀ st₀ n (grownVol v st n) (grownInode v st n) := by
  have more := grow.more
  have blocks := grown.blocks
  have stages : Stages v₀ st₀ m n v st := grown.stages ledger lower (by omega) enough
  obtain ⟨_, _, _, _, _, same⟩ := grow.direct
  have caches : SameMeta (v.takenAll .block ((freeList .block v).take (newBlocks st n)))
      (v₀.takenAll .block ((freeList .block v₀).take (newBlocks st₀ n))) := by
    rw [stages.free, stages.total, List.take_add, takenAll_append]
    exact grown.caches.takenAll
  exact
    { rest := by rw [grownInode, same, grown.rest]
      blocks := UInt32.toNat_ofNat_of_lt' (Nat.lt_of_le_of_lt grow.room (by decide))
      data0 := grown.next_direct stages
      data1 := grown.next_single stages
      entries := grow.oldIndirect_eq.trans (grown.next_entries stages)
      caches := grow.sameMeta.trans caches }

/-- The indirect block of a grown copy is no metadata block. -/
theorem GrownTo.high (grown : GrownTo v₀ st₀ m v st) (ledger : Ledger v₀ own)
    (mapped : Mapped v₀.disk own i st₀) (given : st.data1 ≠ 0) : 103 ≤ st.data1.toNat := by
  rw [grown.data1, grownSingle] at given ⊢
  cases fresh : freshSingle (freeList .block v₀) st₀ m with
  | nil =>
    rw [fresh] at given
    exact (ledger.owned _ _ (mapped.single given)).1
  | cons ptr rest =>
    have member : ptr ∈ freshSingle (freeList .block v₀) st₀ m := by
      rw [fresh]
      exact List.mem_cons_self
    exact (ledger.fresh (List.mem_of_mem_drop (List.mem_of_mem_take member))).1

/-- What the whole growth leaves is enough for the next stage. -/
theorem GrownTo.enough (grown : GrownTo v₀ st₀ m v st) (base : Ledger v₀ own₀) (ledger : Ledger v own)
    (linked : 8 < st.blocks.toNat → st.data1 ≠ 0) (lower : st₀.blocks.toNat ≤ m)
    (enough : newBlocks st₀ n ≤ (freeList .block v₀).length) :
    newBlocks st n ≤ Pool.block.free v := by
  by_cases upper : m ≤ n
  · have stages := grown.stages base lower upper enough
    have total := stages.total
    rw [← length_freeList (ledger.agrees .block), stages.free, List.length_drop]
    omega
  · rw [newBlocks_none linked (by rw [grown.blocks]; omega)]
    exact Nat.zero_le _

theorem GrownTo.growBlocks {need : UInt32}
    (grown : GrownTo v₀ st₀ m v st) (base : Ledger v₀ own₀) (lower : st₀.blocks.toNat ≤ m)
    (ledger : Ledger v own) (mapped : Mapped v.disk own i st) (room : need.toNat ≤ 1032)
    (enough : newBlocks st₀ need.toNat ≤ (freeList .block v₀).length)
    (run : growBlocks v st need = some (st', v')) :
    GrownTo v₀ st₀ st'.blocks.toNat v' st' := by
  obtain rfl := grown.blocks
  unfold CdnwSh.growBlocks at run
  split at run
  next less =>
    have more := UInt32.lt_iff_toNat_lt.mp less
    have left := grown.enough base ledger mapped.indirect lower enough
    have grow := ledger.growable mapped more room left
    rw [reallocFsBlocks_eq grow] at run
    cases run
    have after := grown.grow base lower grow enough
    exact after.blocks.symm ▸ after
  · cases run
    exact grown

variable [InodeLayout]

theorem GrownTo.growFd {s s' : Fs} {fde fde' : FdEntry} {required : UInt32}
    (grown : GrownTo v₀ st₀ fde.inode.blocks.toNat s.vol fde.inode) (base : Ledger v₀ own₀)
    (mapped₀ : Mapped v₀.disk own₀ i st₀) (lower : st₀.blocks.toNat ≤ fde.inode.blocks.toNat)
    (ledger : Ledger s.vol own) (bound : fde.inodeId.toNat < 6400)
    (mapped : Mapped s.vol.disk own fde.inodeId fde.inode)
    (room : blocksFor required.toNat ≤ 1032)
    (enough : newBlocks st₀ (blocksFor required.toNat) ≤ (freeList .block v₀).length)
    (run : growFd s fde required = some (0, fde', s')) :
    GrownTo v₀ st₀ fde'.inode.blocks.toNat s'.vol fde'.inode := by
  rcases growFd_eq run with ⟨_, rfl, rfl⟩ | ⟨less, data, st, v, d, _, grows, written, rfl, rfl⟩
  · exact grown
  · have more := UInt32.lt_iff_toNat_lt.mp less
    rw [blocksFor_pos (by omega), ← required_blocks] at room enough
    have resized : GrownTo v₀ st₀ fde.inode.blocks.toNat s.vol { fde.inode with size := required } :=
      grown.congr rfl (.refl _) fun _ => rfl
    have after := resized.growBlocks base lower ledger
      (show Mapped s.vol.disk own fde.inodeId { fde.inode with size := required } from
        ⟨mapped.few, mapped.data, mapped.single, mapped.indirect⟩) room enough grows
    obtain ⟨_, _, _, outside⟩ := inodeWrite_spec bound written
    exact after.congr rfl (.withDisk fun b low => outside b (.inl low)) fun given =>
      outside _ (.inr (after.high base mapped₀ given))

variable {s s' : Fs} {fd : Nat} {a : CursorArray UInt8} {buf : List UInt8}

/-- One write of a file that was grown from `st₀`. -/
theorem GrownTo.write (grown : GrownTo v₀ st₀ (s.fdTbl fd).inode.blocks.toNat s.vol (s.fdTbl fd).inode)
    (base : Ledger v₀ own₀) (mapped₀ : Mapped v₀.disk own₀ i st₀)
    (lower : st₀.blocks.toNat ≤ (s.fdTbl fd).inode.blocks.toNat) (opened : OpenFile s own fd a)
    (ledger : Ledger s.vol own) (room : blocksFor (a.cursor + buf.length) ≤ 1032)
    (enough : newBlocks st₀ (blocksFor (a.cursor + buf.length)) ≤ (freeList .block v₀).length)
    (run : cnwrite buf fd s = some (n, s')) :
    GrownTo v₀ st₀ (s'.fdTbl fd).inode.blocks.toNat s'.vol (s'.fdTbl fd).inode := by
  have left := grown.enough base ledger opened.mapped.indirect lower enough
  obtain ⟨fde', v', t, own', data, grows, ready, _, _, wrote⟩ :=
    opened.write_eq ledger buf room left
  cases run.symm.trans wrote
  have value : (UInt32.ofNat ((s.fdTbl fd).cursor.toNat + buf.length)).toNat =
      a.cursor + buf.length := by
    rw [opened.cursor]
    exact UInt32.toNat_ofNat_of_lt' (Nat.lt_trans (size_bound room) (by decide))
  have after := grown.growFd base mapped₀ lower ledger opened.number opened.mapped
    (by rw [value]; exact room) (by rw [value]; exact enough) grows
  rw [setFd_vol]
  refine after.congr rfl (.withDisk fun b low => Extents.scatter_out fun member => ?_) fun given =>
    Extents.scatter_out fun member => ?_
  · obtain ⟨k, found⟩ := ready.mapped.mem member
    have := (ready.confined.ledger.owned _ _ found).1
    omega
  · obtain ⟨k, found⟩ := ready.mapped.mem member
    rw [ready.mapped.single given] at found
    simp at found

/-- Descriptor `fd` stands at the end of the file `content`, which was grown from `st₀`. -/
structure WrittenFrom (v₀ : Vol) (st₀ : Inode) (i : Iptr) (s : Fs) (own : Owner) (fd : Nat)
    (content : List UInt8) : Prop where
  opened : OpenFile s own fd ⟨content, content.length⟩
  ledger : Ledger s.vol own
  number : (s.fdTbl fd).inodeId = i
  lower : st₀.blocks.toNat ≤ (s.fdTbl fd).inode.blocks.toNat
  grown : GrownTo v₀ st₀ (s.fdTbl fd).inode.blocks.toNat s.vol (s.fdTbl fd).inode

/-- The descriptor's file is the same in both states, and so are the bitmaps and the
counters. -/
structure SameContents (s₁ s₂ : Fs) (fd : Nat) : Prop where
  number : (s₁.fdTbl fd).inodeId = (s₂.fdTbl fd).inodeId
  inode : (s₁.fdTbl fd).inode =
    { (s₂.fdTbl fd).inode with modified := (s₁.fdTbl fd).inode.modified }
  onDisk : inodeRead s₁.vol.disk (s₁.fdTbl fd).inodeId = some (s₁.fdTbl fd).inode ∧
    inodeRead s₂.vol.disk (s₂.fdTbl fd).inodeId = some (s₂.fdTbl fd).inode
  content : contentOf s₁.vol.disk (s₁.fdTbl fd).inodeId = contentOf s₂.vol.disk (s₂.fdTbl fd).inodeId
  indirect : (s₁.fdTbl fd).inode.data1 ≠ 0 →
    s₁.vol.disk (s₁.fdTbl fd).inode.data1 = s₂.vol.disk (s₂.fdTbl fd).inode.data1
  caches : SameMeta s₁.vol s₂.vol

variable {s₁ s₂ : Fs} {own₁ own₂ : Owner} {content : List UInt8}

theorem WrittenFrom.write (file : WrittenFrom v₀ st₀ i s own fd content) (base : Ledger v₀ own₀)
    (mapped₀ : Mapped v₀.disk own₀ i st₀) (buf : List UInt8)
    (room : blocksFor (content ++ buf).length ≤ 1032)
    (enough : newBlocks st₀ (blocksFor (content ++ buf).length) ≤ (freeList .block v₀).length) :
    ∃ s' own', cnwrite buf fd s = some (buf.length, s') ∧
      WrittenFrom v₀ st₀ i s' own' fd (content ++ buf) := by
  obtain ⟨opened, ledger, number, lower, grown⟩ := file
  rw [List.length_append] at room enough
  have left := grown.enough base ledger opened.mapped.indirect lower enough
  obtain ⟨fde, v, t, own', run, id, confined, after, _⟩ := opened.write ledger buf room left
  have written := grown.write base mapped₀ lower opened ledger room enough run
  rw [CursorArray.write_end] at after
  refine ⟨_, own', run, after, confined.ledger, ?_, ?_, written⟩
  · rw [setFd_vol, id, number]
  · have blocks := after.blocks
    have size := after.length
    rw [← size] at blocks
    rw [blocks]
    refine lower.trans ?_
    rw [opened.blocks, ← opened.length]
    exact blocksFor_mono (by simp)

theorem WrittenFrom.writes (file : WrittenFrom v₀ st₀ i s own fd content) (base : Ledger v₀ own₀)
    (mapped₀ : Mapped v₀.disk own₀ i st₀) (chunks : List (List UInt8))
    (room : blocksFor (content ++ chunks.flatten).length ≤ 1032)
    (enough : newBlocks st₀ (blocksFor (content ++ chunks.flatten).length) ≤
      (freeList .block v₀).length) :
    ∃ s' own', PartialRun.run exec s (chunks.map fun c => (fd, FileCmd.write c)) =
        some (chunks.map fun c => (c.length : Int), s') ∧
      WrittenFrom v₀ st₀ i s' own' fd (content ++ chunks.flatten) := by
  induction chunks generalizing s own content with
  | nil => exact ⟨s, own, rfl, by rw [List.flatten_nil, List.append_nil]; exact file⟩
  | cons c chunks ih =>
    rw [List.flatten_cons, ← List.append_assoc] at room enough ⊢
    have part : blocksFor (content ++ c).length ≤ blocksFor (content ++ c ++ chunks.flatten).length :=
      blocksFor_mono (by simp)
    obtain ⟨s₁, own₁, first, file₁⟩ := file.write base mapped₀ c (part.trans room)
      ((newBlocks_mono part).trans enough)
    obtain ⟨s', own', rest, done⟩ := ih file₁ room enough
    refine ⟨s', own', ?_, done⟩
    rw [List.map_cons, PartialRun.run, exec, first]
    simp only [Option.bind_eq_bind, Option.bind_some, Option.pure_def, rest]
    rfl

theorem WrittenFrom.sameContents (one : WrittenFrom v₀ st₀ i s₁ own₁ fd content)
    (two : WrittenFrom v₀ st₀ i s₂ own₂ fd content) : SameContents s₁ s₂ fd := by
  have blocks : (s₁.fdTbl fd).inode.blocks = (s₂.fdTbl fd).inode.blocks := by
    rw [← UInt32.toNat_inj, one.opened.blocks, two.opened.blocks, ← one.opened.length,
      ← two.opened.length]
  have size : (s₁.fdTbl fd).inode.size = (s₂.fdTbl fd).inode.size := by
    rw [← UInt32.toNat_inj, ← one.opened.length, ← two.opened.length]
  have first := one.grown
  have second := two.grown
  rw [blocks] at first
  have data1 : (s₁.fdTbl fd).inode.data1 = (s₂.fdTbl fd).inode.data1 :=
    first.data1.trans second.data1.symm
  refine ⟨one.number.trans two.number.symm, ?_, ⟨one.opened.onDisk, two.opened.onDisk⟩, ?_,
    fun given => ?_, first.caches.trans second.caches.symm⟩
  · rw [first.rest, second.rest]
    simp only [size, blocks, data1, first.data0.trans second.data0.symm]
  · rw [one.opened.contentOf_eq one.ledger, two.opened.contentOf_eq two.ledger]
  · have entries := first.entries.trans second.entries.symm
    rw [oldIndirect, oldIndirect, if_neg given, if_neg (data1 ▸ given)] at entries
    exact entries

/-- Writing an empty file in pieces or at once gives the same file, the same block map, the same
bitmaps and the same counters, whatever the pieces are. -/
theorem chunking {s : Fs} {fd : Nat} {chunks : List (List UInt8)} (consistent : Consistent s.vol)
    (opened : WriteOpen s fd ⟨[], 0⟩) (room : blocksFor chunks.flatten.length ≤ 1032)
    (enough : newBlocks (s.fdTbl fd).inode (blocksFor chunks.flatten.length) ≤
      Pool.block.free s.vol) :
    ∃ s₁ s₂, PartialRun.run exec s (chunks.map fun c => (fd, FileCmd.write c)) =
        some (chunks.map fun c => (c.length : Int), s₁) ∧
      cnwrite chunks.flatten fd s = some (chunks.flatten.length, s₂) ∧
      contentOf s₁.vol.disk (s₁.fdTbl fd).inodeId = some chunks.flatten ∧ SameContents s₁ s₂ fd := by
  obtain ⟨own, consistent⟩ := consistent
  have file := opened.openFile consistent
  have ledger := consistent.ledger
  rw [← length_freeList (ledger.agrees .block)] at enough
  have start : WrittenFrom s.vol (s.fdTbl fd).inode (s.fdTbl fd).inodeId s own fd [] :=
    ⟨file, ledger, rfl, Nat.le_refl _, .start file.mapped.indirect⟩
  obtain ⟨s₁, own₁, pieces, one⟩ := start.writes ledger file.mapped chunks room enough
  obtain ⟨s₂, own₂, whole, two⟩ := start.write ledger file.mapped chunks.flatten room enough
  exact ⟨s₁, s₂, pieces, whole, one.opened.contentOf_eq one.ledger, one.sameContents two⟩

end

section Lp64
attribute [local instance] lp64

/-- Three bytes in two pieces. -/
theorem chunking_three : ∃ s₁ s₂, PartialRun.run exec fileOpened.fs
      [(0, .write [1, 2]), (0, .write [3])] = some ([2, 1], s₁) ∧
    cnwrite [1, 2, 3] 0 fileOpened.fs = some (3, s₂) ∧
    contentOf s₁.vol.disk (s₁.fdTbl 0).inodeId = some [1, 2, 3] ∧ SameContents s₁ s₂ 0 := by
  obtain ⟨own, node, inv⟩ := fileOpened_inv
  exact chunking (show Consistent fileOpened.fs.vol from ⟨own, inv.sound.holds.consistent⟩)
    fileOpened_writeOpen (show blocksFor [[1, 2], [3]].flatten.length ≤ 1032 by decide)
    threeWritten_facts.2

end Lp64
end CdnwSh
