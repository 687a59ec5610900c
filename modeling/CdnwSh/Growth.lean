import CdnwSh.Allocation

/-! Growing a file: what `realloc_fs_blocks` allocates is a prefix of the free list,
first direct blocks, then the indirect block if it is missing, then the blocks behind
it; and the grown inode is again mapped, beside every other copy. -/
namespace CdnwSh

open ByteMemory

/-- The next free direct slots filled in. -/
def placeDirect (st : Inode) (ptrs : List Iptr) : Inode :=
  ptrs.foldl (fun st ptr => { st with data0 := st.data0.setIfInBounds st.blocks.toNat ptr,
                                      blocks := st.blocks + 1 }) st

theorem allocDirect_eq (st : Inode) (agrees : ∀ q : Pool, q.Agrees v) (free : freeList .block v = ptrs ++ rest) :
    allocDirect ptrs.length st v = some (placeDirect st ptrs, v.takenAll .block ptrs) := by
  induction ptrs generalizing v st with
  | nil => rfl
  | cons ptr ptrs ih =>
    obtain ⟨bound, clear⟩ := mem_freeList.mp
      (show ptr ∈ freeList .block v by rw [free]; exact List.mem_cons_self)
    rw [List.length_cons, allocDirect, reserveBlock, reserve_head (agrees .block) free]
    exact ih _ (taken_agrees bound clear agrees) (freeList_taken free)

theorem blocks_succ (st : Inode) (room : st.blocks.toNat < 2 ^ 32 - 1) :
    (st.blocks + 1).toNat = st.blocks.toNat + 1 := by
  have one : (1 : UInt32).toNat = 1 := rfl
  rw [UInt32.toNat_add, one]; omega

theorem placeDirect_spec (room : st.blocks.toNat + ptrs.length ≤ 8) :
    (placeDirect st ptrs).blocks.toNat = st.blocks.toNat + ptrs.length ∧
    (placeDirect st ptrs).direct = st.direct ++ ptrs ∧
    placeDirect st ptrs = { st with data0 := (placeDirect st ptrs).data0,
                                    blocks := (placeDirect st ptrs).blocks } := by
  induction ptrs generalizing st with
  | nil => exact ⟨rfl, (List.append_nil _).symm, rfl⟩
  | cons ptr ptrs ih =>
    simp only [List.length_cons] at room
    have here : st.blocks.toNat < 8 := by omega
    have count := blocks_succ st (by omega)
    obtain ⟨blocks, direct, same⟩ := @ih { st with
      data0 := st.data0.setIfInBounds st.blocks.toNat ptr, blocks := st.blocks + 1 } (by
        simp only [count]; omega)
    have step : placeDirect st (ptr :: ptrs) = placeDirect { st with
      data0 := st.data0.setIfInBounds st.blocks.toNat ptr, blocks := st.blocks + 1 } ptrs := rfl
    rw [step]
    refine ⟨?_, ?_, ?_⟩
    · rw [blocks, List.length_cons, count]; omega
    · rw [direct]
      have grown : ({ st with data0 := st.data0.setIfInBounds st.blocks.toNat ptr,
                              blocks := st.blocks + 1 } : Inode).direct = st.direct ++ [ptr] := by
        simp only [Inode.direct, count, Vector.toList_setIfInBounds]
        rw [List.take_add_one, List.take_set_of_le (Nat.le_refl _)]
        simp [here]
      rw [grown, List.append_assoc]
      rfl
    · rw [same]

def placeIndirect (sInd : Block) (j : Nat) : List Iptr → Block
  | [] => sInd
  | ptr :: ptrs => placeIndirect (setIndirect sInd j ptr) (j + 1) ptrs

theorem indirect_setIndirect (bound : j < 1024) (small : k < 1024) :
    indirect (setIndirect sInd j ptr) k = if k = j then ptr else indirect sInd k := by
  have cell (i : Nat) (inside : i < 4096) : (setField sInd (4 * j) 4 ptr.toNat).mem i =
      writeLE sInd.mem (4 * j) 4 ptr.toNat i := setField_mem inside
  change indirect (setField sInd (4 * j) 4 ptr.toNat) k = _
  rw [indirect, readLE_congr
    fun i _ high => cell i (by omega)]
  split
  next same =>
    subst same
    rw [readLE_writeLE, Nat.mod_eq_of_lt (by have := ptr.toNat_lt; omega), UInt32.ofNat_toNat]
  next apart =>
    rw [readLE_writeLE_out (by omega)]
    rfl

theorem indirect_placeIndirect (room : j + ptrs.length ≤ 1024) (small : k < 1024) :
    indirect (placeIndirect sInd j ptrs) k =
      if j ≤ k then (ptrs[k - j]?).getD (indirect sInd k) else indirect sInd k := by
  induction ptrs generalizing sInd j with
  | nil => simp [placeIndirect]
  | cons ptr ptrs ih =>
    simp only [List.length_cons] at room
    rw [placeIndirect, ih (by omega), indirect_setIndirect (by omega) small]
    rcases Nat.lt_trichotomy k j with below | here | above
    · rw [if_neg (by omega), if_neg (by omega), if_neg (by omega)]
    · subst here; simp
    · have shift : k - j = (k - (j + 1)) + 1 := by omega
      rw [if_pos (by omega), if_neg (by omega), if_pos (by omega), shift, List.getElem?_cons_succ]

theorem allocIndirect_eq (st : Inode) (sInd : Block) (agrees : ∀ q : Pool, q.Agrees v)
    (free : freeList .block v = ptrs ++ rest) (many : 8 ≤ st.blocks.toNat)
    (room : st.blocks.toNat + ptrs.length ≤ 1032) :
    allocIndirect ptrs.length st sInd v =
      some ({ st with blocks := UInt32.ofNat (st.blocks.toNat + ptrs.length) },
        placeIndirect sInd (st.blocks.toNat - 8) ptrs, v.takenAll .block ptrs) := by
  induction ptrs generalizing v st sInd with
  | nil => simp [allocIndirect, placeIndirect, Vol.takenAll]
  | cons ptr ptrs ih =>
    simp only [List.length_cons] at room
    obtain ⟨bound, clear⟩ := mem_freeList.mp
      (show ptr ∈ freeList .block v by rw [free]; exact List.mem_cons_self)
    have count := blocks_succ st (by omega)
    rw [List.length_cons, allocIndirect, reserveBlock, reserve_head (agrees .block) free]
    simp only [Option.bind_eq_bind, Option.bind_some]
    rw [if_pos (by omega), ih _ _ (taken_agrees bound clear agrees) (freeList_taken free)
      (by simp only [count]; omega) (by simp only [count]; omega)]
    simp only [count]
    rw [show st.blocks.toNat + 1 + ptrs.length = st.blocks.toNat + (ptrs.length + 1) by omega,
      show st.blocks.toNat + 1 - 8 = st.blocks.toNat - 8 + 1 by omega]
    rfl

theorem indirect_append (room : b - 8 + ptrs.length ≤ 1024) (count : n = b - 8 + ptrs.length) :
    (List.range n).map (indirect (placeIndirect sInd (b - 8) ptrs)) =
      (List.range (b - 8)).map (indirect sInd) ++ ptrs := by
  apply List.ext_getElem?
  intro k
  by_cases old : k < b - 8
  · rw [List.getElem?_append_left (by simpa using old), List.getElem?_map, List.getElem?_map,
      List.getElem?_range (by omega), List.getElem?_range old]
    simp only [Option.map_some]
    rw [indirect_placeIndirect room (by omega), if_neg (by omega)]
  · rw [List.getElem?_append_right (by simp; omega), List.getElem?_map, List.length_map,
      List.length_range]
    by_cases new : k < n
    · have place : k - (b - 8) < ptrs.length := by omega
      rw [List.getElem?_range new, Option.map_some, indirect_placeIndirect room (by omega),
        if_pos (by omega), List.getElem?_eq_getElem place]
      rfl
    · rw [List.getElem?_eq_none (by simp; omega), List.getElem?_eq_none (by omega)]
      rfl

/-- The indirect block ends the growth: an index past its 1024 entries is written
outside the allocation. -/
theorem allocIndirect_bound (many : 8 ≤ st.blocks.toNat) (small : st.blocks.toNat ≤ 1032)
    (grown : allocIndirect n st sInd v = some out) : st.blocks.toNat + n ≤ 1032 := by
  induction n generalizing st sInd v with
  | zero => exact small
  | succ n ih =>
    rw [allocIndirect] at grown
    cases reserved : reserveBlock v with
    | none => simp [reserved] at grown
    | some next =>
      simp only [reserved, Option.bind_eq_bind, Option.bind_some] at grown
      split at grown
      next inside =>
        have count := blocks_succ st (by omega)
        have := ih (by simp only [count]; omega) (by simp only [count]; omega) grown
        simp only [count] at this
        omega
      · contradiction

/-- How many direct blocks, indirect blocks and blocks behind the indirect block are
reserved for a file that grows to `need` blocks. -/
def directShare (st : Inode) (need : Nat) : Nat := min 8 need - st.blocks.toNat
def singleShare (st : Inode) (need : Nat) : Nat := if 8 < need ∧ st.data1 = 0 then 1 else 0
def indirectShare (st : Inode) (need : Nat) : Nat := need - max 8 st.blocks.toNat

def newBlocks (st : Inode) (need : Nat) : Nat :=
  directShare st need + singleShare st need + indirectShare st need

theorem newBlocks_none {st : Inode} (linked : 8 < st.blocks.toNat → st.data1 ≠ 0)
    (enough : need ≤ st.blocks.toNat) : newBlocks st need = 0 := by
  have single : singleShare st need = 0 := if_neg fun h => linked (by omega) h.2
  rw [newBlocks, single]
  unfold directShare indirectShare
  omega

/-- Up to eight blocks all of them are direct. -/
theorem newBlocks_few (few : need ≤ 8) : newBlocks st need = directShare st need := by
  have single : singleShare st need = 0 := if_neg (by omega)
  have behind : indirectShare st need = 0 := by unfold indirectShare; omega
  rw [newBlocks, single, behind]
  rfl

theorem newBlocks_mono (le : m ≤ n) : newBlocks st m ≤ newBlocks st n := by
  unfold newBlocks directShare singleShare indirectShare
  by_cases missing : st.data1 = 0
  · simp only [missing, and_true]
    split <;> split <;> omega
  · simp only [missing, and_false, if_false]
    omega

/-- Which blocks of the free list become the indirect block and the new data blocks. -/
def freshSingle (free : List Iptr) (st : Inode) (need : Nat) : List Iptr :=
  (free.drop (directShare st need)).take (singleShare st need)

def freshData (free : List Iptr) (st : Inode) (need : Nat) : List Iptr :=
  free.take (directShare st need) ++
    (free.drop (directShare st need + singleShare st need)).take (indirectShare st need)

/-- The outcome of growing `st` to `need` blocks. -/
structure Grown (v : Vol) (st : Inode) (need : Nat) (v' : Vol) (st' : Inode) : Prop where
  took : Took v .block ((freeList .block v).take (newBlocks st need)) v'
  flush : Flushes v v'
  blocks : st'.blocks.toNat = need
  same : st' = { st with data0 := st'.data0, blocks := st'.blocks, data1 := st'.data1 }
  single : st'.data1 = (freshSingle (freeList .block v) st need).headD st.data1
  list : blockList v'.disk st' = blockList v.disk st ++ freshData (freeList .block v) st need
  disk : ∀ b : UInt32, 3 ≤ b.toNat → (8 < need → b ≠ st'.data1) → v'.disk b = v.disk b
  entries : st.data1 ≠ 0 → ∀ k, k < 1024 → k + 8 < st.blocks.toNat ∨ need ≤ k + 8 →
    indirect (v'.disk st'.data1) k = indirect (v.disk st.data1) k

theorem placeDirect_share (length : ptrs.length = directShare st need) :
    (placeDirect st ptrs).blocks.toNat = st.blocks.toNat + ptrs.length ∧
    (placeDirect st ptrs).direct = st.direct ++ ptrs ∧
    placeDirect st ptrs = { st with data0 := (placeDirect st ptrs).data0,
                                    blocks := (placeDirect st ptrs).blocks } := by
  by_cases few : st.blocks.toNat ≤ 8
  · exact placeDirect_spec (by rw [length, directShare]; omega)
  · obtain rfl : ptrs = [] := List.eq_nil_of_length_eq_zero (by rw [length, directShare]; omega)
    exact ⟨rfl, (List.append_nil _).symm, rfl⟩

theorem direct_full {st : Inode} (full : 8 ≤ st.blocks.toNat) : st.direct = st.data0.toList := by
  rw [Inode.direct, List.take_of_length_le (by simp; exact full)]

/-- The direct loop as a function of the free list, also when it is not entered. -/
theorem growDirect_eq {need : UInt32} (agrees : ∀ q : Pool, q.Agrees v)
    (share : n = directShare st need.toNat) (enough : n ≤ (freeList .block v).length) :
    growDirect v st need = some (placeDirect st ((freeList .block v).take n),
      v.takenAll .block ((freeList .block v).take n)) := by
  have split := (List.take_append_drop n (freeList .block v)).symm
  have length : ((freeList .block v).take n).length = n := by rw [List.length_take]; omega
  have all := allocDirect_eq st agrees split
  rw [length, share, directShare] at all
  rw [growDirect, share, directShare]
  split
  · exact all
  next many =>
    have none : min 8 need.toNat - st.blocks.toNat = 0 := by
      have : ¬ st.blocks.toNat ≤ 8 := fun few => many (UInt32.le_iff_toNat_le.mpr few)
      omega
    rw [none]
    rfl

/-- The indirect block before the new entries. -/
def oldIndirect (d : Disk) (st : Inode) : Block :=
  if st.data1 = 0 then Block.zero else d st.data1

theorem takenAll_spec {n : Nat} (agrees : ∀ q : Pool, q.Agrees v)
    (enough : n ≤ (freeList .block v).length) :
    (∀ q : Pool, q.Agrees (v.takenAll .block ((freeList .block v).take n))) ∧
    freeList .block (v.takenAll .block ((freeList .block v).take n)) =
      (freeList .block v).drop n := by
  have took := takenAll_took agrees (List.take_append_drop n (freeList .block v)).symm
  refine ⟨took.agrees, ?_⟩
  rw [took.free, List.length_take, Nat.min_eq_left enough]

/-- The indirect half of `realloc_fs_blocks`. -/
theorem growIndirect_eq {need : UInt32} (agrees : ∀ q : Pool, q.Agrees v)
    (inside : ∀ ptr ∈ freeList .block v, ptr.toNat < 25600)
    (single : st.data1 ≠ 0 → st.data1.toNat < 25600) (many : 8 ≤ st.blocks.toNat)
    (more : st.blocks.toNat < need.toNat) (room : need.toNat ≤ 1032)
    (share : e = if st.data1 = 0 then 1 else 0) (count : n = need.toNat - st.blocks.toNat)
    (enough : e + n ≤ (freeList .block v).length)
    (taken : w = v.takenAll .block ((freeList .block v).take (e + n)))
    (owner : data1 = ((freeList .block v).take e).headD st.data1) :
    growIndirect v st need =
      some ({ st with data1 := data1, blocks := need },
        { w with disk := (Extents.set w.disk data1
            (placeIndirect (oldIndirect v.disk st) (st.blocks.toNat - 8)
              (((freeList .block v).drop e).take n))) }) := by
  have total : UInt32.ofNat (st.blocks.toNat + n) = need := by
    rw [show st.blocks.toNat + n = need.toNat by omega, UInt32.ofNat_toNat]
  rw [growIndirect, if_pos (UInt32.lt_iff_toNat_lt.mpr more)]
  by_cases missing : st.data1 = 0
  · rw [if_pos missing] at share
    subst share
    obtain ⟨ptr, rest, free⟩ := List.exists_cons_of_length_pos
      (show 0 < (freeList .block v).length by omega)
    have bound := inside ptr (by rw [free]; exact List.mem_cons_self)
    obtain ⟨_, clear⟩ := mem_freeList.mp (by rw [free]; exact List.mem_cons_self)
    have next := freeList_taken free
    have split : freeList .block (v.taken .block ptr) = rest.take n ++ rest.drop n := by
      rw [next, List.take_append_drop]
    have run := allocIndirect_eq { st with data1 := ptr } Block.zero
      (taken_agrees (by exact bound) clear agrees) split many
      (by rw [List.length_take]; simp only; omega)
    have length : (rest.take n).length = n := by
      rw [free, List.length_cons] at enough
      rw [List.length_take]; omega
    rw [length] at run
    have pick : data1 = ptr := by rw [owner, free]; rfl
    have final : w = (v.taken .block ptr).takenAll .block (rest.take n) := by
      rw [taken, free, Nat.add_comm, List.take_succ_cons]; rfl
    simp only [indirectBlock, missing, if_true, reserveBlock, reserve_head (agrees .block) free,
      Option.bind_eq_bind, Option.bind_some, Option.pure_def]
    rw [← count, run]
    simp only [Option.bind_some, blkWrite_inside bound, total, pick, final, free]
    simp [oldIndirect, missing]
  · rw [if_neg missing] at share
    subst share
    have bound := single missing
    have split := (List.take_append_drop n (freeList .block v)).symm
    have run := allocIndirect_eq st (v.disk st.data1) agrees split many (by rw [List.length_take]; omega)
    have length : ((freeList .block v).take n).length = n := by rw [List.length_take]; omega
    rw [length] at run
    have pick : data1 = st.data1 := by rw [owner]; rfl
    have final : w = v.takenAll .block ((freeList .block v).take n) := by rw [taken, Nat.zero_add]
    simp only [indirectBlock, missing, if_false, blkRead_inside bound, Option.bind_eq_bind,
      Option.bind_some, Option.pure_def]
    rw [← count, run]
    simp only [Option.bind_some, blkWrite_inside bound, total, pick, final]
    simp [oldIndirect, missing]

theorem Took.withDisk (took : Took v p ptrs v') : Took v p ptrs { v' with disk := d } :=
  ⟨fun q => by cases q; exacts [took.agrees .inode, took.agrees .block],
    fun q => by cases q; exacts [took.bits .inode, took.bits .block],
    (freeList_congr (by cases p <;> rfl)).trans took.free,
    fun q => by cases q; exacts [took.others .inode, took.others .block]⟩

/-- What growth to `need` blocks relies on. -/
structure Growable (v : Vol) (st : Inode) (need : Nat) : Prop where
  agrees : ∀ p : Pool, p.Agrees v
  inside : ∀ ptr ∈ freeList .block v, 3 ≤ ptr.toNat ∧ ptr.toNat < 25600
  single : st.data1 ≠ 0 → 3 ≤ st.data1.toNat ∧ st.data1.toNat < 25600
  linked : 8 < st.blocks.toNat → st.data1 ≠ 0
  more : st.blocks.toNat < need
  room : need ≤ 1032
  enough : newBlocks st need ≤ (freeList .block v).length

section Growing
variable {v : Vol} {st : Inode} {need : Nat}

/-- The indirect block, new or old, is a data block of the device. -/
theorem Growable.single_range (grow : Growable v st need) (many : 8 < need) :
    3 ≤ ((freshSingle (freeList .block v) st need).headD st.data1).toNat ∧
    ((freshSingle (freeList .block v) st need).headD st.data1).toNat < 25600 := by
  have enough := grow.enough
  unfold newBlocks at enough
  by_cases missing : st.data1 = 0
  · have one : singleShare st need = 1 := if_pos ⟨many, missing⟩
    rw [one] at enough
    obtain ⟨ptr, rest, found⟩ := List.exists_cons_of_length_pos
      (show 0 < ((freeList .block v).drop (directShare st need)).length by
        rw [List.length_drop]; omega)
    rw [freshSingle, one, found]
    exact grow.inside ptr (List.mem_of_mem_drop (by rw [found]; exact List.mem_cons_self))
  · have none : singleShare st need = 0 := if_neg fun h => missing h.2
    rw [freshSingle, none]
    exact grow.single missing

theorem Growable.took (grow : Growable v st need) :
    Took v .block ((freeList .block v).take (newBlocks st need))
      (v.takenAll .block ((freeList .block v).take (newBlocks st need))) :=
  takenAll_took grow.agrees (List.take_append_drop _ _).symm

/-- The volume and the inode after the direct loop. -/
def directVol (v : Vol) (st : Inode) (need : Nat) : Vol :=
  v.takenAll .block ((freeList .block v).take (directShare st need))

def directInode (v : Vol) (st : Inode) (need : Nat) : Inode :=
  placeDirect st ((freeList .block v).take (directShare st need))

theorem Growable.direct (grow : Growable v st need) :
    ((freeList .block v).take (directShare st need)).length = directShare st need ∧
    (∀ p : Pool, p.Agrees (directVol v st need)) ∧
    freeList .block (directVol v st need) = (freeList .block v).drop (directShare st need) ∧
    (directInode v st need).blocks.toNat = st.blocks.toNat + directShare st need ∧
    (directInode v st need).direct =
      st.direct ++ (freeList .block v).take (directShare st need) ∧
    directInode v st need = { st with data0 := (directInode v st need).data0,
                                      blocks := (directInode v st need).blocks } := by
  have enough := grow.enough
  have length : ((freeList .block v).take (directShare st need)).length = directShare st need := by
    rw [List.length_take]; unfold newBlocks at enough; omega
  obtain ⟨agrees, free⟩ := takenAll_spec (n := directShare st need) grow.agrees
    (by unfold newBlocks at enough; omega)
  obtain ⟨blocks, direct, same⟩ := placeDirect_share length
  exact ⟨length, agrees, free, by rw [length] at blocks; exact blocks, direct, same⟩

/-- Everything fits in the direct slots. -/
theorem direct_grown (grow : Growable v st need) (few : need ≤ 8) :
    Grown v st need (directVol v st need) (directInode v st need) := by
  have took := grow.took
  obtain ⟨length, agrees, free, blocks, direct, same⟩ := grow.direct
  have more := grow.more
  have none : singleShare st need = 0 := if_neg (by omega)
  have behind : indirectShare st need = 0 := by unfold indirectShare; omega
  have all : newBlocks st need = directShare st need := newBlocks_few few
  rw [all] at took
  have disk (b : UInt32) (data : 3 ≤ b.toNat) : (directVol v st need).disk b = v.disk b :=
    takenAll_disk data
  have filled : (directInode v st need).blocks.toNat = need := by
    rw [blocks]; unfold directShare; omega
  have owner : (directInode v st need).data1 = st.data1 := by rw [same]
  constructor
  case took =>
    rw [all]
    exact took
  case flush => exact takenAll_flushes
  case blocks => exact filled
  case same => exact same.trans (by rw [owner])
  case single =>
    rw [freshSingle, none]
    exact owner
  case list =>
    rw [blockList, blockList, singleList_nil (by omega), singleList_nil (by omega), direct,
      freshData, behind]
    simp
  case disk => exact fun b data _ => disk b data
  case entries =>
    intro given k _ _
    rw [owner, disk _ (grow.single given).1]

/-- The volume and the inode at the end when the indirect block is needed. -/
def grownSingle (v : Vol) (st : Inode) (need : Nat) : Iptr :=
  (freshSingle (freeList .block v) st need).headD st.data1

def grownEntries (v : Vol) (st : Inode) (need : Nat) : Block :=
  placeIndirect (oldIndirect v.disk st) (max 8 st.blocks.toNat - 8)
    (((freeList .block v).drop (directShare st need + singleShare st need)).take
      (indirectShare st need))

theorem indirect_grown {need : UInt32} (grow : Growable v st need.toNat) (many : 8 < need.toNat)
    (final : st' = { directInode v st need.toNat with
      data1 := grownSingle v st need.toNat, blocks := need })
    (base : w = v.takenAll .block ((freeList .block v).take (newBlocks st need.toNat)))
    (vol : v' = { w with
      disk := Extents.set w.disk (grownSingle v st need.toNat) (grownEntries v st need.toNat) }) :
    Grown v st need.toNat v' st' := by
  have took := grow.took
  obtain ⟨_, _, _, blocks, direct, same⟩ := grow.direct
  obtain ⟨low, high⟩ := grow.single_range many
  have more := grow.more
  have room := grow.room
  have enough := grow.enough
  rw [← base] at took
  have length : (((freeList .block v).drop (directShare st need.toNat + singleShare st need.toNat)).take
      (indirectShare st need.toNat)).length = indirectShare st need.toNat := by
    rw [List.length_take, List.length_drop]; unfold newBlocks at enough; omega
  have disk : v'.disk st'.data1 = grownEntries v st need.toNat := by
    rw [vol, final]; exact Extents.set_same
  have old (given : st.data1 ≠ 0) : st'.data1 = st.data1 := by
    have none : singleShare st need.toNat = 0 := if_neg fun h => given h.2
    rw [final]
    simp only [grownSingle, freshSingle, none, List.take_zero, List.headD_nil]
  have filled : (directInode v st need.toNat).direct =
      (directInode v st need.toNat).data0.toList :=
    direct_full (by rw [blocks]; unfold directShare; omega)
  constructor
  case took =>
    rw [vol]
    exact took.withDisk
  case flush =>
    rw [vol]
    refine (base ▸ takenAll_flushes : Flushes v w).trans (.withDisk fun b small => ?_)
    exact Extents.set_other (by rintro rfl; unfold grownSingle at small; omega)
  case blocks => rw [final]
  case same =>
    rw [final]
    exact congrArg (fun st' : Inode => { st' with
      data1 := grownSingle v st need.toNat, blocks := need }) same
  case single =>
    rw [final]
    rfl
  case list =>
    have entries : singleList v.disk st =
        (List.range (max 8 st.blocks.toNat - 8)).map (indirect (oldIndirect v.disk st)) := by
      by_cases many : 8 < st.blocks.toNat
      · rw [singleList, oldIndirect, if_neg (grow.linked many), Nat.max_eq_right (by omega)]
      · rw [singleList_nil (by omega), Nat.max_eq_left (by omega)]; rfl
    have head : st'.direct = st.direct ++ (freeList .block v).take (directShare st need.toNat) := by
      rw [← direct, filled, direct_full (by rw [final]; simp only; omega), final]
    have tail : singleList v'.disk st' = singleList v.disk st ++
        ((freeList .block v).drop (directShare st need.toNat + singleShare st need.toNat)).take
          (indirectShare st need.toNat) := by
      have count : st'.blocks = need := by rw [final]
      rw [singleList, disk, grownEntries, count, entries]
      exact indirect_append (by rw [length]; unfold indirectShare; omega)
        (by rw [length]; unfold indirectShare; omega)
    rw [blockList, blockList, head, tail, freshData]
    by_cases few : st.blocks.toNat ≤ 8
    · simp [singleList_nil few]
    · have none : directShare st need.toNat = 0 := by unfold directShare; omega
      simp [none]
  case disk =>
    intro b data apart
    have other : b ≠ grownSingle v st need.toNat := by
      have := apart many
      rw [final] at this
      exact this
    rw [vol]
    exact (Extents.set_other other).trans (by rw [base]; exact takenAll_disk data)
  case entries =>
    intro given k small outside
    rw [disk, grownEntries, indirect_placeIndirect (by rw [length]; unfold indirectShare; omega) small,
      oldIndirect, if_neg given]
    split
    · rw [List.getElem?_eq_none (by rw [length]; unfold indirectShare; omega)]; rfl
    · rfl

/-- The inode and the volume that `realloc_fs_blocks` ends with. -/
def grownInode (v : Vol) (st : Inode) (need : Nat) : Inode :=
  { directInode v st need with data1 := grownSingle v st need, blocks := UInt32.ofNat need }

def grownVol (v : Vol) (st : Inode) (need : Nat) : Vol :=
  let w := v.takenAll .block ((freeList .block v).take (newBlocks st need))
  if 8 < need then
    { w with disk := Extents.set w.disk (grownSingle v st need) (grownEntries v st need) }
  else w

theorem Growable.few (grow : Growable v st need) (few : need ≤ 8) :
    directInode v st need = grownInode v st need ∧ directVol v st need = grownVol v st need := by
  obtain ⟨_, _, _, blocks, _, same⟩ := grow.direct
  have more := grow.more
  have none : singleShare st need = 0 := if_neg (by omega)
  have count : (directInode v st need).blocks = UInt32.ofNat need := by
    rw [← UInt32.toNat_inj, blocks,
      UInt32.toNat_ofNat_of_lt' (Nat.lt_of_le_of_lt few (by decide))]
    unfold directShare
    omega
  have owner : grownSingle v st need = st.data1 := by
    rw [grownSingle, freshSingle, none]
    rfl
  refine ⟨?_, ?_⟩
  · rw [grownInode, owner, ← count]
    conv_lhs => rw [same]
    rw [same]
  · rw [directVol, ← newBlocks_few few]
    exact (if_neg (by omega)).symm

/-- Growth within the 1032 blocks of the block map and within the free blocks. -/
theorem reallocFsBlocks_eq {need : UInt32} (grow : Growable v st need.toNat) :
    reallocFsBlocks v st need = some (grownInode v st need.toNat, grownVol v st need.toNat) := by
  obtain ⟨length, agrees, free, blocks, direct, same⟩ := grow.direct
  have more := grow.more
  have enough := grow.enough
  have first : growDirect v st need = some (directInode v st need.toNat, directVol v st need.toNat) :=
    growDirect_eq grow.agrees rfl (by unfold newBlocks at enough; omega)
  rw [reallocFsBlocks, if_pos (UInt32.lt_iff_toNat_lt.mpr more), first]
  simp only [Option.bind_eq_bind, Option.bind_some]
  by_cases few : need.toNat ≤ 8
  · obtain ⟨inode, vol⟩ := grow.few few
    rw [← inode, ← vol]
    refine if_neg fun less => ?_
    have := UInt32.lt_iff_toNat_lt.mp less
    rw [blocks, directShare] at this
    omega
  · have filled : (directInode v st need.toNat).blocks.toNat = max 8 st.blocks.toNat := by
      rw [blocks]; unfold directShare; omega
    have owner : (directInode v st need.toNat).data1 = st.data1 := by rw [same]
    have second := growIndirect_eq (e := singleShare st need.toNat)
      (n := indirectShare st need.toNat) agrees
      (fun ptr member => (grow.inside ptr (List.mem_of_mem_drop (free ▸ member))).2)
      (by rw [owner]; exact fun given => (grow.single given).2) (by rw [filled]; omega)
      (by rw [filled]; omega) grow.room
      (by rw [owner, singleShare]; simp [Nat.lt_of_not_le few])
      (by rw [filled, indirectShare])
      (by rw [free, List.length_drop]; unfold newBlocks at enough; omega) rfl rfl
    have total : (directVol v st need.toNat).takenAll
        .block (((freeList .block v).drop (directShare st need.toNat)).take
          (singleShare st need.toNat + indirectShare st need.toNat)) =
        v.takenAll .block ((freeList .block v).take (newBlocks st need.toNat)) := by
      rw [directVol, ← takenAll_append, newBlocks, Nat.add_assoc, ← List.take_add]
    have old : oldIndirect (directVol v st need.toNat).disk (directInode v st need.toNat) =
        oldIndirect v.disk st := by
      rw [oldIndirect, oldIndirect, owner]
      split
      · rfl
      next given => exact takenAll_disk (grow.single given).1
    rw [free, total, List.drop_drop, old, owner, filled] at second
    rw [grownInode, grownVol, if_pos (by omega), UInt32.ofNat_toNat]
    exact second

theorem reallocFsBlocks_grown {need : UInt32} (grow : Growable v st need.toNat) :
    ∃ st' v', reallocFsBlocks v st need = some (st', v') ∧ Grown v st need.toNat v' st' := by
  refine ⟨_, _, reallocFsBlocks_eq grow, ?_⟩
  by_cases few : need.toNat ≤ 8
  · obtain ⟨inode, vol⟩ := grow.few few
    rw [← inode, ← vol]
    exact direct_grown grow few
  · exact indirect_grown grow (by omega) (by rw [grownInode, UInt32.ofNat_toNat]) rfl
      (if_pos (by omega))

/-- Growth past the 1032 blocks of the block map has no outcome. -/
theorem reallocFsBlocks_bound {need : UInt32} (agrees : ∀ p : Pool, p.Agrees v)
    (small : st.blocks.toNat ≤ 1032) (more : st.blocks.toNat < need.toNat)
    (enough : newBlocks st need.toNat ≤ (freeList .block v).length)
    (grown : reallocFsBlocks v st need = some out) : need.toNat ≤ 1032 := by
  have length : ((freeList .block v).take (directShare st need.toNat)).length =
      directShare st need.toNat := by
    rw [List.length_take]; unfold newBlocks at enough; omega
  obtain ⟨blocks, _, _⟩ := placeDirect_share length
  rw [reallocFsBlocks, if_pos (UInt32.lt_iff_toNat_lt.mpr more),
    growDirect_eq agrees rfl (by unfold newBlocks at enough; omega)] at grown
  simp only [Option.bind_eq_bind, Option.bind_some] at grown
  generalize placeDirect st ((freeList .block v).take (directShare st need.toNat)) = st₁ at *
  rw [length, directShare] at blocks
  by_contra large
  rw [growIndirect, if_pos (UInt32.lt_iff_toNat_lt.mpr (by omega))] at grown
  obtain ⟨⟨st₂, sInd, v₂⟩, fetched, grown⟩ := Option.bind_eq_some_iff.mp grown
  obtain ⟨⟨st₃, sInd', v₃⟩, filled, grown⟩ := Option.bind_eq_some_iff.mp grown
  have same : st₂.blocks = st₁.blocks := by
    unfold indirectBlock at fetched
    split at fetched
    · obtain ⟨⟨ptr, v⟩, _, fetched⟩ := Option.bind_eq_some_iff.mp fetched
      cases fetched; rfl
    · obtain ⟨⟨ptr, v⟩, _, fetched⟩ := Option.bind_eq_some_iff.mp fetched
      cases fetched; rfl
  have := allocIndirect_bound (by rw [same]; omega) (by rw [same]; omega) filled
  rw [same] at this
  omega

theorem fresh_split (free : List Iptr) (st : Inode) (need : Nat) :
    free.take (newBlocks st need) = free.take (directShare st need) ++
      (freshSingle free st need ++
        (free.drop (directShare st need + singleShare st need)).take (indirectShare st need)) := by
  rw [newBlocks, Nat.add_assoc, List.take_add, List.take_add, List.drop_drop]
  rfl

theorem mem_fresh {free : List Iptr} : ptr ∈ free.take (newBlocks st need) ↔
    ptr ∈ freshSingle free st need ∨ ptr ∈ freshData free st need := by
  rw [fresh_split, freshData]
  simp only [List.mem_append]
  tauto

theorem fresh_nodup {free : List Iptr} (nodup : free.Nodup) : (freshData free st need).Nodup ∧
    ∀ ptr ∈ freshSingle free st need, ptr ∉ freshData free st need := by
  have all : (free.take (newBlocks st need)).Nodup := nodup.sublist (List.take_sublist _ _)
  rw [fresh_split, List.nodup_append, List.nodup_append] at all
  obtain ⟨direct, ⟨_, behind, apart⟩, first⟩ := all
  refine ⟨List.nodup_append.mpr ⟨direct, behind, fun a inA b inB => first a inA b
    (List.mem_append_right _ inB)⟩, ?_⟩
  intro ptr single data
  rcases List.mem_append.mp data with data | data
  · exact first ptr data ptr (List.mem_append_left _ single) rfl
  · exact apart ptr single ptr data rfl

/-- The new blocks entered behind the old ones of inode `i`. -/
def Owner.grown (own : Owner) (i : Iptr) (free : List Iptr) (st : Inode) (need : Nat) : Owner :=
  fun b =>
    if b ∈ freshSingle free st need then some (i, .single)
    else if b ∈ freshData free st need then
      some (i, .data (st.blocks.toNat + (freshData free st need).idxOf b))
    else own b

theorem grown_owned {own : Owner} {free : List Iptr} (member : ptr ∈ free.take (newBlocks st need)) :
    ∃ o, own.grown i free st need ptr = some o := by
  rw [Owner.grown]
  split
  · exact ⟨_, rfl⟩
  · split
    · exact ⟨_, rfl⟩
    · rcases mem_fresh.mp member with single | data <;> contradiction

theorem Ledger.growable (ledger : Ledger v own) (mapped : Mapped v.disk own i st)
    (more : st.blocks.toNat < need) (room : need ≤ 1032)
    (enough : newBlocks st need ≤ Pool.block.free v) : Growable v st need where
  agrees := ledger.agrees
  inside := fun ptr member => by
    obtain ⟨low, high, _⟩ := ledger.fresh member
    exact ⟨by omega, high⟩
  single := fun given => by
    obtain ⟨low, high, _⟩ := ledger.owned _ _ (mapped.single given)
    exact ⟨by omega, high⟩
  linked := mapped.indirect
  more := more
  room := room
  enough := by rw [length_freeList (ledger.agrees .block)]; exact enough

/-- What growth does to the ledger: the file's new copy is mapped, every other copy of
any inode stays mapped, and no data block is written. -/
structure Kept (v : Vol) (own : Owner) (i : Iptr) (v' : Vol) (own' : Owner) : Prop where
  ledger : Ledger v' own'
  extends' : own.Extends own'
  new : ∀ b o, own' b = some o → own b = some o ∨ o.1 = i ∧ b ∈ freeList .block v
  copies : ∀ j copy, Mapped v.disk own j copy → Mapped v'.disk own' j copy
  disk : ∀ b o, own b = some o → o ≠ (i, .single) → v'.disk b = v.disk b
  table : ∀ b : UInt32, 3 ≤ b.toNat → b.toNat < 103 → v'.disk b = v.disk b

theorem fresh_unowned (ledger : Ledger v own) (member : b ∈ (freeList .block v).take k) :
    own b = none := (ledger.fresh (List.mem_of_mem_take member)).2.2

/-- Blocks keep their owners. -/
theorem Ledger.grown_extends (ledger : Ledger v own) :
    own.Extends (own.grown i (freeList .block v) st need) := by
  intro b o found
  have unowned (member : b ∈ (freeList .block v).take (newBlocks st need)) : False := by
    rw [fresh_unowned ledger member] at found
    contradiction
  rw [Owner.grown, if_neg fun h => unowned (mem_fresh.mpr (.inl h)),
    if_neg fun h => unowned (mem_fresh.mpr (.inr h)), found]

theorem Owner.grown_of {own : Owner} {free : List Iptr} (found : own.grown i free st need b = some o) :
    own b = some o ∨ o.1 = i ∧ b ∈ free.take (newBlocks st need) := by
  rw [Owner.grown] at found
  split at found
  next single => cases found; exact .inr ⟨rfl, mem_fresh.mpr (.inl single)⟩
  next =>
    split at found
    next data => cases found; exact .inr ⟨rfl, mem_fresh.mpr (.inr data)⟩
    next => exact .inl found

/-- The grown copy is mapped. -/
theorem Grown.mapped (grow : Growable v st need) (grown : Grown v st need v' st')
    (ledger : Ledger v own) (mapped : Mapped v.disk own i st) :
    Mapped v'.disk (own.grown i (freeList .block v) st need) i st' := by
  obtain ⟨nodup, separate⟩ := fresh_nodup (freeList_nodup (p := .block) (v := v))
  constructor
  · rw [grown.blocks]; exact grow.room
  · intro k ptr found
    rw [grown.list] at found
    by_cases old : k < (blockList v.disk st).length
    · rw [List.getElem?_append_left old] at found
      exact ledger.grown_extends _ _ (mapped.data k ptr found)
    · rw [List.getElem?_append_right (by omega), length_blockList] at found
      rw [length_blockList] at old
      have member : ptr ∈ freshData (freeList .block v) st need := List.mem_of_getElem? found
      obtain ⟨bound, value⟩ := List.getElem?_eq_some_iff.mp found
      have place : (freshData (freeList .block v) st need).idxOf ptr = k - st.blocks.toNat := by
        rw [← value]
        exact nodup.idxOf_getElem _ bound
      rw [Owner.grown, if_neg fun h => separate ptr h member, if_pos member, place,
        show st.blocks.toNat + (k - st.blocks.toNat) = k by omega]
  · intro given
    rw [grown.single] at given ⊢
    cases single : freshSingle (freeList .block v) st need with
    | nil =>
      rw [single] at given
      exact ledger.grown_extends _ _ (mapped.single given)
    | cons ptr rest =>
      rw [List.headD_cons, Owner.grown, if_pos (by rw [single]; exact List.mem_cons_self)]
  · intro many
    rw [grown.blocks] at many
    have low := (grow.single_range many).1
    rw [← grown.single] at low
    rintro none
    rw [none] at low
    exact absurd low (by decide)

theorem Grown.grownLedger (grown : Grown v st need v' st') (ledger : Ledger v own) :
    Ledger v' (own.grown i (freeList .block v) st need) := by
  have bits (n : Nat) : bit v'.blockBmCache n = (bit v.blockBmCache n ||
      decide (n ∈ ((freeList .block v).take (newBlocks st need)).map UInt32.toNat)) := by
    have := grown.took.bits .block n
    simp only [true_and] at this
    exact this
  refine ⟨grown.took.agrees, fun n low => ?_, fun b o found => ?_⟩
  · rw [bits, ledger.metadata n low, Bool.true_or]
  · rcases Owner.grown_of found with old | ⟨_, member⟩
    · obtain ⟨low, high, used⟩ := ledger.owned b o old
      exact ⟨low, high, by rw [bits, used, Bool.true_or]⟩
    · obtain ⟨low, high, _⟩ := ledger.fresh (List.mem_of_mem_take member)
      refine ⟨low, high, ?_⟩
      rw [bits, decide_eq_true (List.mem_map_of_mem member), Bool.or_true]

/-- A copy of an inode with the indirect block that was grown is another copy of the same
inode, which had that block before. -/
theorem Grown.shared {copy : Inode} (grow : Growable v st need) (grown : Grown v st need v' st')
    (ledger : Ledger v own) (mapped : Mapped v.disk own i st) (held : Mapped v.disk own j copy)
    (many : 8 < need) (manyCopy : 8 < copy.blocks.toNat) (shared : copy.data1 = st'.data1) :
    i = j ∧ st.data1 ≠ 0 ∧ st'.data1 = st.data1 := by
  have mine := grown.mapped grow ledger mapped
  have single := mine.single (mine.indirect (by rw [grown.blocks]; exact many))
  have before := held.single (held.indirect manyCopy)
  have after : own.grown i (freeList .block v) st need copy.data1 = some (j, .single) :=
    ledger.grown_extends _ _ before
  rw [shared, single] at after
  obtain rfl : i = j := by
    simp only [Option.some.injEq, Prod.mk.injEq, and_true] at after
    exact after
  have given : st.data1 ≠ 0 := by
    intro missing
    have one : singleShare st need = 1 := if_pos ⟨many, missing⟩
    have member : st'.data1 ∈ freshSingle (freeList .block v) st need := by
      have enough := grow.enough
      unfold newBlocks at enough
      obtain ⟨ptr, rest, front⟩ := List.exists_cons_of_length_pos
        (show 0 < ((freeList .block v).drop (directShare st need)).length by
          rw [List.length_drop]; omega)
      rw [grown.single, freshSingle, one, front]
      exact List.mem_cons_self
    rw [shared, fresh_unowned ledger (mem_fresh.mpr (.inl member))] at before
    contradiction
  refine ⟨rfl, given, ?_⟩
  have none : singleShare st need = 0 := if_neg fun h => given h.2
  rw [grown.single, freshSingle, none]
  rfl

/-- Every other copy of an inode stays mapped. -/
theorem Grown.copies {copy : Inode} (grow : Growable v st need) (grown : Grown v st need v' st')
    (ledger : Ledger v own) (mapped : Mapped v.disk own i st) (held : Mapped v.disk own j copy) :
    Mapped v'.disk (own.grown i (freeList .block v) st need) j copy := by
  have extended : own.Extends (own.grown i (freeList .block v) st need) := ledger.grown_extends
  have mine := grown.mapped grow ledger mapped
  refine ⟨held.few, fun k ptr found => ?_, fun given => extended _ _ (held.single given),
    held.indirect⟩
  by_cases touched : 8 < need ∧ 8 < copy.blocks.toNat ∧ copy.data1 = st'.data1
  · -- another copy of the same inode, which shares the indirect block
    obtain ⟨many, manyCopy, shared⟩ := touched
    obtain ⟨rfl, given, kept⟩ := grown.shared grow ledger mapped held many manyCopy shared
    by_cases low : k < 8
    · rw [blockList_low low] at found
      exact extended _ _ (held.data k ptr (by rw [blockList_low low, found]))
    · have bound : k < copy.blocks.toNat := by
        rw [← length_blockList (d := v'.disk)]
        exact (List.getElem?_eq_some_iff.mp found).1
      have few := held.few
      rw [blockList_high (by omega) bound, shared] at found
      by_cases entered : st.blocks.toNat ≤ k ∧ k < need
      · apply mine.data k ptr
        rw [blockList_high (by omega) (by rw [grown.blocks]; exact entered.2), found]
      · apply extended _ _ (held.data k ptr _)
        rw [grown.entries given (k - 8) (by omega) (by omega)] at found
        rw [blockList_high (by omega) bound, shared, kept, found]
  · refine extended _ _ (held.data k ptr ?_)
    rw [← found]
    refine congrArg (·[k]?) (blockList_congr fun manyCopy => ?_)
    have low := (ledger.owned _ _ (held.single (held.indirect manyCopy))).1
    exact (grown.disk _ (by omega) fun many same => touched ⟨many, manyCopy, same⟩).symm

theorem Grown.ledger (grow : Growable v st need) (grown : Grown v st need v' st')
    (ledger : Ledger v own) (mapped : Mapped v.disk own i st) :
    Kept v own i v' (own.grown i (freeList .block v) st need) ∧
      Mapped v'.disk (own.grown i (freeList .block v) st need) i st' := by
  have extended : own.Extends (own.grown i (freeList .block v) st need) := ledger.grown_extends
  have mine := grown.mapped grow ledger mapped
  have ledger' : Ledger v' (own.grown i (freeList .block v) st need) := grown.grownLedger ledger
  have single (many : 8 < need) :
      own.grown i (freeList .block v) st need st'.data1 = some (i, .single) :=
    mine.single (mine.indirect (by rw [grown.blocks]; exact many))
  refine ⟨⟨ledger', extended, fun b o found => ?_,
    fun j copy held => grown.copies grow ledger mapped held, fun b o found apart => ?_,
    fun b low high => ?_⟩, mine⟩
  · rcases Owner.grown_of found with old | ⟨owner, member⟩
    · exact .inl old
    · exact .inr ⟨owner, List.mem_of_mem_take member⟩
  · have low := (ledger.owned b o found).1
    refine grown.disk b (by omega) fun many same => apart ?_
    have := extended b o found
    rw [same, single many, Option.some.injEq] at this
    exact this.symm
  · refine grown.disk b low fun many same => ?_
    have := (ledger'.owned _ _ (single many)).1
    rw [← same] at this
    omega

end Growing
end CdnwSh
