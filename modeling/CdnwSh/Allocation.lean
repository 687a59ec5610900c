import CdnwSh.Extent

/-! The pools as free lists and the ledger of who owns which block. Successive
reservations hand out the free list of a pool from its front. An owner map gives every
data and indirect block of every inode its place; copies of one inode that descriptors
hold may differ, but a block has one place in all of them. -/
namespace CdnwSh

open ByteMemory LeastIndex

/-- The ids a pool still has, in the order in which `reserve` hands them out. -/
@[irreducible] def freeList (p : Pool) (v : Vol) : List Iptr :=
  ((List.range p.limit).filter fun n => !bit (p.cache v) n).map UInt32.ofNat

def Vol.takenAll (v : Vol) (p : Pool) (ptrs : List Iptr) : Vol :=
  ptrs.foldl (fun v ptr => v.taken p ptr) v

section FreeList
variable {p q : Pool} {v : Vol} {ptr : Iptr} {ptrs rest : List Iptr}

theorem toNat_id (bound : n < p.limit) : (UInt32.ofNat n).toNat = n :=
  UInt32.toNat_ofNat_of_lt' (Nat.lt_of_lt_of_le bound (limit_le.trans (by decide)))

theorem mem_freeList :
    ptr ∈ freeList p v ↔ ptr.toNat < p.limit ∧ bit (p.cache v) ptr.toNat = false := by
  simp only [freeList, List.mem_map, List.mem_filter, List.mem_range, Bool.not_eq_eq_eq_not,
    Bool.not_true]
  constructor
  · rintro ⟨n, ⟨bound, clear⟩, rfl⟩
    rw [toNat_id bound]
    exact ⟨bound, clear⟩
  · intro free
    exact ⟨ptr.toNat, free, UInt32.ofNat_toNat⟩

theorem freeList_congr (same : p.cache v' = p.cache v) : freeList p v' = freeList p v := by
  rw [freeList, freeList, same]

theorem freeList_sorted : (freeList p v).Pairwise fun a b => a.toNat < b.toNat := by
  rw [freeList, List.pairwise_map]
  refine List.Pairwise.imp_of_mem ?_ (List.Pairwise.filter _ List.pairwise_lt_range)
  intro a b inA inB lower
  have boundA := List.mem_range.mp (List.mem_filter.mp inA).1
  have boundB := List.mem_range.mp (List.mem_filter.mp inB).1
  rw [toNat_id boundA, toNat_id boundB]
  exact lower

theorem freeList_nodup : (freeList p v).Nodup :=
  freeList_sorted.imp fun lower same => by rw [same] at lower; omega

theorem length_freeList (agrees : p.Agrees v) : (freeList p v).length = p.free v := by
  rw [agrees, freeList, List.length_map, clearCount]
  have count (l : List Nat) (nodup : l.Nodup) :
      (l.filter fun n => !bit (p.cache v) n).length =
        (l.toFinset.filter fun n => bit (p.cache v) n = false).card := by
    rw [← List.toFinset_card_of_nodup (nodup.filter _), List.toFinset_filter]
    simp
  rw [count _ List.nodup_range, List.toFinset_range]

/-- A reservation takes the head of the free list. -/
theorem reserve_head (agrees : p.Agrees v) (free : freeList p v = ptr :: rest) :
    reserve p v = some (ptr, v.taken p ptr) := by
  have left : p.free v ≠ 0 := by rw [← length_freeList agrees, free]; simp
  obtain ⟨least, taken, bound, clear, below⟩ := reserve_some agrees left
  have inside : ptr ∈ freeList p v := by rw [free]; exact List.mem_cons_self
  have member : least ∈ freeList p v := mem_freeList.mpr ⟨bound, clear⟩
  rw [free] at member
  rcases List.mem_cons.mp member with rfl | later
  · exact taken
  · have sorted := freeList_sorted (p := p) (v := v)
    rw [free, List.pairwise_cons] at sorted
    have used := below ptr.toNat (sorted.1 least later)
    rw [(mem_freeList.mp inside).2] at used
    contradiction

theorem freeList_taken (free : freeList p v = ptr :: rest) :
    freeList p (v.taken p ptr) = rest := by
  have nodup := freeList_nodup (p := p) (v := v)
  have wide := limit_le (p := p)
  have bound : ptr.toNat < p.limit := (mem_freeList.mp (by rw [free]; exact List.mem_cons_self)).1
  have filtered : freeList p (v.taken p ptr) = (freeList p v).filter (· ≠ ptr) := by
    rw [freeList, freeList, List.filter_map, List.filter_filter, taken_cache, if_pos rfl]
    congr 1
    refine List.filter_congr fun n inRange => ?_
    have inside := List.mem_range.mp inRange
    rw [bit_setBit (by omega)]
    have same : (UInt32.ofNat n = ptr) = (n = ptr.toNat) := by
      refine propext ⟨?_, ?_⟩
      · rintro rfl; rw [toNat_id inside]
      · rintro rfl; exact UInt32.ofNat_toNat
    simp [same, Bool.and_comm]
  rw [free] at nodup
  have apart := (List.nodup_cons.mp nodup).1
  rw [filtered, free, List.filter_cons_of_neg (by simp), List.filter_eq_self]
  intro other member
  exact decide_eq_true (by rintro rfl; exact apart member)

/-- What a row of reservations does to the caches. -/
structure Took (v : Vol) (p : Pool) (ptrs : List Iptr) (v' : Vol) : Prop where
  agrees : ∀ q : Pool, q.Agrees v'
  bits : ∀ q : Pool, ∀ n, bit (q.cache v') n =
    (bit (q.cache v) n || decide (q = p ∧ n ∈ ptrs.map UInt32.toNat))
  free : freeList p v' = (freeList p v).drop ptrs.length
  others : ∀ q : Pool, q ≠ p → q.free v' = q.free v ∧ q.cache v' = q.cache v

theorem Took.refl (agrees : ∀ q : Pool, q.Agrees v) : Took v p [] v :=
  ⟨agrees, by simp, rfl, fun _ _ => ⟨rfl, rfl⟩⟩

theorem Took.free_eq (took : Took v p ptrs v') (agrees : p.Agrees v) :
    p.free v' = p.free v - ptrs.length := by
  rw [← length_freeList (took.agrees p), took.free, List.length_drop, length_freeList agrees]

/-- Reservations one after the other run down the free list. -/
theorem takenAll_took (agrees : ∀ q : Pool, q.Agrees v) (free : freeList p v = ptrs ++ rest) :
    Took v p ptrs (v.takenAll p ptrs) := by
  induction ptrs generalizing v with
  | nil => exact Took.refl agrees
  | cons ptr ptrs ih =>
    have member : ptr ∈ freeList p v := by rw [free]; exact List.mem_cons_self
    obtain ⟨bound, clear⟩ := mem_freeList.mp member
    have next := freeList_taken free
    have later := ih (taken_agrees bound clear agrees) next
    have wide := limit_le (p := p)
    constructor
    · exact later.agrees
    · intro q n
      have first : bit (q.cache (v.taken p ptr)) n =
          (bit (q.cache v) n || decide (q = p ∧ n = ptr.toNat)) := by
        rw [taken_cache]
        by_cases same : q = p
        · rw [if_pos same, bit_setBit (by omega)]; simp [same]
        · simp [same]
      rw [Vol.takenAll, List.foldl_cons, ← Vol.takenAll, later.bits, first]
      by_cases same : q = p <;> simp [same, Bool.or_assoc]
    · rw [Vol.takenAll, List.foldl_cons, ← Vol.takenAll, later.free, next, free]
      rfl
    · intro q apart
      have := later.others q apart
      rw [taken_free, if_neg apart, taken_cache, if_neg apart] at this
      exact this

theorem takenAll_append : v.takenAll p (ptrs ++ more) = (v.takenAll p ptrs).takenAll p more :=
  List.foldl_append

theorem takenAll_disk {b : UInt32} (data : 3 ≤ b.toNat) :
    (v.takenAll p ptrs).disk b = v.disk b := by
  induction ptrs generalizing v with
  | nil => rfl
  | cons ptr ptrs ih => exact (ih (v := v.taken p ptr)).trans (taken_disk data)

theorem takenAll_flushes : Flushes v (v.takenAll p ptrs) := by
  induction ptrs generalizing v with
  | nil => exact .refl v
  | cons ptr ptrs ih => exact taken_flushes.trans ih

end FreeList

/-- What a block is to its inode: data block number `k` of the file, or the indirect
block. -/
inductive Role where
  | data (k : Nat)
  | single
  deriving DecidableEq

abbrev Owner := UInt32 → Option (Iptr × Role)

def Owner.Extends (own own' : Owner) : Prop := ∀ b o, own b = some o → own' b = some o

/-- The blocks of a copy of inode `i` are the ones `own` gives it. -/
structure Mapped (d : Disk) (own : Owner) (i : Iptr) (st : Inode) : Prop where
  few : st.blocks.toNat ≤ 1032
  data : ∀ k ptr, (blockList d st)[k]? = some ptr → own ptr = some (i, .data k)
  single : st.data1 ≠ 0 → own st.data1 = some (i, .single)
  indirect : 8 < st.blocks.toNat → st.data1 ≠ 0

/-- Counters and bitmaps agree, the metadata blocks are in use and so is every block
that has an owner. -/
structure Ledger (v : Vol) (own : Owner) : Prop where
  agrees : ∀ p : Pool, p.Agrees v
  metadata : ∀ n, n < 103 → bit v.blockBmCache n = true
  owned : ∀ b o, own b = some o →
    103 ≤ b.toNat ∧ b.toNat < 25600 ∧ bit v.blockBmCache b.toNat = true

section Ledgers
variable {v : Vol} {d d' : Disk} {own own' : Owner} {i : Iptr} {st : Inode}

theorem Owner.Extends.refl (own : Owner) : own.Extends own := fun _ _ found => found

theorem Owner.Extends.trans (first : own.Extends own') (second : own'.Extends own'') :
    own.Extends own'' := fun b o found => second b o (first b o found)

/-- A block on the free list is a data block of the device that nobody owns. -/
theorem Ledger.fresh (ledger : Ledger v own) (free : ptr ∈ freeList .block v) :
    103 ≤ ptr.toNat ∧ ptr.toNat < 25600 ∧ own ptr = none := by
  obtain ⟨bound, clear⟩ := mem_freeList.mp free
  refine ⟨?_, bound, ?_⟩
  · by_contra low
    have used := ledger.metadata ptr.toNat (by omega)
    exact Bool.false_ne_true (clear.symm.trans used)
  · by_contra taken
    obtain ⟨o, found⟩ := Option.ne_none_iff_exists'.mp taken
    have used := (ledger.owned ptr o found).2.2
    exact Bool.false_ne_true (clear.symm.trans used)

theorem Mapped.mem (mapped : Mapped d own i st) (member : ptr ∈ blockList d st) :
    ∃ k, own ptr = some (i, .data k) := by
  obtain ⟨k, found⟩ := List.mem_iff_getElem?.mp member
  exact ⟨k, mapped.data k ptr found⟩

theorem Mapped.inside (mapped : Mapped d own i st) (ledger : Ledger v own) : Inside d st where
  few := mapped.few
  blocks := fun ptr member => by
    obtain ⟨k, found⟩ := mapped.mem member
    exact (ledger.owned _ _ found).2.1
  single := fun many => (ledger.owned _ _ (mapped.single (mapped.indirect many))).2.1

theorem Mapped.nodup (mapped : Mapped d own i st) : (blockList d st).Nodup := by
  rw [List.nodup_iff_getElem?_ne_getElem?]
  intro a b lower bound same
  have first := mapped.data a _ (List.getElem?_eq_getElem (Nat.lt_trans lower bound))
  rw [List.getElem?_eq_getElem (Nat.lt_trans lower bound), eq_comm] at same
  have second := mapped.data b _ same
  rw [first] at second
  simp only [Option.some.injEq, Prod.mk.injEq, Role.data.injEq, true_and] at second
  omega

theorem Mapped.single_apart (mapped : Mapped d own i st) (many : 8 < st.blocks.toNat) :
    st.data1 ∉ st.direct := by
  intro member
  obtain ⟨k, found⟩ := mapped.mem (List.mem_append_left _ member)
  rw [mapped.single (mapped.indirect many)] at found
  simp at found

/-- Only the content of the indirect block matters to the map. -/
theorem blockList_congr (same : 8 < st.blocks.toNat → d st.data1 = d' st.data1) :
    blockList d st = blockList d' st := by
  by_cases many : 8 < st.blocks.toNat
  · simp [blockList, singleList, same many]
  · simp [blockList, singleList_nil (d := d) (Nat.not_lt.mp many),
      singleList_nil (d := d') (Nat.not_lt.mp many)]

theorem Mapped.extend (mapped : Mapped d own i st) (extended : own.Extends own') :
    Mapped d own' i st :=
  ⟨mapped.few, fun k ptr found => extended _ _ (mapped.data k ptr found),
    fun some => extended _ _ (mapped.single some), mapped.indirect⟩

theorem Mapped.frame (mapped : Mapped d own i st)
    (same : 8 < st.blocks.toNat → d st.data1 = d' st.data1) : Mapped d' own i st :=
  ⟨mapped.few, fun k ptr found => mapped.data k ptr (by rw [blockList_congr same]; exact found),
    mapped.single, mapped.indirect⟩

/-- Two inodes have no block in common. -/
theorem Mapped.disjoint (one : Mapped d own i st) (other : Mapped d' own j st')
    (apart : i ≠ j) (member : ptr ∈ blockList d st) : ptr ∉ blockList d' st' := by
  intro shared
  obtain ⟨k, first⟩ := one.mem member
  obtain ⟨k', second⟩ := other.mem shared
  rw [first] at second
  simp only [Option.some.injEq, Prod.mk.injEq] at second
  exact apart second.1

end Ledgers
end CdnwSh
