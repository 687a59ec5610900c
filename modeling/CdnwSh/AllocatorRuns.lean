import CdnwSh.Library.PartialRun
import CdnwSh.Mount

/-! Runs of the two allocators on a volume that was just made and mounted. Beside the volume
stand the ids that were handed out and not released since. The bitmaps have 32768 bits and
the search stops at any of them: that it stays on the device rests on the counter, which is
the number of the ids that are left. -/
namespace CdnwSh

open LeastIndex PartialRun

/-- The first id that `cnmkfs` leaves: behind the inode table and the root directory's block,
and behind the root directory. -/
def Pool.first : Pool → Nat
  | inode => 1
  | block => 104

def Pool.ids (p : Pool) : Finset Nat := Finset.Ico p.first p.limit

/-- A volume and the ids its callers hold. -/
structure Allocs where
  vol : Vol
  held : Pool → Finset Nat

/-- `reserve_inode`, `reserve_block`, `release_inode` and `release_block`. -/
inductive AllocCall where
  | reserve (p : Pool)
  | release (p : Pool) (ptr : Iptr)

/-- The callers after an answer: 0 hands nothing out. -/
def Allocs.reserved (s : Allocs) (p : Pool) (ptr : Iptr) (vol : Vol) : Allocs :=
  ⟨vol, if ptr = 0 then s.held else Function.update s.held p (insert ptr.toNat (s.held p))⟩

def Allocs.released (s : Allocs) (p : Pool) (ptr : Iptr) (vol : Vol) : Allocs :=
  ⟨vol, Function.update s.held p ((s.held p).erase ptr.toNat)⟩

def Allocs.step (s : Allocs) : AllocCall → Option (Option Iptr × Allocs)
  | .reserve p => do
    let (ptr, vol) ← reserve p s.vol
    return (some ptr, s.reserved p ptr vol)
  | .release p ptr => do
    let vol ← release p ptr s.vol
    return (none, s.released p ptr vol)

def Allocs.Allowed (s : Allocs) : AllocCall → Prop
  | .reserve _ => True
  | .release p ptr => ptr.toNat ∈ s.held p

/-- The bitmaps show the reserved ids and those held, on the device as in the caches, and
the counters count the others. -/
structure Accounted (s : Allocs) : Prop where
  within : ∀ p, s.held p ⊆ p.ids
  bits : ∀ p n, bit (p.cache s.vol) n = true ↔ n < p.first ∨ n ∈ s.held p
  counts : ∀ p, p.free s.vol = (p.ids \ s.held p).card
  synced : s.vol.Synced

/-- What a reservation has to answer: 0 and nothing changed when every id is held, the least
id not held otherwise. -/
structure RightAnswer (s : Allocs) (p : Pool) (ptr : Iptr) (vol : Vol) : Prop where
  empty : ptr = 0 ↔ p.ids ⊆ s.held p
  unchanged : p.ids ⊆ s.held p → vol = s.vol
  least : ¬ p.ids ⊆ s.held p → IsLeast {n | n ∈ p.ids ∧ n ∉ s.held p} ptr.toNat

section
variable {s : Allocs} {p : Pool} {ptr : Iptr} {n : Nat}

theorem mem_ids : n ∈ p.ids ↔ p.first ≤ n ∧ n < p.limit := Finset.mem_Ico

theorem first_pos : 0 < p.first := by cases p <;> decide

theorem clearCount_held {used : Nat → Bool} {held : Finset Nat}
    (bits : ∀ n, used n = true ↔ n < p.first ∨ n ∈ held) :
    clearCount p.limit used = (p.ids \ held).card := by
  rw [clearCount]
  refine congrArg Finset.card (Finset.ext fun n => ?_)
  rw [Finset.mem_filter, Finset.mem_range, Finset.mem_sdiff, mem_ids, ← Bool.not_eq_true, bits,
    not_or, Nat.not_lt]
  constructor
  · rintro ⟨low, high, free⟩
    exact ⟨⟨high, low⟩, free⟩
  · rintro ⟨⟨high, low⟩, free⟩
    exact ⟨low, high, free⟩

/-- The counters only have to count clear bits. -/
theorem Accounted.of_agrees (within : ∀ p, s.held p ⊆ p.ids)
    (bits : ∀ p n, bit (p.cache s.vol) n = true ↔ n < p.first ∨ n ∈ s.held p)
    (agrees : ∀ p : Pool, p.Agrees s.vol) (synced : s.vol.Synced) : Accounted s :=
  ⟨within, bits, fun p => (agrees p).trans (clearCount_held (bits p)), synced⟩

theorem Accounted.agrees (acc : Accounted s) (p : Pool) : p.Agrees s.vol :=
  (acc.counts p).trans (clearCount_held (acc.bits p)).symm

theorem Accounted.beyond (acc : Accounted s) (high : p.limit ≤ n) :
    bit (p.cache s.vol) n = false := by
  have order : p.first ≤ p.limit := by cases p <;> decide
  rw [← Bool.not_eq_true, acc.bits]
  rintro (low | member)
  · omega
  · have := (mem_ids.mp (acc.within p member)).2
    omega

theorem Accounted.update {vol : Vol} {held : Finset Nat} (acc : Accounted s) (within : held ⊆ p.ids)
    (bits : ∀ n, bit (p.cache vol) n = true ↔ n < p.first ∨ n ∈ held)
    (others : ∀ q, q ≠ p → q.cache vol = q.cache s.vol) (agrees : ∀ q : Pool, q.Agrees vol)
    (synced : vol.Synced) : Accounted ⟨vol, Function.update s.held p held⟩ := by
  refine .of_agrees (fun q => ?_) (fun q n => ?_) agrees synced
  all_goals
    dsimp only
    by_cases same : q = p
  · rw [same, Function.update_self]
    exact within
  · rw [Function.update_of_ne same]
    exact acc.within q
  · rw [same, Function.update_self]
    exact bits n
  · rw [Function.update_of_ne same, others q same]
    exact acc.bits q n

theorem Accounted.taken (acc : Accounted s) (mine : ptr.toNat ∈ p.ids) (apart : ptr.toNat ∉ s.held p) :
    Accounted ⟨s.vol.taken p ptr, Function.update s.held p (insert ptr.toNat (s.held p))⟩ := by
  obtain ⟨high, low⟩ := mem_ids.mp mine
  have wide := limit_le (p := p)
  have clear : bit (p.cache s.vol) ptr.toNat = false := by
    rw [← Bool.not_eq_true, acc.bits]
    rintro (less | member)
    · omega
    · exact apart member
  apply acc.update
  case within => exact Finset.insert_subset mine (acc.within p)
  case bits =>
    intro n
    rw [taken_cache, if_pos rfl, bit_setBit (by omega), Bool.or_eq_true, decide_eq_true_eq, acc.bits,
      Finset.mem_insert, or_assoc, or_comm (a := n ∈ s.held p)]
  case others => exact fun q other => taken_cache.trans (if_neg other)
  case agrees => exact taken_agrees low clear acc.agrees
  case synced => exact flushed_synced

theorem Accounted.given (acc : Accounted s) (mine : ptr.toNat ∈ s.held p) :
    Accounted ⟨s.vol.given p ptr, Function.update s.held p ((s.held p).erase ptr.toNat)⟩ := by
  obtain ⟨high, low⟩ := mem_ids.mp (acc.within p mine)
  have used : bit (p.cache s.vol) ptr.toNat = true := (acc.bits p _).mpr (.inr mine)
  apply acc.update
  case within => exact (Finset.erase_subset _ _).trans (acc.within p)
  case bits =>
    intro n
    rw [given_cache, if_pos rfl, bit_clearBit, Bool.and_eq_true, Bool.not_eq_true',
      decide_eq_false_iff_not, acc.bits, Finset.mem_erase]
    constructor
    · rintro ⟨less | member, other⟩
      · exact .inl less
      · exact .inr ⟨other, member⟩
    · rintro (less | ⟨other, member⟩)
      · exact ⟨.inl less, by omega⟩
      · exact ⟨.inr member, other⟩
  case others => exact fun q other => given_cache.trans (if_neg other)
  case agrees => exact given_agrees low used acc.agrees
  case synced => exact flushed_synced

theorem Accounted.full_iff (acc : Accounted s) : p.free s.vol = 0 ↔ p.ids ⊆ s.held p := by
  rw [acc.counts, Finset.card_eq_zero, Finset.sdiff_eq_empty_iff_subset]

/-- One reservation: it is defined, answers what it has to and keeps the accounts. -/
theorem Accounted.reserve (acc : Accounted s) (p : Pool) :
    ∃ ptr vol, reserve p s.vol = some (ptr, vol) ∧ RightAnswer s p ptr vol ∧
      Accounted (s.reserved p ptr vol) := by
  by_cases full : p.free s.vol = 0
  · have all := acc.full_iff.mp full
    refine ⟨0, s.vol, reserve_none full,
      ⟨iff_of_true rfl all, fun _ => rfl, fun left => absurd all left⟩, ?_⟩
    rw [Allocs.reserved, if_pos rfl]
    exact acc
  · have left := fun all => full (acc.full_iff.mpr all)
    obtain ⟨ptr, answers, low, clear, least⟩ := reserve_some (acc.agrees p) full
    rw [← Bool.not_eq_true, acc.bits, not_or, Nat.not_lt] at clear
    obtain ⟨high, apart⟩ := clear
    have mine : ptr.toNat ∈ p.ids := mem_ids.mpr ⟨high, low⟩
    have some_id : ptr ≠ 0 := by
      rintro rfl
      have := first_pos (p := p)
      rw [UInt32.toNat_zero] at high
      omega
    refine ⟨ptr, s.vol.taken p ptr, answers, ⟨iff_of_false some_id left,
      fun all => absurd all left, fun _ => ⟨⟨mine, apart⟩, fun n other => ?_⟩⟩, ?_⟩
    · by_contra below
      rcases (acc.bits p n).mp (least n (by omega)) with less | member
      · have := (mem_ids.mp other.1).1
        omega
      · exact other.2 member
    · rw [Allocs.reserved, if_neg some_id]
      exact acc.taken mine apart

theorem Accounted.release (acc : Accounted s) (mine : ptr.toNat ∈ s.held p) :
    ∃ vol, release p ptr s.vol = some vol ∧ Accounted (s.released p ptr vol) := by
  have low := (mem_ids.mp (acc.within p mine)).2
  have wide := limit_le (p := p)
  exact ⟨_, release_eq (by omega), acc.given mine⟩

/-- An allowed call is defined and keeps the accounts. -/
theorem Accounted.step {c : AllocCall} (acc : Accounted s) (allowed : s.Allowed c) :
    ∃ r next, s.step c = some (r, next) ∧ Accounted next := by
  cases c with
  | reserve p =>
    obtain ⟨ptr, vol, answers, _, kept⟩ := acc.reserve p
    exact ⟨_, _, by rw [Allocs.step, answers]; rfl, kept⟩
  | release p ptr =>
    obtain ⟨vol, run, kept⟩ := acc.release allowed
    exact ⟨_, _, by rw [Allocs.step, run]; rfl, kept⟩

theorem Accounted.run {trace : List (AllocCall × Option Iptr)} {now : Allocs} (acc : Accounted s)
    (steps : Steps Allocs.step Allocs.Allowed s trace now) : Accounted now := by
  refine steps.invariant Accounted (fun s c r next acc allowed moved => ?_) acc
  obtain ⟨_, _, same, kept⟩ := acc.step allowed
  rw [moved] at same
  cases same
  exact kept

end

theorem Formatted.accounted [InodeLayout] {v : Vol} {sb : Block} (formatted : Formatted v)
    (superblk : SameSuperblk superblockInit sb) :
    Accounted ⟨⟨v.disk, sb, blockBitmapInit, inodeBitmapInit⟩, fun _ => ∅⟩ := by
  refine .of_agrees (fun p => Finset.empty_subset _) (fun p n => ?_)
    (formatted.holds superblk).ledger.agrees
    ⟨fun i low high => ?_, formatted.blockBm, formatted.inodeBm⟩
  · cases p with
    | inode => simp [Pool.cache, inodeBitmapInit_bit, Pool.first]
    | block => simp [Pool.cache, blockBitmapInit_bit, Pool.first]
  · rw [formatted.superblk]
    exact (superblk i low high).symm

section Lp64
attribute [local instance] lp64

theorem cnmkfs_defined (s : Fs) : ∃ s', cnmkfs s = some (0, s') := by
  have root : Fits 0 := by decide
  rw [cnmkfs_eq, inodeWrite_eq (by decide), if_pos root]
  exact ⟨_, rfl⟩

/-- On whatever device: the file system is made and mounted, and after every row of
reservations and of releases of what is held the accounts are right, no bit behind the last
id is set, every reservation gets the right answer and every release is defined. -/
theorem allocator_runs (s : Fs) : ∃ s₁ s₂, cnmkfs s = some (0, s₁) ∧ cnmount s₁ = some (0, s₂) ∧
    ∀ trace now, Steps Allocs.step Allocs.Allowed ⟨s₂.vol, fun _ => ∅⟩ trace now →
      Accounted now ∧ (∀ p n, Pool.limit p ≤ n → bit (p.cache now.vol) n = false) ∧
      (∀ p, ∃ ptr vol, reserve p now.vol = some (ptr, vol) ∧ RightAnswer now p ptr vol) ∧
      ∀ p ptr, ptr.toNat ∈ now.held p → ∃ vol, release p ptr now.vol = some vol := by
  obtain ⟨s₁, made⟩ := cnmkfs_defined s
  obtain ⟨_, formatted⟩ := cnmkfs_formatted made
  obtain ⟨s₂, mounted⟩ := (formatted.holds fun _ _ _ => rfl).mounts rfl
  refine ⟨s₁, s₂, made, mounted, fun trace now steps => ?_⟩
  obtain ⟨_, sb, _, same, vol, _⟩ := cnmount_eq mounted
  rw [formatted.superblk] at same
  rw [formatted.blockBm, formatted.inodeBm] at vol
  rw [vol] at steps
  have acc := (formatted.accounted same).run steps
  refine ⟨acc, fun p n high => acc.beyond high, fun p => ?_, fun p ptr mine => ?_⟩
  · obtain ⟨ptr, vol, run, answers, _⟩ := acc.reserve p
    exact ⟨ptr, vol, run, answers⟩
  · obtain ⟨vol, run, _⟩ := acc.release mine
    exact ⟨vol, run⟩

theorem RightAnswer.first {s : Allocs} {p : Pool} {ptr n : Iptr} {vol : Vol}
    (right : RightAnswer s p ptr vol) (mine : n.toNat ∈ p.ids) (free : n.toNat ∉ s.held p)
    (below : ∀ k ∈ p.ids, k < n.toNat → k ∈ s.held p) : ptr = n := by
  obtain ⟨⟨own, apart⟩, least⟩ := right.least fun all => free (all mine)
  have low : ptr.toNat ≤ n.toNat := least ⟨mine, free⟩
  refine UInt32.toNat_inj.mp (Nat.le_antisymm low (Nat.le_of_not_lt fun less => ?_))
  exact apart (below _ own less)

theorem Allocs.reserved_held {s : Allocs} {p : Pool} {n : Iptr} {vol : Vol} (given : n ≠ 0) :
    (s.reserved p n vol).held p = insert n.toNat (s.held p) := by
  rw [reserved, if_neg given]
  exact Function.update_self ..

theorem Allocs.released_held {s : Allocs} {p : Pool} {n : Iptr} {vol : Vol} :
    (s.released p n vol).held p = (s.held p).erase n.toNat := Function.update_self ..

theorem Allocs.reserve_steps {s : Allocs} {p : Pool} {n : Iptr} {vol : Vol}
    (run : reserve p s.vol = some (n, vol)) :
    Steps step Allowed s [(.reserve p, some n)] (s.reserved p n vol) :=
  .single (show s.Allowed (.reserve p) from trivial) (by rw [step, run]; rfl)

theorem Allocs.release_steps {s : Allocs} {p : Pool} {n : Iptr} {vol : Vol} (mine : n.toNat ∈ s.held p)
    (run : release p n s.vol = some vol) :
    Steps step Allowed s [(.release p n, none)] (s.released p n vol) :=
  .single (show s.Allowed (.release p n) from mine) (by rw [step, run]; rfl)

/-- Two blocks are handed out, the first is released and handed out again. -/
theorem allocator_runs_again : ∃ s₁ s₂ trace now vol, cnmkfs emptyStart = some (0, s₁) ∧
    cnmount s₁ = some (0, s₂) ∧ Steps Allocs.step Allocs.Allowed ⟨s₂.vol, fun _ => ∅⟩ trace now ∧
    trace.map Prod.fst = [.reserve .block, .reserve .block, .release .block 104] ∧
    reserve .block now.vol = some (104, vol) := by
  obtain ⟨s₁, s₂, made, mounted, runs⟩ := allocator_runs emptyStart
  have next {trace now} (steps : Steps Allocs.step Allocs.Allowed ⟨s₂.vol, fun _ => ∅⟩ trace now) (n : Iptr)
      (mine : n.toNat ∈ Pool.block.ids) (free : n.toNat ∉ now.held .block)
      (below : ∀ k ∈ Pool.block.ids, k < n.toNat → k ∈ now.held .block) :
      ∃ vol, reserve .block now.vol = some (n, vol) := by
    obtain ⟨_, _, reserves, _⟩ := runs trace now steps
    obtain ⟨ptr, vol, run, right⟩ := reserves .block
    exact ⟨vol, right.first mine free below ▸ run⟩
  have low {k : Nat} (member : k ∈ Pool.block.ids) : 104 ≤ k := (mem_ids.mp member).1
  have none : ∀ k ∈ Pool.block.ids, ¬ k < (104 : Iptr).toNat := fun k member => Nat.not_lt.mpr (low member)
  obtain ⟨v₁, first⟩ := next .nil 104 (by decide +kernel) (Finset.notMem_empty _)
    fun k member less => absurd less (none k member)
  have held : (Allocs.reserved ⟨s₂.vol, fun _ => ∅⟩ .block 104 v₁).held .block = {104} :=
    (Allocs.reserved_held (by decide)).trans rfl
  have one := Allocs.reserve_steps first
  obtain ⟨v₂, second⟩ := next one 105 (by decide +kernel) (by rw [held]; decide) fun k member less => by
    rw [held, Finset.mem_singleton]
    exact Nat.le_antisymm (Nat.le_of_lt_succ less) (low member)
  have two := one.append (Allocs.reserve_steps second)
  have mine : (104 : Iptr).toNat ∈ (Allocs.reserved (Allocs.reserved ⟨s₂.vol, fun _ => ∅⟩ .block 104 v₁)
      .block 105 v₂).held .block := by
    rw [Allocs.reserved_held (by decide), held]
    decide
  obtain ⟨_, _, _, releases⟩ := runs _ _ two
  obtain ⟨v₃, third⟩ := releases .block 104 mine
  have three := two.append (Allocs.release_steps mine third)
  obtain ⟨v₄, again⟩ := next three 104 (by decide +kernel)
    (by rw [Allocs.released_held]; exact Finset.notMem_erase _ _)
    fun k member less => absurd less (none k member)
  exact ⟨s₁, s₂, _, _, v₄, made, mounted, three, rfl, again⟩

end Lp64

end CdnwSh
