import CdnwSh.DescriptorBounds

/-! Calls for which no blocks can be had. Nothing compares the size a call needs with the blocks
that a file may have or that are free. Only where `calloc` refuses the larger cache, before any
block is looked for, does a call fail. -/
namespace CdnwSh

open ByteMemory

/-- The call needs a larger file, and more blocks than a file may have or than are free, the
indirect block included. -/
def TooLarge (s : Fs) (fd : Nat) (call : FdCall) : Prop :=
  (s.fdTbl fd).inode.size.toNat < requiredSize (s.fdTbl fd) call ∧
    (1032 < requiredSize (s.fdTbl fd) call / 4096 + 1 ∨
      Pool.block.free s.vol <
        newBlocks (s.fdTbl fd).inode (requiredSize (s.fdTbl fd) call / 4096 + 1))

def failure : FdCall → Int
  | .read _ | .write _ => 0
  | .seek _ => -1

section
variable [InodeLayout]

/-- The call reports failure and leaves the descriptor, the caches and the disk. -/
def LeftAlone (s : Fs) (fd : Nat) (call : FdCall) : Prop :=
  ∃ s', fdStep fd s call = some (failure call, s') ∧
    (s'.fdTbl fd).inode = (s.fdTbl fd).inode ∧ (s'.fdTbl fd).cursor = (s.fdTbl fd).cursor ∧
    (s'.fdTbl fd).data = (s.fdTbl fd).data ∧ s'.vol = s.vol

section
variable {s s' : Fs} {fd : Nat} {st : Inode} {v : Vol} {fde fde' : FdEntry}

omit [InodeLayout] in
theorem seek_required : UInt32.ofNat (requiredSize fde (.seek offset)) = fde.cursor + offset := by
  simp [requiredSize]

theorem LeftAlone.refused (slot : fd < 1024) (mode : (s.fdTbl fd).state = FD_WRITE)
    (more : (s.fdTbl fd).inode.size.toNat < requiredSize (s.fdTbl fd) call)
    (refused : Refused s (s.fdTbl fd) (UInt32.ofNat (requiredSize (s.fdTbl fd) call))) :
    LeftAlone s fd call := by
  refine ⟨s, ?_, rfl, rfl, rfl, rfl⟩
  cases call with
  | read bytes => exact absurd more (Nat.not_lt_zero _)
  | write buf =>
    rw [fdStep, cnwrite_refused slot mode refused]
    rfl
  | seek offset =>
    rw [seek_required] at refused
    exact cnseek_refused slot refused

theorem LeftAlone.seek (slot : fd < 1024) (left : LeftAlone s fd (.seek offset)) :
    Refused s (s.fdTbl fd) (UInt32.ofNat (requiredSize (s.fdTbl fd) (.seek offset))) := by
  obtain ⟨s', run, _⟩ := left
  rcases cnseek_grows run slot with ⟨refused, _⟩ | ⟨done, _⟩
  · rw [seek_required]
    exact refused
  · exact absurd done (show (-1 : Int) ≠ 0 by decide)

theorem LeftAlone.write (slot : fd < 1024) (mode : (s.fdTbl fd).state = FD_WRITE)
    (more : (s.fdTbl fd).inode.size.toNat < requiredSize (s.fdTbl fd) (.write buf))
    (left : LeftAlone s fd (.write buf)) :
    Refused s (s.fdTbl fd) (UInt32.ofNat (requiredSize (s.fdTbl fd) (.write buf))) := by
  obtain ⟨s', run, inode, _⟩ := left
  rw [fdStep] at run
  obtain ⟨⟨count, s₁⟩, writes, run⟩ := Option.bind_eq_some_iff.mp run
  rw [Option.pure_def, Option.some.injEq, Prod.mk.injEq] at run
  obtain ⟨none, rfl⟩ := run
  rcases cnwrite_grows writes slot mode with ⟨refused, _⟩ | ⟨all, fde, s₂, grows, kept, _⟩
  · exact refused
  exfalso
  have empty : buf.length = 0 := all.symm.trans (Int.ofNat_eq_zero.mp none)
  change (s.fdTbl fd).inode.size.toNat < (s.fdTbl fd).cursor.toNat + buf.length at more
  rw [empty, Nat.add_zero] at more grows
  rw [UInt32.ofNat_toNat] at grows
  rw [kept] at inode
  rcases growFd_resized grows with ⟨enough, _⟩ | ⟨_, resized, _⟩
  · exact enough (UInt32.lt_iff_toNat_lt.mpr more)
  · have size := resized.size
    rw [inode] at size
    rw [size] at more
    omega

omit [InodeLayout] in
theorem allocDirect_empty (empty : Pool.block.free v = 0) (n : Nat) (st : Inode) :
    allocDirect n st v = some (placeDirect st (List.replicate n 0), v) := by
  induction n generalizing st with
  | zero => rfl
  | succ n ih =>
    rw [allocDirect, reserveBlock, reserve_none empty, Option.bind_eq_bind, Option.bind_some]
    exact ih _

theorem growFd_zero {required : UInt32} (empty : Pool.block.free s.vol = 0)
    (less : fde.inode.size < required) (fewer : fde.inode.blocks.toNat < required.toNat / 4096 + 1)
    (few : required.toNat / 4096 + 1 ≤ 8) (run : growFd s fde required = some (0, fde', s')) :
    0 ∈ fde'.inode.direct := by
  have count : (required / 4096 + 1).toNat = required.toNat / 4096 + 1 := required_blocks
  rcases growFd_eq run with ⟨large, _⟩ | ⟨_, data, st, v, d, _, grown, _, rfl, _⟩
  · exact absurd less large
  have allocates : fde.inode.blocks < required / 4096 + 1 := by
    rw [UInt32.lt_iff_toNat_lt, count]
    exact fewer
  have direct : fde.inode.blocks ≤ 8 := by
    rw [UInt32.le_iff_toNat_le]
    exact Nat.le_of_lt (Nat.lt_of_lt_of_le fewer few)
  unfold growBlocks at grown
  rw [if_pos allocates, reallocFsBlocks, if_pos allocates, growDirect, if_pos direct,
    allocDirect_empty empty, Option.bind_eq_bind, Option.bind_some] at grown
  generalize share : min 8 (required / 4096 + 1).toNat -
    ({ fde.inode with size := required } : Inode).blocks.toNat = n at grown
  have positive : fde.inode.blocks.toNat + n = required.toNat / 4096 + 1 := by
    rw [count] at share
    change min 8 _ - fde.inode.blocks.toNat = n at share
    omega
  have room : ({ fde.inode with size := required } : Inode).blocks.toNat +
      (List.replicate n (0 : Iptr)).length ≤ 8 := by
    rw [List.length_replicate]
    change fde.inode.blocks.toNat + n ≤ 8
    omega
  obtain ⟨filled, pointers, _⟩ := placeDirect_spec room
  rw [List.length_replicate] at filled
  have done : ¬ (placeDirect { fde.inode with size := required } (List.replicate n 0)).blocks <
      required / 4096 + 1 := fun more => by
    have := UInt32.lt_iff_toNat_lt.mp more
    rw [filled, count] at this
    change fde.inode.blocks.toNat + n < _ at this
    omega
  unfold growIndirect at grown
  dsimp only at grown
  rw [if_neg done] at grown
  cases grown
  change 0 ∈ (placeDirect { fde.inode with size := required } (List.replicate n 0)).direct
  rw [pointers]
  refine List.mem_append_right _ (List.mem_replicate.mpr ⟨?_, rfl⟩)
  omega

end

omit [InodeLayout] in
/-- The size that a call of up to eight blocks needs is below 2^32. -/
theorem required_few {n : Nat} (few : n / 4096 + 1 ≤ 8) : (UInt32.ofNat n).toNat = n :=
  UInt32.toNat_ofNat_of_lt' (show n < 2 ^ 32 by omega)

/-- Whatever the state: a write or a seek through a write descriptor that needs more blocks than
there can be fails and leaves everything alone if and only if `calloc` refuses its cache. With
no block left at all, and the cache granted, a file of less than eight blocks is given the
block 0. -/
theorem no_room {s : Fs} {fd : Nat} {call : FdCall} (slot : fd < 1024)
    (mode : (s.fdTbl fd).state = FD_WRITE) (large : TooLarge s fd call) :
    (LeftAlone s fd call ↔
      Refused s (s.fdTbl fd) (UInt32.ofNat (requiredSize (s.fdTbl fd) call))) ∧
    (Pool.block.free s.vol = 0 → requiredSize (s.fdTbl fd) call / 4096 + 1 ≤ 8 →
      (s.fdTbl fd).inode.blocks.toNat < requiredSize (s.fdTbl fd) call / 4096 + 1 →
      ∀ r s', fdStep fd s call = some (r, s') → 0 ∈ (s'.fdTbl fd).inode.direct) := by
  obtain ⟨more, _⟩ := large
  refine ⟨⟨fun left => ?_, LeftAlone.refused slot mode more⟩, fun empty few fewer r s' run => ?_⟩
  · cases call with
    | read bytes => exact absurd more (Nat.not_lt_zero _)
    | write buf => exact left.write slot mode more
    | seek offset => exact left.seek slot
  -- a cache of up to eight blocks is granted
  have required := required_few few
  have granted : ¬ Refused s (s.fdTbl fd) (UInt32.ofNat (requiredSize (s.fdTbl fd) call)) :=
    fun refused => by
    have more := refused.large
    rw [required_blocks, required] at more
    omega
  have less : (s.fdTbl fd).inode.size < UInt32.ofNat (requiredSize (s.fdTbl fd) call) :=
    UInt32.lt_iff_toNat_lt.mpr (by rw [required]; exact more)
  rw [← required] at few fewer
  cases call with
  | read bytes => exact absurd more (Nat.not_lt_zero _)
  | write buf =>
    rw [fdStep] at run
    obtain ⟨⟨count, s₁⟩, writes, run⟩ := Option.bind_eq_some_iff.mp run
    cases run
    rcases cnwrite_grows writes slot mode with ⟨refused, _⟩ | ⟨_, fde, s₂, grows, kept, _⟩
    · exact absurd refused granted
    rw [kept]
    exact growFd_zero empty less fewer few grows
  | seek offset =>
    rw [seek_required] at granted less few fewer
    rcases cnseek_grows run slot with ⟨refused, _⟩ | ⟨_, fde, s₁, grows, entry, _⟩
    · exact absurd refused granted
    rw [entry]
    change 0 ∈ fde.inode.direct
    exact growFd_zero empty less fewer few grows

end

section Lp64
attribute [local instance] lp64

theorem fileOpened_numbers : (fileOpened.fs.fdTbl 0).inode.size.toNat = 0 ∧
    (fileOpened.fs.fdTbl 0).cursor.toNat = 0 ∧
    fileOpened.fs.host.heap.grants 5001216 = true := by decide +kernel

theorem fileOpened_required (offset : UInt32) :
    requiredSize (fileOpened.fs.fdTbl 0) (.seek offset) = offset.toNat := by
  rw [requiredSize, fileOpened_numbers.2.1, Nat.zero_add]

theorem fileOpened_tooLarge {offset : UInt32} (large : 1032 < offset.toNat / 4096 + 1) :
    TooLarge fileOpened.fs 0 (.seek offset) := by
  rw [TooLarge, fileOpened_required, fileOpened_numbers.1]
  exact ⟨by omega, .inl large⟩

/-- A host whose `calloc` grants nothing beyond 2^31 bytes. -/
def halfHeap : Heap := ⟨fun n => decide (n ≤ 2 ^ 31), fun n small => decide_eq_true (by omega)⟩

def halfOpened : Fs :=
  { fileOpened.fs with host := { fileOpened.fs.host with heap := halfHeap } }

theorem fileOpened_granted : ¬ Refused fileOpened.fs (fileOpened.fs.fdTbl 0)
    (UInt32.ofNat (requiredSize (fileOpened.fs.fdTbl 0) (.seek 5000000))) := by
  rw [fileOpened_required]
  rintro ⟨_, refused⟩
  cases fileOpened_numbers.2.2.symm.trans refused

/-- On the empty file a seek to position 5000000, whose cache is granted, is not left alone; one
to position 2^32 - 1 is where only 2^31 bytes are granted. -/
theorem no_room_large : ¬ LeftAlone fileOpened.fs 0 (.seek 5000000) ∧
    LeftAlone halfOpened 0 (.seek 4294967295) := by
  refine ⟨fun left => fileOpened_granted (((no_room (by decide) fileOpened_facts.1
    (fileOpened_tooLarge (by decide))).1).mp left), ?_⟩
  have large : TooLarge halfOpened 0 (.seek 4294967295) :=
    fileOpened_tooLarge (show 1032 < (4294967295 : UInt32).toNat / 4096 + 1 by decide)
  refine ((no_room (by decide) (show (halfOpened.fdTbl 0).state = FD_WRITE from fileOpened_facts.1)
    large).1).mpr ⟨?_, rfl⟩
  have required : requiredSize (halfOpened.fdTbl 0) (.seek 4294967295) = _ :=
    fileOpened_required 4294967295
  rw [required, UInt32.lt_iff_toNat_lt]
  change (fileOpened.fs.fdTbl 0).inode.size.toNat < _
  rw [fileOpened_numbers.1]
  decide

/-- A seek beyond 1032 blocks whose cache is granted does not fail. -/
theorem no_room_failure : (fileOpened.fs.fdTbl 0).state = FD_WRITE ∧
    TooLarge fileOpened.fs 0 (.seek 5000000) ∧ ¬ LeftAlone fileOpened.fs 0 (.seek 5000000) :=
  ⟨fileOpened_facts.1, fileOpened_tooLarge (by decide),
    fun left => fileOpened_granted (left.seek (by decide))⟩

end Lp64

end CdnwSh
