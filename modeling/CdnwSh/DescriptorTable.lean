import CdnwSh.Globals
import CdnwSh.Machine
import CdnwSh.Library.PartialRun

/-! The descriptor table `fd_tbl` and its bitmap `fd_bm` over runs of `cnopen`, `cnclose`,
`cnread`, `cnwrite` and `cnseek`: where they are accessed, that they agree, and which
descriptor `cnopen` takes. -/
namespace CdnwSh

open LeastIndex PartialRun

def NoneOpen (s : Fs) : Prop :=
  ∀ n, n < 1024 → (s.fdTbl n).state = FD_FREE ∧ bit s.fdBm n = false

/-- The bitmap shows the descriptors in use. -/
def TableAgrees (s : Fs) : Prop :=
  ∀ n, n < 1024 → (bit s.fdBm n = true ↔ (s.fdTbl n).state ≠ FD_FREE)

def InTable (fd : Int) : Prop := 0 ≤ fd ∧ fd < 1024

def IsFree (s : Fs) (n : Nat) : Prop := n < 1024 ∧ (s.fdTbl n).state = FD_FREE

section
variable [InodeLayout]

/-- The byte of `fd_bm` at which `find_free_bit` stops. -/
def searchStop (fdBm : Block) : Nat := firstFrom (fun p => fdBm.mem p &&& 0xFF ≠ 0xFF) 4096 0

/-- Whether the call gets to the search for a descriptor. -/
def Session.opens (s : Session) (h : Handle) (name : Name) (mode : UInt8) : Bool :=
  match s.dir h with
  | some dir => opensFile dir name mode s.fs
  | none => false

/-- The indices of `fd_tbl` that a call uses. -/
def fdTblAccess (s : Session) : Op → List Int
  | .openFile h name mode => if s.opens h name mode then [((findFreeBit s.fs.fdBm).toNat : Int)] else []
  | .close fd => [fd]
  | .read fd _ => [fd]
  | .write fd _ => [fd]
  | .seek fd _ => [fd]
  | _ => []

/-- The bytes of `fd_bm` that a call reads or writes; `cnclose` gets there when the
descriptor is in use. -/
def fdBmAccess (s : Session) : Op → List Nat
  | .openFile h name mode =>
    if s.opens h name mode then
      List.range (min (searchStop s.fs.fdBm + 1) 4096) ++ [(findFreeBit s.fs.fdBm).toNat / 8]
    else []
  | .close fd => if (s.fs.fdTbl fd.toNat).state = FD_FREE then [] else [fd.toNat / 8]
  | _ => []

/-- How a call answers: `cnopen` takes the least descriptor not in use, and fails without a
change when there is none; the others fail on a number outside the table. -/
def Answers (s : Session) : Op → Reply → Session → Prop
  | .openFile h name mode, r, s' => s.opens h name mode = true → (mode = FD_READ ∨ mode = FD_WRITE) →
      (∀ n, IsLeast {k | IsFree s.fs k} n → r.code = n) ∧
      ((∀ n, ¬ IsFree s.fs n) → r.code = -1 ∧ s'.fs.fdTbl = s.fs.fdTbl)
  | .close fd, r, _ => ¬ InTable fd → r.code = -1
  | .read fd _, r, _ => ¬ InTable fd → r.code = 0
  | .write fd _, r, _ => ¬ InTable fd → r.code = 0
  | .seek fd _, r, _ => ¬ InTable fd → r.code = -1
  | _, _, _ => True

structure TableSafe (s : Session) (op : Op) : Prop where
  fdTbl : ∀ i ∈ fdTblAccess s op, InTable i
  fdBm : ∀ b ∈ fdBmAccess s op, b < 128
  answers : ∀ r s', s.step op = some (r, s') → Answers s op r s'

def DescriptorOp : Op → Prop
  | .openFile .. | .close _ | .read .. | .write .. | .seek .. => True
  | _ => False

/-- A number inside the table; for `cnopen` a mode that is not the free one, and a
descriptor that is not in use when one is taken. -/
def DescriptorCall (s : Session) : Op → Prop
  | .openFile h name mode => mode ≠ FD_FREE ∧ (s.opens h name mode = true → ∃ n, IsFree s.fs n)
  | .close fd => InTable fd
  | .read fd _ => InTable fd
  | .write fd _ => InTable fd
  | .seek fd _ => InTable fd
  | _ => False

structure Taken (s : Fs) (mode : UInt8) (n : Nat) (s' : Fs) : Prop where
  inside : n < 1024
  search : n = (findFreeBit s.fdBm).toNat
  fdBm : s'.fdBm = setBit s.fdBm n
  state : (s'.fdTbl n).state = mode
  others : ∀ k, k ≠ n → s'.fdTbl k = s.fdTbl k

structure GivenBack (s : Fs) (n : Nat) (s' : Fs) : Prop where
  fdBm : s'.fdBm = clearBit s.fdBm n
  state : (s'.fdTbl n).state = FD_FREE
  others : ∀ k, k ≠ n → s'.fdTbl k = s.fdTbl k

section
variable {s s' : Fs}

omit [InodeLayout] in
theorem NoneOpen.agrees (none : NoneOpen s) : TableAgrees s := by
  intro n bound
  obtain ⟨free, clear⟩ := none n bound
  simp [free, clear]

omit [InodeLayout] in
theorem TableAgrees.least (agrees : TableAgrees s) (free : IsFree s n) :
    IsLeast {k | IsFree s k} (findFreeBit s.fdBm).toNat := by
  have clearOf (k : Nat) (here : IsFree s k) : bit s.fdBm k = false := by
    by_contra set
    exact (agrees k here.1).mp (by simpa using set) here.2
  have clear := clearOf n free
  have bound := findFreeBit_le clear (by have := free.1; omega)
  obtain ⟨_, unset, _⟩ := findFreeBit_least clear (by have := free.1; omega)
  have inside : (findFreeBit s.fdBm).toNat < 1024 := by have := free.1; omega
  refine ⟨⟨inside, ?_⟩, fun k here => findFreeBit_le (clearOf k here) (by have := here.1; omega)⟩
  by_contra used
  rw [(agrees _ inside).mpr used] at unset
  cases unset

omit [InodeLayout] in
/-- The search goes no further than to a byte with a clear bit. -/
theorem searchStop_le (clear : bit blk n = false) : searchStop blk ≤ n / 8 :=
  firstFrom_least (Nat.zero_le _) (decide_eq_true (notFull_of_clear clear))

omit [InodeLayout] in
theorem TableAgrees.same (agrees : TableAgrees s) (states : SameStates s s') (fdBm : s'.fdBm = s.fdBm) :
    TableAgrees s' := by
  intro n bound
  rw [fdBm, states n]
  exact agrees n bound

omit [InodeLayout] in
theorem cnclose_cases (run : cnclose fd s = some (code, s')) :
    ∃ n : Nat, fd = (n : Int) ∧ n < 1024 ∧
      (((s.fdTbl n).state = FD_FREE ∧ s' = s) ∨ ((s.fdTbl n).state ≠ FD_FREE ∧ GivenBack s n s')) := by
  obtain ⟨n, slot, effect⟩ := cnclose_eq run
  obtain ⟨number, small⟩ := fdSlot_eq slot
  refine ⟨n, number, small, ?_⟩
  rcases effect with ⟨free, _, rfl⟩ | ⟨used, _, fdBm, clears, rfl⟩
  · exact .inl ⟨free, rfl⟩
  · have number : (UInt32.ofNat n).toNat = n := by rw [UInt32.toNat_ofNat']; omega
    rw [clearBitmap_inside (by omega), number] at clears
    cases clears
    refine .inr ⟨used, rfl, ?_, fun k apart => ?_⟩
    · change ((s.setFd n (s.fdTbl n).closed).fdTbl n).state = FD_FREE
      rw [setFd_same]
      rfl
    · change (s.setFd n (s.fdTbl n).closed).fdTbl k = s.fdTbl k
      exact setFd_other apart

theorem openFd_taken (run : openFd s i mode = some (fd, s')) : ∃ n : Nat, fd = (n : Int) ∧ Taken s mode n s' := by
  obtain ⟨n, fdBm, inode, data, code, small, taken, marks, _, _, rfl⟩ := openFd_eq run
  have number : (UInt32.ofNat n).toNat = n := by rw [UInt32.toNat_ofNat']; omega
  rw [setBitmap_inside (by omega), number] at marks
  cases marks
  refine ⟨n, code, small, taken, rfl, ?_, fun k apart => ?_⟩
  · change ((s.setFd n ⟨data, mode, i, inode, 0, false⟩).fdTbl n).state = mode
    rw [setFd_same]
  · change (s.setFd n ⟨data, mode, i, inode, 0, false⟩).fdTbl k = s.fdTbl k
    exact setFd_other apart

theorem openFd_agrees (agrees : TableAgrees s) (mode_used : mode ≠ FD_FREE)
    (run : openFd s i mode = some (fd, s')) : TableAgrees s' := by
  obtain ⟨n, _, taken⟩ := openFd_taken run
  have small := taken.inside
  intro k bound
  rw [taken.fdBm, bit_setBit (by omega)]
  by_cases here : k = n
  · subst here
    simp [taken.state, mode_used]
  · rw [taken.others k here, decide_eq_false here, Bool.or_false]
    exact agrees k bound

omit [InodeLayout] in
theorem cnclose_agrees (agrees : TableAgrees s) (run : cnclose fd s = some (code, s')) :
    TableAgrees s' := by
  obtain ⟨n, _, _, ⟨_, rfl⟩ | ⟨_, back⟩⟩ := cnclose_cases run
  · exact agrees
  · intro k bound
    rw [back.fdBm, bit_clearBit]
    by_cases here : k = n
    · subst here
      simp [back.state]
    · rw [back.others k here, decide_eq_false here, Bool.not_false, Bool.and_true]
      exact agrees k bound

end

variable {s s' : Session}

omit [InodeLayout] in
theorem setDir_tables (s : Session) (h : Handle) (d : DirPtr) :
    (s.setDir h d).fs.fdTbl = s.fs.fdTbl ∧ (s.setDir h d).fs.fdBm = s.fs.fdBm := by
  cases h <;> exact ⟨rfl, rfl⟩

theorem tableAgrees_step (s : Session) (op : Op) (r : Reply) (s' : Session) (agrees : TableAgrees s.fs)
    (call : DescriptorCall s op) (run : s.step op = some (r, s')) : TableAgrees s'.fs := by
  cases op with
  | openFile h name mode =>
    obtain ⟨d, d', fs', _, opens, _, rfl⟩ := Session.onDir_eq run
    obtain ⟨tbl, bm⟩ := setDir_tables { s with fs := fs' } h d'
    refine TableAgrees.same (s := fs') ?_ (fun n => by rw [tbl]) bm
    rcases cnopen_cases opens with ⟨_, _, only⟩ | ⟨_, i, s₁, only, opens⟩
    · exact agrees.same (fun n => by rw [only]) (by rw [only])
    · exact openFd_agrees (agrees.same (fun n => by rw [only]) (by rw [only])) call.1 opens
  | close fd =>
    exact cnclose_agrees agrees (Session.global_eq run).1
  | read fd bytes =>
    obtain ⟨reads, _⟩ := Session.read_eq run
    have used := cnread_used reads
    exact agrees.same used.states used.fdBm
  | write fd buf =>
    obtain ⟨_, writes, _⟩ := Session.write_eq run
    have used := cnwrite_used writes
    exact agrees.same used.states used.fdBm
  | seek fd offset =>
    have used := cnseek_used (Session.global_eq run).1
    exact agrees.same used.states used.fdBm
  | _ => exact absurd call id

theorem DescriptorCall.safe (agrees : TableAgrees s.fs) (call : DescriptorCall s op) :
    TableSafe s op := by
  have numbered (fd : Int) (inside : InTable fd) : ∀ i ∈ [fd], InTable i := by
    intro i member
    rw [List.mem_singleton.mp member]
    exact inside
  cases op with
  | openFile h name mode =>
    refine ⟨fun i member => ?_, fun b member => ?_, fun r s' run reached modes => ?_⟩
    · rw [fdTblAccess] at member
      split at member
      next reached =>
        obtain ⟨n, free⟩ := call.2 reached
        have least := (agrees.least free).1.1
        rw [List.mem_singleton.mp member]
        exact ⟨by omega, by omega⟩
      · cases member
    · rw [fdBmAccess] at member
      split at member
      next reached =>
        obtain ⟨n, free⟩ := call.2 reached
        have clear : bit s.fs.fdBm n = false := by
          by_contra set
          exact (agrees n free.1).mp (by simpa using set) free.2
        have stop := searchStop_le clear
        have least := (agrees.least free).1.1
        have bound := free.1
        rcases List.mem_append.mp member with early | taken
        · have := List.mem_range.mp early
          omega
        · rw [List.mem_singleton.mp taken]
          omega
      · cases member
    · obtain ⟨d, d', fs', here, opens, _, rfl⟩ := Session.onDir_eq run
      have found : opensFile d name mode s.fs = true := by
        rw [Session.opens, here] at reached
        exact reached
      refine ⟨fun n least => ?_, fun none => ?_⟩
      · rcases cnopen_cases opens with ⟨missing, _⟩ | ⟨_, i, s₁, only, opens⟩
        · rw [found] at missing
          cases missing
        · obtain ⟨m, fdBm, inode, data, code, _, taken, _⟩ := openFd_eq opens
          have same : s₁.fdBm = s.fs.fdBm := by rw [only]
          rw [code, taken, same]
          exact congrArg _ ((agrees.least least.1).unique least)
      · obtain ⟨n, free⟩ := call.2 reached
        exact absurd free (none n)
  | close fd =>
    refine ⟨numbered fd call, fun b member => ?_, fun _ _ _ outside => absurd call outside⟩
    rw [fdBmAccess] at member
    split at member
    · cases member
    · obtain ⟨low, high⟩ := call
      rw [List.mem_singleton.mp member]
      omega
  | read fd bytes =>
    exact ⟨numbered fd call, by simp [fdBmAccess], fun _ _ _ outside => absurd call outside⟩
  | write fd buf =>
    exact ⟨numbered fd call, by simp [fdBmAccess], fun _ _ _ outside => absurd call outside⟩
  | seek fd offset =>
    exact ⟨numbered fd call, by simp [fdBmAccess], fun _ _ _ outside => absurd call outside⟩
  | _ => exact absurd call id

theorem cnmount_noneOpen {s s' : Fs} (run : cnmount s = some (code, s')) : NoneOpen s' := by
  rw [cnmount_reset] at run
  obtain ⟨cwd, _, run⟩ := Option.map_eq_some_iff.mp run
  cases run
  intro n bound
  refine ⟨rfl, ?_⟩
  have byte : n / 8 < 128 := by omega
  rw [bit, Block.mem_apply _ (by omega)]
  simp [Fs.reset, byte]

theorem boot_noneOpen (run : boot before = some s) : NoneOpen s.fs := by
  obtain ⟨⟨code, s₁⟩, makes, run⟩ := Option.bind_eq_some_iff.mp run
  obtain ⟨⟨code', s₂⟩, mounts, run⟩ := Option.bind_eq_some_iff.mp run
  cases run
  exact cnmount_noneOpen mounts

/-- In every run of such calls the bitmap shows the descriptors in use, and the next such
call stays inside the arrays and answers as promised. -/
theorem descriptor_table (start : NoneOpen s.fs)
    (steps : Steps Session.step DescriptorCall s trace s') :
    TableAgrees s'.fs ∧ ∀ op, DescriptorCall s' op → TableSafe s' op := by
  have agrees := steps.invariant (fun s : Session => TableAgrees s.fs) tableAgrees_step
    (NoneOpen.agrees start)
  exact ⟨agrees, fun op call => call.safe agrees⟩

end

section Lp64
attribute [local instance] lp64

/-- A new file is opened; then the table agrees and closing descriptor 0 is safe. -/
theorem descriptor_table_open : TableAgrees fileOpened.fs ∧ TableSafe fileOpened (.close 0) := by
  have free : IsFree emptyBooted.fs 0 := ⟨by decide, ((boot_noneOpen emptyBooted_eq) 0 (by decide)).1⟩
  have call : DescriptorCall emptyBooted (.openFile .cwd [102] FD_WRITE) := ⟨by decide, fun _ => ⟨0, free⟩⟩
  obtain ⟨agrees, safe⟩ := descriptor_table (boot_noneOpen emptyBooted_eq) (.single call fileOpened_eq)
  exact ⟨agrees, safe (.close 0) (show InTable 0 from ⟨by decide, by decide⟩)⟩

/-- After a mount, closing descriptor 1024 looks at an entry behind the table. -/
theorem descriptor_table_outside : ∃ s, NoneOpen s.fs ∧ DescriptorOp (.close 1024) ∧
    ¬ TableSafe s (.close 1024) := by
  refine ⟨emptyBooted, boot_noneOpen emptyBooted_eq, trivial, fun safe => ?_⟩
  have inside := safe.fdTbl 1024 (by decide)
  exact absurd inside.2 (by decide)

end Lp64
end CdnwSh
