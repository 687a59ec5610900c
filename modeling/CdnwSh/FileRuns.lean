import CdnwSh.Library.PartialRun
import CdnwSh.OpenFile
import Mathlib.Algebra.BigOperators.Group.Finset.Basic

/-! Runs of `cnwrite` and `cnseek` calls through any number of descriptors on distinct
files. Each file follows its own array; what all of them together still need is
covered by the free blocks. -/
namespace CdnwSh

open ByteMemory PartialRun

inductive FileCmd where
  | write (buf : List UInt8)
  | seek (offset : UInt32)

namespace FileCmd

def reply : FileCmd → Int
  | write buf => buf.length
  | seek _ => 0

def apply : FileCmd → CursorArray UInt8 → CursorArray UInt8
  | write buf, a => a.write buf
  | seek offset, a => a.seek offset.toNat

def Allowed : FileCmd → CursorArray UInt8 → Prop
  | write _, _ => True
  | seek offset, a => a.cursor + offset.toNat ≤ a.content.length

instance (c : FileCmd) (a : CursorArray UInt8) : Decidable (c.Allowed a) :=
  match c with
  | write _ => inferInstanceAs (Decidable True)
  | seek offset => inferInstanceAs (Decidable (a.cursor + offset.toNat ≤ a.content.length))

end FileCmd

def arrayRun (a : CursorArray UInt8) (cmds : List FileCmd) : CursorArray UInt8 :=
  cmds.foldl (fun a c => c.apply a) a

theorem arrayRun_append : arrayRun a (cmds ++ more) = arrayRun (arrayRun a cmds) more :=
  List.foldl_append

def AllowedRun : CursorArray UInt8 → List FileCmd → Prop
  | _, [] => True
  | a, c :: cs => c.Allowed a ∧ AllowedRun (c.apply a) cs

instance : (a : CursorArray UInt8) → (cmds : List FileCmd) → Decidable (AllowedRun a cmds)
  | _, [] => inferInstanceAs (Decidable True)
  | a, c :: cs =>
    have := instDecidableAllowedRun (c.apply a) cs
    inferInstanceAs (Decidable (c.Allowed a ∧ AllowedRun (c.apply a) cs))

def ownCmds (fd : Nat) (trace : List (Nat × FileCmd)) : List FileCmd :=
  (trace.filter fun x => x.1 = fd).map (·.2)

theorem ownCmds_cons_same : ownCmds fd ((fd, c) :: trace) = c :: ownCmds fd trace := by
  simp [ownCmds]

theorem ownCmds_cons_other (apart : other ≠ fd) :
    ownCmds fd ((other, c) :: trace) = ownCmds fd trace := by
  simp [ownCmds, apart]

theorem ownCmds_map : ownCmds fd (cmds.map fun c => (fd, c)) = cmds := by
  induction cmds with
  | nil => rfl
  | cons c cs ih => rw [List.map_cons, ownCmds_cons_same, ih]

/-- The blocks a file still needs to reach `size` bytes, the indirect block included. -/
def demand (st : Inode) (size : Nat) : Nat := newBlocks st (blocksFor size)

theorem demand_mono (le : size ≤ size') : demand st size ≤ demand st size' :=
  newBlocks_mono (blocksFor_mono le)

/-- Growing in two stages takes the same blocks. -/
theorem demand_split {st st' : Inode} (small : st.blocks.toNat ≤ blocksFor middle)
    (blocks : st'.blocks.toNat = blocksFor middle)
    (single : st'.data1 = 0 ↔ st.data1 = 0 ∧ blocksFor middle ≤ 8) (le : middle ≤ final) :
    demand st final = demand st middle + demand st' final := by
  have mono := blocksFor_mono le
  unfold demand newBlocks directShare singleShare indirectShare
  rw [blocks]
  simp only [single]
  by_cases missing : st.data1 = 0
  · simp only [missing, true_and, and_true]
    split <;> split <;> split <;> omega
  · simp only [missing, false_and, and_false, if_false]
    omega

theorem arrayRun_grows (a : CursorArray UInt8) (within : a.cursor ≤ a.content.length)
    (allowed : AllowedRun a cmds) :
    a.content.length ≤ (arrayRun a cmds).content.length ∧
      (arrayRun a cmds).cursor ≤ (arrayRun a cmds).content.length := by
  induction cmds generalizing a with
  | nil => exact ⟨Nat.le_refl _, within⟩
  | cons c cs ih =>
    obtain ⟨now, later⟩ := allowed
    have step : a.content.length ≤ (c.apply a).content.length ∧
        (c.apply a).cursor ≤ (c.apply a).content.length := by
      cases c with
      | write buf =>
        have := CursorArray.length_write a buf within
        constructor
        · change _ ≤ (a.write buf).content.length; omega
        · change a.cursor + buf.length ≤ (a.write buf).content.length; omega
      | seek offset =>
        change a.cursor + offset.toNat ≤ a.content.length at now
        exact ⟨Nat.le_refl _, by change offset.toNat ≤ a.content.length; omega⟩
    obtain ⟨grown, inside⟩ := ih (c.apply a) step.2 later
    exact ⟨step.1.trans grown, inside⟩

theorem AllowedRun.take (allowed : AllowedRun a (cmds ++ more)) : AllowedRun a cmds := by
  induction cmds generalizing a with
  | nil => trivial
  | cons c cs ih => exact ⟨allowed.1, ih allowed.2⟩

theorem AllowedRun.drop (allowed : AllowedRun a (cmds ++ more)) :
    AllowedRun (arrayRun a cmds) more := by
  induction cmds generalizing a with
  | nil => exact allowed
  | cons c cs ih => exact ih allowed.2

variable [InodeLayout]

/-- A file read back from disk through its inode. -/
def contentOf (d : Disk) (i : Iptr) : Option (List UInt8) := do
  let st ← inodeRead d i
  let buf ← llread d st (callocBlocks st.blocks.toNat)
  return slice buf.mem 0 st.size.toNat

/-- The machine: a call with the descriptor it goes through. -/
def exec (s : Fs) : Nat × FileCmd → Option (Int × Fs)
  | (fd, .write buf) => do
    let (n, s) ← cnwrite buf fd s
    return ((n : Int), s)
  | (fd, .seek offset) => cnseek fd offset s

section
variable {s : Fs} {own : Owner} {fd : Nat} {a : CursorArray UInt8}

theorem OpenFile.contentOf_eq (opened : OpenFile s own fd a) (ledger : Ledger s.vol own) :
    contentOf s.vol.disk (s.fdTbl fd).inodeId = some a.content := by
  rw [contentOf, opened.onDisk]
  simp only [Option.bind_eq_bind, Option.bind_some]
  rw [llread_eq (opened.mapped.inside ledger), ← opened.stored]
  rfl

/-- One call on one file. -/
theorem exec_step (opened : OpenFile s own fd a) (ledger : Ledger s.vol own) (c : FileCmd)
    (allowed : c.Allowed a) (room : blocksFor (c.apply a).content.length ≤ 1032)
    (enough : demand (s.fdTbl fd).inode (c.apply a).content.length ≤ Pool.block.free s.vol) :
    ∃ s' own', exec s (fd, c) = some (c.reply, s') ∧
      Confined s.vol own (· = (s.fdTbl fd).inodeId) s'.vol own' ∧
      OpenFile s' own' fd (c.apply a) ∧
      (∀ other, other ≠ fd → s'.fdTbl other = s.fdTbl other) ∧
      (s'.fdTbl fd).inodeId = (s.fdTbl fd).inodeId ∧
      ∀ final, (c.apply a).content.length ≤ final →
        Pool.block.free s'.vol + demand (s.fdTbl fd).inode final =
          Pool.block.free s.vol + demand (s'.fdTbl fd).inode final := by
  cases c with
  | write buf =>
    have length := CursorArray.length_write a buf opened.within
    have smaller : blocksFor (a.cursor + buf.length) ≤ blocksFor (a.write buf).content.length :=
      blocksFor_mono (by omega)
    obtain ⟨fde, v, t, own', run, id, confined, after, free, single⟩ := opened.write ledger buf
      (smaller.trans room) ((demand_mono (by change _ ≤ (a.write buf).content.length; omega)).trans enough)
    refine ⟨_, own', ?_, confined, after, fun other apart => setFd_other apart, ?_, ?_⟩
    · simp only [exec, run, Option.bind_eq_bind, Option.bind_some]; rfl
    · rw [setFd_vol]; exact id
    · intro final le
      have blocks := after.blocks
      have size := after.length
      rw [setFd_vol] at blocks size
      rw [setFd_vol, demand_split
        ?_ ?_ single le]
      · change Pool.block.free v + _ = _
        have : Pool.block.free v + demand (s.fdTbl fd).inode (a.write buf).content.length =
            Pool.block.free s.vol := free
        omega
      · rw [opened.blocks, ← opened.length]; exact blocksFor_mono (by omega)
      · rw [blocks]
        exact congrArg blocksFor size.symm
  | seek offset =>
    obtain ⟨fde, run, same, after⟩ := opened.seek offset allowed
    refine ⟨_, own, run, .refl ledger, after, fun other apart => setFd_other apart, ?_, ?_⟩
    · rw [setFd_same, same]
    · intro final _
      rw [setFd_same, same]
      rfl

/-- Descriptors open for writing on distinct files. -/
structure OpenFiles (s : Fs) (own : Owner) (fds : Finset Nat) (m : Nat → CursorArray UInt8) :
    Prop where
  ledger : Ledger s.vol own
  opened : ∀ fd ∈ fds, OpenFile s own fd (m fd)
  distinct : ∀ fd ∈ fds, ∀ other ∈ fds, (s.fdTbl fd).inodeId = (s.fdTbl other).inodeId → fd = other

/-- What the files together still need to reach the given sizes is free, and each of
them stays within its block map. -/
structure Enough (s : Fs) (fds : Finset Nat) (size : Nat → Nat) : Prop where
  room : ∀ fd ∈ fds, blocksFor (size fd) ≤ 1032
  total : ∑ fd ∈ fds, demand (s.fdTbl fd).inode (size fd) ≤ Pool.block.free s.vol

theorem OpenFiles.step (files : OpenFiles s own fds m) (acting : fd ∈ fds)
    (allowed : c.Allowed (m fd)) (enough : Enough s fds size)
    (later : (c.apply (m fd)).content.length ≤ size fd) :
    ∃ s' own', exec s (fd, c) = some (c.reply, s') ∧
      OpenFiles s' own' fds (Function.update m fd (c.apply (m fd))) ∧
      Confined s.vol own (fun i => ∃ fd ∈ fds, i = (s.fdTbl fd).inodeId) s'.vol own' ∧
      (∀ fd ∈ fds, (s'.fdTbl fd).inodeId = (s.fdTbl fd).inodeId) ∧
      (∀ other, other ∉ fds → s'.fdTbl other = s.fdTbl other) ∧
      Enough s' fds size := by
  have single := Finset.single_le_sum (f := fun fd => demand (s.fdTbl fd).inode (size fd))
    (fun _ _ => Nat.zero_le _) acting
  obtain ⟨s', own', run, confined, after, others, id, free⟩ := exec_step (files.opened fd acting)
    files.ledger c allowed ((blocksFor_mono later).trans (enough.room fd acting))
    ((demand_mono later).trans (single.trans enough.total))
  have ids (other) (inside : other ∈ fds) : (s'.fdTbl other).inodeId = (s.fdTbl other).inodeId := by
    by_cases same : other = fd
    · rw [same, id]
    · rw [others other same]
  refine ⟨s', own', run, ⟨confined.ledger, ?_, ?_⟩, confined.mono fun i same => ⟨fd, acting, same⟩,
    ids, fun other outside => others other (by rintro rfl; exact outside acting),
    ⟨enough.room, ?_⟩⟩
  · intro other inside
    by_cases same : other = fd
    · subst same
      rw [Function.update_self]
      exact after
    · rw [Function.update_of_ne same]
      exact (files.opened other inside).frame confined
        (fun shared => same (files.distinct other inside fd acting shared)) (others other same)
  · intro one inOne two inTwo shared
    rw [ids one inOne, ids two inTwo] at shared
    exact files.distinct one inOne two inTwo shared
  · have total := enough.total
    rw [← Finset.add_sum_erase fds _ acting] at total ⊢
    have rest : ∑ other ∈ fds.erase fd, demand (s'.fdTbl other).inode (size other) =
        ∑ other ∈ fds.erase fd, demand (s.fdTbl other).inode (size other) :=
      Finset.sum_congr rfl fun other inside => by rw [others other (Finset.ne_of_mem_erase inside)]
    have := free (size fd) later
    omega

/-- Any interleaving of calls on distinct files succeeds while the blocks suffice, and
every file ends as the array that its own calls produce. -/
theorem OpenFiles.run (files : OpenFiles s own fds m) (trace : List (Nat × FileCmd))
    (acting : ∀ x ∈ trace, x.1 ∈ fds)
    (allowed : ∀ fd ∈ fds, AllowedRun (m fd) (ownCmds fd trace))
    (enough : Enough s fds fun fd => (arrayRun (m fd) (ownCmds fd trace)).content.length) :
    ∃ s' own', PartialRun.run exec s trace = some (trace.map fun x => x.2.reply, s') ∧
      OpenFiles s' own' fds (fun fd => arrayRun (m fd) (ownCmds fd trace)) ∧
      Confined s.vol own (fun i => ∃ fd ∈ fds, i = (s.fdTbl fd).inodeId) s'.vol own' ∧
      (∀ fd ∈ fds, (s'.fdTbl fd).inodeId = (s.fdTbl fd).inodeId) ∧
      (∀ other, other ∉ fds → s'.fdTbl other = s.fdTbl other) := by
  induction trace generalizing s own m with
  | nil => exact ⟨s, own, rfl, files, .refl files.ledger, fun _ _ => rfl, fun _ _ => rfl⟩
  | cons x trace ih =>
    obtain ⟨fd, c⟩ := x
    have here : fd ∈ fds := acting (fd, c) List.mem_cons_self
    have mine := allowed fd here
    rw [ownCmds_cons_same] at mine
    have runs (other) : arrayRun (Function.update m fd (c.apply (m fd)) other) (ownCmds other trace) =
        arrayRun (m other) (ownCmds other ((fd, c) :: trace)) := by
      by_cases same : other = fd
      · subst same; rw [Function.update_self, ownCmds_cons_same]; rfl
      · rw [Function.update_of_ne same, ownCmds_cons_other (Ne.symm same)]
    have within : (c.apply (m fd)).cursor ≤ (c.apply (m fd)).content.length :=
      (arrayRun_grows (m fd) (files.opened fd here).within
        (show AllowedRun (m fd) [c] from ⟨mine.1, trivial⟩)).2
    have later := (arrayRun_grows _ within mine.2).1
    obtain ⟨s₁, own₁, done, files₁, confined₁, ids₁, others₁, enough₁⟩ := files.step here mine.1 enough
      (by rw [ownCmds_cons_same]; exact later)
    obtain ⟨s', own', rest, files', confined', ids', others'⟩ := ih files₁
      (fun y member => acting y (List.mem_cons_of_mem _ member))
      (by
        intro other inside
        by_cases same : other = fd
        · subst same; rw [Function.update_self]; exact mine.2
        · rw [Function.update_of_ne same]
          have := allowed other inside
          rwa [ownCmds_cons_other (Ne.symm same)] at this)
      (by simp only [runs]; exact enough₁)
    have owners (i) : (∃ fd ∈ fds, i = (s₁.fdTbl fd).inodeId) → ∃ fd ∈ fds, i = (s.fdTbl fd).inodeId :=
      fun ⟨fd, inside, same⟩ => ⟨fd, inside, same.trans (ids₁ fd inside)⟩
    refine ⟨s', own', ?_, ?_, confined₁.trans (confined'.mono owners),
      fun fd inside => (ids' fd inside).trans (ids₁ fd inside),
      fun other outside => (others' other outside).trans (others₁ other outside)⟩
    · simp only [PartialRun.run, done, Option.bind_eq_bind, Option.bind_some, rest]
      rfl
    · simp only [runs] at files'
      exact files'

end
end CdnwSh
