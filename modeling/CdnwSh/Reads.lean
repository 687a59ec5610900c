import CdnwSh.FileArray

/-! `cnread` on a descriptor opened for reading: one call compared with what a read of the
bytes behind the cursor is, and any number of calls after one another. The length that is left
is computed as `size - (cursor + 1)`, which is one byte too short before the end of the file
and wraps to 2^32 - 1 at it. -/
namespace CdnwSh

open ByteMemory PartialRun

structure ReadOpen (s : Fs) (fd : Nat) (content : List UInt8) : Prop where
  slot : fd < 1024
  mode : (s.fdTbl fd).state = FD_READ
  cached : cachedBytes (s.fdTbl fd) = content
  cache : (s.fdTbl fd).inode.size.toNat ≤ (dataBuf (s.fdTbl fd).data).size
  within : (s.fdTbl fd).cursor.toNat ≤ content.length

/-- The bytes that a read of `n` bytes is to deliver and the cursor it is to leave. -/
def readAs (s : Fs) (fd : Nat) (content : List UInt8) (n : Nat) : List UInt8 × Fs :=
  let fde := s.fdTbl fd
  let count := min n (content.length - fde.cursor.toNat)
  ((content.drop fde.cursor.toNat).take n,
    s.setFd fd { fde with cursor := UInt32.ofNat (fde.cursor.toNat + count) })

/-- The calls deliver the next bytes of the file, each byte once. -/
def DeliversAll (s : Fs) (fd : Nat) (content : List UInt8) (ns : List Nat) : Prop :=
  ∃ outs s', run (fun s n => cnread n fd s) s ns = some (outs, s') ∧
    outs.flatten = (content.drop (s.fdTbl fd).cursor.toNat).take ns.sum

section
variable {s s' : Fs} {fd : Nat} {content : List UInt8}

theorem left_eq (size cursor : UInt32) (within : cursor.toNat ≤ size.toNat) :
    (size - (cursor + 1)).toNat =
      if cursor.toNat < size.toNat then size.toNat - cursor.toNat - 1 else 4294967295 := by
  have one : (1 : UInt32).toNat = 1 := rfl
  have small := size.toNat_lt
  rw [UInt32.toNat_sub, UInt32.toNat_add, one]
  split <;> omega

theorem ReadOpen.length (opened : ReadOpen s fd content) :
    content.length = (s.fdTbl fd).inode.size.toNat := by
  rw [← opened.cached, cachedBytes, length_slice]

theorem ReadOpen.bytes (opened : ReadOpen s fd content) (inside : off + n ≤ content.length) :
    slice (dataBuf (s.fdTbl fd).data).mem off n = (content.drop off).take n := by
  have length := opened.length
  apply List.ext_getElem?
  intro k
  rw [getElem?_slice, List.getElem?_take, List.getElem?_drop]
  by_cases bound : k < n
  · rw [if_pos bound, if_pos bound, ← opened.cached, cachedBytes, getElem?_slice,
      if_pos (by omega), Nat.zero_add]
  · rw [if_neg bound, if_neg bound]

/-- A call with a cursor before the end of the file stops one byte before the end. -/
theorem ReadOpen.before (opened : ReadOpen s fd content)
    (low : (s.fdTbl fd).cursor.toNat < content.length) (n : Nat) :
    ∃ count, count = min n (content.length - (s.fdTbl fd).cursor.toNat - 1) ∧
      cnread n fd s = some ((content.drop (s.fdTbl fd).cursor.toNat).take count,
        s.setFd fd { s.fdTbl fd with
          cursor := UInt32.ofNat ((s.fdTbl fd).cursor.toNat + count) }) := by
  have length := opened.length
  have left := left_eq (s.fdTbl fd).inode.size (s.fdTbl fd).cursor (by omega)
  rw [if_pos (by omega), ← length] at left
  refine ⟨_, rfl, ?_⟩
  generalize same : min n (content.length - (s.fdTbl fd).cursor.toNat - 1) = count
  have reads : readData (s.fdTbl fd).data (s.fdTbl fd).cursor.toNat count =
      some ((content.drop (s.fdTbl fd).cursor.toNat).take count) := by
    unfold readData
    split
    next zero => rw [zero, List.take_zero]
    next some =>
      have cache := opened.cache
      cases data : (s.fdTbl fd).data with
      | none =>
        rw [data] at cache
        change _ ≤ 0 at cache
        omega
      | some buf =>
        have bytes : slice (dataBuf (s.fdTbl fd).data).mem (s.fdTbl fd).cursor.toNat count =
            (content.drop (s.fdTbl fd).cursor.toNat).take count := opened.bytes (by omega)
        rw [data, dataBuf_some] at cache bytes
        rw [Option.bind_eq_bind, Option.bind_some, if_pos (by omega), bytes]
  rw [cnread, fdSlot_small opened.slot]
  simp only [Option.bind_eq_bind, Option.bind_some, opened.mode, ne_eq, not_true_eq_false,
    if_false, left, same, reads]
  rw [UInt32.ofNat_add, UInt32.ofNat_toNat]
  rfl

theorem ReadOpen.atEnd (opened : ReadOpen s fd content)
    (ended : (s.fdTbl fd).cursor.toNat = content.length) (read : cnread n fd s = some (out, s')) :
    out.length = min n 4294967295 := by
  have length := opened.length
  have left := left_eq (s.fdTbl fd).inode.size (s.fdTbl fd).cursor (by omega)
  rw [if_neg (by omega)] at left
  obtain ⟨k, slot, ⟨other, _⟩ | ⟨_, _, copied, _⟩⟩ := cnread_eq read
  all_goals obtain rfl : fd = k := Int.ofNat_inj.mp (fdSlot_eq slot).1
  · exact absurd opened.mode other
  · rw [copied, left]

theorem ReadOpen.moved (opened : ReadOpen s fd content) (within : cursor.toNat ≤ content.length) :
    ReadOpen (s.setFd fd { s.fdTbl fd with cursor := cursor }) fd content := by
  have mine : (s.setFd fd { s.fdTbl fd with cursor := cursor }).fdTbl fd =
      { s.fdTbl fd with cursor := cursor } := setFd_same
  constructor
  case slot => exact opened.slot
  all_goals rw [mine]
  · exact opened.mode
  · exact opened.cached
  · exact opened.cache
  · exact within

theorem setFd_self : s.setFd fd (s.fdTbl fd) = s := by
  have same : (s.setFd fd (s.fdTbl fd)).fdTbl = s.fdTbl := by
    funext k
    change (if k = fd then s.fdTbl fd else s.fdTbl k) = s.fdTbl k
    split
    next here => rw [here]
    · rfl
  change { s with fdTbl := (s.setFd fd (s.fdTbl fd)).fdTbl } = s
  rw [same]

theorem ReadOpen.none (opened : ReadOpen s fd content) : cnread 0 fd s = some ([], s) := by
  have cursor : { s.fdTbl fd with cursor := (s.fdTbl fd).cursor + UInt32.ofNat 0 } =
      s.fdTbl fd := by
    rw [show UInt32.ofNat 0 = 0 from rfl, UInt32.add_zero]
  have mode : ¬ (s.fdTbl fd).state ≠ FD_READ := not_not.mpr opened.mode
  rw [cnread, fdSlot_small opened.slot]
  simp only [Option.bind_eq_bind, Option.bind_some, if_neg mode, Nat.zero_min, readData, if_true,
    cursor, setFd_self]
  rfl

theorem readAs_none : readAs s fd content 0 = ([], s) := by
  have cursor : UInt32.ofNat ((s.fdTbl fd).cursor.toNat +
      min 0 (content.length - (s.fdTbl fd).cursor.toNat)) = (s.fdTbl fd).cursor := by
    rw [Nat.zero_min, Nat.add_zero, UInt32.ofNat_toNat]
  unfold readAs
  dsimp only
  rw [cursor, List.take_zero,
    show ({ s.fdTbl fd with cursor := (s.fdTbl fd).cursor } : FdEntry) = s.fdTbl fd from rfl,
    setFd_self]

theorem ReadOpen.exact (opened : ReadOpen s fd content) (n : Nat) :
    cnread n fd s = some (readAs s fd content n) ↔
      n = 0 ∨ (s.fdTbl fd).cursor.toNat + n < content.length := by
  have within := opened.within
  by_cases low : (s.fdTbl fd).cursor.toNat < content.length
  · obtain ⟨count, same, read⟩ := opened.before low n
    constructor
    · intro exactly
      rw [read, readAs, Option.some.injEq, Prod.mk.injEq] at exactly
      have length := congrArg List.length exactly.1
      rw [List.length_take, List.length_take, List.length_drop] at length
      omega
    · intro short
      have all : count = n := by omega
      have room : min n (content.length - (s.fdTbl fd).cursor.toNat) = n := by omega
      unfold readAs
      dsimp only
      rw [read, all, room]
  · have ended : (s.fdTbl fd).cursor.toNat = content.length := by omega
    constructor
    · intro exactly
      have length := opened.atEnd ended exactly
      rw [List.length_take, List.length_drop] at length
      omega
    · rintro (rfl | beyond)
      · rw [opened.none, readAs_none]
      · omega

/-- Calls that start before the end of the file deliver what lies before its last byte. -/
theorem ReadOpen.run (opened : ReadOpen s fd content)
    (low : (s.fdTbl fd).cursor.toNat < content.length) (ns : List Nat) :
    ∃ outs s', PartialRun.run (fun s n => cnread n fd s) s ns = some (outs, s') ∧
      outs.flatten = (content.drop (s.fdTbl fd).cursor.toNat).take
        (min ns.sum (content.length - (s.fdTbl fd).cursor.toNat - 1)) := by
  induction ns generalizing s with
  | nil => exact ⟨[], s, rfl, by simp⟩
  | cons n ns ih =>
    obtain ⟨count, same, read⟩ := opened.before low n
    have length := opened.length
    have small := (s.fdTbl fd).inode.size.toNat_lt
    have bound : (s.fdTbl fd).cursor.toNat + count < 2 ^ 32 := by omega
    generalize next : UInt32.ofNat ((s.fdTbl fd).cursor.toNat + count) = cursor at read
    have moved : cursor.toNat = (s.fdTbl fd).cursor.toNat + count := by
      rw [← next]
      exact UInt32.toNat_ofNat_of_lt' bound
    have mine : (s.setFd fd { s.fdTbl fd with cursor := cursor }).fdTbl fd =
        { s.fdTbl fd with cursor := cursor } := setFd_same
    have reached : cursor.toNat ≤ content.length := by omega
    obtain ⟨outs, s', run, delivered⟩ := ih (opened.moved reached)
      (by rw [mine]; change cursor.toNat < _; omega)
    refine ⟨(content.drop (s.fdTbl fd).cursor.toNat).take count :: outs, s', ?_, ?_⟩
    · rw [PartialRun.run, read]
      simp only [Option.bind_eq_bind, Option.bind_some, run]
      rfl
    · rw [List.flatten_cons, delivered, mine]
      change _ ++ (content.drop cursor.toNat).take _ = _
      rw [moved, ← List.drop_drop, List.sum_cons,
        show min (n + ns.sum) (content.length - (s.fdTbl fd).cursor.toNat - 1) =
          count + min ns.sum (content.length - ((s.fdTbl fd).cursor.toNat + count) - 1) by omega,
        List.take_add]

theorem ReadOpen.runEnd (opened : ReadOpen s fd content)
    (ended : (s.fdTbl fd).cursor.toNat = content.length) (ns : List Nat) :
    DeliversAll s fd content ns ↔ ns.sum = 0 := by
  have rest : content.drop (s.fdTbl fd).cursor.toNat = [] := List.drop_eq_nil_iff.mpr (by omega)
  induction ns with
  | nil => exact ⟨fun _ => rfl, fun _ => ⟨[], s, rfl, by simp⟩⟩
  | cons n ns ih =>
    rw [List.sum_cons]
    constructor
    · rintro ⟨outs, s', run, delivered⟩
      rw [PartialRun.run] at run
      obtain ⟨⟨out, s₁⟩, read, more⟩ := Option.bind_eq_some_iff.mp run
      obtain ⟨⟨outs', s₂⟩, calls, same⟩ := Option.bind_eq_some_iff.mp more
      cases same
      have length := opened.atEnd ended read
      rw [rest, List.take_nil, List.flatten_cons, List.append_eq_nil_iff] at delivered
      obtain ⟨nothing, later⟩ := delivered
      rw [nothing, List.length_nil] at length
      obtain rfl : n = 0 := (Nat.min_eq_zero_iff.mp length.symm).resolve_right (by decide)
      have again : s₁ = s := by
        rw [opened.none] at read
        cases read
        rfl
      subst again
      have all : DeliversAll s₁ fd content ns := ⟨outs', s', calls, by
        rw [rest, List.take_nil]
        exact later⟩
      rw [ih.mp all]
    · intro zero
      obtain ⟨rfl, later⟩ := Nat.add_eq_zero_iff.mp zero
      obtain ⟨outs, s', run, delivered⟩ := ih.mpr later
      refine ⟨[] :: outs, s', ?_, ?_⟩
      · rw [PartialRun.run, opened.none]
        simp only [Option.bind_eq_bind, Option.bind_some, run]
        rfl
      · rw [List.flatten_cons, List.nil_append, delivered, rest, List.take_nil, List.take_nil]

/-- A new descriptor reads its file from disk. -/
theorem FdOpened.readOpen [InodeLayout] (opened : FdOpened s i FD_READ n st s')
    (sound : Sound s' own node) (file : node i = some .file) : ReadOpen s' n (fileBytes s.vol.disk st) := by
  have inode : (s'.fdTbl n).inode = st := by rw [opened.entry]
  have there := opened.fileAt sound file
  refine ⟨opened.slot, by rw [opened.entry], ?_, ?_, by rw [opened.entry]; exact Nat.zero_le _⟩
  · rw [cachedBytes, opened.data, inode]
    rfl
  · rw [opened.data, inode, there.blocks]
    exact size_le_blocks

end

/-- For every descriptor opened for reading, wherever its cursor stands, a call for `n` bytes
delivers the next `n` bytes, or what is left of the file, if and only if it does not reach the
last byte; so do any number of calls together. -/
theorem cnread_exact {s : Fs} (opened : ReadOpen s fd content) :
    (∀ n, cnread n fd s = some (readAs s fd content n) ↔
      n = 0 ∨ (s.fdTbl fd).cursor.toNat + n < content.length) ∧
    ∀ ns, DeliversAll s fd content ns ↔
      ns.sum = 0 ∨ (s.fdTbl fd).cursor.toNat + ns.sum < content.length := by
  refine ⟨opened.exact, fun ns => ?_⟩
  have within := opened.within
  by_cases low : (s.fdTbl fd).cursor.toNat < content.length
  · obtain ⟨outs, s', run, delivered⟩ := opened.run low ns
    constructor
    · rintro ⟨outs', s'', run', all⟩
      rw [run] at run'
      cases run'
      have length := congrArg List.length (delivered.symm.trans all)
      rw [List.length_take, List.length_take, List.length_drop] at length
      omega
    · intro short
      refine ⟨outs, s', run, ?_⟩
      rw [delivered, Nat.min_eq_left (by omega)]
  · rw [opened.runEnd (by omega)]
    omega

section Lp64
attribute [local instance] lp64

/-- A file with three bytes, opened for reading. -/
def threeClosed : Session := threeWritten.after (.close 0)
def threeOpened : Session := threeClosed.after (.openFile .cwd [102] FD_READ)

theorem threeOpened_facts : (threeOpened.fs.fdTbl 0).state = FD_READ ∧
    cachedBytes (threeOpened.fs.fdTbl 0) = [1, 2, 3] ∧
    (threeOpened.fs.fdTbl 0).inode.size.toNat ≤ (dataBuf (threeOpened.fs.fdTbl 0).data).size ∧
    (threeOpened.fs.fdTbl 0).cursor.toNat = 0 ∧
    (cnread 3 0 threeOpened.fs).map Prod.fst = some [1, 2] := by decide +kernel

theorem threeOpened_readOpen : ReadOpen threeOpened.fs 0 [1, 2, 3] := by
  obtain ⟨mode, cached, cache, cursor, _⟩ := threeOpened_facts
  exact ⟨by decide, mode, cached, cache, by rw [cursor]; decide⟩

theorem cnread_exact_two : DeliversAll threeOpened.fs 0 [1, 2, 3] [1, 1] := by
  have start := threeOpened_facts.2.2.2.1
  exact ((cnread_exact threeOpened_readOpen).2 [1, 1]).mpr (.inr (by rw [start]; decide))

/-- A call for all three bytes returns two. -/
theorem cnread_exact_last : ReadOpen threeOpened.fs 0 [1, 2, 3] ∧
    (cnread 3 0 threeOpened.fs).map Prod.fst = some [1, 2] ∧
    cnread 3 0 threeOpened.fs ≠ some (readAs threeOpened.fs 0 [1, 2, 3] 3) := by
  obtain ⟨_, _, _, cursor, short⟩ := threeOpened_facts
  refine ⟨threeOpened_readOpen, short, fun exactly => ?_⟩
  rcases (threeOpened_readOpen.exact 3).mp exactly with zero | inside
  · cases zero
  · rw [cursor] at inside
    exact absurd inside (by decide)

end Lp64

end CdnwSh
