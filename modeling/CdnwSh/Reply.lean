import CdnwSh.Receive
import Mathlib.Algebra.BigOperators.Group.Finset.Basic

/-! A reply on its way: the sending loop of `send_results` over a `send` that may take
any part of what it is given, and the strings that the client's run loop prints, for
every way in which the stream is cut. -/
namespace CdnwSh

open ByteMemory

def toInt32 (n : Int) : Int := n.bmod 4294967296

structure SendCall where
  offset : Nat
  asked : Nat
  taken : Nat
  deriving DecidableEq

/-- `send_len`. It is computed from the length of the whole reply. -/
def sendLen (resultLen : Int) : Int :=
  if resultLen > SVR_MAX_PAYLOAD - 1 then SVR_MAX_PAYLOAD - 1 else resultLen

/-- The loop at its `j`-th call, which returns `ret j`. The fuel is enough when it is at
least the number of bytes that remain. -/
def sendLoop (ret : Nat → Int) (resultLen : Int) :
    Nat → Nat → Int → Nat → Option (List SendCall)
  | 0, _, bytesRemain, _ => if bytesRemain > 0 then none else some []
  | fuel + 1, j, bytesRemain, cursor =>
    if bytesRemain > 0 then
      let call : SendCall := ⟨cursor, (sendLen resultLen).toNat, (ret j).toNat⟩
      if ret j > 0 then do
        let calls ← sendLoop ret resultLen fuel (j + 1) (bytesRemain - ret j)
          (cursor + (ret j).toNat)
        return call :: calls
      else some [call]
    else some []

def sendResults (ret : Nat → Int) (length : Nat) : Option (List SendCall) :=
  let resultLen := toInt32 length
  sendLoop ret resultLen resultLen.toNat 0 resultLen 0

/-- The reply in memory, its NUL, and whatever lies behind it. -/
def inMemory (r : Name) (behind : Bytes) : Bytes :=
  fun i => if i < r.length then r.getD i 0 else if i = r.length then 0 else behind i

def transmitted (m : Bytes) (calls : List SendCall) : List UInt8 :=
  calls.flatMap fun c => slice m c.offset c.taken

/-- The string that the client's run loop prints from a buffer: nothing for a buffer taken
for an error, and undefined when it has no NUL. -/
def printed (result : List UInt8) : Option Name :=
  if errorBranch result = none ∧ 0 ∈ result then some (cstr result) else none

def Accepts (ret : Nat → Int) (length : Nat) : Prop :=
  ∀ j, 0 < ret j ∧ (0 < toInt32 length → ret j ≤ sendLen (toInt32 length))

/-- The stream as `recv` delivers it. -/
def Cuts (chunks : List (List UInt8)) (stream : List UInt8) : Prop :=
  (∀ c ∈ chunks, (Received.bytes c).Fits SVR_MAX_PAYLOAD) ∧ chunks.flatten = stream

/-- The loop ends and has sent the reply and read no byte behind it, and the strings
printed on the other side are the reply again. -/
def ArrivesWhole (ret : Nat → Int) (r : Name) (behind : Bytes) (chunks : List (List UInt8)) : Prop :=
  ∃ calls, sendResults ret r.length = some calls ∧ transmitted (inMemory r behind) calls = r ∧
    (∀ c ∈ calls, c.offset + c.asked ≤ r.length) ∧
    ∃ parts, chunks.mapM (fun c => printed (recvResults (.bytes c))) = some parts ∧
      parts.flatten = r

def sentBefore (ret : Nat → Int) (j : Nat) : Nat := ∑ i ∈ Finset.range j, (ret i).toNat

section
variable {ret : Nat → Int} {r : Name} {behind : Bytes} {chunks : List (List UInt8)}

theorem sentBefore_succ : sentBefore ret (j + 1) = sentBefore ret j + (ret j).toNat :=
  Finset.sum_range_succ ..

theorem sentBefore_mono (low : i ≤ j) : sentBefore ret i ≤ sentBefore ret j :=
  Finset.sum_le_sum_of_subset (Finset.range_mono low)

def callAt (ret : Nat → Int) (resultLen : Int) (j : Nat) : SendCall :=
  ⟨sentBefore ret j, (sendLen resultLen).toNat, (ret j).toNat⟩

/-- Remaining bytes and cursor stay in step with what was taken, up to the first call
that reaches the length. -/
theorem sendLoop_eq (positive : ∀ j, 0 < ret j) (fuel j : Nat) (resultLen bytesRemain : Int)
    (step : bytesRemain = resultLen - sentBefore ret j) (enough : bytesRemain ≤ fuel) :
    ∃ n, sendLoop ret resultLen fuel j bytesRemain (sentBefore ret j) =
        some ((List.range' j n).map (callAt ret resultLen)) ∧
      (∀ i, j ≤ i → i < j + n → (sentBefore ret i : Int) < resultLen) ∧
      resultLen ≤ sentBefore ret (j + n) := by
  induction fuel generalizing j bytesRemain with
  | zero =>
    refine ⟨0, ?_, fun i low high => by omega, by simp only [Nat.add_zero]; omega⟩
    rw [sendLoop, if_neg (by omega)]
    rfl
  | succ fuel ih =>
    by_cases more : bytesRemain > 0
    · have taken := positive j
      have next : bytesRemain - ret j = resultLen - sentBefore ret (j + 1) := by
        rw [sentBefore_succ]; omega
      obtain ⟨n, run, below, reached⟩ := ih (j + 1) _ next (by omega)
      refine ⟨n + 1, ?_, fun i low high => ?_, ?_⟩
      · rw [sendLoop, if_pos more]
        simp only [if_pos taken, ← sentBefore_succ, run]
        rw [List.range'_succ]
        rfl
      · rcases Nat.eq_or_lt_of_le low with rfl | later
        · omega
        · exact below i later (by omega)
      · rw [show j + (n + 1) = j + 1 + n from by omega]
        exact reached
    · refine ⟨0, ?_, fun i low high => by omega, by simp only [Nat.add_zero]; omega⟩
      rw [sendLoop, if_neg more]
      rfl

theorem sendResults_eq (positive : ∀ j, 0 < ret j) (length : Nat) :
    ∃ n, sendResults ret length = some ((List.range n).map (callAt ret (toInt32 length))) ∧
      (∀ i, i < n → (sentBefore ret i : Int) < toInt32 length) ∧
      toInt32 length ≤ sentBefore ret n := by
  have start : toInt32 length = toInt32 length - sentBefore ret 0 := by simp [sentBefore]
  obtain ⟨n, run, below, reached⟩ :=
    sendLoop_eq positive (toInt32 length).toNat 0 (toInt32 length) _ start (Int.self_le_toNat _)
  rw [Nat.zero_add] at reached
  refine ⟨n, ?_, fun i low => below i (Nat.zero_le i) (by omega), reached⟩
  rw [List.range_eq_range']
  exact run

theorem transmitted_eq (m : Bytes) (resultLen : Int) (n : Nat) :
    transmitted m ((List.range n).map (callAt ret resultLen)) = slice m 0 (sentBefore ret n) := by
  induction n with
  | zero => rfl
  | succ n ih =>
    rw [List.range_succ, List.map_append, transmitted, List.flatMap_append, ← transmitted, ih,
      sentBefore_succ, slice_append, Nat.zero_add]
    simp [callAt]

theorem slice_inMemory : slice (inMemory r behind) 0 r.length = r := by
  apply List.ext_getElem
  · rw [length_slice]
  · intro i _ high
    simp [slice, inMemory, high]

theorem toInt32_small (small : n < 2 ^ 31) : toInt32 (n : Nat) = n := by
  rw [toInt32, Int.bmod_def]
  split <;> omega

theorem toInt32_large (large : ¬ n < 2 ^ 31) : toInt32 (n : Nat) + 2 ^ 32 ≤ n := by
  rw [toInt32, Int.bmod_def]
  split <;> omega

theorem sendLen_eq (resultLen : Int) : sendLen resultLen = min resultLen 4095 := by
  rw [sendLen, SVR_MAX_PAYLOAD]
  split <;> omega

/-- Every call is made before the end of the reply, and the last one may go beyond it. -/
theorem sentBefore_bound (accepts : Accepts ret length)
    (below : ∀ i, i < n → (sentBefore ret i : Int) < toInt32 length) :
    (sentBefore ret n : Int) < max 1 (toInt32 length + 4095) := by
  cases n with
  | zero => simp [sentBefore]
  | succ n =>
    have last := below n (by omega)
    have taken := (accepts n).2 (by omega)
    have positive := (accepts n).1
    rw [sendLen_eq] at taken
    rw [sentBefore_succ]
    omega

/-- What the client prints of a chunk without NUL bytes: all of it, unless it fills the
buffer. -/
theorem printed_bytes (fits : (Received.bytes c).Fits SVR_MAX_PAYLOAD) (clean : 0 ∉ c) :
    printed (recvResults (.bytes c)) = if c.length = 4096 then none else some c := by
  obtain ⟨nonempty, short⟩ := fits
  have payload : errorBranch (recvResults (.bytes c)) = none := received_payload nonempty clean
  by_cases full : c.length = 4096
  · have same : recvResults (.bytes c) = c := by simp [recvResults, received, SVR_MAX_PAYLOAD, full]
    rw [if_pos full, printed, if_neg fun both => clean (same ▸ both.2)]
  · obtain ⟨ends, text⟩ := received_string (Nat.lt_of_le_of_ne short full) clean
    rw [if_neg full, printed, if_pos ⟨payload, ends⟩]
    exact congrArg some text

theorem printed_all (fits : ∀ c ∈ chunks, (Received.bytes c).Fits SVR_MAX_PAYLOAD)
    (clean : 0 ∉ chunks.flatten) :
    chunks.mapM (fun c => printed (recvResults (.bytes c))) =
      if ∀ c ∈ chunks, c.length ≠ 4096 then some chunks else none := by
  induction chunks with
  | nil => simp
  | cons c rest ih =>
    rw [List.flatten_cons, List.mem_append, not_or] at clean
    rw [List.mapM_cons, printed_bytes (fits c (by simp)) clean.1,
      ih (fun c member => fits c (List.mem_cons_of_mem _ member)) clean.2]
    have split : (∀ x ∈ c :: rest, x.length ≠ 4096) ↔ c.length ≠ 4096 ∧ ∀ x ∈ rest, x.length ≠ 4096 :=
      List.forall_mem_cons
    by_cases full : c.length = 4096
    · rw [if_pos full, if_neg fun all => (split.mp all).1 full]
      rfl
    · rw [if_neg full]
      by_cases others : ∀ x ∈ rest, x.length ≠ 4096
      · rw [if_pos others, if_pos (split.mpr ⟨full, others⟩)]
        rfl
      · rw [if_neg others, if_neg fun all => others (split.mp all).2]
        rfl

theorem sentBefore_all (accepts : Accepts ret length) (small : length < 2 ^ 31)
    (below : ∀ i, i < n → (sentBefore ret i : Int) < toInt32 length)
    (reached : toInt32 length ≤ sentBefore ret n)
    (room : ∀ j, sentBefore ret j < length → sentBefore ret j + min length 4095 ≤ length) :
    sentBefore ret n = length := by
  have value := toInt32_small small
  refine Nat.le_antisymm ?_ (by omega)
  cases n with
  | zero => simp [sentBefore]
  | succ n =>
    have last := below n (by omega)
    have left := room n (by omega)
    have taken := (accepts n).2 (by omega)
    rw [sendLen_eq, value] at taken
    rw [sentBefore_succ]
    omega

/-- The reply fits an `int`, every `send` is asked for no more than what is left, and no
chunk fills the receiver's buffer. -/
def ArrivesWhen (ret : Nat → Int) (r : Name) (chunks : List (List UInt8)) : Prop :=
  r.length < 2 ^ 31 ∧
  (∀ j, sentBefore ret j < r.length → sentBefore ret j + min r.length 4095 ≤ r.length) ∧
  ∀ c ∈ chunks, c.length ≠ 4096

/-- Replies arrive whole exactly in this case, whatever lies behind them in memory, for
every way in which `send` accepts them and `recv` cuts them. -/
theorem reply_whole (ret : Nat → Int) (r : Name) (behind : Bytes) (chunks : List (List UInt8))
    (nonempty : r ≠ []) (clean : 0 ∉ r) (accepts : Accepts ret r.length)
    (cuts : ∀ calls, sendResults ret r.length = some calls →
      Cuts chunks (transmitted (inMemory r behind) calls)) :
    ArrivesWhole ret r behind chunks ↔ ArrivesWhen ret r chunks := by
  obtain ⟨n, run, below, reached⟩ := sendResults_eq (fun j => (accepts j).1) r.length
  obtain ⟨fits, stream⟩ := cuts _ run
  have bound := sentBefore_bound accepts below
  have positive : 0 < r.length := List.length_pos_iff.mpr nonempty
  rw [transmitted_eq] at stream
  constructor
  · rintro ⟨calls, sent, whole, inside, parts, prints, again⟩
    obtain rfl := Option.some.inj (run.symm.trans sent)
    rw [transmitted_eq] at whole
    have length : sentBefore ret n = r.length := by rw [← whole, length_slice]
    have small : r.length < 2 ^ 31 := by
      by_contra large
      have := toInt32_large large
      omega
    have value := toInt32_small small
    refine ⟨small, fun j before => ?_, ?_⟩
    · have made : j < n := by
        by_contra late
        have : sentBefore ret n ≤ sentBefore ret j := sentBefore_mono (Nat.le_of_not_lt late)
        omega
      have asked := inside _ (List.mem_map.mpr ⟨j, List.mem_range.mpr made, rfl⟩)
      simp only [callAt, value, sendLen_eq] at asked
      omega
    · rw [printed_all fits (by rw [stream, whole]; exact clean)] at prints
      by_contra full
      rw [if_neg full] at prints
      cases prints
  · rintro ⟨small, room, partly⟩
    have value := toInt32_small small
    have length := sentBefore_all accepts small below reached room
    have whole : slice (inMemory r behind) 0 (sentBefore ret n) = r := by
      rw [length, slice_inMemory]
    rw [whole] at stream
    refine ⟨_, run, by rw [transmitted_eq, whole], fun c member => ?_, chunks, ?_, stream⟩
    · obtain ⟨j, made, rfl⟩ := List.mem_map.mp member
      have before := below j (List.mem_range.mp made)
      have left := room j (by omega)
      simp only [callAt, value, sendLen_eq]
      omega
    · rw [printed_all fits (by rw [stream]; exact clean), if_pos partly]

end

def longReply : Name := List.replicate 8190 104

theorem longReply_sent : sendResults (fun _ => 4095) longReply.length =
    some [⟨0, 4095, 4095⟩, ⟨4095, 4095, 4095⟩] := by
  rw [longReply, List.length_replicate]
  decide +kernel

/-- It arrives in three chunks. -/
theorem reply_whole_long :
    ArrivesWhole (fun _ => 4095) longReply (fun _ => 7)
        [List.replicate 4000 104, List.replicate 4000 104, List.replicate 190 104] ↔
      ArrivesWhen (fun _ => 4095) longReply
        [List.replicate 4000 104, List.replicate 4000 104, List.replicate 190 104] := by
  have long : longReply.length = 8190 := List.length_replicate
  refine reply_whole (fun _ => 4095) longReply (fun _ => 7) _ (List.ne_nil_of_length_pos (by omega))
    (fun zero => absurd (List.eq_of_mem_replicate zero) (by decide)) (fun _ => ⟨show (0 : Int) < 4095 by decide, fun _ => ?_⟩)
    fun calls run => ⟨fun c member => ?_, ?_⟩
  · rw [long]
    change (4095 : Int) ≤ sendLen (toInt32 8190)
    decide
  · have size : ∃ n, c = List.replicate n 104 ∧ 0 < n ∧ n ≤ 4096 := by
      simp only [List.mem_cons, List.not_mem_nil, or_false] at member
      rcases member with rfl | rfl | rfl
      · exact ⟨4000, rfl, by decide, by decide⟩
      · exact ⟨4000, rfl, by decide, by decide⟩
      · exact ⟨190, rfl, by decide, by decide⟩
    obtain ⟨n, rfl, positive, small⟩ := size
    exact ⟨List.ne_nil_of_length_pos (by rw [List.length_replicate]; exact positive),
      List.length_replicate.trans_le small⟩
  · obtain rfl := Option.some.inj (longReply_sent.symm.trans run)
    have stream : slice (inMemory longReply fun _ => 7) 0 (4095 + 4095) = longReply := by
      rw [← show longReply.length = 4095 + 4095 from long, slice_inMemory]
    rw [slice_append] at stream
    rw [transmitted, List.flatMap_cons, List.flatMap_cons, List.flatMap_nil, List.append_nil]
    refine Eq.trans ?_ stream.symm
    simp only [List.flatten_cons, List.flatten_nil, List.append_nil, List.replicate_append_replicate]
    rfl

/-- When `send` takes the two bytes one at a time, the second call is asked for two bytes
where one is left. -/
theorem reply_whole_overread :
    ¬ ArrivesWhole (fun _ => 1) [104, 105] (fun _ => 0) [[104, 105]] := by
  rintro ⟨calls, run, _, inside, _⟩
  have sent : sendResults (fun _ => 1) [104, 105].length = some [⟨0, 2, 1⟩, ⟨1, 2, 1⟩] := by
    decide +kernel
  obtain rfl := Option.some.inj (sent.symm.trans run)
  exact absurd (inside ⟨1, 2, 1⟩ (by decide)) (by decide)

end CdnwSh
