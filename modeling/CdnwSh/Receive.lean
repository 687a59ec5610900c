import CdnwSh.Texts
import CdnwSh.Directory

/-! The receiving side of both connections: `recv_cmd` and `recv_results` store what
`recv` delivers, or an error code behind a NUL, in one zeroed buffer, and the run loop
takes a buffer that starts with NUL for an error. -/
namespace CdnwSh

def SH_MAX_STR : Nat := 256
def SVR_MAX_PAYLOAD : Nat := 4096

/-- The outcomes of `recv`; `chunk` is what it stores in the buffer. -/
inductive Received where
  | failed (errno : Int)
  | closed
  | bytes (chunk : List UInt8)

def Received.Fits (size : Nat) : Received → Prop
  | failed _ | closed => True
  | bytes chunk => chunk ≠ [] ∧ chunk.length ≤ size

/-- An `int` stored in a `char`, and a `char`, which has a sign, read as an `int`. -/
def toChar (n : Int) : UInt8 := UInt8.ofNat (n % 256).toNat
def ofChar (c : UInt8) : Int := (c.toNat : Int).bmod 256

/-- The zeroed buffer of `size` bytes that is handed to `recv`. -/
def received (size : Nat) : Received → List UInt8
  | .failed errno => [0, toChar SH_ERR_RECV, toChar errno] ++ List.replicate (size - 3) 0
  | .closed => List.replicate size 0
  | .bytes chunk => chunk ++ List.replicate (size - chunk.length) 0

def recvCmd (r : Received) : List UInt8 := received SH_MAX_STR r

/-- Errors are given the code of `recv_cmd`, not `SH_ERR_CRECV`. -/
def recvResults (r : Received) : List UInt8 := received SVR_MAX_PAYLOAD r

/-- The error branch of `run`: `run_err` and the errno it prints. -/
def errorBranch (result : List UInt8) : Option (Int × Int) :=
  match result with
  | first :: code :: errno :: _ => if first = 0 then some (ofChar code, ofChar errno) else none
  | _ => none

def Received.error : Received → Option (Int × Int)
  | failed errno => some (SH_ERR_RECV, errno)
  | closed | bytes _ => none

/-- The branch taken tells what `recv` did, and the table of error strings is read
inside its bounds. -/
structure Recovered (result : List UInt8) (r : Received) : Prop where
  branch : errorBranch result = r.error
  table : ∀ code errno, errorBranch result = some (code, errno) → ErrInTable code

/-- A failure whose errno fits in a `char`, or a payload that does not start with NUL. -/
def Unambiguous : Received → Prop
  | .failed errno => -128 ≤ errno ∧ errno < 128
  | .closed => False
  | .bytes chunk => chunk.head? ≠ some 0

theorem toChar_toNat (n : Int) : (toChar n).toNat = (n % 256).toNat := by
  have small : (n % 256).toNat < 256 := by omega
  exact UInt8.toNat_ofNat_of_lt' small

theorem ofChar_toChar_eq (n : Int) : ofChar (toChar n) = n.bmod 256 := by
  unfold ofChar
  rw [toChar_toNat]
  have back : ((n % 256).toNat : Int) = n % 256 := by omega
  rw [back]
  exact Int.emod_bmod n 256

theorem ofChar_toChar : ofChar (toChar n) = n ↔ -128 ≤ n ∧ n < 128 := by
  rw [ofChar_toChar_eq, Int.bmod_def]
  split <;> omega

section
variable {size : Nat} {r : Received}

theorem received_length (room : 3 ≤ size) (fits : r.Fits size) : (received size r).length = size := by
  cases r with
  | failed errno => simp [received]; omega
  | closed => simp [received]
  | bytes chunk =>
    have := fits.2
    simp [received]; omega

theorem errorBranch_some (first : l.head? = some 0) (room : 3 ≤ l.length) :
    ∃ code errno, errorBranch l = some (code, errno) := by
  match l, room with
  | c :: code :: errno :: _, _ =>
    obtain rfl := Option.some.inj first
    exact ⟨_, _, rfl⟩

theorem errorBranch_none (first : l.head? ≠ some 0) : errorBranch l = none := by
  match l with
  | [] | [_] | [_, _] => rfl
  | c :: code :: errno :: _ =>
    rw [errorBranch, if_neg fun zero => first (congrArg some zero)]

theorem cstr_terminated (clean : 0 ∉ c) : cstr (c ++ 0 :: rest) = c := by
  rw [cstr, List.takeWhile_append_of_pos fun b inside => by
    simp only [ne_eq, decide_eq_true_eq]; rintro rfl; exact clean inside]
  simp

theorem cstr_received : cstr (received size (.bytes chunk)) = cstr chunk := by
  have zeros (n : Nat) : (List.replicate n (0 : UInt8)).takeWhile (· ≠ 0) = [] := by
    cases n with
    | zero => rfl
    | succ n => rfl
  rw [cstr, received, List.takeWhile_append, zeros, List.append_nil]
  split
  next whole => exact ((List.takeWhile_prefix _).eq_of_length whole).symm
  next => rfl

theorem received_payload (nonempty : chunk ≠ []) (clean : 0 ∉ chunk) :
    errorBranch (received size (.bytes chunk)) = none := by
  refine errorBranch_none fun zero => ?_
  cases chunk with
  | nil => contradiction
  | cons b rest =>
    obtain rfl : b = 0 := Option.some.inj zero
    exact clean List.mem_cons_self

theorem received_string (short : chunk.length < size) (clean : 0 ∉ chunk) :
    0 ∈ received size (.bytes chunk) ∧ cstr (received size (.bytes chunk)) = chunk := by
  obtain ⟨n, count⟩ : ∃ n, size - chunk.length = n + 1 := ⟨size - chunk.length - 1, by omega⟩
  have buffer : received size (.bytes chunk) = chunk ++ 0 :: List.replicate n 0 := by
    rw [received, count, List.replicate_succ]
  rw [buffer]
  exact ⟨by simp, cstr_terminated clean⟩

/-- Both receivers recover what happened exactly in the unambiguous cases. -/
theorem recovered_iff (room : 3 ≤ size) (fits : r.Fits size) :
    Recovered (received size r) r ↔ Unambiguous r := by
  have length := received_length room fits
  cases r with
  | failed errno =>
    have code : ofChar (toChar SH_ERR_RECV) = SH_ERR_RECV := ofChar_toChar.mpr (by decide)
    have branch : errorBranch (received size (.failed errno)) =
        some (SH_ERR_RECV, ofChar (toChar errno)) := by
      rw [← code]; rfl
    constructor
    · intro recovered
      have same := branch.symm.trans recovered.branch
      simp only [Received.error, Option.some.injEq, Prod.mk.injEq, true_and] at same
      exact ofChar_toChar.mp same
    · intro fitsChar
      refine ⟨?_, fun code errno' taken => ?_⟩
      · rw [branch, ofChar_toChar.mpr fitsChar]
        rfl
      · rw [branch] at taken
        cases taken
        decide
  | closed =>
    refine ⟨fun recovered => ?_, False.elim⟩
    obtain ⟨n, rfl⟩ := Nat.exists_eq_add_of_le' room
    have branch := recovered.branch
    simp [received, List.replicate_succ, errorBranch, Received.error] at branch
  | bytes chunk =>
    obtain ⟨nonempty, _⟩ := fits
    have head : (received size (.bytes chunk)).head? = chunk.head? := by
      cases chunk with
      | nil => contradiction
      | cons => rfl
    constructor
    · intro recovered zero
      obtain ⟨code, errno, taken⟩ := errorBranch_some (head.trans zero) (by omega)
      rw [recovered.branch] at taken
      cases taken
    · intro first
      have branch := errorBranch_none (show (received size (.bytes chunk)).head? ≠ some 0 by rwa [head])
      refine ⟨branch, fun code errno taken => ?_⟩
      rw [branch] at taken
      cases taken

end

/-- For both connections and every outcome of `recv`. -/
theorem receive_recovered (r : Received) :
    (r.Fits SH_MAX_STR → (Recovered (recvCmd r) r ↔ Unambiguous r)) ∧
    (r.Fits SVR_MAX_PAYLOAD → (Recovered (recvResults r) r ↔ Unambiguous r)) :=
  ⟨recovered_iff (by decide), recovered_iff (by decide)⟩

/-- A payload of one letter is taken for what it is. -/
theorem receive_recovered_letter :
    (Recovered (recvCmd (.bytes [97])) (.bytes [97]) ↔ Unambiguous (.bytes [97])) ∧
    (Recovered (recvResults (.bytes [97])) (.bytes [97]) ↔ Unambiguous (.bytes [97])) :=
  ⟨(receive_recovered (.bytes [97])).1 ⟨by decide, by decide⟩,
    (receive_recovered (.bytes [97])).2 ⟨by decide, by decide⟩⟩

/-- An orderly close is reported as an error with the text of success, and a peer that
sends a NUL and the byte 0x80 makes `run` read 128 entries into a table of 19. -/
theorem receive_confused :
    ¬ Recovered (recvCmd .closed) .closed ∧
    ¬ (∀ code errno, errorBranch (recvCmd (.bytes [0, 128])) = some (code, errno) → ErrInTable code) := by
  constructor
  · intro recovered
    exact (@recovered_iff SH_MAX_STR .closed (by decide) trivial).mp recovered
  · intro inside
    exact absurd (inside (-128) 0 (by decide +kernel)) (by decide)

end CdnwSh
