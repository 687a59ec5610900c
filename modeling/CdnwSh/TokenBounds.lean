import CdnwSh.Library.LeastIndex
import CdnwSh.Quoting
import CdnwSh.Receive

/-! The memory that the scanner of `run_cmd` writes. Every separator it reaches stores one
token in a block of its own; the lengths are differences of two indices that the quotes move,
and the block's pointer goes into `cmd_argv`, which has sixteen places. -/
namespace CdnwSh

open LeastIndex

/-- The test that stores a token. -/
def Separates (c : UInt8) (sc : Scan) : Prop :=
  (c = space ∧ sc.dqopen = false ∧ sc.qopen = false) ∨ endsLine c

/-- The turns of the loop: it is about to look at index `i`. -/
inductive ScanReached (cmdstr : Name) : Nat → Scan → Prop where
  | start : ScanReached cmdstr 0 Scan.start
  | turn : ScanReached cmdstr i sc → cmdstr[i]? = some c → ¬ endsLine c →
      scanChar cmdstr i c sc = some sc' → ScanReached cmdstr (i + 1) sc'

/-- One stored token: its place in `cmd_argv` (`none` for `cmd_tok`), the bytes that are
allocated, the bytes that are copied and the index of the terminator. -/
structure Store where
  place : Option Nat
  allocated : Int
  copied : Int
  terminator : Int

def sepIdx (cmdstr : Name) (i : Nat) (sc : Scan) : Int :=
  if 0 < i ∧ (cmdstr[i - 1]? = some doubleQuote ∨ cmdstr[i - 1]? = some singleQuote) ∧
    sc.dqopen = false ∧ sc.qopen = false then (i : Int) - 1 else i

def Scan.store (cmdstr : Name) (i : Nat) (sc : Scan) : Store :=
  let idx := sepIdx cmdstr i sc
  match sc.cmdTok with
  | some _ => ⟨some sc.cmdArgv.length, idx - sc.lastStop, idx - sc.lastStop - 1, idx - sc.lastStop - 1⟩
  | none => ⟨none, idx + 1, idx, idx⟩

structure Store.Fits (st : Store) : Prop where
  copied : 0 ≤ st.copied
  terminator : 0 ≤ st.terminator ∧ st.terminator < st.allocated
  place : ∀ k, st.place = some k → k < SH_MAX_ARGS

def StoredInBounds (cmdstr : Name) : Prop :=
  ∀ i c sc, ScanReached cmdstr i sc → cmdstr[i]? = some c → Separates c sc →
    (sc.store cmdstr i).Fits

/-- Position `i` of a line separates: no line end before it, and it is a line end, or a space
with an even number of each quote before it. -/
def Separator (cmdstr : Name) (i : Nat) : Prop :=
  (∀ c ∈ cmdstr.take i, ¬ endsLine c) ∧
    (cmdstr[i]? = some newline ∨ cmdstr[i]? = some carriageReturn ∨
      cmdstr[i]? = some space ∧ (cmdstr.take i).count doubleQuote % 2 = 0 ∧
        (cmdstr.take i).count singleQuote % 2 = 0)

instance (cmdstr : Name) : DecidablePred (Separator cmdstr) :=
  fun _ => inferInstanceAs (Decidable (_ ∧ _))

def separators (cmdstr : Name) : Nat := Nat.count (Separator cmdstr) cmdstr.length

def Scan.tokens (sc : Scan) : Nat :=
  match sc.cmdTok with
  | some _ => sc.cmdArgv.length + 1
  | none => 0

/-- The state at index `i` in terms of the characters before it. The start of an argument may
lie right behind the character before `i` only if that is no quote or a quote is still open. -/
structure Scanned (cmdstr : Name) (i : Nat) (sc : Scan) : Prop where
  inLine : ∀ c ∈ cmdstr.take i, ¬ endsLine c
  flag : ∀ q, sc.flag q = decide ((cmdstr.take i).count q.byte % 2 = 1)
  tokens : sc.tokens = Nat.count (Separator cmdstr) i
  first : sc.cmdTok = none → sc.cmdArgv = []
  behind : sc.cmdTok ≠ none → sc.lastStop < i
  last : sc.cmdTok ≠ none → sc.lastStop + 1 = i →
    (∀ q : Quote, cmdstr[sc.lastStop]? ≠ some q.byte) ∨ ∃ q, sc.flag q = true

section
variable {cmdstr : Name} {i : Nat} {c : UInt8} {sc sc' : Scan}

theorem Scanned.start : Scanned cmdstr 0 Scan.start where
  inLine := fun c member => absurd member List.not_mem_nil
  flag := fun q => by cases q <;> rfl
  tokens := (Nat.count_zero _).symm
  first := fun _ => rfl
  behind := fun begun => absurd rfl begun
  last := fun begun => absurd rfl begun

theorem take_next (here : cmdstr[i]? = some c) : cmdstr.take (i + 1) = cmdstr.take i ++ [c] := by
  rw [List.take_add_one, here]
  rfl

theorem Scanned.closed_iff (scanned : Scanned cmdstr i sc) (q : Quote) :
    sc.flag q = false ↔ (cmdstr.take i).count q.byte % 2 = 0 := by
  rw [scanned.flag, decide_eq_false_iff_not]
  omega

theorem Scanned.separates_iff (scanned : Scanned cmdstr i sc) (here : cmdstr[i]? = some c) :
    Separates c sc ↔ Separator cmdstr i := by
  have double := scanned.closed_iff .double
  have single := scanned.closed_iff .single
  have inLine := scanned.inLine
  simp only [Separates, Separator, endsLine, here, Option.some.injEq]
  change sc.dqopen = false ↔ (cmdstr.take i).count doubleQuote % 2 = 0 at double
  change sc.qopen = false ↔ (cmdstr.take i).count singleQuote % 2 = 0 at single
  rw [double, single]
  tauto

theorem Scanned.length_pos (scanned : Scanned cmdstr i sc) (begun : sc.cmdTok ≠ none) :
    1 ≤ sepIdx cmdstr i sc - sc.lastStop := by
  have behind := scanned.behind begun
  rw [sepIdx]
  split
  next stripped =>
    obtain ⟨_, quote, dq, q⟩ := stripped
    have apart : sc.lastStop + 1 ≠ i := by
      intro next
      rw [show i - 1 = sc.lastStop by omega] at quote
      rcases scanned.last begun next with other | ⟨k, opened⟩
      · rcases quote with double | single
        · exact other .double double
        · exact other .single single
      · cases k
        · exact Bool.false_ne_true (q.symm.trans opened)
        · exact Bool.false_ne_true (dq.symm.trans opened)
    omega
  next => omega

/-- The lengths are always right, so only the place in `cmd_argv` may be wrong. -/
theorem Scanned.fits_iff (scanned : Scanned cmdstr i sc) :
    (sc.store cmdstr i).Fits ↔ sc.tokens ≤ SH_MAX_ARGS := by
  rw [Scan.store, Scan.tokens]
  cases tok : sc.cmdTok with
  | none =>
    have idx : 0 ≤ sepIdx cmdstr i sc := by
      rw [sepIdx]
      split <;> omega
    exact iff_of_true ⟨idx, ⟨idx, by dsimp only; omega⟩, fun k place => by cases place⟩ (Nat.zero_le _)
  | some cmd =>
    have length := scanned.length_pos (by rw [tok]; exact Option.some_ne_none cmd)
    constructor
    · exact fun fits => fits.place _ rfl
    · intro few
      refine ⟨?_, ⟨?_, ?_⟩, fun k place => ?_⟩
      · dsimp only
        omega
      · dsimp only
        omega
      · dsimp only
        omega
      · cases place
        exact few

theorem sepIdx_eq : sepIdx cmdstr i sc = tokenEnd cmdstr i sc := by
  rw [sepIdx, tokenEnd]
  split
  · omega
  · rfl

theorem Scanned.stored (scanned : Scanned cmdstr i sc) (here : cmdstr[i]? = some c)
    (quotes : ∀ q : Quote, c ≠ q.byte) (separates : Separates c sc)
    (step : scanChar cmdstr i c sc = some sc') :
    ∃ token : Name, (token.length : Int) = (sc.store cmdstr i).copied ∧
      (sc.cmdTok = none ∧ sc' = { sc with cmdTok := some token, lastStop := i } ∨
        sc.cmdTok ≠ none ∧ sc' = { sc with cmdArgv := sc.cmdArgv ++ [token], lastStop := i }) := by
  have bound : i < cmdstr.length := (List.getElem?_eq_some_iff.mp here).1
  have within : tokenEnd cmdstr i sc ≤ i := tokenEnd_le
  have double : c ≠ doubleQuote := quotes .double
  have single : c ≠ singleQuote := quotes .single
  have test : (c = space ∧ sc.dqopen = false ∧ sc.qopen = false) ∨ endsLine c := separates
  rw [scanChar, if_neg double, if_neg single, if_pos test] at step
  cases tok : sc.cmdTok with
  | none =>
    simp only [tok] at step
    refine ⟨_, ?_, .inl ⟨rfl, (Option.some.inj step).symm⟩⟩
    rw [Scan.store, tok]
    simp only [sepIdx_eq, piece, List.drop_zero, List.length_take]
    omega
  | some cmd =>
    have length := scanned.length_pos (by rw [tok]; exact Option.some_ne_none cmd)
    rw [sepIdx_eq] at length
    simp only [tok] at step
    split at step
    · refine ⟨_, ?_, .inr ⟨Option.some_ne_none cmd, (Option.some.inj step).symm⟩⟩
      rw [Scan.store, tok]
      simp only [sepIdx_eq, piece, List.length_take, List.length_drop]
      omega
    · cases step

theorem Scanned.inLine_next (scanned : Scanned cmdstr i sc) (here : cmdstr[i]? = some c)
    (inLine : ¬ endsLine c) : ∀ x ∈ cmdstr.take (i + 1), ¬ endsLine x := by
  rw [take_next here]
  intro x member
  rcases List.mem_append.mp member with old | new
  · exact scanned.inLine x old
  · rw [List.mem_singleton.mp new]
    exact inLine

theorem count_next (here : cmdstr[i]? = some c) (b : UInt8) :
    (cmdstr.take (i + 1)).count b = (cmdstr.take i).count b + if c = b then 1 else 0 := by
  rw [take_next here, List.count_append, List.count_singleton]
  simp only [beq_iff_eq]

/-- A quote flips its flag, and an opening one may move the start of the argument behind it. -/
theorem scanChar_flips {q : Quote} (step : scanChar cmdstr i q.byte sc = some sc') :
    sc'.cmdTok = sc.cmdTok ∧ sc'.cmdArgv = sc.cmdArgv ∧
      (∀ k, sc'.flag k = if q = k then !sc.flag q else sc.flag k) ∧
      (sc'.lastStop = sc.lastStop ∨ sc.lastStop + 1 = i ∧ sc'.lastStop = i ∧ sc'.flag q = true) := by
  rw [scanChar_quote] at step
  obtain rfl := Option.some.inj step
  cases flag : sc.flag q with
  | true =>
    rw [if_pos rfl]
    refine ⟨by cases q <;> rfl, by cases q <;> rfl, fun k => ?_, .inl Scan.setFlag_lastStop⟩
    cases q <;> cases k <;> rfl
  | false =>
    rw [if_neg Bool.false_ne_true]
    refine ⟨by cases q <;> rfl, by cases q <;> rfl, fun k => by cases q <;> cases k <;> rfl, ?_⟩
    by_cases next : i = sc.lastStop + 1
    · exact .inr ⟨next.symm, (if_pos next).trans next.symm, by cases q <;> rfl⟩
    · exact .inl (if_neg next)

theorem Scanned.turn_quote {q : Quote} (scanned : Scanned cmdstr i sc) (here : cmdstr[i]? = some q.byte)
    (inLine : ¬ endsLine q.byte) (step : scanChar cmdstr i q.byte sc = some sc') :
    Scanned cmdstr (i + 1) sc' := by
  obtain ⟨tok, argv, flags, stop⟩ := scanChar_flips step
  have inside : ¬ Separator cmdstr i := by
    rintro ⟨_, found | found | ⟨found, _⟩⟩
    all_goals
      have same := Option.some.inj (here.symm.trans found)
      cases q <;> cases same
  constructor
  case inLine => exact scanned.inLine_next here inLine
  case flag =>
    intro k
    rw [flags, count_next here, scanned.flag, scanned.flag]
    by_cases same : q = k
    · subst same
      rcases Nat.mod_two_eq_zero_or_one ((cmdstr.take i).count q.byte) with even | odd
      · simp [Nat.add_mod, even]
      · simp [Nat.add_mod, odd]
    · have apart : q.byte ≠ k.byte := by
        cases q <;> cases k <;> first | exact absurd rfl same | decide
      rw [if_neg same, if_neg apart, Nat.add_zero]
  case tokens =>
    rw [Nat.count_succ, if_neg inside, Nat.add_zero, ← scanned.tokens, Scan.tokens, Scan.tokens, tok,
      argv]
  case first =>
    rw [tok, argv]
    exact scanned.first
  case behind =>
    rw [tok]
    intro begun
    have := scanned.behind begun
    omega
  case last =>
    rw [tok]
    intro begun next
    have := scanned.behind begun
    rcases stop with same | ⟨_, _, opened⟩
    · omega
    · exact .inr ⟨q, opened⟩

/-- A character that is no quote and separates nothing changes nothing. -/
theorem Scanned.turn_plain (scanned : Scanned cmdstr i sc) (here : cmdstr[i]? = some c)
    (inLine : ¬ endsLine c) (quotes : ∀ q : Quote, c ≠ q.byte) (inside : ¬ Separates c sc) :
    Scanned cmdstr (i + 1) sc where
  inLine := scanned.inLine_next here inLine
  flag := fun q => by rw [count_next here, if_neg (quotes q)]; exact scanned.flag q
  tokens := by
    rw [Nat.count_succ, if_neg (mt (scanned.separates_iff here).mpr inside)]
    exact scanned.tokens
  first := scanned.first
  behind := fun begun => Nat.lt_succ_of_lt (scanned.behind begun)
  last := fun begun here => by
    have := scanned.behind begun
    omega

theorem Scanned.turn_space (scanned : Scanned cmdstr i sc) (here : cmdstr[i]? = some c)
    (inLine : ¬ endsLine c) (quotes : ∀ q : Quote, c ≠ q.byte) (separates : Separates c sc)
    (step : scanChar cmdstr i c sc = some sc') : Scanned cmdstr (i + 1) sc' := by
  obtain ⟨token, _, split⟩ := scanned.stored here quotes separates step
  obtain ⟨stop, flags, tokens, begun⟩ : sc'.lastStop = i ∧ (∀ q, sc'.flag q = sc.flag q) ∧
      sc'.tokens = sc.tokens + 1 ∧ sc'.cmdTok ≠ none := by
    rcases split with ⟨tok, rfl⟩ | ⟨begun, rfl⟩
    · refine ⟨rfl, fun q => by cases q <;> rfl, ?_, Option.some_ne_none _⟩
      simp [Scan.tokens, tok, scanned.first tok]
    · obtain ⟨cmd, tok⟩ := Option.ne_none_iff_exists'.mp begun
      refine ⟨rfl, fun q => by cases q <;> rfl, ?_, begun⟩
      simp [Scan.tokens, tok]
  constructor
  case inLine => exact scanned.inLine_next here inLine
  case flag =>
    intro q
    rw [flags, count_next here, if_neg (quotes q)]
    exact scanned.flag q
  case tokens =>
    rw [tokens, scanned.tokens, Nat.count_succ, if_pos ((scanned.separates_iff here).mp separates)]
  case first => exact fun none => absurd none begun
  case behind => exact fun _ => by omega
  case last =>
    refine fun _ _ => .inl fun q quote => ?_
    rw [stop, here] at quote
    exact quotes q (Option.some.inj quote)

theorem Scanned.turn (scanned : Scanned cmdstr i sc) (here : cmdstr[i]? = some c)
    (inLine : ¬ endsLine c) (step : scanChar cmdstr i c sc = some sc') : Scanned cmdstr (i + 1) sc' := by
  by_cases quote : ∃ q : Quote, c = q.byte
  · obtain ⟨q, rfl⟩ := quote
    exact scanned.turn_quote here inLine step
  · have quotes := not_exists.mp quote
    by_cases separates : Separates c sc
    · exact scanned.turn_space here inLine quotes separates step
    · have double : c ≠ doubleQuote := quotes .double
      have single : c ≠ singleQuote := quotes .single
      have test : ¬ ((c = space ∧ sc.dqopen = false ∧ sc.qopen = false) ∨ endsLine c) := separates
      rw [scanChar, if_neg double, if_neg single, if_neg test] at step
      obtain rfl := Option.some.inj step
      exact scanned.turn_plain here inLine quotes separates

theorem ScanReached.scanned (reached : ScanReached cmdstr i sc) : Scanned cmdstr i sc := by
  induction reached with
  | start => exact .start
  | turn _ here inLine step scanned => exact scanned.turn here inLine step

/-- Only a token without a place stops the loop. -/
theorem scanChar_defined (room : Separates c sc → sc.tokens ≤ SH_MAX_ARGS) :
    ∃ sc', scanChar cmdstr i c sc = some sc' := by
  rw [scanChar]
  split
  · split <;> exact ⟨_, rfl⟩
  · split
    · split <;> exact ⟨_, rfl⟩
    · split
      next separates =>
        have few := room separates
        rw [Scan.tokens] at few
        cases tok : sc.cmdTok with
        | none => exact ⟨_, rfl⟩
        | some cmd =>
          rw [tok] at few
          have place : sc.cmdArgv.length < SH_MAX_ARGS := few
          simp only [if_pos place]
          exact ⟨_, rfl⟩
      · exact ⟨_, rfl⟩

theorem exists_reached (inLine : ∀ c ∈ cmdstr.take i, ¬ endsLine c)
    (few : Nat.count (Separator cmdstr) i ≤ SH_MAX_ARGS + 1) (bound : i ≤ cmdstr.length) :
    ∃ sc, ScanReached cmdstr i sc := by
  induction i with
  | zero => exact ⟨_, .start⟩
  | succ i ih =>
    have here : cmdstr[i]? = some cmdstr[i] := List.getElem?_eq_getElem bound
    rw [take_next here] at inLine
    obtain ⟨sc, reached⟩ := ih (fun c member => inLine c (List.mem_append_left _ member))
      ((Nat.count_monotone _ (Nat.le_succ i)).trans few) (Nat.le_of_lt bound)
    have scanned := reached.scanned
    obtain ⟨sc', step⟩ : ∃ sc', scanChar cmdstr i cmdstr[i] sc = some sc' := by
      refine scanChar_defined fun separates => ?_
      rw [Nat.count_succ, if_pos ((scanned.separates_iff here).mp separates)] at few
      rw [scanned.tokens]
      omega
    exact ⟨sc', .turn reached here (inLine _ (List.mem_append_right _ List.mem_cons_self)) step⟩

/-- The eighteenth separator stores behind the end of `cmd_argv`. -/
theorem overrun (many : SH_MAX_ARGS + 1 < separators cmdstr) : ¬ StoredInBounds cmdstr := by
  obtain ⟨i, bound, separator, count⟩ := exists_count_eq many
  obtain ⟨sc, reached⟩ := exists_reached separator.1 count.le bound.le
  have here : cmdstr[i]? = some cmdstr[i] := List.getElem?_eq_getElem bound
  intro inBounds
  have fits := inBounds i _ sc reached here ((reached.scanned.separates_iff here).mpr separator)
  rw [reached.scanned.fits_iff, reached.scanned.tokens, count] at fits
  omega

theorem inBounds_few (few : separators cmdstr ≤ SH_MAX_ARGS + 1) : StoredInBounds cmdstr := by
  intro i c sc reached here separates
  have scanned := reached.scanned
  have bound : i < cmdstr.length := (List.getElem?_eq_some_iff.mp here).1
  have counted : Nat.count (Separator cmdstr) (i + 1) ≤ separators cmdstr :=
    Nat.count_monotone _ bound
  rw [Nat.count_succ, if_pos ((scanned.separates_iff here).mp separates)] at counted
  rw [scanned.fits_iff, scanned.tokens]
  omega

end

/-- Whatever the bytes of the line: every length and every terminator are right, and all
tokens have a place, if and only if the line has at most seventeen separators. -/
theorem tokenizer_in_bounds (cmdstr : Name) :
    StoredInBounds cmdstr ↔ separators cmdstr ≤ SH_MAX_ARGS + 1 :=
  ⟨fun inBounds => Nat.not_lt.mp fun many => overrun many inBounds, inBounds_few⟩

def seventeenArguments : Name := 97 :: ((List.replicate 17 [space, 98]).flatten ++ [newline])

theorem tokenizer_overrun :
    seventeenArguments.length < SH_MAX_STR ∧ ¬ StoredInBounds seventeenArguments :=
  ⟨by decide, overrun (by decide +kernel)⟩

end CdnwSh
