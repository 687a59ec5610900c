import CdnwSh.State

/-! The scanner of `run_cmd`, which splits a command line into the command and its
arguments. It looks at nothing behind the first newline. -/
namespace CdnwSh

def SH_MAX_ARGS : Nat := 16

def newline : UInt8 := 10
def carriageReturn : UInt8 := 13
def space : UInt8 := 32
def doubleQuote : UInt8 := 34
def singleQuote : UInt8 := 39

structure Scan where
  cmdTok : Option Name
  cmdArgv : List Name
  lastStop : Nat
  qopen : Bool
  dqopen : Bool

def Scan.start : Scan := ⟨none, [], 0, false, false⟩

/-- The `n` bytes of `cmdstr` from index `low` on. -/
def piece (cmdstr : Name) (low n : Nat) : Name := (cmdstr.drop low).take n

/-- An opening quote right behind the last separator is left out of the token. -/
def Scan.skipQuote (sc : Scan) (i : Nat) : Nat :=
  if i = sc.lastStop + 1 then sc.lastStop + 1 else sc.lastStop

/-- The end of the token that a separator at `i` closes: a closing quote before it is
left out. -/
def tokenEnd (cmdstr : Name) (i : Nat) (sc : Scan) : Nat :=
  if 0 < i ∧ (cmdstr[i - 1]? = some doubleQuote ∨ cmdstr[i - 1]? = some singleQuote) ∧
    sc.dqopen = false ∧ sc.qopen = false then i - 1 else i

def endsLine (c : UInt8) : Prop := c = newline ∨ c = carriageReturn

instance : Decidable (endsLine c) := inferInstanceAs (Decidable (_ ∨ _))

/-- One turn of the loop, for the character `c` at index `i`. An argument beyond the
sixteenth is stored behind the end of `cmd_argv`. -/
def scanChar (cmdstr : Name) (i : Nat) (c : UInt8) (sc : Scan) : Option Scan :=
  if c = doubleQuote then
    if sc.dqopen then some { sc with dqopen := false }
    else some { sc with dqopen := true, lastStop := sc.skipQuote i }
  else if c = singleQuote then
    if sc.qopen then some { sc with qopen := false }
    else some { sc with qopen := true, lastStop := sc.skipQuote i }
  else if (c = space ∧ sc.dqopen = false ∧ sc.qopen = false) ∨ endsLine c then
    let idx := tokenEnd cmdstr i sc
    match sc.cmdTok with
    | some _ =>
      if sc.cmdArgv.length < SH_MAX_ARGS then
        let arg := piece cmdstr (sc.lastStop + 1) (idx - sc.lastStop - 1)
        some { sc with cmdArgv := sc.cmdArgv ++ [arg], lastStop := i }
      else none
    | none => some { sc with cmdTok := some (piece cmdstr 0 idx), lastStop := i }
  else some sc

/-- The loop from index `i` on, over the characters that are left. -/
def scanFrom (cmdstr : Name) : Nat → List UInt8 → Scan → Option Scan
  | _, [], sc => some sc
  | i, c :: left, sc => do
    let sc ← scanChar cmdstr i c sc
    if endsLine c then return sc else scanFrom cmdstr (i + 1) left sc

/-- `cmd_tok` and the arguments, which are left over when the line has no separator. -/
def scanLine (cmdstr : Name) : Option Scan := scanFrom cmdstr 0 cmdstr Scan.start

/-- A text up to its first newline, with it; all of it when it has none. -/
def firstLine : Name → Name
  | [] => []
  | c :: rest => if c = newline then [c] else c :: firstLine rest

theorem firstLine_starts (t : Name) : firstLine t <+: t := by
  induction t with
  | nil => exact List.prefix_rfl
  | cons c rest ih =>
    rw [firstLine]
    split
    · exact ⟨rest, rfl⟩
    · exact (List.cons_prefix_cons).mpr ⟨rfl, ih⟩

theorem firstLine_append_newline (clean : newline ∉ p) :
    firstLine (p ++ newline :: q) = p ++ [newline] := by
  induction p with
  | nil => rfl
  | cons c rest ih =>
    simp only [List.mem_cons, not_or] at clean
    rw [List.cons_append, firstLine, if_neg (Ne.symm clean.1), ih clean.2]
    rfl

/-- A line that a text starts with is its first line. -/
theorem firstLine_eq (clean : newline ∉ p) (starts : p ++ [newline] <+: t) :
    firstLine t = p ++ [newline] := by
  obtain ⟨q, rfl⟩ := starts
  rw [List.append_assoc]
  exact firstLine_append_newline clean

theorem piece_prefix (inside : low + n ≤ p.length) : piece (p ++ q) low n = piece p low n := by
  rw [piece, piece, List.drop_append_of_le_length (by omega),
    List.take_append_of_le_length (by rw [List.length_drop]; omega)]

theorem tokenEnd_le : tokenEnd cmdstr i sc ≤ i := by
  rw [tokenEnd]; split <;> omega

theorem tokenEnd_prefix (inside : i ≤ p.length) : tokenEnd (p ++ q) i sc = tokenEnd p i sc := by
  rw [tokenEnd, tokenEnd]
  by_cases first : 0 < i
  · rw [List.getElem?_append_left (by omega)]
  · simp [first]

theorem scanChar_prefix (inside : i ≤ p.length) (c : UInt8) (sc : Scan) :
    scanChar (p ++ q) i c sc = scanChar p i c sc := by
  have within : tokenEnd p i sc ≤ i := tokenEnd_le
  have argument : piece (p ++ q) (sc.lastStop + 1) (tokenEnd p i sc - sc.lastStop - 1) =
      piece p (sc.lastStop + 1) (tokenEnd p i sc - sc.lastStop - 1) := by
    by_cases room : sc.lastStop + 1 ≤ tokenEnd p i sc
    · exact piece_prefix (by omega)
    · have none : tokenEnd p i sc - sc.lastStop - 1 = 0 := by omega
      rw [none, piece, piece, List.take_zero, List.take_zero]
  have command : piece (p ++ q) 0 (tokenEnd p i sc) = piece p 0 (tokenEnd p i sc) :=
    piece_prefix (by omega)
  simp only [scanChar, tokenEnd_prefix inside, argument, command]

theorem scanFrom_prefix (inside : i + left.length ≤ p.length) (sc : Scan) :
    scanFrom (p ++ q) i left sc = scanFrom p i left sc := by
  induction left generalizing i sc with
  | nil => rfl
  | cons c rest ih =>
    rw [List.length_cons] at inside
    have tail (sc : Scan) : scanFrom (p ++ q) (i + 1) rest sc = scanFrom p (i + 1) rest sc :=
      ih (by omega) sc
    have here : scanChar (p ++ q) i c sc = scanChar p i c sc := scanChar_prefix (by omega) c sc
    simp only [scanFrom, here, tail]

theorem scanFrom_firstLine (cmdstr left : Name) (i : Nat) (sc : Scan) :
    scanFrom cmdstr i left sc = scanFrom cmdstr i (firstLine left) sc := by
  induction left generalizing i sc with
  | nil => rfl
  | cons c rest ih =>
    rw [firstLine]
    split
    next stops =>
      have ends : endsLine c := .inl stops
      simp only [scanFrom, if_pos ends]
    next =>
      simp only [scanFrom, ih]

/-- Of what is handed to `run_cmd` only the first line counts. -/
theorem scanLine_firstLine (cmdstr : Name) : scanLine cmdstr = scanLine (firstLine cmdstr) := by
  obtain ⟨behind, whole⟩ := firstLine_starts cmdstr
  calc scanLine cmdstr
      = scanFrom cmdstr 0 (firstLine cmdstr) Scan.start := scanFrom_firstLine ..
    _ = scanFrom (firstLine cmdstr ++ behind) 0 (firstLine cmdstr) Scan.start := by rw [whole]
    _ = scanLine (firstLine cmdstr) := scanFrom_prefix (by omega) _

end CdnwSh
