import CdnwSh.CommandLine

/-! Command lines made of quoted arguments, and what `run_cmd` splits them into. The scanner
keeps a flag for each kind of quote, and both flags see every quote of the line: a quote of
the other kind inside of an argument is only passed over when it has a partner there and
does not stand first. -/
namespace CdnwSh

inductive Quote where
  | single
  | double
  deriving DecidableEq

namespace Quote

def byte : Quote → UInt8
  | single => singleQuote
  | double => doubleQuote

def other : Quote → Quote
  | single => double
  | double => single

end Quote

/-- Free of spaces and quotes. -/
def BareText (t : Name) : Prop :=
  space ∉ t ∧ doubleQuote ∉ t ∧ singleQuote ∉ t

instance : Decidable (BareText t) := inferInstanceAs (Decidable (_ ∧ _ ∧ _))

/-- An argument of a command line: written bare, or enclosed in a quote that it does not
contain. -/
structure Argument where
  content : Name
  quote : Option Quote
  oneLine : newline ∉ content ∧ carriageReturn ∉ content
  bare : quote = none → content ≠ [] ∧ BareText content
  enclosed : ∀ q, quote = some q → q.byte ∉ content

def Argument.written (a : Argument) : Name :=
  match a.quote with
  | none => a.content
  | some q => q.byte :: (a.content ++ [q.byte])

/-- The line behind the command: the arguments with a space before each, and a newline. -/
def argumentText : List Argument → Name
  | [] => [newline]
  | a :: rest => space :: (a.written ++ argumentText rest)

/-- The command and its arguments, joined with single spaces. -/
def commandLine (cmd : Name) (args : List Argument) : Name := cmd ++ argumentText args

/-- Quotes of the other kind stand in pairs inside of the argument, none of them first. -/
def Argument.Survives (a : Argument) : Prop :=
  ∀ q, a.quote = some q →
    a.content.head? ≠ some q.other.byte ∧ a.content.count q.other.byte % 2 = 0

def Scan.flag (sc : Scan) : Quote → Bool
  | .single => sc.qopen
  | .double => sc.dqopen

def Scan.setFlag (sc : Scan) : Quote → Bool → Scan
  | .single, b => { sc with qopen := b }
  | .double, b => { sc with dqopen := b }

section
variable {cmdstr : Name} {sc : Scan} {q : Quote} {i : Nat} {c : UInt8}

theorem scanChar_quote : scanChar cmdstr i q.byte sc =
    some (if sc.flag q then sc.setFlag q false
      else { sc.setFlag q true with lastStop := sc.skipQuote i }) := by
  cases q <;> cases sc with
  | mk cmdTok cmdArgv lastStop qopen dqopen =>
    cases qopen <;> cases dqopen <;> rfl

theorem scanChar_plain (quotes : ∀ q : Quote, c ≠ q.byte) (inLine : ¬ endsLine c)
    (open' : c = space → sc.dqopen = true ∨ sc.qopen = true) : scanChar cmdstr i c sc = some sc := by
  have double : c ≠ doubleQuote := quotes .double
  have single : c ≠ singleQuote := quotes .single
  rw [scanChar, if_neg double, if_neg single, if_neg]
  rintro (⟨isSpace, closed, closed'⟩ | ends)
  · rcases open' isSpace with dq | q
    · rw [closed] at dq; cases dq
    · rw [closed'] at q; cases q
  · exact inLine ends

theorem scanFrom_cons (inLine : ¬ endsLine c) :
    scanFrom cmdstr i (c :: left) sc = (scanChar cmdstr i c sc).bind fun sc =>
      scanFrom cmdstr (i + 1) left sc := by
  simp only [scanFrom, if_neg inLine]
  rfl

/-- A segment without quotes, whose spaces stand between open quotes. -/
theorem scanFrom_plain (quotes : ∀ c ∈ seg, ∀ q : Quote, c ≠ q.byte)
    (inLine : ∀ c ∈ seg, ¬ endsLine c)
    (open' : space ∈ seg → sc.dqopen = true ∨ sc.qopen = true) :
    scanFrom cmdstr i (seg ++ left) sc = scanFrom cmdstr (i + seg.length) left sc := by
  induction seg generalizing i with
  | nil => rfl
  | cons c rest ih =>
    have plain : scanChar cmdstr i c sc = some sc :=
      scanChar_plain (quotes c List.mem_cons_self) (inLine c List.mem_cons_self)
        fun isSpace => open' (by simp [isSpace])
    rw [List.cons_append, scanFrom_cons (inLine c List.mem_cons_self), plain, Option.bind_some,
      ih (fun d member => quotes d (List.mem_cons_of_mem _ member))
        (fun d member => inLine d (List.mem_cons_of_mem _ member))
        (fun member => open' (List.mem_cons_of_mem _ member)),
      List.length_cons]
    congr 1
    omega

@[simp] theorem Scan.setFlag_lastStop : (sc.setFlag q b).lastStop = sc.lastStop := by
  cases q <;> rfl

@[simp] theorem Scan.setFlag_flag : (sc.setFlag q b).flag q = b := by cases q <;> rfl

@[simp] theorem Scan.setFlag_other : (sc.setFlag q.other b).flag q = sc.flag q := by
  cases q <;> rfl

@[simp] theorem Scan.setFlag_setFlag : (sc.setFlag q a).setFlag q b = sc.setFlag q b := by
  cases q <;> rfl

theorem Scan.setFlag_self : sc.setFlag q (sc.flag q) = sc := by cases q <;> rfl

theorem Scan.open_of_flag (flag : sc.flag q = true) : sc.dqopen = true ∨ sc.qopen = true := by
  cases q
  · exact .inr flag
  · exact .inl flag

/-- The content of a quoted argument flips the other flag once for each quote in it. It moves
the start of the token only by a quote that opens right behind it. -/
theorem scanFrom_content (quoted : sc.flag q = true) (clean : q.byte ∉ seg)
    (inLine : ∀ c ∈ seg, ¬ endsLine c) (behind : sc.lastStop + 1 ≤ i)
    (inner : i = sc.lastStop + 1 → sc.flag q.other = true ∨ seg.head? ≠ some q.other.byte) :
    scanFrom cmdstr i (seg ++ left) sc = scanFrom cmdstr (i + seg.length) left
      (sc.setFlag q.other (xor (sc.flag q.other) (seg.count q.other.byte % 2 = 1))) := by
  induction seg generalizing i sc with
  | nil => simp [Scan.setFlag_self]
  | cons c rest ih =>
    simp only [List.mem_cons, not_or] at clean
    have tail : ∀ c ∈ rest, ¬ endsLine c := fun d member => inLine d (List.mem_cons_of_mem _ member)
    rw [List.cons_append, scanFrom_cons (inLine c List.mem_cons_self)]
    by_cases isOther : c = q.other.byte
    · have flips : scanChar cmdstr i c sc = some (sc.setFlag q.other (!sc.flag q.other)) := by
        rw [isOther, scanChar_quote]
        cases flag : sc.flag q.other with
        | true => rfl
        | false =>
          have apart : i ≠ sc.lastStop + 1 := by
            intro first
            rcases inner first with opened | other
            · rw [flag] at opened
              cases opened
            · exact other (by rw [isOther]; rfl)
          rw [if_neg (by simp), Scan.skipQuote, if_neg apart]
          cases q <;> rfl
      rw [flips, Option.bind_some, ih (by simpa using quoted) clean.2 tail (by simp; omega)
        (by simp; omega)]
      have parity : (c :: rest).count q.other.byte = rest.count q.other.byte + 1 := by
        rw [isOther, List.count_cons_self]
      rw [parity, List.length_cons]
      simp only [Scan.setFlag_flag, Scan.setFlag_setFlag]
      congr 1
      · omega
      · congr 1
        cases sc.flag q.other <;> rcases Nat.mod_two_eq_zero_or_one (rest.count q.other.byte) with even | odd <;>
          simp [Nat.add_mod, *]
    · have plain : scanChar cmdstr i c sc = some sc := by
        refine scanChar_plain (fun k => ?_) (inLine c List.mem_cons_self) fun _ =>
          Scan.open_of_flag quoted
        rcases (by cases k <;> cases q <;> simp [Quote.other] : k = q ∨ k = q.other) with rfl | rfl
        · exact Ne.symm clean.1
        · exact isOther
      rw [plain, Option.bind_some, ih quoted clean.2 tail (by omega) (by omega), List.length_cons,
        List.count_cons_of_ne isOther]
      congr 1
      omega

theorem piece_middle (low : n = pre.length) : piece (pre ++ (mid ++ rest)) n mid.length = mid := by
  rw [piece, low, List.drop_left, List.take_left]

theorem argumentText_cons (args : List Argument) : ∃ c left, argumentText args = c :: left ∧
    (c = space ∧ (∃ a rest, args = a :: rest ∧ left = a.written ++ argumentText rest) ∨
      c = newline ∧ args = [] ∧ left = []) := by
  cases args with
  | nil => exact ⟨newline, [], rfl, .inr ⟨rfl, rfl, rfl⟩⟩
  | cons a rest => exact ⟨space, _, rfl, .inl ⟨rfl, a, rest, rfl, rfl⟩⟩

theorem scanChar_separator (sep : c = space ∨ c = newline) (closed : sc.dqopen = false ∧ sc.qopen = false)
    (begun : sc.cmdTok = some tok) (room : sc.cmdArgv.length < SH_MAX_ARGS) :
    scanChar cmdstr i c sc = some { sc with
      cmdArgv := sc.cmdArgv ++ [piece cmdstr (sc.lastStop + 1) (tokenEnd cmdstr i sc - sc.lastStop - 1)],
      lastStop := i } := by
  have double : c ≠ doubleQuote := by rcases sep with rfl | rfl <;> decide
  have single : c ≠ singleQuote := by rcases sep with rfl | rfl <;> decide
  have separates : (c = space ∧ sc.dqopen = false ∧ sc.qopen = false) ∨ endsLine c := by
    rcases sep with rfl | rfl
    · exact .inl ⟨rfl, closed⟩
    · exact .inr (.inl rfl)
  rw [scanChar, if_neg double, if_neg single, if_pos separates]
  simp only [begun]
  rw [if_pos room]

theorem scanChar_tokens (run : scanChar cmdstr i c sc = some sc') (begun : sc.cmdTok = some tok) :
    sc'.cmdTok = some tok ∧
      ((sc'.cmdArgv = sc.cmdArgv ∧ (i ≠ sc.lastStop + 1 → sc'.lastStop = sc.lastStop)) ∨
      ((c = space ∧ sc.dqopen = false ∧ sc.qopen = false) ∨ endsLine c) ∧
      sc'.cmdArgv = sc.cmdArgv ++
        [piece cmdstr (sc.lastStop + 1) (tokenEnd cmdstr i sc - sc.lastStop - 1)]) := by
  rw [scanChar] at run
  split at run
  · split at run <;> cases run
    · exact ⟨begun, .inl ⟨rfl, fun _ => rfl⟩⟩
    · exact ⟨begun, .inl ⟨rfl, fun apart => if_neg apart⟩⟩
  · split at run
    · split at run <;> cases run
      · exact ⟨begun, .inl ⟨rfl, fun _ => rfl⟩⟩
      · exact ⟨begun, .inl ⟨rfl, fun apart => if_neg apart⟩⟩
    · split at run
      next separates =>
        simp only [begun] at run
        split at run
        · cases run
          exact ⟨rfl, .inr ⟨separates, rfl⟩⟩
        · cases run
      · cases run
        exact ⟨begun, .inl ⟨rfl, fun _ => rfl⟩⟩

theorem scanFrom_step (run : scanFrom cmdstr i (c :: left) sc = some final) :
    ∃ sc', scanChar cmdstr i c sc = some sc' ∧
      (endsLine c ∧ final = sc' ∨ scanFrom cmdstr (i + 1) left sc' = some final) := by
  rw [scanFrom] at run
  obtain ⟨sc', step, run⟩ := Option.bind_eq_some_iff.mp run
  refine ⟨sc', step, ?_⟩
  split at run
  next ends => exact .inl ⟨ends, (Option.some.inj run).symm⟩
  next => exact .inr run

theorem scanFrom_tokens (run : scanFrom cmdstr i left sc = some final)
    (begun : sc.cmdTok = some tok) : sc.cmdArgv <+: final.cmdArgv := by
  induction left generalizing i sc with
  | nil => cases run; exact List.prefix_rfl
  | cons c rest ih =>
    obtain ⟨sc', step, run⟩ := scanFrom_step run
    obtain ⟨begun', tokens⟩ := scanChar_tokens step begun
    have one : sc.cmdArgv <+: sc'.cmdArgv := by
      rcases tokens with ⟨same, _⟩ | ⟨_, added⟩
      · rw [same]
      · rw [added]; exact List.prefix_append _ _
    rcases run with ⟨_, rfl⟩ | run
    · exact one
    · exact one.trans (ih run begun')

theorem scanFrom_beyond (run : scanFrom cmdstr i left sc = some final) (begun : sc.cmdTok = some tok)
    (at_p : cmdstr[p]? = some b) (inside : sc.lastStop < p) (behind : p < i)
    (open' : i = p + 1 → sc.dqopen = true ∨ sc.qopen = true) :
    final.cmdArgv = sc.cmdArgv ∨ ∃ arg more, final.cmdArgv = sc.cmdArgv ++ arg :: more ∧ b ∈ arg := by
  induction left generalizing i sc with
  | nil => cases run; exact .inl rfl
  | cons c rest ih =>
    obtain ⟨sc', step, run⟩ := scanFrom_step run
    obtain ⟨begun', tokens⟩ := scanChar_tokens step begun
    rcases tokens with ⟨same, stays⟩ | ⟨separates, added⟩
    · rcases run with ⟨_, rfl⟩ | run
      · exact .inl same
      · rw [← same]
        exact ih run begun' (by rw [stays (by omega)]; exact inside) (by omega) (by omega)
    · have reaches : p + 1 ≤ tokenEnd cmdstr i sc := by
        rw [tokenEnd]
        split
        next stripped =>
          have far : i ≠ p + 1 := by
            intro next
            rcases open' next with dq | q
            · rw [stripped.2.2.1] at dq; cases dq
            · rw [stripped.2.2.2] at q; cases q
          omega
        next => omega
      have contains : b ∈ piece cmdstr (sc.lastStop + 1) (tokenEnd cmdstr i sc - sc.lastStop - 1) := by
        refine List.mem_iff_getElem?.mpr ⟨p - (sc.lastStop + 1), ?_⟩
        rw [piece, List.getElem?_take_of_lt (by omega), List.getElem?_drop, ← at_p]
        congr 1
        omega
      rcases run with ⟨_, rfl⟩ | run
      · exact .inr ⟨_, [], added, contains⟩
      · obtain ⟨more, all⟩ := scanFrom_tokens run begun'
        exact .inr ⟨_, more, by rw [← all, added, List.append_assoc]; rfl, contains⟩

/-- The scanner behind the separator at `n`, with `argv` found so far. -/
def Scan.ready (cmd : Name) (argv : List Name) (n : Nat) : Scan := ⟨some cmd, argv, n, false, false⟩

@[simp] theorem Scan.ready_lastStop : (Scan.ready cmd argv n).lastStop = n := rfl

@[simp] theorem Scan.ready_flag : (Scan.ready cmd argv n).flag q = false := by cases q <;> rfl

theorem Argument.inLine (a : Argument) : ∀ c ∈ a.content, ¬ endsLine c := by
  rintro c member (rfl | rfl)
  · exact a.oneLine.1 member
  · exact a.oneLine.2 member

theorem Argument.scan_bare (a : Argument) (bare : a.quote = none) :
    scanFrom cmdstr i (a.written ++ left) (.ready cmd argv n) =
      scanFrom cmdstr (i + a.content.length) left (.ready cmd argv n) := by
  obtain ⟨_, noSpace, noDouble, noSingle⟩ := a.bare bare
  rw [Argument.written, bare]
  refine scanFrom_plain (fun c member q => ?_) a.inLine fun member => absurd member noSpace
  rintro rfl
  cases q
  · exact noSingle member
  · exact noDouble member

/-- A quoted argument leaves the other flag open when it holds an odd number of other quotes, and
loses one that stands first. -/
theorem Argument.scan_quoted (a : Argument) (quoted : a.quote = some q) (cmdstr left cmd : Name)
    (argv : List Name) (n : Nat) :
    ∃ k, (a.content.head? = some q.other.byte → k = 2) ∧
      (a.content.head? ≠ some q.other.byte → k = 1) ∧
      scanFrom cmdstr (n + 1) (a.written ++ left) (.ready cmd argv n) =
        scanFrom cmdstr (n + a.content.length + 3) left
          ((Scan.ready cmd argv (n + k)).setFlag q.other (a.content.count q.other.byte % 2 = 1)) := by
  have clean := a.enclosed q quoted
  have inLine := a.inLine
  have byteInLine (q : Quote) : ¬ endsLine q.byte := by cases q <;> decide
  have opening : scanChar cmdstr (n + 1) q.byte (.ready cmd argv n) =
      some ((Scan.ready cmd argv (n + 1)).setFlag q true) := by
    rw [scanChar_quote]
    cases q <;> simp [Scan.flag, Scan.ready, Scan.skipQuote, Scan.setFlag]
  have closing (i m : Nat) (b : Bool) : scanFrom cmdstr i ([q.byte] ++ left)
      (((Scan.ready cmd argv m).setFlag q true).setFlag q.other b) =
      scanFrom cmdstr (i + 1) left ((Scan.ready cmd argv m).setFlag q.other b) := by
    rw [List.singleton_append, scanFrom_cons (byteInLine q), scanChar_quote]
    cases q <;> rfl
  rw [Argument.written, quoted]
  dsimp only
  rw [List.cons_append, scanFrom_cons (byteInLine q), opening, Option.bind_some, List.append_assoc]
  generalize a.content = content at clean inLine
  cases content with
  | nil =>
    refine ⟨1, by simp, fun _ => rfl, ?_⟩
    have still := closing (n + 1 + 1) (n + 1) false
    rw [show ((Scan.ready cmd argv (n + 1)).setFlag q true).setFlag q.other false =
      (Scan.ready cmd argv (n + 1)).setFlag q true by cases q <;> rfl] at still
    rw [List.nil_append, still]
    rfl
  | cons c rest =>
    have tail : ∀ d ∈ rest, ¬ endsLine d := fun d member => inLine d (List.mem_cons_of_mem _ member)
    by_cases first : c = q.other.byte
    · subst first
      refine ⟨2, fun _ => rfl, fun other => absurd rfl other, ?_⟩
      have strips : scanChar cmdstr (n + 1 + 1) q.other.byte ((Scan.ready cmd argv (n + 1)).setFlag q true) =
          some (((Scan.ready cmd argv (n + 2)).setFlag q true).setFlag q.other true) := by
        rw [scanChar_quote]
        cases q <;> simp [Scan.flag, Scan.ready, Scan.skipQuote, Scan.setFlag, Quote.other]
      rw [List.cons_append, scanFrom_cons (byteInLine _), strips, Option.bind_some]
      rw [scanFrom_content (q := q) (by cases q <;> rfl)
        (fun member => clean (List.mem_cons_of_mem _ member)) tail (by simp)
        (fun _ => .inl (by simp)), Scan.setFlag_setFlag, closing, List.count_cons_self, List.length_cons]
      congr 1
      · omega
      · congr 1
        rw [Scan.setFlag_flag]
        rcases Nat.mod_two_eq_zero_or_one (rest.count q.other.byte) with even | odd
        · simp [even, Nat.add_mod]
        · simp [odd, Nat.add_mod]
    · refine ⟨1, fun other => absurd (Option.some.inj other) first, fun _ => rfl, ?_⟩
      rw [scanFrom_content (q := q) (by cases q <;> rfl) clean inLine (by simp)
        (fun _ => .inr fun same => first (Option.some.inj same)), closing]
      congr 1
      · omega
      · congr 1
        cases q <;> simp [Scan.flag, Scan.ready, Scan.setFlag, Quote.other]

theorem Argument.length_written (a : Argument) :
    (a.quote = none → a.written.length = a.content.length) ∧
    (∀ q, a.quote = some q → a.written.length = a.content.length + 2) := by
  refine ⟨fun bare => by rw [Argument.written, bare], fun q quoted => ?_⟩
  rw [Argument.written, quoted]
  simp

theorem piece_content {a : Argument} (behind : pre.length = n + 1) (quoted : a.quote = some q) (left : Name) :
    piece (pre ++ (a.written ++ left)) (n + 2) a.content.length = a.content ∧
    (pre ++ (a.written ++ left))[n + a.content.length + 2]? = some q.byte := by
  have line : pre ++ (a.written ++ left) =
      (pre ++ [q.byte]) ++ (a.content ++ (q.byte :: left)) := by
    rw [Argument.written, quoted]
    simp
  constructor
  · rw [line]
    exact piece_middle (by simp [behind])
  · have place : n + a.content.length + 2 = (pre ++ [q.byte] ++ a.content).length := by
      simp [behind]
      omega
    rw [line, ← List.append_assoc, place, List.getElem?_append_right (Nat.le_refl _), Nat.sub_self]
    rfl

/-- An argument that survives is the next token. -/
theorem Argument.Survives.token {a : Argument} (survives : a.Survives) (cmd left : Name)
    (behind : pre.length = n + 1) (sep : c = space ∨ c = newline) (room : argv.length < SH_MAX_ARGS) :
    ∃ sc, scanFrom (pre ++ (a.written ++ c :: left)) (n + 1) (a.written ++ c :: left)
        (.ready cmd argv n) =
      scanFrom (pre ++ (a.written ++ c :: left)) (n + 1 + a.written.length) (c :: left) sc ∧
      scanChar (pre ++ (a.written ++ c :: left)) (n + 1 + a.written.length) c sc =
        some (.ready cmd (argv ++ [a.content]) (n + 1 + a.written.length)) := by
  cases kind : a.quote with
  | none =>
    obtain ⟨nonempty, _, noDouble, noSingle⟩ := a.bare kind
    have same : a.written = a.content := by rw [Argument.written, kind]
    have length := List.length_pos_of_ne_nil nonempty
    refine ⟨_, by rw [a.scan_bare kind, same], ?_⟩
    have last (b : UInt8) (clean : b ∉ a.content) :
        (pre ++ (a.written ++ c :: left))[n + 1 + a.written.length - 1]? ≠ some b := by
      rw [same, List.getElem?_append_right (by omega), List.getElem?_append_left (by omega)]
      intro found
      exact clean (List.mem_of_getElem? found)
    rw [scanChar_separator sep ⟨rfl, rfl⟩ rfl room, tokenEnd, if_neg]
    · have token : piece (pre ++ (a.written ++ c :: left)) (n + 1)
          (n + 1 + a.written.length - n - 1) = a.content := by
        rw [same, show n + 1 + a.content.length - n - 1 = a.content.length by omega]
        exact piece_middle behind.symm
      change some (Scan.mk _ (argv ++ [piece _ (n + 1) _]) _ _ _) = _
      rw [Scan.ready_lastStop, token]
      rfl
    · rintro ⟨_, quote | quote, _⟩
      · exact last _ noDouble quote
      · exact last _ noSingle quote
  | some q =>
    obtain ⟨notFirst, even⟩ := survives q kind
    obtain ⟨k, _, one, scanned⟩ := a.scan_quoted kind
      (pre ++ (a.written ++ c :: left)) (c :: left) cmd argv n
    obtain rfl := one notFirst
    have length := a.length_written.2 q kind
    obtain ⟨text, closing⟩ := piece_content behind kind (c :: left)
    have still : (Scan.ready cmd argv (n + 1)).setFlag q.other (decide (a.content.count q.other.byte % 2 = 1)) =
        .ready cmd argv (n + 1) := by
      rw [decide_eq_false (by omega)]
      cases q <;> rfl
    rw [still] at scanned
    refine ⟨.ready cmd argv (n + 1), ?_, ?_⟩
    · rw [scanned, length]
      congr 1
      omega
    have quote : (pre ++ (a.written ++ c :: left))[n + 1 + a.written.length - 1]? = some q.byte := by
      rw [← closing, show n + 1 + a.written.length - 1 = n + a.content.length + 2 by omega]
    rw [scanChar_separator sep ⟨rfl, rfl⟩ rfl room, tokenEnd, if_pos]
    · change some (Scan.mk _ (argv ++ [piece _ (n + 1 + 1) (_ - (n + 1) - 1)]) _ _ _) = _
      rw [show n + 1 + a.written.length - 1 - (n + 1) - 1 = a.content.length by omega, text]
      rfl
    · refine ⟨by omega, ?_, rfl, rfl⟩
      rw [quote]
      cases q
      · exact .inr rfl
      · exact .inl rfl

/-- Any other argument is not the next token, if there is one. -/
theorem Argument.not_token {a : Argument} (lost : ¬ a.Survives) (behind : pre.length = n + 1)
    (sep : c = space ∨ c = newline) (room : argv.length < SH_MAX_ARGS)
    (run : scanFrom (pre ++ (a.written ++ c :: left)) (n + 1) (a.written ++ c :: left)
      (.ready cmd argv n) = some final) :
    final.cmdArgv = argv ∨ ∃ arg more, final.cmdArgv = argv ++ arg :: more ∧ arg ≠ a.content := by
  obtain ⟨q, kind, lost⟩ : ∃ q, a.quote = some q ∧
      ¬ (a.content.head? ≠ some q.other.byte ∧ a.content.count q.other.byte % 2 = 0) := by
    by_contra all
    exact lost fun q kind => by_contra fun bad => all ⟨q, kind, bad⟩
  obtain ⟨k, two, one, scanned⟩ := a.scan_quoted kind
    (pre ++ (a.written ++ c :: left)) (c :: left) cmd argv n
  obtain ⟨text, closing⟩ := piece_content behind kind (c :: left)
  rw [scanned] at run
  have tok : ((Scan.ready cmd argv (n + k)).setFlag q.other
      (decide (a.content.count q.other.byte % 2 = 1))).cmdTok = some cmd := by
    cases q <;> rfl
  have before : ((Scan.ready cmd argv (n + k)).setFlag q.other
      (decide (a.content.count q.other.byte % 2 = 1))).cmdArgv = argv := by
    cases q <;> rfl
  by_cases odd : a.content.count q.other.byte % 2 = 1
  · -- the flag that is left open carries the token over the closing quote
    have inside : n + k < n + a.content.length + 2 := by
      by_cases first : a.content.head? = some q.other.byte
      · have := List.length_pos_of_mem (List.mem_of_mem_head? first)
        have := two first
        omega
      · have := one first
        omega
    rcases scanFrom_beyond run tok closing (by simpa using inside) (by omega)
      (fun _ => Scan.open_of_flag (q := q.other) (by simpa using odd)) with same | ⟨arg, more, all, member⟩
    · exact .inl (same.trans before)
    · refine .inr ⟨arg, more, by rw [all, before], ?_⟩
      rintro rfl
      exact a.enclosed q kind member
  · -- a quote of the other kind that stands first is cut off
    have first : a.content.head? = some q.other.byte := by
      by_contra other
      exact lost ⟨other, by omega⟩
    obtain rfl := two first
    have long := List.length_pos_of_mem (List.mem_of_mem_head? first)
    rw [decide_eq_false odd] at run
    have closed : (Scan.ready cmd argv (n + 2)).setFlag q.other false = .ready cmd argv (n + 2) := by
      cases q <;> rfl
    rw [closed] at run
    obtain ⟨sc', step, run⟩ := scanFrom_step run
    rw [scanChar_separator sep ⟨rfl, rfl⟩ rfl room] at step
    have ended : tokenEnd (pre ++ (a.written ++ c :: left)) (n + a.content.length + 3)
        (.ready cmd argv (n + 2)) = n + a.content.length + 2 := by
      rw [tokenEnd, if_pos]
      · rfl
      · refine ⟨by omega, ?_, rfl, rfl⟩
        rw [show n + a.content.length + 3 - 1 = n + a.content.length + 2 by omega, closing]
        cases q
        · exact .inr rfl
        · exact .inl rfl
    rw [ended] at step
    have shorter (line : Name) (low : Nat) :
        piece line low (n + a.content.length + 2 - (n + 2) - 1) ≠ a.content := by
      intro same
      have := congrArg List.length same
      rw [piece, List.length_take] at this
      omega
    cases step
    rcases run with ⟨_, rfl⟩ | run
    · exact .inr ⟨_, [], rfl, shorter _ _⟩
    · obtain ⟨more, all⟩ := scanFrom_tokens run (show Scan.cmdTok _ = some cmd from rfl)
      exact .inr ⟨_, more, by rw [← all, List.append_assoc]; rfl, shorter _ _⟩

section
variable {pre cmd : Name} {argv : List Name} {n : Nat}

theorem Argument.lost {a : Argument} (lost : ¬ a.Survives) (behind : pre.length = n + 1)
    (args : List Argument) (room : argv.length < SH_MAX_ARGS)
    (run : scanFrom (pre ++ (a.written ++ argumentText args)) (n + 1)
      (a.written ++ argumentText args) (.ready cmd argv n) = some final) :
    final.cmdArgv ≠ argv ++ (a :: args).map Argument.content := by
  obtain ⟨c, left, text, kind⟩ := argumentText_cons args
  have sep : c = space ∨ c = newline := kind.imp And.left And.left
  intro all
  rw [text] at run
  rcases Argument.not_token lost behind sep room run with same | ⟨arg, more, other, apart⟩
  · rw [same] at all
    simp at all
  · rw [other, List.append_cancel_left_eq, List.map_cons, List.cons.injEq] at all
    exact apart all.1

/-- Behind the separator of its first argument, a row of arguments is split as written if and
only if each of them survives. -/
theorem scan_arguments (args : List Argument) (a : Argument) (behind : pre.length = n + 1)
    (few : argv.length + (args.length + 1) ≤ SH_MAX_ARGS) :
    (∃ final, scanFrom (pre ++ (a.written ++ argumentText args)) (n + 1)
        (a.written ++ argumentText args) (.ready cmd argv n) = some final ∧
      final.cmdTok = some cmd ∧ final.cmdArgv = argv ++ (a :: args).map Argument.content) ↔
    ∀ b ∈ a :: args, b.Survives := by
  induction args generalizing a pre argv n with
  | nil =>
    have room : argv.length < SH_MAX_ARGS := by omega
    constructor
    · rintro ⟨final, run, _, all⟩
      rw [List.forall_mem_singleton]
      by_contra lost
      exact Argument.lost lost behind [] room run all
    · intro each
      have survives := each a List.mem_cons_self
      obtain ⟨sc, scanned, step⟩ := survives.token cmd [] behind (.inr rfl) room
      refine ⟨.ready cmd (argv ++ [a.content]) (n + 1 + a.written.length), ?_, rfl, rfl⟩
      rw [argumentText, scanned, scanFrom, step]
      rfl
  | cons b rest ih =>
    have room : argv.length < SH_MAX_ARGS := by omega
    by_cases survives : a.Survives
    · obtain ⟨sc, scanned, step⟩ := survives.token cmd (b.written ++ argumentText rest) behind
        (.inl rfl) room
      have line : pre ++ (a.written ++ argumentText (b :: rest)) =
          (pre ++ (a.written ++ [space])) ++ (b.written ++ argumentText rest) := by
        simp [argumentText]
      have turn : scanFrom (pre ++ (a.written ++ argumentText (b :: rest))) (n + 1)
          (a.written ++ argumentText (b :: rest)) (.ready cmd argv n) =
          scanFrom (pre ++ (a.written ++ argumentText (b :: rest))) (n + 1 + a.written.length + 1)
            (b.written ++ argumentText rest)
            (.ready cmd (argv ++ [a.content]) (n + 1 + a.written.length)) := by
        rw [argumentText, scanned, scanFrom_cons (by decide), step, Option.bind_some]
      have next : (∃ final, scanFrom ((pre ++ (a.written ++ [space])) ++ (b.written ++ argumentText rest))
          (n + 1 + a.written.length + 1) (b.written ++ argumentText rest)
          (.ready cmd (argv ++ [a.content]) (n + 1 + a.written.length)) = some final ∧
          final.cmdTok = some cmd ∧
          final.cmdArgv = (argv ++ [a.content]) ++ (b :: rest).map Argument.content) ↔
          ∀ c ∈ b :: rest, c.Survives :=
        ih b (by simp [behind]; omega)
          (by simp only [List.length_append, List.length_cons, List.length_nil] at few ⊢; omega)
      rw [turn, line, List.forall_mem_cons, ← next]
      simp [survives]
    · constructor
      · rintro ⟨final, run, _, all⟩
        exact absurd all (Argument.lost survives behind _ room run)
      · exact fun each => absurd (each a List.mem_cons_self) survives

end

theorem scan_command (plain : BareText cmd) (nonempty : cmd ≠ []) (sep : c = space ∨ c = newline)
    (left : Name) : scanChar (cmd ++ c :: left) cmd.length c .start =
      some (.ready cmd [] cmd.length) := by
  obtain ⟨_, noDouble, noSingle⟩ := plain
  have length := List.length_pos_of_ne_nil nonempty
  have double : c ≠ doubleQuote := by rcases sep with rfl | rfl <;> decide
  have single : c ≠ singleQuote := by rcases sep with rfl | rfl <;> decide
  have separates : (c = space ∧ Scan.start.dqopen = false ∧ Scan.start.qopen = false) ∨ endsLine c := by
    rcases sep with rfl | rfl
    · exact .inl ⟨rfl, rfl, rfl⟩
    · exact .inr (.inl rfl)
  have last (b : UInt8) (clean : b ∉ cmd) : (cmd ++ c :: left)[cmd.length - 1]? ≠ some b := by
    rw [List.getElem?_append_left (by omega)]
    intro found
    exact clean (List.mem_of_getElem? found)
  have ended : tokenEnd (cmd ++ c :: left) cmd.length .start = cmd.length := by
    rw [tokenEnd, if_neg]
    rintro ⟨_, quote | quote, _⟩
    · exact last _ noDouble quote
    · exact last _ noSingle quote
  have word : piece (cmd ++ c :: left) 0 cmd.length = cmd := by
    rw [piece, List.drop_zero, List.take_left]
  rw [scanChar, if_neg double, if_neg single, if_pos separates, ended]
  change some (Scan.mk (some (piece (cmd ++ c :: left) 0 cmd.length)) [] cmd.length _ _) = _
  rw [word]
  rfl

/-- The tokenizer gives back the command and all its arguments if and only if every quote of the
other kind inside of a quoted argument has a partner there and none of them stands first. -/
theorem command_line {args : List Argument} (nonempty : cmd ≠ []) (plain : BareText cmd)
    (inLine : newline ∉ cmd ∧ carriageReturn ∉ cmd) (few : args.length ≤ SH_MAX_ARGS) :
    (scanLine (commandLine cmd args)).map (fun sc => (sc.cmdTok, sc.cmdArgv)) =
        some (some cmd, args.map Argument.content) ↔
      ∀ a ∈ args, a.Survives := by
  have word (cmdstr left : Name) : scanFrom cmdstr 0 (cmd ++ left) .start =
      scanFrom cmdstr cmd.length left .start := by
    rw [scanFrom_plain (fun c member q => ?_) (fun c member => ?_)
      (fun member => absurd member plain.1), Nat.zero_add]
    · rintro rfl
      cases q
      · exact plain.2.2 member
      · exact plain.2.1 member
    · rintro (rfl | rfl)
      · exact inLine.1 member
      · exact inLine.2 member
  rw [scanLine, commandLine, word]
  cases args with
  | nil =>
    rw [argumentText, scanFrom, scan_command plain nonempty (.inr rfl)]
    simp [endsLine, Scan.ready]
  | cons a rest =>
    have line : cmd ++ argumentText (a :: rest) =
        (cmd ++ [space]) ++ (a.written ++ argumentText rest) := by
      simp [argumentText]
    have arguments : (∃ final, scanFrom ((cmd ++ [space]) ++ (a.written ++ argumentText rest))
        (cmd.length + 1) (a.written ++ argumentText rest) (.ready cmd [] cmd.length) = some final ∧
        final.cmdTok = some cmd ∧ final.cmdArgv = [] ++ (a :: rest).map Argument.content) ↔
        ∀ b ∈ a :: rest, b.Survives :=
      scan_arguments rest a (by simp) (by simpa using few)
    rw [argumentText, scanFrom_cons (by decide), scan_command plain nonempty (.inl rfl),
      Option.bind_some, ← arguments, ← line, argumentText]
    simp only [Option.map_eq_some_iff, Prod.mk.injEq, List.nil_append]

end

def spacedArgument : Argument where
  content := [97, 32, 98]
  quote := some .double
  oneLine := by decide
  bare := fun other => by cases other
  enclosed := fun q same => by cases same; decide

/-- The line echo "a b". -/
theorem command_line_spaced : (scanLine (commandLine [101, 99, 104, 111] [spacedArgument])).map
    (fun sc => (sc.cmdTok, sc.cmdArgv)) = some (some [101, 99, 104, 111], [[97, 32, 98]]) :=
  (command_line (by decide) (by decide) (by decide) (by decide)).mpr
    (show ∀ a ∈ [spacedArgument], a.Survives by
      intro a member q same
      obtain rfl := List.mem_singleton.mp member
      cases same
      decide)

def apostropheArgument : Argument where
  content := [105, 116, 39, 115]
  quote := some .double
  oneLine := by decide
  bare := fun other => by cases other
  enclosed := fun q same => by cases same; decide

/-- Of the line echo "it's" the argument comes with its closing quote. -/
theorem command_line_apostrophe :
    (scanLine (commandLine [101, 99, 104, 111] [apostropheArgument])).map
      (fun sc => (sc.cmdTok, sc.cmdArgv)) =
        some (some [101, 99, 104, 111], [[105, 116, 39, 115, 34]]) ∧
    apostropheArgument.content = [105, 116, 39, 115] := by decide

end CdnwSh
