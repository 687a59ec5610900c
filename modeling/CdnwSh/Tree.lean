import CdnwSh.Directory
import CdnwSh.Texts

/-! `cntree`: the listing of a subtree, on the way through which `cwd` is changed. -/
namespace CdnwSh

/-- What the C library and the stack supply to the listing: the text of a time, and what
`indent_str`, which is not initialised, holds when a directory is listed. -/
structure TreeText where
  ctime : UInt64 → Name
  indentStr : Iptr → Name

/-- `indent_str` after the loop that appends to it; it is only copied when there are
indents. -/
def TreeText.indent (t : TreeText) (dir : Iptr) (indents : UInt8) : Option Name :=
  if indents = 0 then some []
  else
    let str := t.indentStr dir ++ List.replicate (4 * indents.toNat) 32
    if str.length < 256 then some str else none

def TreeText.attributes (t : TreeText) (inode : Inode) : Name :=
  text "  " ++ (if inode.type = ITYPE_FILE then text "F" else text "D") ++ text "  " ++
    decimal inode.size.toNat ++ text "  " ++ t.ctime inode.modified

variable [InodeLayout]

/-- A call with the handle as it stands at some turn of the loop of `treedir`: the next
entry, the subtree below it and the turns after it. The fuel bounds how many turns are
open inside each other. -/
def treedir (t : TreeText) : Nat → UInt8 → DirPtr → Fs → Option (Name × Fs)
  | 0, _, _, _ => none
  | fuel + 1, indents, dir, s => do
    let indent ← t.indent dir.inodeId indents
    match ← cnreaddir dir with
    | none => return ([], s)
    | some (entry, dir) =>
      let nameCopy := cstr entry.name
      if nameCopy = dot ∨ nameCopy = dotDot then treedir t fuel indents dir s
      else
        let entryI ← inodeRead s.vol.disk entry.inode
        let line := indent ++ entry.name ++ t.attributes entryI
        if entry.fileType = ITYPE_DIR then
          let (_, s) ← cncd nameCopy s
          let nextDir ← ← cnopendir s dot
          let (below, s) ← treedir t fuel (indents + 1) nextDir s
          let (_, s) ← cncd dotDot s
          let (more, s) ← treedir t fuel indents dir s
          return (line ++ below ++ more, s)
        else
          let (more, s) ← treedir t fuel indents dir s
          return (line ++ more, s)

/-- More turns than all directories of a volume have entries. -/
def treeFuel : Nat := 6400 * 4097

def cntree (t : TreeText) (s : Fs) : Option (Int × Name × Fs) := do
  let dir ← ← cnopendir s dot
  let (out, s) ← treedir t treeFuel 0 dir s
  return (0, out, s)

/-- Everything but `cwd` and its string. -/
def OnlyCwd (s s' : Fs) : Prop := s' = { s with cwdStr := s'.cwdStr, cwd := s'.cwd }

omit [InodeLayout] in
theorem OnlyCwd.refl (s : Fs) : OnlyCwd s s := rfl

omit [InodeLayout] in
theorem OnlyCwd.trans (first : OnlyCwd s s') (second : OnlyCwd s' s'') : OnlyCwd s s'' := by
  rw [OnlyCwd] at *
  rw [second, first]

omit [InodeLayout] in
theorem OnlyCwd.vol (only : OnlyCwd s s') : s'.vol = s.vol := by rw [only]

theorem cncd_only (run : cncd name s = some (code, s')) : OnlyCwd s s' := by
  rcases cncd_cases run with ⟨_, rfl, _⟩ | ⟨h, _, _, rfl⟩
  · exact .refl _
  · rfl

/-- A listing relates its states in every way in which each `cncd` does. -/
theorem treedir_related {R : Fs → Fs → Prop} (refl : ∀ s, R s s)
    (trans : ∀ s s' s'', R s s' → R s' s'' → R s s'')
    (cd : ∀ name s code s', cncd name s = some (code, s') → R s s')
    (run : treedir t fuel indents dir s = some (out, s')) : R s s' := by
  induction fuel generalizing indents dir s out s' with
  | zero => cases run
  | succ fuel ih =>
    rw [treedir] at run
    obtain ⟨indent, _, run⟩ := Option.bind_eq_some_iff.mp run
    obtain ⟨read, _, run⟩ := Option.bind_eq_some_iff.mp run
    cases read with
    | none =>
      cases run
      exact refl _
    | some item =>
      obtain ⟨entry, next⟩ := item
      dsimp only at run
      split at run
      · exact ih run
      · obtain ⟨entryI, _, run⟩ := Option.bind_eq_some_iff.mp run
        split at run
        · obtain ⟨⟨_, s₁⟩, down, run⟩ := Option.bind_eq_some_iff.mp run
          obtain ⟨found, _, run⟩ := Option.bind_eq_some_iff.mp run
          obtain ⟨nextDir, _, run⟩ := Option.bind_eq_some_iff.mp run
          obtain ⟨⟨below, s₂⟩, inner, run⟩ := Option.bind_eq_some_iff.mp run
          obtain ⟨⟨_, s₃⟩, up, run⟩ := Option.bind_eq_some_iff.mp run
          obtain ⟨⟨more, s₄⟩, others, run⟩ := Option.bind_eq_some_iff.mp run
          cases run
          have first := trans _ _ _ (cd _ _ _ _ down) (ih inner)
          have second := trans _ _ _ (cd _ _ _ _ up) (ih others)
          exact trans _ _ _ first second
        · obtain ⟨⟨more, s₁⟩, others, run⟩ := Option.bind_eq_some_iff.mp run
          cases run
          exact ih others

theorem cntree_related {R : Fs → Fs → Prop} (refl : ∀ s, R s s)
    (trans : ∀ s s' s'', R s s' → R s' s'' → R s s'')
    (cd : ∀ name s code s', cncd name s = some (code, s') → R s s')
    (run : cntree t s = some (code, out, s')) : R s s' := by
  obtain ⟨found, _, run⟩ := Option.bind_eq_some_iff.mp run
  obtain ⟨dir, _, run⟩ := Option.bind_eq_some_iff.mp run
  obtain ⟨⟨printed, s₁⟩, lists, run⟩ := Option.bind_eq_some_iff.mp run
  cases run
  exact treedir_related refl trans cd lists

theorem cntree_only (run : cntree t s = some (code, out, s')) : OnlyCwd s s' :=
  cntree_related OnlyCwd.refl (fun _ _ _ => OnlyCwd.trans) (fun _ _ _ _ => cncd_only) run

end CdnwSh
