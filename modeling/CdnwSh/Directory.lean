import CdnwSh.Extent
import CdnwSh.Library.Records

/-! Directory files: their records, the scanning loop, path lookup, `cd`, `stat` and
`ls`. `cnopendir`, `cnmkdir` and `cnstat` scan with the same loop, `findName`. -/
namespace CdnwSh

open ByteMemory RecordList

/-- A `dir_entry` as read at some offset; `name` are the `name_len` bytes. -/
structure DirEntry where
  inode : Iptr
  entryLen : Nat
  fileType : UInt8
  name : Name
  deriving DecidableEq

def cstr (l : List UInt8) : Name := l.takeWhile (· ≠ 0)

def entryAt (buf : Buf) (off : Nat) : Option DirEntry :=
  let nameLen := (buf.mem (off + 6)).toNat
  if off + 8 + nameLen ≤ buf.size then
    some ⟨UInt32.ofNat (readLE buf.mem off 4), readLE buf.mem (off + 4) 2, buf.mem (off + 7),
      slice buf.mem (off + 8) nameLen⟩
  else none

/-- Null (`some none`) at the end, otherwise the record and the advanced handle. -/
def cnreaddir (dir : DirPtr) : Option (Option (DirEntry × DirPtr)) :=
  if dir.index ≥ dir.inodeSt.size then some none
  else do
    let entry ← entryAt dir.data dir.index.toNat
    return some (entry, { dir with index := dir.index + UInt32.ofNat entry.entryLen })

/-- The loop `while((entry = cnreaddir(dir)))` up to a record with the given name.
Every record that is not empty moves the index, so the fuel is only used up when the
loop of the source would not end. -/
def findNameLoop : Nat → DirPtr → Name → Option (Option DirEntry × DirPtr)
  | 0, _, _ => none
  | fuel + 1, dir, tok => do
    match ← cnreaddir dir with
    | none => return (none, dir)
    | some (entry, dir) =>
      if cstr entry.name = tok then return (some entry, dir) else findNameLoop fuel dir tok

def findName (dir : DirPtr) (tok : Name) : Option (Option DirEntry × DirPtr) :=
  findNameLoop (dir.inodeSt.size.toNat + 1) dir tok

/-- All records from the handle's index to the end. -/
def readAllLoop : Nat → DirPtr → Option (List DirEntry)
  | 0, _ => none
  | fuel + 1, dir => do
    match ← cnreaddir dir with
    | none => return []
    | some (entry, dir) => return entry :: (← readAllLoop fuel dir)

def readAll (dir : DirPtr) : Option (List DirEntry) := readAllLoop (dir.inodeSt.size.toNat + 1) dir

def slash : UInt8 := 47
def dot : Name := [46]
def dotDot : Name := [46, 46]

/-- The successive results of `strtok(p, "/")`. -/
def strtok : Name → List Name
  | [] => []
  | c :: rest =>
    if c = slash then strtok rest
    else match rest with
      | [] => [[c]]
      | next :: _ =>
        if next = slash then [c] :: strtok rest
        else match strtok rest with
          | tok :: toks => (c :: tok) :: toks
          | [] => [[c]]

section
variable [InodeLayout]

def inflatedir (d : Disk) (inodeId : Iptr) : Option DirPtr := do
  let inodeSt ← inodeRead d inodeId
  let data ← llread d inodeSt (callocBlocks inodeSt.blocks.toNat)
  return ⟨inodeSt, inodeId, 0, data⟩

/-- What a directory holds when it is opened afresh, as `cnreaddir` enumerates it. -/
def listing (d : Disk) (inodeId : Iptr) : Option (List DirEntry) := do
  readAll (← inflatedir d inodeId)

/-- The token loop of `cnopendir`. `loaded` is `loaded_inode`, which keeps its value
from one token to the next: after a component was found, a later one that is missing
leaves the handle where it is, at the end of its entries, and passes the check. -/
def openWalk (d : Disk) : List Name → DirPtr → Iptr → Option (Option DirPtr)
  | [], dir, _ => some (some dir)
  | tok :: rest, dir, loaded => do
    match ← findName dir tok with
    | (some entry, _) =>
      let dir ← inflatedir d entry.inode
      openWalk d rest dir entry.inode
    | (none, dir) =>
      if dir.inodeId = loaded then openWalk d rest dir loaded else return none

def startDir (s : Fs) (name : Name) : Option DirPtr :=
  if name.head? = some slash then inflatedir s.vol.disk 0
  else do inflatedir s.vol.disk (← s.cwd).inodeId

/-- Null is `some none`. A path of slashes only, other than "/", passes a null token to
`strcmp` unless the root directory is empty. -/
def cnopendir (s : Fs) (name : Name) : Option (Option DirPtr) :=
  if 256 ≤ name.length then none
  else do
    let dir ← startDir s name
    if name = [slash] then return some dir
    else match strtok (if name = [] then dot else name) with
      | [] => do
        match ← cnreaddir dir with
        | some _ => none
        | none => return none
      | tok :: rest => openWalk s.vol.disk (tok :: rest) dir 6401

/-- `cnclosedir(cwd)`. A directory that was closed is not closed again. -/
def closeCwd (s : Fs) : Option Unit := if s.cwd = none ∧ s.cwdClosed = true then none else some ()

def cncd (name : Name) (s : Fs) : Option (Int × Fs) := do
  match ← cnopendir s name with
  | none => return (-1, s)
  | some newCwd =>
    let _ ← closeCwd s
    return (0, { s with cwdStr := name, cwd := some newCwd })

def cnpwd (s : Fs) : Name := s.cwdStr

def cnls (name : Name) (s : Fs) : Option (Int × List UInt8) := do
  if 256 ≤ name.length then none
  else match ← cnopendir s (if name = [] then dot else name) with
    | none => return (-1, [])
    | some dir =>
      let entries ← readAll dir
      return (0, entries.flatMap fun e => cstr e.name ++ [10])

theorem cncd_cases (run : cncd name s = some (code, s')) :
    (code = -1 ∧ s' = s ∧ cnopendir s name = some none) ∨
    ∃ h, code = 0 ∧ cnopendir s name = some (some h) ∧
      s' = { s with cwdStr := name, cwd := some h } := by
  obtain ⟨found, opens, run⟩ := Option.bind_eq_some_iff.mp run
  cases found with
  | none =>
    cases run
    exact .inl ⟨rfl, rfl, opens⟩
  | some h =>
    obtain ⟨_, _, run⟩ := Option.bind_eq_some_iff.mp run
    cases run
    exact .inr ⟨h, rfl, opens, rfl⟩

end

@[simp] theorem closeCwd_some (here : s.cwd = some cwd) : closeCwd s = some () := by
  simp [closeCwd, here]

/-- `cnrewinddir` and the scan; the handle is left behind the record found, or at the
end. -/
def cnstat (dir : DirPtr) (name : Name) : Option (Option Iptr × DirPtr) := do
  let (found, dir) ← findName { dir with index := 0 } name
  return (found.map (·.inode), dir)

theorem strtok_cons_slash : strtok (slash :: rest) = strtok rest := by
  cases rest <;> simp [strtok]

theorem strtok_cons (apart : c ≠ slash) : strtok (c :: next :: rest) =
    if next = slash then [c] :: strtok (next :: rest)
    else match strtok (next :: rest) with
      | tok :: toks => (c :: tok) :: toks
      | [] => [[c]] := by
  rw [strtok.eq_def]; simp [apart]

theorem strtok_last (apart : c ≠ slash) : strtok [c] = [[c]] := by simp [strtok, apart]

theorem strtok_nonempty (apart : c ≠ slash) :
    ∃ tok toks, strtok (c :: rest) = (c :: tok) :: toks := by
  cases rest with
  | nil => exact ⟨[], [], strtok_last apart⟩
  | cons next rest =>
    rw [strtok_cons apart]
    split
    · exact ⟨[], _, rfl⟩
    · split
      · exact ⟨_, _, rfl⟩
      · exact ⟨[], [], rfl⟩

theorem strtok_append_slash : strtok (p ++ slash :: q) = strtok p ++ strtok q := by
  induction p with
  | nil => exact strtok_cons_slash
  | cons c rest ih =>
    by_cases isSlash : c = slash
    · subst isSlash
      rw [List.cons_append, strtok_cons_slash, strtok_cons_slash, ih]
    · cases rest with
      | nil =>
        rw [List.cons_append, List.nil_append, strtok_cons isSlash, if_pos rfl, strtok_cons_slash,
          strtok_last isSlash]
        rfl
      | cons next rest =>
        rw [List.cons_append, List.cons_append, strtok_cons isSlash, strtok_cons isSlash,
          ← List.cons_append, ih]
        split
        · rfl
        next apart =>
          obtain ⟨tok, toks, first⟩ := @strtok_nonempty next rest apart
          simp [first]

theorem strtok_mem (member : tok ∈ strtok p) :
    slash ∉ tok ∧ tok ≠ [] ∧ tok.length ≤ p.length ∧ ∀ b ∈ tok, b ∈ p := by
  induction p generalizing tok with
  | nil => simp [strtok] at member
  | cons c rest ih =>
    have lift {tok : Name} (h : tok ∈ strtok rest) :
        slash ∉ tok ∧ tok ≠ [] ∧ tok.length ≤ (c :: rest).length ∧ ∀ b ∈ tok, b ∈ c :: rest := by
      obtain ⟨clean, nonempty, short, sub⟩ := ih h
      exact ⟨clean, nonempty, by simp only [List.length_cons]; omega,
        fun b inTok => List.mem_cons_of_mem _ (sub b inTok)⟩
    by_cases isSlash : c = slash
    · subst isSlash
      rw [strtok_cons_slash] at member
      exact lift member
    · have alone : slash ∉ [c] ∧ [c] ≠ [] ∧ [c].length ≤ (c :: rest).length ∧
          ∀ b ∈ [c], b ∈ c :: rest := by
        simp [Ne.symm isSlash]
      cases rest with
      | nil =>
        rw [strtok_last isSlash] at member
        obtain rfl := List.mem_singleton.mp member
        exact alone
      | cons next rest =>
        rw [strtok_cons isSlash] at member
        split at member
        · rcases List.mem_cons.mp member with rfl | member
          · exact alone
          · exact lift member
        · split at member
          next first others found =>
            rcases List.mem_cons.mp member with rfl | member
            · obtain ⟨clean, _, short, sub⟩ := ih (show first ∈ strtok (next :: rest) by rw [found]; simp)
              refine ⟨by simp [Ne.symm isSlash, clean], by simp, by
                simp only [List.length_cons] at short ⊢; omega, ?_⟩
              intro b inTok
              rcases List.mem_cons.mp inTok with rfl | inTok
              · exact List.mem_cons_self
              · exact List.mem_cons_of_mem _ (sub b inTok)
            · exact lift (by rw [found]; exact List.mem_cons_of_mem _ member)
          · obtain rfl := List.mem_singleton.mp member
            exact alone

theorem strtok_single (nonempty : p ≠ []) (clean : slash ∉ p) : strtok p = [p] := by
  induction p with
  | nil => contradiction
  | cons c rest ih =>
    simp only [List.mem_cons, not_or] at clean
    have apart : c ≠ slash := Ne.symm clean.1
    cases rest with
    | nil => exact strtok_last apart
    | cons next rest =>
      have inner : next ≠ slash := fun same => clean.2 (by simp [same])
      rw [strtok_cons apart, if_neg inner, ih (by simp) clean.2]

end CdnwSh
