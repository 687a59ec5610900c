import CdnwSh.PathResolution
import CdnwSh.Tree

/-! The printed working directory: `cwd` and the string that `cnpwd` prints. They agree after
every `cncd` with an absolute path and after one with a relative path that leads from the
directory it enters back to that directory; `cntree` leaves the string "..". -/
namespace CdnwSh

open PartialRun

inductive Move where
  | cd (path : Name)
  | tree

section
variable [InodeLayout]

def Move.step (t : TreeText) (s : Fs) : Move → Option (Int × Fs)
  | .cd path => cncd path s
  | .tree => do
    let (code, _, s) ← cntree t s
    return (code, s)

/-- The printed string leads to the directory that `cwd` is. -/
def PwdNames (s : Fs) : Prop :=
  ∃ cwd h, s.cwd = some cwd ∧ cnopendir s (cnpwd s) = some (some h) ∧ h.inodeId = cwd.inodeId

/-- Where components lead as far as they are found. -/
def reach (d : Disk) : Iptr → List Name → Iptr
  | i, [] => i
  | i, tok :: rest =>
    match lookup d i tok with
    | some e => reach d e.inode rest
    | none => i

/-- The first component is there. -/
def Enters (d : Disk) (i : Iptr) (toks : List Name) : Prop :=
  ∃ tok rest, toks = tok :: rest ∧ lookup d i tok ≠ none

/-- The components lead from the directory to itself. -/
def LeadsBack (d : Disk) (j : Iptr) (toks : List Name) : Prop :=
  Enters d j toks ∧ NoFiles d j toks ∧ reach d j toks = j

def OnDir (s : Fs) (cwd : DirPtr) : Prop :=
  s.cwd = some cwd ∧ bit s.vol.inodeBmCache cwd.inodeId.toNat = true ∧
    ∃ st, inodeRead s.vol.disk cwd.inodeId = some st ∧ st.type = ITYPE_DIR

def NoSubdirs (d : Disk) (i : Iptr) : Prop :=
  ∀ rs e, listing d i = some rs → e ∈ rs → e.fileType = ITYPE_DIR → e.name = dot ∨ e.name = dotDot

/-- A `cncd` with an absolute path, or with a relative one through directories whose first
component is missing or that leads from where it ends back to there; a `cntree` of the root
or of a directory without subdirectories. -/
def NamesCwd (s : Fs) : Move → Prop
  | .cd path => path.head? = some slash ∨ ∃ cwd, OnDir s cwd ∧ PathOk s path ∧
      (Enters s.vol.disk cwd.inodeId (walkToks path) →
        LeadsBack s.vol.disk (reach s.vol.disk cwd.inodeId (walkToks path)) (walkToks path))
  | .tree => ∃ cwd, OnDir s cwd ∧ (cwd.inodeId = 0 ∨ NoSubdirs s.vol.disk cwd.inodeId)

section
variable {s s' : Fs} {v : Vol} {own : Owner} {node : Nodes} {i p : Iptr} {es : List DirEntry}
  {cwd : DirPtr}

theorem OnDir.found (on : OnDir s cwd) (holds : Holds s.vol own node) :
    ∃ p es, node cwd.inodeId = some (.dir p es) := by
  obtain ⟨_, used, st, read, type⟩ := on
  obtain ⟨i, same, live⟩ := holds.exact_inodes _ used
  rw [UInt32.toNat_inj.mp same] at live
  exact holds.dir_node live read type

theorem Holds.openWalk_reach (holds : Holds v own node) (found : node i = some (.dir p es))
    (dir : DirAt v.disk own i st (records i p es)) (noFiles : NoFiles v.disk i toks)
    (loaded : Iptr) (known : i = loaded ∨ Enters v.disk i toks) :
    ∃ h, openWalk v.disk toks (handle v.disk i st) loaded = some (some h) ∧
      h.inodeId = reach v.disk i toks ∧ ∃ q fs, node h.inodeId = some (.dir q fs) := by
  induction toks generalizing i p es st loaded with
  | nil => exact ⟨_, rfl, rfl, p, es, found⟩
  | cons tok rest ih =>
    obtain ⟨k, scanned, ended⟩ := dir.findName_eq holds.ledger tok
    rw [openWalk, scanned, reach]
    simp only [Option.bind_eq_bind, Option.bind_some]
    cases named : lookup v.disk i tok with
    | none =>
      have same : i = loaded := by
        refine known.resolve_right ?_
        rintro ⟨_, _, cons, given⟩
        cases cons
        exact given named
      rw [named] at ended
      exact ⟨_, (if_pos same).trans (openWalk_end (ended rfl) same), rfl, p, es, found⟩
    | some e =>
      rw [NoFiles, named] at noFiles
      obtain ⟨q, fs, st', sub, dir'⟩ := holds.component found named noFiles.1
      dsimp only
      rw [dir'.inflate holds.ledger, Option.bind_some]
      exact ih sub dir' noFiles.2 e.inode (.inl rfl)

theorem Holds.opendir_reach (holds : Holds s.vol own node) (here : s.cwd = some cwd)
    (found : node cwd.inodeId = some (.dir p es)) (short : path.length < 256)
    (relative : path.head? ≠ some slash) (noFiles : NoFiles s.vol.disk cwd.inodeId (walkToks path))
    (enters : Enters s.vol.disk cwd.inodeId (walkToks path)) :
    ∃ h, cnopendir s path = some (some h) ∧
      h.inodeId = reach s.vol.disk cwd.inodeId (walkToks path) ∧
      ∃ q fs, node h.inodeId = some (.dir q fs) := by
  obtain ⟨st, dir⟩ := holds.dirs _ _ _ found
  obtain ⟨h, walked, ends, isDir⟩ := holds.openWalk_reach found dir noFiles 6401 (.inr enters)
  refine ⟨h, ?_, ends, isDir⟩
  obtain ⟨tok, rest, toks, _⟩ := enters
  have started : startDir s path = some (handle s.vol.disk cwd.inodeId st) := by
    rw [startDir, if_neg relative, here]
    exact dir.inflate holds.ledger
  rw [toks] at walked
  rw [cnopendir_walk short started (by rw [← walkToks_eq, toks]), walked]

/-- An absolute path does not depend on `cwd`. -/
theorem cnopendir_absolute (absolute : path.head? = some slash) (h : Option DirPtr) (str : Name) :
    cnopendir { s with cwdStr := str, cwd := h } path = cnopendir s path := by
  rw [cnopendir, cnopendir, startDir, startDir, if_pos absolute, if_pos absolute]

omit [InodeLayout] in
theorem walkToks_relative (relative : path.head? ≠ some slash) :
    ∃ tok rest, walkToks path = tok :: rest := by
  cases path with
  | nil => exact ⟨dot, [], by decide⟩
  | cons c rest =>
    obtain ⟨tok, toks, cons⟩ := @strtok_nonempty c rest fun same => relative (by rw [same]; rfl)
    exact ⟨_, toks, cons⟩

theorem Holds.opendir_missing (holds : Holds s.vol own node) (here : s.cwd = some cwd)
    (found : node cwd.inodeId = some (.dir p es)) (relative : path.head? ≠ some slash)
    (noFiles : PathOk s path) (missing : ¬ Enters s.vol.disk cwd.inodeId (walkToks path))
    (run : cnopendir s path = some r) : r = none := by
  have home := home_of here found
  obtain ⟨c, toks, cons⟩ := walkToks_relative relative
  refine (holds.opendir home noFiles run).2.2 ⟨cwd.inodeId, c, toks, ?_, cons, ?_⟩
  · rw [walkStart, if_neg relative, here]
    rfl
  · by_contra known
    exact missing ⟨c, toks, cons, known⟩

/-- A `cncd` that meets the condition keeps the string and the directory together. -/
theorem PwdNames.cd (names : PwdNames s) (holds : Holds s.vol own node)
    (ok : NamesCwd s (.cd path)) (run : cncd path s = some (code, s')) : PwdNames s' := by
  rcases cncd_cases run with ⟨_, rfl, _⟩ | ⟨h, _, opens, rfl⟩
  · exact names
  by_cases absolute : path.head? = some slash
  · exact ⟨h, h, rfl, (cnopendir_absolute absolute _ _).trans opens, rfl⟩
  obtain ⟨cwd, on, noFiles, back⟩ := ok.resolve_left absolute
  obtain ⟨p, es, found⟩ := on.found holds
  have short := cnopendir_short opens
  have starts : walkStart s path = some cwd.inodeId := by
    rw [walkStart, if_neg absolute, on.1]
    rfl
  by_cases enters : Enters s.vol.disk cwd.inodeId (walkToks path)
  · obtain ⟨h', opens', ends, q, fs, sub⟩ :=
      holds.opendir_reach on.1 found short absolute (noFiles _ starts) enters
    obtain rfl : h = h' := by
      rw [opens] at opens'
      cases opens'
      rfl
    rw [← ends] at back
    obtain ⟨again, clear, stays⟩ := back enters
    obtain ⟨h₂, opens₂, ends₂, _⟩ := Holds.opendir_reach (s := { s with cwdStr := path, cwd := some h })
      holds rfl sub short absolute clear again
    exact ⟨h, h₂, rfl, opens₂, ends₂.trans stays⟩
  · cases holds.opendir_missing on.1 found absolute noFiles enters opens

theorem Holds.openComponent (holds : Holds s.vol own node) (here : s.cwd = some cwd)
    (found : node cwd.inodeId = some (.dir p es)) (relative : path.head? ≠ some slash)
    (toks : walkToks path = [tok]) (named : lookup s.vol.disk cwd.inodeId tok = some e)
    (isDir : e.fileType = ITYPE_DIR) (run : cnopendir s path = some r) :
    ∃ h, r = some h ∧ Opened s.vol own node e.inode 0 h := by
  have home := home_of here found
  have starts : walkStart s path = some cwd.inodeId := by
    rw [walkStart, if_neg relative, here]
    rfl
  have noFiles : PathOk s path := by
    intro i same
    obtain rfl := Option.some.inj (starts.symm.trans same)
    rw [toks, NoFiles, named]
    exact ⟨by rw [isDir]; decide, trivial⟩
  have land : landing s path = some e.inode := by
    rw [landing, starts, Option.bind_eq_bind, Option.bind_some, toks, resolve, named]
    rfl
  exact (holds.opendir home noFiles run).2.1 _ land

theorem Holds.cdComponent (holds : Holds s.vol own node) (here : s.cwd = some cwd)
    (found : node cwd.inodeId = some (.dir p es)) (relative : path.head? ≠ some slash)
    (toks : walkToks path = [tok]) (named : lookup s.vol.disk cwd.inodeId tok = some e)
    (isDir : e.fileType = ITYPE_DIR) (run : cncd path s = some (code, s')) :
    ∃ h, Opened s.vol own node e.inode 0 h ∧ s' = { s with cwdStr := path, cwd := some h } := by
  rcases cncd_cases run with ⟨_, _, opens⟩ | ⟨h, _, opens, rfl⟩
  · obtain ⟨_, same, _⟩ := holds.openComponent here found relative toks named isDir opens
    cases same
  · obtain ⟨h', same, opened⟩ := holds.openComponent here found relative toks named isDir opens
    cases same
    exact ⟨h, opened, rfl⟩

omit [InodeLayout] in
theorem Opened.lists [InodeLayout] (opened : Opened v own node i 0 h) :
    ∃ q fs, node i = some (.dir q fs) ∧ h.inodeId = i ∧ h.Lists (records i q fs) := by
  obtain ⟨q, fs, st, found, dir, rfl⟩ := opened
  exact ⟨q, fs, found, rfl, dir.lists⟩

theorem Holds.enterChild (holds : Holds s.vol own node) (here : s.cwd = some cwd)
    (found : node cwd.inodeId = some (.dir p es)) (member : e ∈ es) (isDir : e.fileType = ITYPE_DIR)
    (run : cncd e.name s = some (code, s')) :
    ∃ h, OnlyCwd s s' ∧ s'.cwd = some h ∧ h.inodeId = e.inode := by
  obtain ⟨nonempty, clean⟩ := (holds.proper _ e (.of found member)).dirName isDir
  have relative : e.name.head? ≠ some slash := fun same => clean (List.mem_of_head? same)
  have toks : walkToks e.name = [e.name] := by
    rw [walkToks, if_neg nonempty, strtok_single nonempty clean]
  obtain ⟨h, opened, rfl⟩ := holds.cdComponent here found relative toks
    (holds.lookup_member found member) isDir run
  obtain ⟨_, _, _, ends, _⟩ := opened.lists
  exact ⟨h, rfl, rfl, ends⟩

theorem Holds.openDot (holds : Holds s.vol own node) (here : s.cwd = some cwd)
    (found : node cwd.inodeId = some (.dir p es)) (run : cnopendir s dot = some r)
    (given : r = some h) : Opened s.vol own node cwd.inodeId 0 h := by
  obtain ⟨h', same, opened⟩ := holds.openComponent here found (by decide)
    (show walkToks dot = [dot] by decide) (holds.lookup_dots found).1 rfl run
  rw [given] at same
  cases same
  exact opened

theorem Holds.leaveChild (holds : Holds s.vol own node) (here : s.cwd = some cwd)
    (found : node cwd.inodeId = some (.dir p es)) (run : cncd dotDot s = some (code, s')) :
    ∃ h, OnlyCwd s s' ∧ s'.cwd = some h ∧ h.inodeId = p ∧ s'.cwdStr = dotDot := by
  obtain ⟨h, opened, rfl⟩ := holds.cdComponent here found (by decide)
    (show walkToks dotDot = [dotDot] by decide)
    (holds.lookup_dots found).2 rfl run
  obtain ⟨_, _, _, ends, _⟩ := opened.lists
  exact ⟨h, rfl, rfl, ends, rfl⟩

/-- The way through a subtree comes back: nothing is changed, or a subdirectory was entered
and left with "..". -/
structure Returns (s : Fs) (cwd : DirPtr) (s' : Fs) : Prop where
  only : OnlyCwd s s'
  stands : ∃ h, s'.cwd = some h ∧ h.inodeId = cwd.inodeId
  str : s'.cwdStr = dotDot

theorem treedir_cwd (holds : Holds s.vol own node) (here : s.cwd = some cwd)
    (found : node cwd.inodeId = some (.dir p es)) (lists : dir.Lists rest)
    (inside : ∀ e ∈ rest, e ∈ records cwd.inodeId p es)
    (run : treedir t fuel indents dir s = some (out, s')) :
    s' = s ∨ Returns s cwd s' ∧ ∃ e ∈ es, e.fileType = ITYPE_DIR := by
  induction fuel generalizing s cwd p es dir rest indents out s' with
  | zero => cases run
  | succ fuel ih =>
    rw [treedir] at run
    obtain ⟨indent, _, run⟩ := Option.bind_eq_some_iff.mp run
    cases rest with
    | nil =>
      rw [cnreaddir_end (Nat.le_of_eq (show dir.index.toNat = _ from lists).symm)] at run
      cases run
      exact .inl rfl
    | cons e rest =>
      obtain ⟨next, read, _, _, more⟩ := cnreaddir_next lists
      have later : ∀ f ∈ rest, f ∈ records cwd.inodeId p es :=
        fun f member => inside f (List.mem_cons_of_mem _ member)
      rw [read, Option.bind_eq_bind, Option.bind_some] at run
      dsimp only at run
      split at run
      · exact ih holds here found more later run
      next proper =>
        have listed := inside e List.mem_cons_self
        rw [(holds.records_text found listed).2] at run proper
        have member : e ∈ es := by
          rcases List.mem_cons.mp listed with rfl | listed
          · exact absurd (.inl rfl) proper
          · exact (List.mem_cons.mp listed).resolve_left fun same => proper (.inr (by rw [same]; rfl))
        obtain ⟨entryI, _, run⟩ := Option.bind_eq_some_iff.mp run
        split at run
        next isDir =>
          obtain ⟨⟨_, s₁⟩, down, run⟩ := Option.bind_eq_some_iff.mp run
          obtain ⟨inner, opens, run⟩ := Option.bind_eq_some_iff.mp run
          obtain ⟨nextDir, same, run⟩ := Option.bind_eq_some_iff.mp run
          obtain ⟨⟨below, s₂⟩, within, run⟩ := Option.bind_eq_some_iff.mp run
          obtain ⟨⟨_, s₃⟩, up, run⟩ := Option.bind_eq_some_iff.mp run
          obtain ⟨⟨rows, s₄⟩, others, run⟩ := Option.bind_eq_some_iff.mp run
          cases run
          obtain ⟨h₁, only₁, here₁, ends₁⟩ := holds.enterChild here found member isDir down
          obtain ⟨fs, _, sub, _⟩ := holds.child found member isDir
          rw [← ends₁] at sub
          have holds₁ : Holds s₁.vol own node := by rwa [only₁.vol]
          obtain ⟨_, _, sub', _, all⟩ := (holds₁.openDot here₁ sub opens same).lists
          rw [sub] at sub'
          cases sub'
          obtain ⟨h₂, only₂, here₂, ends₂⟩ : ∃ h₂, OnlyCwd s s₂ ∧ s₂.cwd = some h₂ ∧
              h₂.inodeId = h₁.inodeId := by
            rcases ih holds₁ here₁ sub all (fun _ => id) within with same | ⟨back, _⟩
            · rw [same]
              exact ⟨h₁, only₁, here₁, rfl⟩
            · obtain ⟨h₂, here₂, ends₂⟩ := back.stands
              exact ⟨h₂, only₁.trans back.only, here₂, ends₂⟩
          rw [← ends₂] at sub
          have holds₂ : Holds s₂.vol own node := by rwa [only₂.vol]
          obtain ⟨h₃, only₃, here₃, ends₃, str₃⟩ := holds₂.leaveChild here₂ sub up
          have only := only₂.trans only₃
          have holds₃ : Holds s₃.vol own node := by rwa [only.vol]
          right
          rw [← ends₃] at found later
          refine ⟨?_, e, member, isDir⟩
          rcases ih holds₃ here₃ found more later others with same | ⟨back, _⟩
          · rw [same]
            exact ⟨only, ⟨h₃, here₃, ends₃⟩, str₃⟩
          · obtain ⟨h₄, here₄, ends₄⟩ := back.stands
            exact ⟨only.trans back.only, ⟨h₄, here₄, ends₄.trans ends₃⟩, back.str⟩
        · obtain ⟨⟨rows, s₁⟩, others, run⟩ := Option.bind_eq_some_iff.mp run
          cases run
          exact ih holds here found more later others

theorem PwdNames.tree (names : PwdNames s) (holds : Holds s.vol own node) (ok : NamesCwd s .tree)
    (run : cntree t s = some (code, out, s')) : PwdNames s' := by
  obtain ⟨cwd, on, place⟩ := ok
  obtain ⟨p, es, found⟩ := on.found holds
  obtain ⟨inner, opens, run⟩ := Option.bind_eq_some_iff.mp run
  obtain ⟨dir, given, run⟩ := Option.bind_eq_some_iff.mp run
  obtain ⟨⟨printed, s₁⟩, lists, run⟩ := Option.bind_eq_some_iff.mp run
  cases run
  obtain ⟨_, _, found', _, all⟩ := (holds.openDot on.1 found opens given).lists
  rw [found] at found'
  cases found'
  rcases treedir_cwd holds on.1 found all (fun _ => id) lists with same | ⟨back, e, member, isDir⟩
  · rwa [same]
  obtain ⟨h, here, ends⟩ := back.stands
  rcases place with root | none
  · have holds' : Holds s'.vol own node := by rwa [back.only.vol]
    obtain ⟨fs, top⟩ := holds.tree.root_dir
    have up := (holds'.lookup_dots top).2
    have zero : h.inodeId = 0 := ends.trans root
    have dots : walkToks dotDot = [dotDot] := by decide
    obtain ⟨h', opens', ends', _⟩ := holds'.opendir_reach here (zero ▸ top) (by decide) (by decide)
      (by rw [zero, dots, NoFiles, up]; exact ⟨show ITYPE_DIR ≠ ITYPE_FILE by decide, trivial⟩)
      ⟨dotDot, [], dots, by rw [zero, up]; simp⟩
    refine ⟨h, h', here, ?_, ?_⟩
    · rw [cnpwd, back.str]
      exact opens'
    · rw [ends', zero, dots, reach, up]
      rfl
  · obtain ⟨st, here⟩ := holds.dirs _ _ _ found
    have proper := holds.proper _ e (.of found member)
    rcases none _ e (here.listing_eq holds.ledger)
      (List.mem_cons_of_mem _ (List.mem_cons_of_mem _ member)) isDir with same | same
    · exact absurd same proper.notDot
    · exact absurd same proper.notDotDot

omit [InodeLayout] in
theorem Move.only [InodeLayout] {move : Move} (run : move.step t s = some (code, s')) : OnlyCwd s s' := by
  cases move with
  | cd path => exact cncd_only run
  | tree =>
    obtain ⟨⟨_, _, s₁⟩, lists, run⟩ := Option.bind_eq_some_iff.mp run
    cases run
    exact cntree_only lists

theorem pwdNames_root (holds : Holds s.vol own node) (here : s.cwd = some cwd)
    (root : cwd.inodeId = 0) (str : s.cwdStr = [slash]) : PwdNames s := by
  obtain ⟨es, top⟩ := holds.tree.root_dir
  obtain ⟨st, dir⟩ := holds.dirs 0 0 es top
  refine ⟨cwd, handle s.vol.disk 0 st, here, ?_, root.symm⟩
  rw [cnpwd, str, cnopendir, if_neg (by decide), startDir, if_pos (by rfl), dir.inflate holds.ledger]
  rfl

theorem Move.cd_eq (t : TreeText) (defined : (cncd path s).isSome) :
    ∃ code, Move.step t s (.cd path) = some (code, ((cncd path s).map Prod.snd).getD s) := by
  obtain ⟨⟨code, s'⟩, moved⟩ := Option.isSome_iff_exists.mp defined
  refine ⟨code, ?_⟩
  rw [moved]
  exact moved

/-- From the state of a mounted volume, whatever file system it holds: in every run of `cncd`
and `cntree` that meets the condition, the printed string leads to the working directory. -/
theorem pwd_names (holds : Holds s.vol own node) (here : s.cwd = some cwd) (root : cwd.inodeId = 0)
    (str : s.cwdStr = [slash]) (steps : Steps (fun s move => Move.step t s move) NamesCwd s trace s') :
    PwdNames s' := by
  refine (steps.invariant (fun s => Holds s.vol own node ∧ PwdNames s) ?_
    ⟨holds, pwdNames_root holds here root str⟩).2
  rintro s move code s' ⟨holds, names⟩ ok run
  refine ⟨by rwa [(Move.only run).vol], ?_⟩
  cases move with
  | cd path => exact names.cd holds ok run
  | tree =>
    obtain ⟨⟨_, _, s₁⟩, lists, run⟩ := Option.bind_eq_some_iff.mp run
    cases run
    exact names.tree holds ok lists

end

end

section Lp64
attribute [local instance] lp64

def absoluteCd : Fs := ((cncd [slash, 97] dirMade.fs).map Prod.snd).getD dirMade.fs
def relativeCd : Fs := ((cncd [97] dirMade.fs).map Prod.snd).getD dirMade.fs

theorem dirMade_cd : dirMade.fs.cwd.map (·.inodeId) = some 0 ∧ dirMade.fs.cwdStr = [slash] ∧
    (cncd [slash, 97] dirMade.fs).isSome ∧ (cncd [97] dirMade.fs).isSome ∧
    (cnopendir relativeCd (cnpwd relativeCd)).map Option.isSome = some false := by decide +kernel

/-- `cd /a` prints "/a". -/
theorem pwd_names_absolute : PwdNames absoluteCd := by
  obtain ⟨own, node, inv⟩ := dirMade_inv
  obtain ⟨stands, str, defined, _⟩ := dirMade_cd
  obtain ⟨cwd, here, root⟩ := Option.map_eq_some_iff.mp stands
  obtain ⟨code, moved⟩ := Move.cd_eq ⟨fun _ => [], fun _ => []⟩ defined
  have ok : NamesCwd dirMade.fs (.cd [slash, 97]) := .inl rfl
  exact pwd_names inv.sound.holds here root str (.single ok moved)

/-- `cd a` prints "a", which is not found from there. -/
theorem pwd_names_relative : ∃ trace s', Steps (fun s move => Move.step ⟨fun _ => [], fun _ => []⟩ s move)
    (fun _ _ => True) dirMade.fs trace s' ∧ ¬ PwdNames s' := by
  obtain ⟨_, _, _, defined, missing⟩ := dirMade_cd
  obtain ⟨code, moved⟩ := Move.cd_eq ⟨fun _ => [], fun _ => []⟩ defined
  refine ⟨_, relativeCd, .single trivial moved, ?_⟩
  rintro ⟨cwd, h, _, opens, _⟩
  rw [opens] at missing
  cases missing

end Lp64

end CdnwSh
