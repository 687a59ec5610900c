import CdnwSh.Machine

/-! Path lookup against its purpose: a path is split at its slashes, every component is an
entry of the directory reached so far. `cnopendir` resolves paths so unless a later
component is missing or the path has slashes only. -/
namespace CdnwSh

open ByteMemory RecordList

section
variable [InodeLayout]

/-- The components of a path. The empty path means ".". -/
def pathComponents (path : Name) : List Name :=
  if path = [] then [dot] else (path.splitOn slash).filter (· ≠ [])

def entryNamed (node : Nodes) (i : Iptr) (tok : Name) : Option DirEntry :=
  match node i with
  | some (.dir p es) => (records i p es).find? fun e => e.name = tok
  | _ => none

/-- Where the components lead, one after the other. -/
def follow (node : Nodes) : Iptr → List Name → Option Iptr
  | i, [] => some i
  | i, tok :: rest => (entryNamed node i tok).bind fun e => follow node e.inode rest

/-- A handle of inode `j` as it is now, at its start, with all its bytes. -/
def Fresh (d : Disk) (j : Iptr) (h : DirPtr) : Prop :=
  ∃ st, inodeRead d j = some st ∧
    h = ⟨st, j, 0, ⟨4096 * st.blocks.toNat, Extents.gather 0 d (blockList d st)⟩⟩

/-- The path leads to a fresh handle of the inode at its end, and to null when a component
is missing. -/
def Resolves (s : Fs) (node : Nodes) (path : Name) : Prop :=
  ∃ i r, walkStart s path = some i ∧ cnopendir s path = some r ∧
    (∀ j, follow node i (pathComponents path) = some j → ∃ h, r = some h ∧ Fresh s.vol.disk j h) ∧
    (follow node i (pathComponents path) = none → r = none)

/-- The components are all found, or the very first one is missing. -/
def ResolvesWhen (s : Fs) (node : Nodes) (path : Name) : Prop :=
  ¬ (2 ≤ path.length ∧ ∀ c ∈ path, c = slash) ∧
  ∀ i, walkStart s path = some i → follow node i (pathComponents path) ≠ none ∨
    ∃ tok rest, pathComponents path = tok :: rest ∧ entryNamed node i tok = none

omit [InodeLayout] in
theorem splitOn_cons_slash : (slash :: l).splitOn slash = [] :: l.splitOn slash := by
  rw [List.splitOn, List.splitOnP_cons_eq_if_modifyHead]
  exact if_pos (by simp)

omit [InodeLayout] in
theorem splitOn_cons (apart : c ≠ slash) :
    (c :: l).splitOn slash = (l.splitOn slash).modifyHead (c :: ·) := by
  rw [List.splitOn, List.splitOnP_cons_eq_if_modifyHead]
  exact if_neg (by simpa using apart)

omit [InodeLayout] in
theorem strtok_splitOn (l : Name) : strtok l = (l.splitOn slash).filter (· ≠ []) := by
  induction l with
  | nil => rfl
  | cons c rest ih =>
    by_cases same : c = slash
    · rw [same, strtok_cons_slash, splitOn_cons_slash, ih]
      rfl
    · rw [splitOn_cons same]
      cases rest with
      | nil => rw [strtok_last same]; rfl
      | cons next rest =>
        rw [strtok_cons same, ih]
        by_cases stop : next = slash
        · rw [if_pos stop, stop, splitOn_cons_slash]
          rfl
        · obtain ⟨head, tail, pieces⟩ : ∃ head tail, rest.splitOn slash = head :: tail :=
            List.exists_cons_of_ne_nil (List.splitOnP_ne_nil _ _)
          rw [if_neg stop, splitOn_cons stop, pieces]
          rfl

omit [InodeLayout] in
theorem walkToks_eq (path : Name) : walkToks path = pathComponents path := by
  rw [walkToks, pathComponents]
  split
  · rfl
  · exact strtok_splitOn path

omit [InodeLayout] in
theorem strtok_nil_iff : strtok l = [] ↔ ∀ c ∈ l, c = slash := by
  induction l with
  | nil => simp [strtok]
  | cons c rest ih =>
    by_cases same : c = slash
    · rw [same, strtok_cons_slash, ih]
      simp
    · obtain ⟨tok, toks, more⟩ := @strtok_nonempty c rest same
      rw [more]
      simp [same]

omit [InodeLayout] in
theorem pathComponents_nil (none : pathComponents path = []) :
    path = [slash] ∨ (2 ≤ path.length ∧ ∀ c ∈ path, c = slash) := by
  have full : path ≠ [] := by
    rintro rfl
    cases none
  have only : ∀ c ∈ path, c = slash := by
    rw [pathComponents, if_neg full, ← strtok_splitOn] at none
    exact strtok_nil_iff.mp none
  cases path with
  | nil => exact absurd rfl full
  | cons c tail =>
    cases tail with
    | nil => exact .inl (by rw [only c List.mem_cons_self])
    | cons c' tail => exact .inr ⟨by simp, only⟩

section
variable {v : Vol} {own : Owner} {node : Nodes} {i j : Iptr}

theorem Holds.component_live (holds : Holds v own node) (named : entryNamed node i tok = some e) :
    node e.inode ≠ none := by
  unfold entryNamed at named
  split at named
  next p es found =>
    have member := List.mem_of_find?_eq_some named
    have entry (f : DirEntry) (listed : f ∈ es) : node f.inode ≠ none := by
      cases kind : scheme.isDir f with
      | true =>
        obtain ⟨fs, sub⟩ := holds.tree.subdir i f (.of found listed) kind
        exact fun dead => by cases sub.symm.trans dead
      | false =>
        have sub := holds.tree.leaf i f (.of found listed) kind
        exact fun dead => by cases sub.symm.trans dead
    rcases List.mem_cons.mp member with rfl | later
    · obtain ⟨q, fs, sub⟩ := holds.target_dir found member rfl
      exact fun dead => by cases sub.symm.trans dead
    · rcases List.mem_cons.mp later with rfl | listed
      · obtain ⟨q, fs, sub⟩ := holds.target_dir found member rfl
        exact fun dead => by cases sub.symm.trans dead
      · exact entry e listed
  · cases named

theorem Holds.inflate (holds : Holds v own node) (live : node i ≠ none) :
    ∃ h, inflatedir v.disk i = some h ∧ Fresh v.disk i h := by
  have load {st : Inode} (read : inodeRead v.disk i = some st) (mapped : Mapped v.disk own i st) :
      ∃ h, inflatedir v.disk i = some h ∧ Fresh v.disk i h := by
    refine ⟨_, ?_, st, read, rfl⟩
    rw [inflatedir, read]
    simp only [Option.bind_eq_bind, Option.bind_some]
    rw [llread_eq (mapped.inside holds.ledger)]
    rfl
  cases kind : node i with
  | none => exact absurd kind live
  | some n =>
    cases n with
    | file =>
      obtain ⟨st, file⟩ := holds.files i kind
      exact load file.read file.mapped
    | dir p es =>
      obtain ⟨st, dir⟩ := holds.dirs i p es kind
      exact load dir.read dir.mapped

theorem Holds.fresh_findName (holds : Holds v own node) (found : node i = some (.dir p es))
    (fresh : Fresh v.disk i h) (tok : Name) :
    ∃ k, findName h tok = some (entryNamed node i tok, { h with index := k }) := by
  obtain ⟨st, read, rfl⟩ := fresh
  obtain ⟨st', dir⟩ := holds.dirs i p es found
  obtain rfl := Option.some.inj (read.symm.trans dir.read)
  obtain ⟨k, scanned, _⟩ := dir.findName_eq holds.ledger tok
  have shape : handle v.disk i st = ⟨st, i, 0, ⟨4096 * st.blocks.toNat,
      Extents.gather 0 v.disk (blockList v.disk st)⟩⟩ := by
    rw [blockList_one dir.blocks, gather_one, dir.blocks]
    rfl
  have named : entryNamed node i tok = lookup v.disk i tok := by
    rw [holds.lookup_eq found, entryNamed, found]
  rw [named, ← shape]
  exact ⟨k, scanned⟩

theorem Holds.openWalk_follow (holds : Holds v own node) (live : node i ≠ none)
    (fresh : Fresh v.disk i h) (toks : List Name) (leads : follow node i toks = some j)
    (loaded : Iptr) :
    ∃ h', openWalk v.disk toks h loaded = some (some h') ∧ Fresh v.disk j h' := by
  induction toks generalizing i h loaded with
  | nil =>
    cases leads
    exact ⟨h, rfl, fresh⟩
  | cons tok rest ih =>
    obtain ⟨e, named, leads⟩ := Option.bind_eq_some_iff.mp leads
    have isDir : ∃ p es, node i = some (.dir p es) := by
      unfold entryNamed at named
      split at named
      next p es found => exact ⟨p, es, found⟩
      · cases named
    obtain ⟨p, es, found⟩ := isDir
    obtain ⟨k, scanned⟩ := holds.fresh_findName found fresh tok
    obtain ⟨inner, inflated, again⟩ := holds.inflate (holds.component_live named)
    obtain ⟨h', walked, last⟩ := ih (holds.component_live named) again leads e.inode
    refine ⟨h', ?_, last⟩
    rw [openWalk, scanned, named]
    simp only [Option.bind_eq_bind, Option.bind_some]
    rw [inflated]
    exact walked

theorem inflatedir_inodeId (inflated : inflatedir d i = some h) : h.inodeId = i := by
  obtain ⟨st, _, inflated⟩ := Option.bind_eq_some_iff.mp inflated
  obtain ⟨data, _, inflated⟩ := Option.bind_eq_some_iff.mp inflated
  cases inflated
  rfl

/-- Once a component was found, the check after the scan does not fail any more. -/
theorem openWalk_loaded {dir : DirPtr} (same : dir.inodeId = loaded) :
    openWalk d toks dir loaded ≠ some none := by
  induction toks generalizing dir loaded with
  | nil => simp [openWalk]
  | cons tok rest ih =>
    intro missed
    rw [openWalk] at missed
    obtain ⟨⟨found, dir'⟩, scanned, missed⟩ := Option.bind_eq_some_iff.mp missed
    cases found with
    | some e =>
      obtain ⟨inner, inflated, missed⟩ := Option.bind_eq_some_iff.mp missed
      exact ih (inflatedir_inodeId inflated) missed
    | none =>
      obtain ⟨k, rfl⟩ := findNameLoop_index scanned
      dsimp only at missed
      rw [if_pos same] at missed
      exact ih (show ({ dir with index := k } : DirPtr).inodeId = loaded from same) missed

end

section
variable {s : Fs} {own : Owner} {node : Nodes} {path : Name}

theorem Holds.start (holds : Holds s.vol own node) (home : s.cwd = some cwd)
    (stands : node cwd.inodeId = some (.dir q fs)) (path : Name) :
    ∃ i p es h, walkStart s path = some i ∧ node i = some (.dir p es) ∧
      startDir s path = some h ∧ Fresh s.vol.disk i h := by
  obtain ⟨es, top⟩ := holds.tree.root_dir
  by_cases absolute : path.head? = some slash
  · obtain ⟨h, inflated, fresh⟩ := holds.inflate (i := 0) (by rw [top]; simp)
    exact ⟨0, 0, es, h, if_pos absolute, top, (if_pos absolute).trans inflated, fresh⟩
  · obtain ⟨h, inflated, fresh⟩ := holds.inflate (i := cwd.inodeId) (by rw [stands]; simp)
    refine ⟨cwd.inodeId, q, fs, h, ?_, stands, ?_, fresh⟩
    · rw [walkStart, if_neg absolute, home]
      rfl
    · rw [startDir, if_neg absolute, home]
      exact inflated

theorem cnopendir_walk (short : path.length < 256) (started : startDir s path = some h)
    (toks : pathComponents path = tok :: rest) :
    cnopendir s path = openWalk s.vol.disk (tok :: rest) h 6401 := by
  have root : path ≠ [slash] := by
    rintro rfl
    rw [← walkToks_eq] at toks
    cases toks
  rw [cnopendir, if_neg (by omega), started]
  simp only [Option.bind_eq_bind, Option.bind_some, if_neg root]
  rw [← walkToks, walkToks_eq, toks]

/-- Several slashes alone are undefined behaviour, as the root directory has entries. -/
theorem Holds.cnopendir_slashes (holds : Holds s.vol own node) (two : 2 ≤ path.length)
    (only : ∀ c ∈ path, c = slash) : cnopendir s path = none := by
  obtain ⟨es, top⟩ := holds.tree.root_dir
  obtain ⟨st, dir⟩ := holds.dirs 0 0 es top
  obtain ⟨next, read, _⟩ := cnreaddir_next dir.lists
  have full : path ≠ [] := by
    rintro rfl
    cases two
  have more : path ≠ [slash] := by
    rintro rfl
    exact absurd two (by decide)
  have absolute : path.head? = some slash := by
    rw [List.head?_eq_some_head full, only _ (List.head_mem full)]
  rw [cnopendir]
  split
  · rfl
  · rw [startDir, if_pos absolute, dir.inflate holds.ledger]
    simp only [Option.bind_eq_bind, Option.bind_some]
    rw [strtok_nil_iff.mpr only]
    simp only [read]
    rfl

/-- A path is reported as missing exactly when its first component is. -/
theorem Holds.cnopendir_missing (holds : Holds s.vol own node) (found : node i = some (.dir p es))
    (fresh : Fresh s.vol.disk i h) (short : path.length < 256) (started : startDir s path = some h)
    (toks : pathComponents path = tok :: rest) :
    cnopendir s path = some none ↔ entryNamed node i tok = none := by
  obtain ⟨k, scanned⟩ := holds.fresh_findName found fresh tok
  rw [cnopendir_walk short started toks, openWalk, scanned]
  cases named : entryNamed node i tok with
  | none =>
    have apart : h.inodeId ≠ 6401 := by
      obtain ⟨st, _, rfl⟩ := fresh
      rintro (rfl : i = 6401)
      exact absurd (holds.inodes 6401 (by rw [found]; simp)).1 (by decide)
    simp only [Option.bind_eq_bind, Option.bind_some, if_neg apart]
    exact iff_of_true rfl trivial
  | some e =>
    refine ⟨fun missed => ?_, fun none => by cases none⟩
    rw [Option.bind_eq_bind, Option.bind_some] at missed
    obtain ⟨inner, inflated, missed⟩ := Option.bind_eq_some_iff.mp missed
    exact absurd missed (openWalk_loaded (inflatedir_inodeId inflated))

theorem Holds.follow_step (holds : Holds s.vol own node) (found : node i = some (.dir p es))
    (leads : ((lookup s.vol.disk i tok).map fun e => (e.inode, e.fileType)) = some (j, ITYPE_DIR)) :
    (∀ rest, follow node i (tok :: rest) = follow node j rest) ∧ ∃ q fs, node j = some (.dir q fs) := by
  obtain ⟨e, named, shape⟩ := Option.map_eq_some_iff.mp leads
  obtain ⟨rfl, isDir⟩ := Prod.mk.inj shape
  rw [holds.lookup_eq found] at named
  refine ⟨fun rest => ?_, holds.target_dir found (List.mem_of_find?_eq_some named) isDir⟩
  rw [follow, entryNamed, found]
  dsimp only
  rw [named]
  rfl

theorem Holds.cnopendir_follow (holds : Holds s.vol own node) (found : node i = some (.dir p es))
    (fresh : Fresh s.vol.disk i h) (short : path.length < 256) (started : startDir s path = some h)
    (several : ¬ (2 ≤ path.length ∧ ∀ c ∈ path, c = slash))
    (leads : follow node i (pathComponents path) = some j) :
    ∃ h', cnopendir s path = some (some h') ∧ Fresh s.vol.disk j h' := by
  cases toks : pathComponents path with
  | nil =>
    obtain rfl := (pathComponents_nil toks).resolve_right several
    cases leads
    refine ⟨h, ?_, fresh⟩
    rw [cnopendir, if_neg (by decide), started]
    rfl
  | cons tok rest =>
    rw [cnopendir_walk short started toks]
    rw [toks] at leads
    exact holds.openWalk_follow (by rw [found]; simp) fresh (tok :: rest) leads 6401

/-- `cnopendir` resolves a path exactly in this case. -/
theorem path_resolution (holds : Holds s.vol own node) (home : s.cwd = some cwd)
    (stands : node cwd.inodeId = some (.dir q fs)) (short : path.length < 256) :
    Resolves s node path ↔ ResolvesWhen s node path := by
  obtain ⟨i, p, es, h, starts, found, started, fresh⟩ := holds.start home stands path
  constructor
  · rintro ⟨i', r, starts', opened, _, missing⟩
    obtain rfl := Option.some.inj (starts.symm.trans starts')
    constructor
    · rintro ⟨two, only⟩
      rw [holds.cnopendir_slashes two only] at opened
      cases opened
    · intro i' starts'
      obtain rfl := Option.some.inj (starts.symm.trans starts')
      by_cases lost : follow node i (pathComponents path) = none
      · rw [missing lost] at opened
        cases toks : pathComponents path with
        | nil =>
          rw [toks] at lost
          cases lost
        | cons tok rest =>
          have named := (holds.cnopendir_missing found fresh short started toks).mp opened
          exact .inr ⟨tok, rest, rfl, named⟩
      · exact .inl lost
  · rintro ⟨several, ends⟩
    cases leads : follow node i (pathComponents path) with
    | some j =>
      obtain ⟨h', opened, last⟩ := holds.cnopendir_follow found fresh short started several leads
      refine ⟨i, some h', starts, opened, fun j' leads' => ⟨h', rfl, ?_⟩, fun lost => ?_⟩
      · exact Option.some.inj (leads.symm.trans leads') ▸ last
      · cases leads.symm.trans lost
    | none =>
      obtain ⟨tok, rest, toks, named⟩ := (ends i starts).resolve_left (not_not.mpr leads)
      have opened := (holds.cnopendir_missing found fresh short started toks).mpr named
      refine ⟨i, none, starts, opened, fun j leads' => ?_, fun _ => rfl⟩
      cases leads.symm.trans leads'

end
end

section Lp64
attribute [local instance] lp64

theorem dirMade_home : dirMade.fs.cwd.map (·.inodeId) = some 0 ∧
    ((lookup dirMade.fs.vol.disk 0 [97]).map fun e => (e.inode, e.fileType)) = some (1, ITYPE_DIR) ∧
    ((lookup dirMade.fs.vol.disk 1 dotDot).map fun e => (e.inode, e.fileType)) = some (0, ITYPE_DIR) := by
  decide +kernel

theorem path_resolution_back : ∃ own node, Sound dirMade.fs own node ∧
    follow node 0 [[97], dotDot, [97]] = some 1 ∧
    Resolves dirMade.fs node [47, 97, 47, 46, 46, 47, 97] := by
  obtain ⟨own, node, inv⟩ := dirMade_inv
  have holds := inv.sound.holds
  obtain ⟨home, down, up⟩ := dirMade_home
  obtain ⟨cwd, here, stands⟩ := Option.map_eq_some_iff.mp home
  obtain ⟨es, top⟩ := holds.tree.root_dir
  obtain ⟨into, q, fs, sub⟩ := holds.follow_step top down
  obtain ⟨back, _⟩ := holds.follow_step sub up
  have leads : follow node 0 [[97], dotDot, [97]] = some 1 := by
    rw [into, back, into]
    rfl
  refine ⟨own, node, inv.sound, leads, ?_⟩
  rw [← stands] at top
  refine (path_resolution holds here top (by decide)).mpr ⟨by decide, fun i starts => .inl ?_⟩
  cases starts
  rw [show pathComponents [47, 97, 47, 46, 46, 47, 97] = [[97], dotDot, [97]] by decide, leads]
  decide

/-- With a directory a and nothing in it, a/x leads to a handle of a. -/
theorem path_resolution_missed : ∃ own node, Sound dirMade.fs own node ∧
    (∃ cwd q fs, dirMade.fs.cwd = some cwd ∧ node cwd.inodeId = some (.dir q fs)) ∧
    ¬ Resolves dirMade.fs node [97, 47, 120] := by
  obtain ⟨own, node, inv⟩ := dirMade_inv
  have holds := inv.sound.holds
  have second : lookup dirMade.fs.vol.disk 1 [120] = none := by decide +kernel
  have opens : (cnopendir dirMade.fs [97, 47, 120]).map Option.isSome = some true := by
    decide +kernel
  obtain ⟨starts, down, _⟩ := dirMade_home
  obtain ⟨es, top⟩ := holds.tree.root_dir
  obtain ⟨into, q, fs, sub⟩ := holds.follow_step top down
  rw [holds.lookup_eq sub] at second
  have lost : follow node 0 (pathComponents [97, 47, 120]) = none := by
    rw [show pathComponents [97, 47, 120] = [[97], [120]] by decide, into, follow, entryNamed, sub]
    dsimp only
    rw [second]
    rfl
  obtain ⟨cwd, home, _⟩ := Option.map_eq_some_iff.mp starts
  refine ⟨own, node, inv.sound, ⟨cwd, ?_⟩, ?_⟩
  · obtain ⟨q, fs, stands⟩ := inv.sound.home cwd home
    exact ⟨q, fs, home, stands⟩
  · rintro ⟨i, r, starts', opened, _, missing⟩
    change walkStart dirMade.fs [97, 47, 120] = some 0 at starts
    obtain rfl := Option.some.inj (starts.symm.trans starts')
    rw [missing lost] at opened
    rw [opened] at opens
    cases opens

end Lp64

end CdnwSh
