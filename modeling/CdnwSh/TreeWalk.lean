import CdnwSh.Library.Preorder
import CdnwSh.Listing
import CdnwSh.MkdirEffect
import CdnwSh.Tree

/-! `cntree` of the current directory: the lines it prints are the preorder listing of the
subtree, and it comes back, exactly when no indent overruns its 256 bytes. -/
namespace CdnwSh

open ByteMemory RecordList NameTree

section
variable [InodeLayout]

/-- The indent of a directory that many levels down, with what `indent_str` held before, is
shorter than `indent_str`. -/
def TreeText.IndentFits (t : TreeText) (k : Nat) (i : Iptr) : Prop :=
  k = 0 ∨ (t.indentStr i).length + 4 * k < 256

/-- The line of an entry: indent, name and what its inode says. -/
def TreeText.line (t : TreeText) (d : Disk) (item : Item Iptr DirEntry) : Name :=
  (t.indent item.2.1 (UInt8.ofNat item.1)).getD [] ++ item.2.2.name ++
    ((inodeRead d item.2.2.inode).map t.attributes).getD []

/-- The indents of all directories below these entries. -/
def FitsBelow (t : TreeText) (node : Nodes) (k : Nat) (es : List DirEntry) : Prop :=
  ∀ e ∈ es, e.fileType = ITYPE_DIR → ∀ n j, Below scheme node e.inode n j → t.IndentFits (k + 1 + n) j

/-- How a listing of entries of directory `i` at level `k` ends: undefined, or with the text
of the preorder listing, in `i` again and with nothing but `cwd` and its string changed. -/
inductive Walked (t : TreeText) (node : Nodes) (k : Nat) (i : Iptr) (es : List DirEntry) (s : Fs) :
    Option (Name × Fs) → Prop where
  | stuck : ¬ (t.IndentFits k i ∧ FitsBelow t node k es) → Walked t node k i es s none
  | listed : t.IndentFits k i → FitsBelow t node k es → Preorder scheme node k i es items →
      OnlyCwd s s' → s'.cwd = some h → h.inodeId = i →
      Walked t node k i es s (some (items.flatMap (t.line s.vol.disk), s'))

section
variable {s s' : Fs} {t : TreeText} {own : Owner} {node : Nodes} {cwd dir : DirPtr} {i j p : Iptr}
  {es rest : List DirEntry} {e : DirEntry} {items : List (Item Iptr DirEntry)}

omit [InodeLayout] in
theorem TreeText.indent_some (fits : t.IndentFits k i) (small : k ≤ 64) :
    ∃ str, t.indent i (UInt8.ofNat k) = some str := by
  have level : (UInt8.ofNat k).toNat = k := by rw [UInt8.toNat_ofNat']; omega
  rw [indent]
  split
  · exact ⟨_, rfl⟩
  next deep =>
    have fits : (t.indentStr i).length + 4 * k < 256 := fits.resolve_left fun top =>
      deep (UInt8.toNat_inj.mp (by rw [level, top]; rfl))
    rw [if_pos (by rw [List.length_append, List.length_replicate, level]; exact fits)]
    exact ⟨_, rfl⟩

omit [InodeLayout] in
theorem TreeText.indent_none (long : ¬ t.IndentFits k i) (small : k ≤ 64) :
    t.indent i (UInt8.ofNat k) = none := by
  have level : (UInt8.ofNat k).toNat = k := by rw [UInt8.toNat_ofNat']; omega
  obtain ⟨deep, wide⟩ := not_or.mp long
  rw [indent, if_neg, if_neg]
  · rw [List.length_append, List.length_replicate, level]
    exact wide
  · intro top
    have zero := congrArg UInt8.toNat top
    rw [level] at zero
    exact deep zero

omit [InodeLayout] in
theorem TreeText.IndentFits.level (fits : t.IndentFits k i) : k ≤ 63 := by
  rcases fits with rfl | fits <;> omega

theorem leadsTo_single (here : s.cwd = some cwd) (relative : path.head? ≠ some slash)
    (toks : walkToks path = [tok]) (short : path.length ≤ 255)
    (named : lookup s.vol.disk cwd.inodeId tok = some e) : LeadsTo s path e.inode := by
  refine ⟨short, .inl (by rw [toks]; simp), ?_⟩
  rw [landing, walkStart, if_neg relative, here, toks]
  simp [resolve, named]

theorem Holds.opensDot (holds : Holds s.vol own node) (here : s.cwd = some cwd)
    (found : node cwd.inodeId = some (.dir p es)) : ∃ st, DirAt s.vol.disk own cwd.inodeId st
      (records cwd.inodeId p es) ∧ cnopendir s dot = some (some (handle s.vol.disk cwd.inodeId st)) := by
  obtain ⟨st, at'⟩ := holds.dirs _ _ _ found
  exact ⟨st, at', (leadsTo_single here (by decide) (show walkToks dot = [dot] by decide) (by decide)
    (holds.lookup_dots found).1).opendir (at'.inflate holds.ledger)⟩

theorem Holds.cdNamed (holds : Holds s.vol own node) (here : s.cwd = some cwd)
    (relative : path.head? ≠ some slash) (toks : walkToks path = [tok]) (short : path.length ≤ 255)
    (named : lookup s.vol.disk cwd.inodeId tok = some e) (target : node e.inode = some (.dir p es)) :
    ∃ h, cncd path s = some (0, { s with cwdStr := path, cwd := some h }) ∧ h.inodeId = e.inode := by
  obtain ⟨st, at'⟩ := holds.dirs _ _ _ target
  have opens := (leadsTo_single here relative toks short named).opendir (at'.inflate holds.ledger)
  refine ⟨handle s.vol.disk e.inode st, ?_, rfl⟩
  rw [cncd, opens, Option.bind_eq_bind, Option.bind_some]
  dsimp only
  rw [closeCwd_some here]
  rfl

omit [InodeLayout] in
theorem fitsBelow_dir (found : node i = some (.dir p es)) :
    (t.IndentFits k i ∧ FitsBelow t node k es) ↔
      ∀ n j, Below scheme node i n j → t.IndentFits (k + n) j := by
  constructor
  · rintro ⟨top, below⟩ n j down
    rcases down.first with ⟨rfl, rfl⟩ | ⟨e, m, entry, isDir, rfl, rest⟩
    · exact top
    · have fits := below e (entry.mem found) (of_decide_eq_true isDir) m j rest
      rwa [Nat.add_assoc, Nat.add_comm 1 m] at fits
  · intro all
    refine ⟨all 0 i .here, fun e member isDir n j down => ?_⟩
    have fits := all (n + 1) j (down.prepend (.of found member) (decide_eq_true isDir))
    rwa [Nat.add_comm n 1, ← Nat.add_assoc] at fits

/-- A block has fewer than 4096 entries. -/
theorem DirAt.count {st : Inode} {d : Disk} (dir : DirAt d own i st (records i p es)) : es.length < 4096 := by
  have all := dir.tiles.length_bound fun o r read => by
    have inside := entryAt_inside read
    exact show o < 4096 by dsimp only at inside; omega
  rw [records, List.length_cons, List.length_cons] at all
  omega

theorem treedir_dots (lists : dir.Lists (records i p es)) : ∃ next : DirPtr, next.Lists es ∧
    next.inodeId = dir.inodeId ∧
    treedir t (n + 3) indents dir s = treedir t (n + 1) indents next s := by
  obtain ⟨one, read, rfl, _, rest⟩ := cnreaddir_next lists
  obtain ⟨two, read', rfl, _, rest'⟩ := cnreaddir_next rest
  refine ⟨_, rest', rfl, ?_⟩
  cases wide : t.indent dir.inodeId indents with
  | none => rw [treedir, treedir, wide]; rfl
  | some str =>
    rw [treedir, wide, read, Option.bind_eq_bind, Option.bind_some, Option.bind_eq_bind, Option.bind_some]
    dsimp only
    rw [if_pos (.inl rfl), treedir, wide, read', Option.bind_eq_bind, Option.bind_some,
      Option.bind_eq_bind, Option.bind_some]
    exact if_pos (.inr rfl)

omit [InodeLayout] in
theorem level_succ : UInt8.ofNat k + 1 = UInt8.ofNat (k + 1) :=
  UInt8.toNat_inj.mp (by
    rw [UInt8.toNat_add, UInt8.toNat_ofNat', UInt8.toNat_ofNat', Nat.mod_add_mod]
    rfl)

omit [InodeLayout] in
theorem Walked.wide (wide : ¬ t.IndentFits k i) (small : k ≤ 64) (same : dir.inodeId = i) [InodeLayout] :
    Walked t node k i rest s (treedir t n (UInt8.ofNat k) dir s) := by
  have undefined : treedir t n (UInt8.ofNat k) dir s = none := by
    cases n with
    | zero => rfl
    | succ n => rw [treedir, same, TreeText.indent_none wide small]; rfl
  rw [undefined]
  exact .stuck fun fits => wide fits.1

theorem treedir_file (indent : t.indent dir.inodeId indents = some str)
    (read : cnreaddir dir = some (some (e, next))) (text : cstr e.name = e.name)
    (apart : ¬ (e.name = dot ∨ e.name = dotDot)) (inode : inodeRead s.vol.disk e.inode = some st)
    (isFile : e.fileType ≠ ITYPE_DIR) : treedir t (n + 1) indents dir s =
      (treedir t n indents next s).map fun r => (str ++ e.name ++ t.attributes st ++ r.1, r.2) := by
  rw [treedir, indent, read, Option.bind_eq_bind, Option.bind_some, Option.bind_eq_bind, Option.bind_some]
  dsimp only
  rw [text, if_neg apart, inode, Option.bind_eq_bind, Option.bind_some, if_neg isFile]
  cases treedir t n indents next s <;> rfl

theorem treedir_dir (indent : t.indent dir.inodeId indents = some str)
    (read : cnreaddir dir = some (some (e, next))) (text : cstr e.name = e.name)
    (apart : ¬ (e.name = dot ∨ e.name = dotDot)) (inode : inodeRead s.vol.disk e.inode = some st)
    (isDir : e.fileType = ITYPE_DIR) (enters : cncd e.name s = some (code, s₁))
    (opens : cnopendir s₁ dot = some (some nextDir)) : treedir t (n + 1) indents dir s =
      (treedir t n (indents + 1) nextDir s₁).bind fun r => (cncd dotDot r.2).bind fun up =>
        (treedir t n indents next up.2).map fun r' =>
          (str ++ e.name ++ t.attributes st ++ r.1 ++ r'.1, r'.2) := by
  rw [treedir, indent, read, Option.bind_eq_bind, Option.bind_some, Option.bind_eq_bind, Option.bind_some]
  dsimp only
  rw [text, if_neg apart, inode, Option.bind_eq_bind, Option.bind_some, if_pos isDir, enters,
    Option.bind_eq_bind, Option.bind_some]
  dsimp only
  rw [opens, Option.bind_eq_bind, Option.bind_some, Option.bind_eq_bind, Option.bind_some]
  cases treedir t n (indents + 1) nextDir s₁ with
  | none => rfl
  | some r =>
    obtain ⟨below, s₂⟩ := r
    simp only [Option.bind_eq_bind, Option.bind_some]
    cases cncd dotDot s₂ with
    | none => rfl
    | some up =>
      obtain ⟨code', s₃⟩ := up
      simp only [Option.bind_some]
      cases treedir t n indents next s₃ <;> rfl

/-- An entry that was listed, with what is below it, in front of the others. -/
theorem Walked.prepend {printed : Name} {below : List (Item Iptr DirEntry)} {out : Option (Name × Fs)}
    (walked : Walked t node k i rest s' out) (only : OnlyCwd s s')
    (deep : e.fileType = ITYPE_DIR → ∀ n j, Below scheme node e.inode n j → t.IndentFits (k + 1 + n) j)
    (entry : ∀ more, Preorder scheme node k i rest more →
      Preorder scheme node k i (e :: rest) ((k, i, e) :: (below ++ more)))
    (lines : printed = ((k, i, e) :: below).flatMap (t.line s.vol.disk)) :
    Walked t node k i (e :: rest) s (out.map fun r => (printed ++ r.1, r.2)) := by
  cases walked with
  | stuck wide => exact .stuck fun fits => wide ⟨fits.1, (List.forall_mem_cons.mp fits.2).2⟩
  | @listed more s'' h top later order only' here back =>
    have shape : printed ++ more.flatMap (t.line s'.vol.disk) =
        ((k, i, e) :: (below ++ more)).flatMap (t.line s.vol.disk) := by
      rw [lines, only.vol, ← List.flatMap_append]
      rfl
    rw [Option.map_some, shape]
    exact .listed top (List.forall_mem_cons.mpr ⟨deep, later⟩) (entry more order) (only.trans only') here back

theorem TreeText.line_eq (indent : t.indent i (UInt8.ofNat k) = some str)
    (read : inodeRead d e.inode = some st) :
    t.line d (k, i, e) = str ++ e.name ++ t.attributes st := by
  rw [line, indent, read]
  rfl

theorem Holds.visit (holds : Holds s.vol own node) (here : s.cwd = some cwd)
    (found : node cwd.inodeId = some (.dir p es)) (member : e ∈ es) (isDir : e.fileType = ITYPE_DIR) :
    ∃ s₁ h₁ fs st, cncd e.name s = some (0, s₁) ∧ OnlyCwd s s₁ ∧ s₁.cwd = some h₁ ∧
      h₁.inodeId = e.inode ∧ node e.inode = some (.dir cwd.inodeId fs) ∧
      DirAt s.vol.disk own e.inode st (records e.inode cwd.inodeId fs) ∧
      cnopendir s₁ dot = some (some (handle s.vol.disk e.inode st)) := by
  obtain ⟨fs, _, sub, _⟩ := holds.child found member isDir
  have proper := holds.proper _ e (.of found member)
  obtain ⟨nonempty, single⟩ := proper.dirName isDir
  have toks : walkToks e.name = [e.name] := by
    rw [walkToks, if_neg nonempty, strtok_single nonempty single]
  obtain ⟨h₁, enters, ends⟩ := holds.cdNamed here (fun head => single (List.mem_of_head? head)) toks
    proper.sound.short (holds.lookup_member found member) sub
  rw [← ends] at sub
  obtain ⟨st, dir, opens⟩ := Holds.opensDot (s := { s with cwdStr := e.name, cwd := some h₁ }) holds rfl sub
  rw [ends] at sub dir opens
  exact ⟨_, h₁, fs, st, enters, rfl, rfl, ends, sub, dir, opens⟩

theorem Holds.walks (holds : Holds s.vol own node) (here : s.cwd = some cwd)
    (found : node cwd.inodeId = some (.dir p es)) (same : dir.inodeId = cwd.inodeId)
    (lists : dir.Lists rest) (inside : ∀ e ∈ rest, e ∈ es) (small : k ≤ 64)
    (fuel : rest.length + 1 + (64 - k) * 4100 ≤ n) :
    Walked t node k cwd.inodeId rest s (treedir t n (UInt8.ofNat k) dir s) := by
  induction n using Nat.strongRecOn generalizing s cwd p es dir rest k with
  | _ n ih =>
  by_cases fits : t.IndentFits k cwd.inodeId
  swap
  · exact .wide fits small same
  have low := fits.level
  obtain ⟨str, indent⟩ := TreeText.indent_some fits small
  obtain ⟨n, rfl⟩ : ∃ m, n = m + 1 := ⟨n - 1, by omega⟩
  cases rest with
  | nil =>
    rw [treedir, same, indent, cnreaddir_end (Nat.le_of_eq (show dir.index.toNat = _ from lists).symm)]
    exact .listed fits (fun e none => by cases none) .nil (.refl s) here rfl
  | cons e rest =>
    obtain ⟨next, read, rfl, _, more⟩ := cnreaddir_next lists
    rw [List.length_cons] at fuel
    have member := inside e List.mem_cons_self
    have later : ∀ f ∈ rest, f ∈ es := fun f member => inside f (List.mem_cons_of_mem _ member)
    have proper := holds.proper _ e (.of found member)
    have apart : ¬ (e.name = dot ∨ e.name = dotDot) := not_or.mpr ⟨proper.notDot, proper.notDotDot⟩
    have text := cstr_self proper.text
    have shown {st : Inode} (read : inodeRead s.vol.disk e.inode = some st) := TreeText.line_eq indent read
    rw [← same] at indent
    have others {s' : Fs} {h : DirPtr} (only : OnlyCwd s s') (here' : s'.cwd = some h)
        (back : h.inodeId = cwd.inodeId) : Walked t node k cwd.inodeId rest s'
          (treedir t n (UInt8.ofNat k) { dir with index := dir.index + UInt32.ofNat e.entryLen } s') := by
      have holds' : Holds s'.vol own node := by rwa [only.vol]
      rw [← back] at found same ⊢
      exact ih n (Nat.lt_succ_self n) holds' here' found same more later small (by omega)
    by_cases isDir : e.fileType = ITYPE_DIR
    · obtain ⟨s₁, h₁, fs, st, enters, only₁, here₁, ends, sub, dir₁, opens⟩ :=
        holds.visit here found member isDir
      rw [treedir_dir indent read text apart dir₁.read isDir enters opens, level_succ]
      obtain ⟨m, rfl⟩ : ∃ m, n = m + 3 := ⟨n - 3, by omega⟩
      obtain ⟨next₁, lists₁, same₁, dots⟩ := treedir_dots dir₁.lists
      have holds₁ : Holds s₁.vol own node := by rwa [only₁.vol]
      have count := dir₁.count
      have inner : Walked t node (k + 1) e.inode fs s₁ (treedir t (m + 3) (UInt8.ofNat (k + 1))
          (handle s.vol.disk e.inode st) s₁) := by
        rw [dots]
        rw [← ends] at sub same₁ ⊢
        exact ih (m + 1) (by omega) holds₁ here₁ sub same₁ lists₁ (fun _ => id) (by omega) (by omega)
      generalize treedir t (m + 3) (UInt8.ofNat (k + 1)) (handle s.vol.disk e.inode st) s₁ = out at inner
      cases inner with
      | stuck wide => exact .stuck fun all => wide ((fitsBelow_dir sub).mpr (all.2 e List.mem_cons_self isDir))
      | @listed below s₂ h₂ top deep items only₂ here₂ ends₂ =>
        have holds₂ : Holds s₂.vol own node := by rwa [only₂.vol]
        have sub₂ := sub
        rw [← ends₂] at sub₂
        obtain ⟨h₃, leaves, ends₃⟩ := holds₂.cdNamed here₂ (by decide)
          (show walkToks dotDot = [dotDot] by decide) (by decide) (holds₂.lookup_dots sub₂).2 found
        rw [Option.bind_some, leaves, Option.bind_some]
        have only₃ : OnlyCwd s { s₂ with cwdStr := dotDot, cwd := some h₃ } := (only₁.trans only₂).trans rfl
        refine (others only₃ rfl ends₃).prepend only₃ (fun _ => (fitsBelow_dir sub).mp ⟨top, deep⟩)
          (fun more order => .dir (decide_eq_true isDir) sub items order) ?_
        rw [List.flatMap_cons, shown dir₁.read, only₁.vol]
    · have isFile : scheme.isDir e = false := decide_eq_false isDir
      obtain ⟨st, file⟩ := holds.files _ (holds.tree.leaf _ e (.of found member) isFile)
      rw [treedir_file indent read text apart file.read isDir]
      have listed (more : List (Item Iptr DirEntry)) (order : Preorder scheme node k cwd.inodeId rest more) :
          Preorder scheme node k cwd.inodeId (e :: rest) ((k, cwd.inodeId, e) :: ([] ++ more)) :=
        .file isFile order
      refine (others (.refl s) here rfl).prepend (.refl s) (fun kind => absurd kind isDir) listed ?_
      rw [List.flatMap_cons, List.flatMap_nil, List.append_nil]
      exact (shown file.read).symm

theorem Holds.cntree_walked (holds : Holds s.vol own node) (here : s.cwd = some cwd)
    (found : node cwd.inodeId = some (.dir p es)) (t : TreeText) : ∃ out, Walked t node 0 cwd.inodeId es s out ∧
      cntree t s = out.map fun r => (0, r.1, r.2) := by
  obtain ⟨st, dir, opens⟩ := holds.opensDot here found
  have count := dir.count
  obtain ⟨m, turns⟩ : ∃ m, treeFuel = m + 3 := ⟨treeFuel - 3, rfl⟩
  obtain ⟨next, lists, same, dots⟩ := treedir_dots dir.lists
  refine ⟨_, holds.walks here found same lists (fun _ => id) (Nat.zero_le 64) (n := m + 1)
    (by rw [treeFuel] at turns; omega), ?_⟩
  rw [cntree, opens, turns, Option.bind_eq_bind, Option.bind_some, Option.bind_eq_bind, Option.bind_some,
    show (0 : UInt8) = UInt8.ofNat 0 from rfl, dots]
  cases treedir t (m + 1) (UInt8.ofNat 0) next s <;> rfl

end

/-- In a volume that holds a tree, `cntree` prints the preorder listing of what is below the
current directory, every node once, and ends in the directory it started in, exactly when at
each directory below what `indent_str` held before and four blanks for each level down to
it are shorter than 256 bytes. -/
theorem tree_walk {s : Fs} {own : Owner} {node : Nodes} {cwd : DirPtr} {p : Iptr} {es : List DirEntry}
    (holds : Holds s.vol own node) (here : s.cwd = some cwd)
    (found : node cwd.inodeId = some (.dir p es)) (t : TreeText) :
    (∃ items s', cntree t s = some (0, items.flatMap (t.line s.vol.disk), s') ∧
      Preorder scheme node 0 cwd.inodeId es items ∧
      (items.map fun item => item.2.2.inode).Nodup ∧
      (∀ n j e, (n, j, e) ∈ items ↔ Below scheme node cwd.inodeId n j ∧ Entry node j e) ∧
      s'.cwd.map (·.inodeId) = some cwd.inodeId) ↔
    ∀ n j, Below scheme node cwd.inodeId n j → n = 0 ∨ (t.indentStr j).length + 4 * n < 256 := by
  obtain ⟨out, walked, run⟩ := holds.cntree_walked here found t
  have levels : (t.IndentFits 0 cwd.inodeId ∧ FitsBelow t node 0 es) ↔
      ∀ n j, Below scheme node cwd.inodeId n j → t.IndentFits n j := by
    rw [fitsBelow_dir found]
    simp only [Nat.zero_add]
  refine Iff.trans ?_ levels
  cases walked with
  | stuck wide =>
    refine ⟨fun ⟨items, s', returns, _⟩ => ?_, fun fits => absurd fits wide⟩
    rw [run] at returns
    cases returns
  | listed top deep order only here' back =>
    refine ⟨fun _ => ⟨top, deep⟩, fun _ => ⟨_, _, run, order, order.targets_nodup holds.tree found,
      fun n j e => ?_, by rw [here', Option.map_some, back]⟩⟩
    rw [order.mem_iff found]
    simp only [Nat.zero_add, exists_eq_left']

end

section Lp64
attribute [local instance] lp64

theorem oneDirectory : ∃ s e own node cwd p, cnmkdir [97] emptyBooted.fs = some (0, s) ∧
    Holds s.vol own node ∧ s.cwd = some cwd ∧ node cwd.inodeId = some (.dir p [e]) ∧
    e.fileType = ITYPE_DIR ∧ node e.inode = some (.dir cwd.inodeId []) := by
  obtain ⟨sound, _, ⟨cwd, here, opened⟩, _⟩ := boot_sound emptyBooted_eq
  have stands : cwd.inodeId = 0 := by
    obtain ⟨_, _, _, _, _, rfl⟩ := opened
    rfl
  have found : rootNodes cwd.inodeId = some (.dir 0 []) := by
    rw [stands]
    rfl
  have facts : lookup emptyBooted.fs.vol.disk 0 [97] = none ∧
      Pool.inode.free emptyBooted.fs.vol ≠ 0 ∧ Pool.block.free emptyBooted.fs.vol ≠ 0 := by
    decide +kernel
  rw [← stands] at facts
  obtain ⟨missing, inodes, blocks⟩ := facts
  obtain ⟨n, rest, inode⟩ := sound.holds.ledger.head inodes
  obtain ⟨ptr, rest', block⟩ := sound.holds.ledger.head blocks
  obtain ⟨s, e, own, run, kept, _, isDir, _, entered, _⟩ := sound.holds.mkdir_made emptyBooted_nextFits
    here found (show (0 : UInt8) ∉ [97] by decide) (by decide) (by decide) missing inode block
    ((sound.holds.room_iff found).mpr (by decide))
  refine ⟨s, e, own, _, cwd, 0, run, entered.holds, by rw [kept]; exact here, ?_, isDir, insert_newDir isDir⟩
  exact NameTree.insert_parent (S := scheme) (entered.apart sound.holds)

theorem tree_walk_one : ∃ s cwd items s', cnmkdir [97] emptyBooted.fs = some (0, s) ∧
    s.cwd = some cwd ∧ cntree ⟨fun _ => [], fun _ => []⟩ s = some (0, items, s') ∧
    s'.cwd.map (·.inodeId) = some cwd.inodeId := by
  obtain ⟨s, e, own, node, cwd, p, made, holds, here, found, isDir, sub⟩ := oneDirectory
  have flat : ∀ n j, Below scheme node cwd.inodeId n j → n = 0 ∨ 0 + 4 * n < 256 := by
    intro n j below
    rcases below.first with ⟨rfl, _⟩ | ⟨f, m, entry, _, rfl, rest⟩
    · exact .inl rfl
    · obtain rfl := List.mem_singleton.mp (entry.mem found)
      rcases rest.first with ⟨rfl, _⟩ | ⟨g, _, deeper, _⟩
      · exact .inr (by decide)
      · cases deeper.mem sub
  obtain ⟨items, s', run, _, _, _, back⟩ := (tree_walk holds here found ⟨fun _ => [], fun _ => []⟩).mpr flat
  exact ⟨s, cwd, _, s', made, here, run, back⟩

/-- With 252 bytes in `indent_str` the indent of the one directory runs over its end. -/
theorem tree_walk_overrun : ∃ s own node cwd p es, cnmkdir [97] emptyBooted.fs = some (0, s) ∧
    Holds s.vol own node ∧ s.cwd = some cwd ∧ node cwd.inodeId = some (.dir p es) ∧
    cntree ⟨fun _ => [], fun _ => List.replicate 252 1⟩ s = none := by
  obtain ⟨s, e, own, node, cwd, p, made, holds, here, found, isDir, sub⟩ := oneDirectory
  refine ⟨s, own, node, cwd, p, [e], made, holds, here, found, ?_⟩
  obtain ⟨out, walked, run⟩ := holds.cntree_walked here found ⟨fun _ => [], fun _ => List.replicate 252 1⟩
  rw [run]
  cases walked with
  | stuck => rfl
  | listed _ deep =>
    have fits := deep e (List.mem_singleton_self e) isDir 0 e.inode .here
    rw [TreeText.IndentFits, List.length_replicate] at fits
    omega

end Lp64

end CdnwSh
