import CdnwSh.Shell
import CdnwSh.FileArray
import CdnwSh.TreeWalk

/-! The blocks that the handlers of cat, tree, read and help allocate for a reply, and how many
bytes the calls store in them. The reply is used as a string, so its NUL counts as well. -/
namespace CdnwSh

open ByteMemory PartialRun NameTree

/-- The bytes of a block that was asked for: the null pointer of a refused one has none. -/
def Heap.block (heap : Heap) (n : Nat) : Nat := if heap.grants n then n else 0

section
variable [InodeLayout]

/-- The handler's reply is a block of `size` bytes with `used` bytes of content in it. -/
inductive Content (sh : Shell) : ShCmd → List Name → (size used : Nat) → Prop where
  | cat : cncat (arg argv 0) sh.fs = some (0, out, fs) → Content sh .cat argv 4096 out.length
  | tree : cntree sh.treeText sh.fs = some (0, out, fs) → Content sh .tree argv 4096 out.length
  | read : cnread (toSize (strtol (arg argv 1))) (toInt16 (strtol (arg argv 0))) sh.fs = some (bytes, fs) →
      bytes ≠ [] → Content sh .read argv (sh.fs.host.heap.block (toSize (strtol (arg argv 1)))) bytes.length
  | commands : Content sh .help [] (ShCmd.help.usage.length + (mesgStr STR_CMDS).length + 2)
      (ShCmd.help.usage ++ [newline] ++ mesgStr STR_CMDS).length
  | help : ShCmd.find word = some cmd → Content sh .help (word :: rest) cmd.usage.length cmd.usage.length

/-- What `cnread` has left to copy: the last byte of a file is not handed out. -/
def leftToRead (fde : FdEntry) : Nat := (fde.inode.size - (fde.cursor + 1)).toNat

/-- What `cncat` copies of a file with this inode: it reads its new descriptor, or the one that
is left of the descriptor's number in eight bits. -/
def catBytes (s : Fs) (st : Inode) : Nat :=
  let n := (findFreeBit s.fdBm).toNat
  if n < 128 then st.size.toNat - 1
  else if (s.fdTbl (n % 256)).state = FD_READ then min st.size.toNat (leftToRead (s.fdTbl (n % 256)))
  else 0

def TreeText.width (t : TreeText) (d : Disk) (item : Item Iptr DirEntry) : Nat :=
  (if item.1 = 0 then 0 else (t.indentStr item.2.1).length + 4 * item.1) + item.2.2.name.length +
    (((inodeRead d item.2.2.inode).map t.attributes).getD []).length

/-- The lines of the whole subtree have less than 4096 bytes. -/
def TreeFits (t : TreeText) (s : Fs) : Prop :=
  ∃ own node cwd p es items, Holds s.vol own node ∧ s.cwd = some cwd ∧
    node cwd.inodeId = some (.dir p es) ∧ Preorder scheme node 0 cwd.inodeId es items ∧
    (items.map (t.width s.vol.disk)).sum < 4096

/-- The content leaves room for the NUL. -/
def ContentFits (sh : Shell) : ShCmd → List Name → Prop
  | .cat, argv => ∀ dir i next st, cnopendir sh.fs dot = some (some dir) →
      cnstat dir (arg argv 0) = some (some i, next) → inodeRead sh.fs.vol.disk i = some st →
      catBytes sh.fs st < 4096
  | .tree, _ => TreeFits sh.treeText sh.fs
  | .read, argv => sh.fs.host.heap.grants (toSize (strtol (arg argv 1))) = true ∧
      ∀ n, fdSlot (toInt16 (strtol (arg argv 0))) = some n →
        leftToRead (sh.fs.fdTbl n) < toSize (strtol (arg argv 1))
  | .help, argv => argv = []
  | _, _ => True

section
variable {s s' : Fs} {t : TreeText} {own : Owner} {node : Nodes} {cwd dir next : DirPtr} {st : Inode}

omit [InodeLayout] in
theorem cnread_length (run : cnread n fd s = some (bytes, s')) : ∃ k, fdSlot fd = some k ∧
    bytes.length = if (s.fdTbl k).state = FD_READ then min n (leftToRead (s.fdTbl k)) else 0 := by
  obtain ⟨k, slot, ⟨closed, rfl, _⟩ | ⟨opened, _, length, _⟩⟩ := cnread_eq run
  · exact ⟨k, slot, by rw [if_neg closed]; rfl⟩
  · exact ⟨k, slot, by rw [if_pos opened, length]; rfl⟩

omit [InodeLayout] in
theorem cnread_room (run : cnread n fd s = some (bytes, s')) (some_read : bytes ≠ []) :
    bytes.length + 1 ≤ n ↔ ∀ k, fdSlot fd = some k → leftToRead (s.fdTbl k) < n := by
  obtain ⟨k, slot, length⟩ := cnread_length run
  have positive := List.length_pos_of_ne_nil some_read
  split at length
  · constructor
    · intro room k' slot'
      obtain rfl := Option.some.inj (slot.symm.trans slot')
      omega
    · intro room
      have := room k slot
      omega
  · omega

omit [InodeLayout] in
theorem leftToRead_new : min st.size.toNat (leftToRead ⟨data, mode, i, st, 0, false⟩) = st.size.toNat - 1 := by
  have bound := st.size.toNat_lt
  have one : (1 : UInt32).toNat = 1 := rfl
  rw [leftToRead]
  dsimp only
  rw [UInt32.zero_add, UInt32.toNat_sub, one]
  omega

omit [InodeLayout] in
theorem toInt8_nonneg {n : Nat} (positive : 0 ≤ toInt8 (n : Int)) :
    toInt8 (n : Int) = (n % 256 : Nat) ∧ n % 256 < 128 := by
  unfold toInt8 Int.bmod at *
  dsimp only at *
  split at positive <;> omega

theorem cncat_length (run : cncat name s = some (0, out, s')) : ∃ dir i next st,
    cnopendir s dot = some (some dir) ∧ cnstat dir name = some (some i, next) ∧
    inodeRead s.vol.disk i = some st ∧ out.length = catBytes s st := by
  obtain ⟨dir, opensDot, ⟨_, _, failed, _⟩ | ⟨i, next, st, fd, _, s₁, stat, inode, opens, reading⟩⟩ :=
    cncat_eq run
  · cases failed
  refine ⟨dir, i, next, st, opensDot, stat, inode, ?_⟩
  rcases reading with ⟨_, failed, _⟩ | ⟨positive, _, reads⟩
  · cases failed
  rcases cnopen_read opens with ⟨rfl, _⟩ | ⟨j, stat', opening⟩
  · exact absurd (by decide) positive
  rw [cnstat_again stat] at stat'
  cases stat'
  obtain ⟨n, fdBm, st', data, rfl, _, free, _, inode', _, rfl⟩ := openFd_eq opening
  rw [inode] at inode'
  cases inode'
  obtain ⟨k, slot, length⟩ := cnread_length reads
  obtain ⟨number, _⟩ := fdSlot_eq slot
  obtain ⟨wrapped, narrow⟩ := toInt8_nonneg (Int.not_lt.mp positive)
  obtain rfl : n % 256 = k := by omega
  rw [length, catBytes, ← free]
  dsimp only
  by_cases low : n < 128
  · have slot : n % 256 = n := Nat.mod_eq_of_lt (by omega)
    rw [if_pos low, slot, setFd_same, if_pos rfl]
    exact leftToRead_new
  · rw [if_neg low, setFd_other (by omega)]

theorem TreeText.line_length {item : Item Iptr DirEntry} (fits : t.IndentFits item.1 item.2.1) :
    (t.line d item).length = t.width d item := by
  have small : item.1 ≤ 64 := Nat.le_succ_of_le fits.level
  have level : (UInt8.ofNat item.1).toNat = item.1 := by rw [UInt8.toNat_ofNat']; omega
  have indent : ((t.indent item.2.1 (UInt8.ofNat item.1)).getD []).length =
      if item.1 = 0 then 0 else (t.indentStr item.2.1).length + 4 * item.1 := by
    obtain ⟨str, found⟩ := TreeText.indent_some fits small
    rw [found, Option.getD_some]
    rw [TreeText.indent] at found
    split at found
    next top =>
      have zero : item.1 = 0 := level.symm.trans (congrArg UInt8.toNat top)
      cases found
      rw [if_pos zero]
      rfl
    next deep =>
      rw [if_neg fun zero => deep (UInt8.toNat_inj.mp (by rw [level, zero]; rfl))]
      dsimp only at found
      split at found
      · cases found
        rw [List.length_append, List.length_replicate, level]
      · cases found
  rw [line, width, List.length_append, List.length_append, indent]

theorem Holds.tree_length (holds : Holds s.vol own node) (here : s.cwd = some cwd)
    (found : node cwd.inodeId = some (.dir p es)) (run : cntree t s = some (0, out, s')) :
    ∃ items, Preorder scheme node 0 cwd.inodeId es items ∧
      out.length = (items.map (t.width s.vol.disk)).sum := by
  obtain ⟨result, walked, returns⟩ := holds.cntree_walked here found t
  rw [run] at returns
  cases walked with
  | stuck => cases returns
  | @listed items s'' h top deep order =>
    cases returns
    refine ⟨items, order, ?_⟩
    rw [List.length_flatMap]
    congr 1
    refine List.map_congr_left fun item member => TreeText.line_length ?_
    obtain ⟨n, j, e⟩ := item
    obtain ⟨m, level, below, _⟩ := (order.mem_iff found).mp member
    rw [level]
    exact (fitsBelow_dir found).mp ⟨top, deep⟩ m j below

theorem TreeFits.iff_length (holds : Holds s.vol own node) (home : ∀ dir, s.cwd = some dir →
    ∃ p es, node dir.inodeId = some (.dir p es)) (run : cntree t s = some (0, out, s')) :
    out.length + 1 ≤ 4096 ↔ TreeFits t s := by
  constructor
  · intro room
    obtain ⟨cwd, here⟩ : ∃ cwd, s.cwd = some cwd := by
      obtain ⟨found, opens, _⟩ := Option.bind_eq_some_iff.mp run
      rw [cnopendir, startDir, if_neg (by decide), if_neg (by decide)] at opens
      obtain ⟨start, starts, _⟩ := Option.bind_eq_some_iff.mp opens
      obtain ⟨cwd, here, _⟩ := Option.bind_eq_some_iff.mp starts
      exact ⟨cwd, here⟩
    obtain ⟨p, es, found⟩ := home cwd here
    obtain ⟨items, order, length⟩ := holds.tree_length here found run
    exact ⟨own, node, cwd, p, es, items, holds, here, found, order, by omega⟩
  · rintro ⟨own, node, cwd, p, es, items, holds, here, found, order, room⟩
    obtain ⟨items', order', length⟩ := holds.tree_length here found run
    rw [order.unique order'] at room
    omega

end

/-- In every state that a run of sane commands reaches: what the reply of cat, tree, read or help
holds leaves room for its NUL in the block that the handler allocated, exactly when the file of
cat has at most 4096 bytes, the lines of tree less than 4096, there is a block for read and less
is left to read than was asked for, and help has no argument. -/
theorem replies_fit {before : Fs} {first s : Session} {sh : Shell} {cmd : ShCmd} {argv : List Name}
    {size used : Nat} (booted : boot before = some first) (steps : Steps Session.step Sane first trace s)
    (same : sh.fs = s.fs) (content : Content sh cmd argv size used) :
    used + 1 ≤ size ↔ ContentFits sh cmd argv := by
  obtain ⟨own, node, inv⟩ := (boot_inv booted).run steps
  cases content with
  | cat run =>
    obtain ⟨dir, i, next, st, opens, stat, read, length⟩ := cncat_length run
    rw [length]
    constructor
    · intro room dir' i' next' st' opens' stat' read'
      rw [opens] at opens'
      cases opens'
      rw [stat] at stat'
      cases stat'
      rw [read] at read'
      cases read'
      exact room
    · intro fits
      exact fits dir i next st opens stat read
  | tree run =>
    have sound : Sound sh.fs own node := by rw [same]; exact inv.sound
    exact TreeFits.iff_length sound.holds sound.home run
  | read run some_read =>
    rw [ContentFits, ← cnread_room run some_read, Heap.block]
    split
    next granted => exact ⟨fun room => ⟨granted, room⟩, And.right⟩
    next refused => exact ⟨fun room => absurd room (Nat.not_succ_le_zero _), fun fits => absurd fits.1 refused⟩
  | commands =>
    refine ⟨fun _ => rfl, fun _ => ?_⟩
    rw [List.length_append, List.length_append, List.length_singleton]
    omega
  | help => exact ⟨fun room => absurd room (Nat.not_succ_le_self _), fun none => by cases none⟩

end

section Lp64
attribute [local instance] lp64

def shellOver (fs : Fs) : Shell :=
  { fs, attached := true, vfs := true, running := true, client := false, cfd := -1,
    net := ⟨fun _ _ => .unknown, 0, []⟩, treeText := ⟨fun _ => [], fun _ => []⟩ }

@[simp] theorem shellOver_fs (fs : Fs) : (shellOver fs).fs = fs := rfl

theorem threeWritten_cat :
    ((cncat [102] threeWritten.fs).map fun x => (x.1, x.2.1)) = some (0, [1, 2]) := by decide +kernel

theorem replies_fit_cat : Content (shellOver threeWritten.fs) .cat [[102]] 4096 2 ∧
    (2 + 1 ≤ 4096 ↔ ContentFits (shellOver threeWritten.fs) .cat [[102]]) := by
  obtain ⟨⟨code, out, fs⟩, run, shown⟩ := Option.map_eq_some_iff.mp threeWritten_cat
  cases shown
  have word : arg [[102]] 0 = [102] := rfl
  rw [← word, ← shellOver_fs threeWritten.fs] at run
  have content : Content (shellOver threeWritten.fs) .cat [[102]] 4096 2 := .cat run
  have steps : Steps Session.step Sane emptyBooted _ threeWritten :=
    .cons emptyBooted_sane fileOpened_eq (.cons threeWritten_sane threeWritten_eq .nil)
  exact ⟨content, replies_fit emptyBooted_eq steps (shellOver_fs threeWritten.fs) content⟩

/-- The help text of cat fills its block, and its NUL is stored behind it. -/
theorem replies_fit_help : boot emptyStart = some emptyBooted ∧
    Content (shellOver emptyBooted.fs) .help [text "cat"] 21 21 ∧ ¬ 21 + 1 ≤ 21 := by
  have found : ShCmd.find (text "cat") = some .cat := by decide +kernel
  have length : ShCmd.cat.usage.length = 21 := by decide
  refine ⟨emptyBooted_eq, ?_, by decide⟩
  have content : Content (shellOver emptyBooted.fs) .help [text "cat"] _ _ := .help found
  rwa [length] at content

end Lp64

end CdnwSh
