import CdnwSh.DirectoryRuns

/-! The root directory and the entries "." and "..". Only the test for 24 bytes keeps
`cnrmdir` from removing them, and an empty root directory has 24 bytes. -/
namespace CdnwSh

open ByteMemory RecordList PartialRun

section
variable [InodeLayout]

/-- The commands of a run with any arguments. A creating `cnmkdir` finds an inode and a block,
no walk of `cnrmdir` misses a component, and "." and ".." are not removed from
a root directory of 24 bytes. -/
def KeepsRoot (s : Session) : Op → Prop
  | .mkdir path => 0 ∉ path ∧ ∀ cwd, s.fs.cwd = some cwd →
      mkdirTarget s.fs.vol.disk cwd.inodeId (strtok path) ≠ none →
        Pool.inode.free s.fs.vol ≠ 0 ∧ Pool.block.free s.fs.vol ≠ 0
  | .rmdir path => Whole s.fs (parentPath path) ∧ (path = dot ∨ path = dotDot →
      landing s.fs (parentPath path) = some 0 →
        ∀ st, inodeRead s.fs.vol.disk 0 = some st → st.size ≠ 24)
  | .cd _ => True
  | _ => False

/-- The directories that entries lead to, from the root on. -/
inductive Reachable (d : Disk) : Iptr → Prop where
  | root : Reachable d 0
  | entry : Reachable d i → listing d i = some rs → e ∈ rs → e.fileType = ITYPE_DIR →
      Reachable d e.inode

/-- The root's inode and block are in use, and every directory below it has an entry "." for
itself and an entry ".." for the root or for a directory that has an entry for it. -/
structure RootKept (v : Vol) : Prop where
  inode : bit v.inodeBmCache 0 = true
  block : bit v.blockBmCache 103 = true
  self : ∀ i, Reachable v.disk i → lookup v.disk i dot = some (dotEntry i)
  parent : ∀ i, Reachable v.disk i → ∃ p, lookup v.disk i dotDot = some (dotDotEntry p) ∧
    ∃ rs e, listing v.disk p = some rs ∧ e ∈ rs ∧ e.inode = i

def NewNumbers (s : Session) : Prop :=
  ∀ path r s', KeepsRoot s (.mkdir path) → s.step (.mkdir path) = some (r, s') → r.code = 0 →
    ∃ cwd i name e, s.fs.cwd = some cwd ∧
      mkdirTarget s.fs.vol.disk cwd.inodeId (strtok path) = some (i, name) ∧
      lookup s'.fs.vol.disk i name = some e ∧ e.inode ≠ 0

section
variable {s s' : Fs} {v : Vol} {own : Owner} {node : Nodes} {i p g q : Iptr} {es fs rs : List DirEntry}
  {st : Inode} {e : DirEntry}

theorem Holds.rmdir_full (holds : Holds s.vol own node) (found : node g = some (.dir q fs))
    (dir : DirAt s.vol.disk own g st (records g q fs))
    (opened : cnopendir s (parentPath path) = some (some (handle s.vol.disk g st)))
    (rows : records g q fs = before ++ e :: rs) (others : ∀ r ∈ before ++ rs, r.name ≠ path)
    (named : e.name = path) (target : node e.inode = some (.dir m gs))
    (full : ∀ st, inodeRead s.vol.disk e.inode = some st → st.size ≠ 24)
    (run : cnrmdir path s = some (code, s')) : code = -1 ∧ s' = s := by
  obtain ⟨st₁, child⟩ := holds.dirs _ _ _ target
  have number := (holds.inodes e.inode (by rw [target]; simp)).1
  have member (r) (inside : r ∈ before ++ rs) : r ∈ records g q fs := by
    rw [rows]
    rcases List.mem_append.mp inside with first | last
    · exact List.mem_append_left _ first
    · exact List.mem_append_right _ (List.mem_cons_of_mem _ last)
  have lists := dir.lists
  have sounds := holds.records_sound found
  have texted : cstr e.name = path := by
    rw [(holds.records_text found (e := e) (by rw [rows]; simp)).2, named]
  have one : (handle s.vol.disk g st).inodeSt.blocks.toNat = 1 := by
    rw [show (handle s.vol.disk g st).inodeSt.blocks = 1 from dir.blocks]; rfl
  rw [rows] at lists sounds
  rw [cnrmdir] at run
  change (cnopendir s (parentPath path)).bind _ = _ at run
  rw [opened, Option.bind_some] at run
  obtain ⟨parent, isSome, run⟩ := Option.bind_eq_some_iff.mp run
  obtain rfl := Option.some.inj isSome
  obtain ⟨⟨out, v₁⟩, looped, run⟩ := Option.bind_eq_some_iff.mp run
  rw [one] at looped
  rcases rmdirLoop_found lists Copied.start sounds
    (fun r inside => by rw [(holds.records_text found (member r inside)).2]; exact others r inside)
    texted child.read (holds.ledger.owned _ _ child.owner).2.1 number looped with
    ⟨_, same⟩ | ⟨size, _⟩
  · cases same
    cases run
    exact ⟨rfl, rfl⟩
  · exact absurd size (full st₁ child.read)

theorem Holds.parent_full (holds : Holds v own node) (found : node i = some (.dir p es))
    (top : i ≠ 0) (above : node p = some (.dir q fs)) (read : inodeRead v.disk p = some st) :
    st.size ≠ 24 := by
  intro size
  obtain ⟨st', dir⟩ := holds.dirs p q fs above
  obtain rfl := Option.some.inj (read.symm.trans dir.read)
  obtain ⟨e, entry, _⟩ := holds.tree.parent found top
  have member := entry.mem above
  rw [dir.empty size] at member
  cases member

theorem Holds.above (holds : Holds v own node) (found : node i = some (.dir p es)) :
    ∃ q fs, node p = some (.dir q fs) :=
  holds.target_dir found (e := dotDotEntry p) (List.mem_cons_of_mem _ List.mem_cons_self) rfl

/-- "." and ".." are refused, unless they are those of an empty root directory. -/
theorem Holds.rmdir_dots (holds : Holds s.vol own node)
    (home : ∀ dir, s.cwd = some dir → ∃ q fs, node dir.inodeId = some (.dir q fs))
    (noFiles : PathOk s (parentPath path)) (dots : path = dot ∨ path = dotDot)
    (guarded : landing s (parentPath path) = some 0 →
      ∀ st, inodeRead s.vol.disk 0 = some st → st.size ≠ 24)
    (run : cnrmdir path s = some (code, s')) : code = -1 ∧ s' = s := by
  obtain ⟨r, opened, _⟩ := Option.bind_eq_some_iff.mp run
  change cnopendir s (parentPath path) = some r at opened
  have relative : ¬ (parentPath path).head? = some slash := by
    rcases dots with rfl | rfl <;> decide
  cases here : s.cwd with
  | none =>
    rw [cnopendir, startDir, if_neg relative, here] at opened
    split at opened <;> cases opened
  | some cwd =>
    obtain ⟨p, es, found⟩ := home cwd here
    obtain ⟨q, fs, above⟩ := holds.above found
    have start : walkStart s (parentPath path) = some cwd.inodeId := by
      rw [walkStart, if_neg relative, here]
      rfl
    obtain ⟨self, parent⟩ := holds.lookup_dots found
    obtain ⟨self', parent'⟩ := holds.lookup_dots above
    obtain ⟨_, landed, _⟩ := holds.opendir home noFiles opened
    rcases dots with rfl | rfl
    · have land : landing s (parentPath dot) = some p := by
        rw [landing, start, Option.bind_eq_bind, Option.bind_some,
          show walkToks (parentPath dot) = [dot, dotDot] by decide, resolve, self]
        dsimp only
        rw [resolve, show (dotEntry cwd.inodeId).inode = cwd.inodeId from rfl, parent]
        rfl
      obtain ⟨h, rfl, q', fs', st, found', dir, rfl⟩ := landed p land
      cases above.symm.trans found'
      refine holds.rmdir_full above dir opened
        (show records p q fs = [] ++ dotEntry p :: dotDotEntry q :: fs from rfl)
        (fun r member => ?_) rfl above (fun st read => ?_) run
      · rcases List.mem_cons.mp member with rfl | member
        · exact show dotDot ≠ dot by decide
        · exact (holds.proper p r (.of above member)).notDot
      · by_cases top : cwd.inodeId = 0
        · have root : p = 0 := by
            obtain ⟨ts, root⟩ := holds.tree.root_dir
            rw [top, root] at found
            cases found
            rfl
          rw [root] at land
          exact guarded land st (root ▸ read)
        · exact holds.parent_full found top above read
    · have land : landing s (parentPath dotDot) = some q := by
        rw [landing, start, Option.bind_eq_bind, Option.bind_some,
          show walkToks (parentPath dotDot) = [dotDot, dotDot] by decide, resolve, parent]
        dsimp only
        rw [resolve, show (dotDotEntry p).inode = p from rfl, parent']
        rfl
      obtain ⟨h, rfl, g, gs, st, found', dir, rfl⟩ := landed q land
      obtain ⟨m, ms, target⟩ := holds.above found'
      refine holds.rmdir_full found' dir opened
        (show records q g gs = [dotEntry q] ++ dotDotEntry g :: gs from rfl)
        (fun r member => ?_) rfl target (fun st read => ?_) run
      · rcases List.mem_cons.mp member with rfl | member
        · exact show dot ≠ dotDot by decide
        · exact (holds.proper q r (.of found' member)).notDotDot
      · by_cases top : q = 0
        · have root : g = 0 := by
            obtain ⟨ts, root⟩ := holds.tree.root_dir
            rw [top, root] at found'
            cases found'
            rfl
          rw [top] at land
          exact guarded land st (root ▸ read)
        · exact holds.parent_full found' top target read

end

section
variable {s s' : Session} {own : Owner} {node : Nodes} {i p : Iptr} {es : List DirEntry}

theorem DirInv.root_step (dirs : DirInv s own node) (ok : KeepsRoot s op)
    (run : s.step op = some (r, s')) : ∃ own' node', DirInv s' own' node' := by
  cases op with
  | mkdir path =>
    have kind : OnDirs (.mkdir path) := trivial
    exact dirs.sane_step kind (dirs.mkdirOk ok.1 ok.2) run
  | rmdir path =>
    by_cases dots : path = dot ∨ path = dotDot
    · obtain ⟨removes, _, handles⟩ := Session.global_eq run
      have sound := dirs.inv.sound
      obtain ⟨_, same⟩ := sound.holds.rmdir_dots sound.home (dirs.pathOk _) dots (ok.2 dots) removes
      refine ⟨own, node, dirs.inv.globals (by rw [same]; exact sound) handles
        (fun d here => .inl (same ▸ here)) fun _ => id, dirs.dirs, by rw [same]; exact dirs.mounted⟩
    · obtain ⟨notDot, notDotDot⟩ := not_or.mp dots
      have kind : OnDirs (.rmdir path) := trivial
      exact dirs.sane_step kind (dirs.rmdirOk ok.1 notDot notDotDot) run
  | cd path =>
    have kind : OnDirs (.cd path) := trivial
    exact dirs.sane_step kind (dirs.pathOk path) run
  | _ => exact absurd ok id

theorem DirInv.reachable (dirs : DirInv s own node) (reach : Reachable s.fs.vol.disk i) :
    ∃ p es, node i = some (.dir p es) := by
  have holds := dirs.inv.sound.holds
  induction reach with
  | root =>
    obtain ⟨es, top⟩ := holds.tree.root_dir
    exact ⟨0, es, top⟩
  | entry _ list member isDir ih =>
    obtain ⟨p, es, found⟩ := ih
    obtain ⟨st, dir⟩ := holds.dirs _ p es found
    rw [dir.listing_eq holds.ledger] at list
    cases list
    exact holds.target_dir found member isDir

theorem DirInv.rootKept (dirs : DirInv s own node) : RootKept s.fs.vol := by
  have holds := dirs.inv.sound.holds
  obtain ⟨ts, top⟩ := holds.tree.root_dir
  obtain ⟨root, rootRead, block⟩ := holds.root
  obtain ⟨st, dir⟩ := holds.dirs 0 0 ts top
  obtain rfl := Option.some.inj (rootRead.symm.trans dir.read)
  refine ⟨(holds.inodes 0 (by rw [top]; simp)).2, ?_, fun i reach => ?_, fun i reach => ?_⟩
  · have used := (holds.ledger.owned _ _ dir.owner).2.2
    rw [block] at used
    exact used
  · obtain ⟨p, es, found⟩ := dirs.reachable reach
    exact (holds.lookup_dots found).1
  · obtain ⟨p, es, found⟩ := dirs.reachable reach
    refine ⟨p, (holds.lookup_dots found).2, ?_⟩
    by_cases root : i = 0
    · subst root
      rw [top] at found
      cases found
      exact ⟨_, dotEntry 0, dir.listing_eq holds.ledger, List.mem_cons_self, rfl⟩
    · obtain ⟨e, entry, target, _⟩ := holds.tree.parent found root
      obtain ⟨q, fs, above⟩ := holds.above found
      obtain ⟨st', dir'⟩ := holds.dirs p q fs above
      exact ⟨_, e, dir'.listing_eq holds.ledger,
        List.mem_cons_of_mem _ (List.mem_cons_of_mem _ (entry.mem above)), target⟩

theorem DirInv.newNumbers (dirs : DirInv s own node) : NewNumbers s := by
  intro path r s' ok run done
  have sound := dirs.inv.sound
  obtain ⟨makes, _, _⟩ := Session.global_eq run
  rcases sound.mkdir (dirs.mkdirOk ok.1 ok.2) makes with ⟨failed, _⟩ |
    ⟨cwd, j, q, fs, e, own', here, _, target, _, _, _, entered, _⟩
  · rw [failed] at done
    cases done
  · refine ⟨cwd, j, e.name, e, here, target, entered.lookup sound.holds, fun zero => ?_⟩
    have clear := (sound.holds.unowned entered.fresh).2.1
    obtain ⟨ts, top⟩ := sound.holds.tree.root_dir
    rw [zero, top] at clear
    cases clear

/-- In every run of `cnmkdir`, `cnrmdir` and `cncd` from `boot` whose steps all meet the
condition, the root directory and all dot entries are kept in every state, and no new
directory gets inode 0. -/
theorem root_safety {before : Fs} {s₀ : Session} (started : boot before = some s₀)
    (steps : Steps Session.step KeepsRoot s₀ trace s) : RootKept s.fs.vol ∧ NewNumbers s := by
  obtain ⟨own, node, dirs⟩ := steps.invariant (fun s => ∃ own node, DirInv s own node)
    (fun _ _ _ _ ⟨_, _, dirs⟩ ok run => dirs.root_step ok run) ⟨_, _, boot_dirs started⟩
  exact ⟨dirs.rootKept, dirs.newNumbers⟩

end
end

section Lp64
attribute [local instance] lp64

theorem root_safety_refused : ∃ s r₁ r₂, Steps Session.step KeepsRoot emptyBooted
    [(.mkdir [97], r₁), (.rmdir dot, r₂)] s ∧ RootKept s.fs.vol ∧ NewNumbers s := by
  have facts : ((emptyBooted.after (.mkdir [97])).step (.rmdir dot)).isSome ∧
      landing (emptyBooted.after (.mkdir [97])).fs (parentPath dot) = some 0 ∧
      ((inodeRead (emptyBooted.after (.mkdir [97])).fs.vol.disk 0).map (·.size)) = some 36 := by
    decide +kernel
  obtain ⟨defined, land, size⟩ := facts
  have first : KeepsRoot emptyBooted (.mkdir [97]) := ⟨by decide, mkdirOk_a.left⟩
  have second : KeepsRoot (emptyBooted.after (.mkdir [97])) (.rmdir dot) := by
    refine ⟨by rw [Whole, land]; simp, fun _ _ st read => ?_⟩
    rw [read, Option.map_some, Option.some.injEq] at size
    rw [size]
    decide
  have steps := Steps.cons first (Session.after_eq emptyBooted_mkdir)
    (.single second (Session.after_eq defined))
  exact ⟨_, _, _, steps, root_safety emptyBooted_eq steps⟩

/-- Removing "." from the empty root directory frees the root's inode and block. -/
theorem root_safety_removed : ∃ s r, emptyBooted.step (.rmdir dot) = some (r, s) ∧
    ¬ RootKept s.fs.vol := by
  have facts : (emptyBooted.step (.rmdir dot)).isSome ∧
      bit (emptyBooted.after (.rmdir dot)).fs.vol.inodeBmCache 0 = false := by decide +kernel
  refine ⟨_, _, Session.after_eq facts.1, fun kept => ?_⟩
  have used := kept.inode
  rw [facts.2] at used
  cases used

end Lp64

end CdnwSh
