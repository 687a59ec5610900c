import CdnwSh.Machine

/-! Entries over runs: what a successful call enters stays until `cnrmdir` removes it, and
nothing else takes an entry away, as long as files are created through handles that show
what their directory holds. -/
namespace CdnwSh

open ByteMemory RecordList PartialRun NameTree

section
variable [InodeLayout]

/-- The inode `cnstat` finds in a directory that is read afresh from disk. -/
def entryInode (d : Disk) (i : Iptr) (name : Name) : Option Iptr := do
  (← cnstat (← inflatedir d i) name).1

/-- The directory and the name of the entry that a successful call created. -/
def Creates (s : Session) (r : Reply) (i : Iptr) (name : Name) : Op → Prop
  | .mkdir path => r.code = 0 ∧ ∃ cwd, s.fs.cwd = some cwd ∧
      mkdirTarget s.fs.vol.disk cwd.inodeId (strtok path) = some (i, name)
  | .creat h tok => r.code = 0 ∧ tok = name ∧ ∃ d, s.dir h = some d ∧ d.inodeId = i
  | .openFile h tok _ => 0 ≤ r.code ∧ tok = name ∧ ∃ d next, s.dir h = some d ∧ d.inodeId = i ∧
      cnstat d tok = some (none, next)
  | .importFile _ tok => r.code = 0 ∧ tok = name ∧ ∃ cwd, s.fs.cwd = some cwd ∧ cwd.inodeId = i
  | _ => False

/-- A sane command that does not remove the entry. -/
def Keeps (i : Iptr) (name : Name) (s : Session) (op : Op) : Prop :=
  Sane s op ∧ ∀ r s', s.step op = some (r, s') → ¬ Removes s op r i name

variable {s s' s₀ s₁ s₂ s₃ : Session} {own : Owner} {node : Nodes} {i p : Iptr} {es : List DirEntry}
  {e : DirEntry} {r : Reply}

theorem Holds.entryInode_eq (holds : Holds v own node) (found : node i = some (.dir p es)) :
    entryInode v.disk i tok = (lookup v.disk i tok).map (·.inode) := by
  obtain ⟨st, dir⟩ := holds.dirs i p es found
  obtain ⟨k, stat, _⟩ := dir.handleOf.stat holds found tok
  rw [entryInode, dir.inflate holds.ledger]
  simp only [Option.bind_eq_bind, Option.bind_some, stat]

theorem Holds.entryInode_entry (holds : Holds v own node) (entry : Entry node i e) :
    entryInode v.disk i e.name = some e.inode := by
  obtain ⟨p, es, found, member⟩ := entry
  rw [holds.entryInode_eq found, holds.lookup_member found member]
  rfl

theorem Holds.entryInode_grown (holds : Holds v own node) (holds' : Holds v' own' node')
    (grown : NameTree.Grown node node') (found : node i = some (.dir p es))
    (named : entryInode v.disk i tok = some number) : entryInode v'.disk i tok = some number := by
  obtain ⟨more, after⟩ := grown i p es found
  rw [holds.entryInode_eq found, holds.lookup_eq found] at named
  obtain ⟨e, first, rfl⟩ := Option.map_eq_some_iff.mp named
  rw [holds'.entryInode_eq after, holds'.lookup_eq after,
    show records i p (es ++ more) = records i p es ++ more from rfl, List.find?_append, first]
  rfl

theorem Inv.keeps (inv : Inv s own node) (entry : Entry node i e)
    (steps : Steps Session.step (Keeps i e.name) s trace s') :
    ∃ own' node', Inv s' own' node' ∧ Entry node' i e := by
  refine steps.invariant (fun s => ∃ own node, Inv s own node ∧ Entry node i e) ?_
    ⟨own, node, inv, entry⟩
  rintro s op r next ⟨own, node, inv, entry⟩ ⟨sane, other⟩ run
  obtain ⟨own', node', advanced⟩ := inv.step sane run
  exact ⟨own', node', advanced.inv, advanced.entries i e entry (other r next run)⟩

theorem Holds.entry_same (holds : Holds v own node) (holds' : Holds v own' node')
    (entry : Entry node i e) (found : node' i = some (.dir p es)) : Entry node' i e := by
  obtain ⟨q, fs, before, member⟩ := entry
  obtain ⟨st, dir⟩ := holds.dirs i q fs before
  obtain ⟨st', dir'⟩ := holds'.dirs i p es found
  have same := (dir.listing_eq holds.ledger).symm.trans (dir'.listing_eq holds'.ledger)
  cases same
  exact .of found member

theorem Entered.entry (entered : Entered v own node i p es e v' own') (holds : Holds v own node) :
    Entry (NameTree.insert scheme node i p es e (newNode i e)) i e :=
  (entry_insert (S := scheme) entered.found (holds.unowned entered.fresh).2.1
    fun _ _ same => (newNode_dir same).2.2).mpr (.inr ⟨rfl, rfl⟩)

theorem Inv.enters (inv : Inv s own node) (sane : Sane s op) (run : s.step op = some (r, s'))
    (creates : Creates s r i name op) :
    ∃ p es own' node' e, node i = some (.dir p es) ∧ Holds s'.fs.vol own' node' ∧
      Entry node' i e ∧ e.name = name := by
  have sound := inv.sound
  cases op with
  | mkdir path =>
    obtain ⟨done, cwd, here, target⟩ := creates
    obtain ⟨makes, _, _⟩ := Session.global_eq run
    rcases sound.mkdir sane makes with ⟨failed, _⟩ |
      ⟨cwd', j, q, fs, e, own', here', _, target', _, _, _, entered, after⟩
    · rw [failed] at done
      cases done
    · cases here.symm.trans here'
      cases target.symm.trans target'
      exact ⟨q, fs, own', _, e, entered.found, after.holds, entered.entry sound.holds, rfl⟩
  | creat h tok =>
    obtain ⟨done, rfl, d, used, rfl⟩ := creates
    obtain ⟨d₁, d', fs', here, creats, _, rfl⟩ := Session.onDir_eq run
    obtain rfl := Option.some.inj (used.symm.trans here)
    rw [done] at creats
    rcases sound.creat (sane d here) creats with ⟨failed, _⟩ |
      ⟨own', p, es, e, next, _, _, new, after⟩
    · cases failed
    · exact ⟨p, es, own', _, e, new.entered.found, by rw [setDir_vol]; exact after.holds,
        new.entered.entry sound.holds, new.named⟩
  | openFile h tok mode =>
    obtain ⟨valid, rfl, d, next, used, rfl, missing⟩ := creates
    obtain ⟨d₁, d', fs', here, opens, _, rfl⟩ := Session.onDir_eq run
    obtain rfl := Option.some.inj (used.symm.trans here)
    generalize r.code = fd at valid opens
    cases sound.openFile (inv.shown h d here) (sane d here) opens with
    | failed => exact absurd valid (by decide)
    | found stat =>
      rw [missing] at stat
      cases stat
    | created _ _ new opened after =>
      exact ⟨_, _, _, _, _, new.entered.found, by rw [setDir_vol]; exact after.holds,
        new.entered.entry sound.holds, new.named⟩
  | importFile hName tok =>
    obtain ⟨done, rfl, cwd, here, rfl⟩ := creates
    obtain ⟨imports, _, _⟩ := Session.global_eq run
    obtain ⟨cwd', p, es, e, here', found, fresh, named, _, own', after, _, _⟩ :=
      sound.importFile sane imports
    obtain rfl := Option.some.inj (here.symm.trans here')
    exact ⟨p, es, own', _, e, found, after.holds,
      (entry_insert (S := scheme) found fresh fun _ _ same => (newNode_dir same).2.2).mpr
        (.inr ⟨rfl, rfl⟩), named⟩
  | _ => exact absurd creates id

theorem Inv.written (inv : Inv s own node) (sane : Sane s op) (run : s.step op = some (r, s'))
    (creates : Creates s r i name op) :
    ∃ number, entryInode s'.fs.vol.disk i name = some number ∧
      ∀ ys s₃, Steps Session.step (Keeps i name) s' ys s₃ →
        entryInode s₃.fs.vol.disk i name = some number := by
  obtain ⟨own', node', advanced⟩ := inv.step sane run
  have holds' := advanced.inv.sound.holds
  obtain ⟨p, es, _, _, e, found, after, entry, rfl⟩ := inv.enters sane run creates
  have grown := advanced.grown (by rintro path rfl; exact creates)
  obtain ⟨more, found'⟩ := grown i p es found
  have entry' := after.entry_same holds' entry found'
  refine ⟨e.inode, holds'.entryInode_entry entry', fun ys s₃ later => ?_⟩
  obtain ⟨_, _, inv₃, entry₃⟩ := advanced.inv.keeps entry' later
  exact inv₃.sound.holds.entryInode_entry entry₃

/-- In a run of sane commands, an entry that a command created is found afresh on disk, with
the same inode, in every later state up to its removal; and a command other than `cnrmdir`
leaves every entry of every directory. -/
theorem directory_updates {before : Fs} (started : boot before = some s₀)
    (first : Steps Session.step Sane s₀ xs s₁) (sane : Sane s₁ op)
    (run : s₁.step op = some (r, s₂)) :
    (∀ i name, Creates s₁ r i name op → ∃ number, entryInode s₂.fs.vol.disk i name = some number ∧
      ∀ ys s₃, Steps Session.step (Keeps i name) s₂ ys s₃ →
        entryInode s₃.fs.vol.disk i name = some number) ∧
    ((∀ path, op ≠ .rmdir path) → ∀ i st tok number,
      bit s₁.fs.vol.inodeBmCache i.toNat = true → inodeRead s₁.fs.vol.disk i = some st →
      st.type = ITYPE_DIR → entryInode s₁.fs.vol.disk i tok = some number →
      entryInode s₂.fs.vol.disk i tok = some number) := by
  obtain ⟨own, node, inv⟩ := (boot_inv started).run first
  refine ⟨fun i name creates => inv.written sane run creates, ?_⟩
  obtain ⟨own', node', advanced⟩ := inv.step sane run
  have holds := inv.sound.holds
  intro other i st tok number used read type named
  obtain ⟨j, same, live⟩ := holds.exact_inodes _ used
  obtain rfl := UInt32.toNat_inj.mp same
  obtain ⟨p, es, found⟩ := holds.dir_node live read type
  exact holds.entryInode_grown advanced.inv.sound.holds (advanced.grown other) found named

end

section Lp64
attribute [local instance] lp64

theorem directory_updates_mkdir : ∃ r s, emptyBooted.step (.mkdir [97]) = some (r, s) ∧
    ∃ number, entryInode s.fs.vol.disk 0 [97] = some number ∧
      ∀ ys s₃, Steps Session.step (Keeps 0 [97]) s ys s₃ →
        entryInode s₃.fs.vol.disk 0 [97] = some number := by
  have defined : (emptyBooted.step (.mkdir [97])).isSome := by decide +kernel
  have stands : (emptyBooted.fs.cwd.map (·.inodeId)) = some 0 := by decide +kernel
  have target : mkdirTarget emptyBooted.fs.vol.disk 0 (strtok [97]) = some (0, [97]) := by
    decide +kernel
  obtain ⟨cwd, here, root⟩ := Option.map_eq_some_iff.mp stands
  have creates : Creates emptyBooted (emptyBooted.reply (.mkdir [97])) 0 [97] (.mkdir [97]) :=
    ⟨by decide +kernel, cwd, here, by rw [root]; exact target⟩
  exact ⟨_, _, Session.after_eq defined, (directory_updates emptyBooted_eq .nil
    (show Sane emptyBooted (.mkdir [97]) from mkdirOk_a) (Session.after_eq defined)).1 0 [97] creates⟩

/-- Directory a is made and found; opening a new file f for writing in the current directory,
whose handle is older than a, returns a descriptor, and a is not found any more. -/
theorem directory_updates_lost : ∃ r₁ s₁ r₂ s₂, emptyBooted.step (.mkdir [97]) = some (r₁, s₁) ∧
    r₁.code = 0 ∧ entryInode s₁.fs.vol.disk 0 [97] = some 1 ∧
    s₁.step (.openFile .cwd [102] FD_WRITE) = some (r₂, s₂) ∧ r₂.code = 0 ∧
    entryInode s₂.fs.vol.disk 0 [97] = none := by
  have made : (emptyBooted.step (.mkdir [97])).isSome := by decide +kernel
  have opened : ((emptyBooted.after (.mkdir [97])).step (.openFile .cwd [102] FD_WRITE)).isSome := by
    decide +kernel
  exact ⟨_, _, _, _, Session.after_eq made, by decide +kernel, by decide +kernel,
    Session.after_eq opened, by decide +kernel, by decide +kernel⟩

end Lp64

end CdnwSh
