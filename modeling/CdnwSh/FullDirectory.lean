import CdnwSh.DirectoryUpdates

/-! Directories and the room left in their block. Neither `cnmkdir` nor `cncreat` compares
the size that a new record leads to with the blocks of the directory, so they never refuse a
name; as long as all new records fit, every directory stays within its blocks. -/
namespace CdnwSh

open ByteMemory RecordList PartialRun NameTree

section
variable [InodeLayout]

/-- The padded record of a name fits behind the entries of directory `i`. -/
def EntryRoom (d : Disk) (i : Iptr) (name : Name) : Prop :=
  ∀ st, inodeRead d i = some st → st.size.toNat + entryLenOf name.length ≤ 4096 * st.blocks.toNat

/-- The record that a command is about to make fits. -/
def EntryFits (s : Session) : Op → Prop
  | .mkdir path => ∀ cwd i name, s.fs.cwd = some cwd →
      mkdirTarget s.fs.vol.disk cwd.inodeId (strtok path) = some (i, name) →
        EntryRoom s.fs.vol.disk i name
  | .creat h name => ∀ d next, s.dir h = some d → cnstat d name = some (none, next) →
      EntryRoom s.fs.vol.disk d.inodeId name
  | .openFile h name mode => mode = FD_WRITE → ∀ d next, s.dir h = some d →
      cnstat d name = some (none, next) → EntryRoom s.fs.vol.disk d.inodeId name
  | .importFile _ name => ∀ cwd, s.fs.cwd = some cwd → EntryRoom s.fs.vol.disk cwd.inodeId name
  | _ => True

/-- No directory is larger than its blocks. -/
def WithinBlocks (v : Vol) : Prop :=
  ∀ (i : Iptr) st, bit v.inodeBmCache i.toNat = true → inodeRead v.disk i = some st →
    st.type = ITYPE_DIR → st.size.toNat ≤ 4096 * st.blocks.toNat

/-- Every directory is read again record by record, and each record is found by its name. -/
def ReadAgain (v : Vol) : Prop :=
  ∀ (i : Iptr) st, bit v.inodeBmCache i.toNat = true → inodeRead v.disk i = some st →
    st.type = ITYPE_DIR → ∃ rs, listing v.disk i = some rs ∧
      (rs.map DirEntry.entryLen).sum = st.size.toNat ∧
      ∀ e ∈ rs, lookup v.disk i e.name = some e

/-- A new name without room in directory `i`. -/
structure Full (d : Disk) (i : Iptr) (name : Name) : Prop where
  short : 1 ≤ name.length ∧ name.length ≤ 255
  missing : lookup d i name = none
  full : ¬ EntryRoom d i name

/-- No creation of the name in directory `i` returns anything but 0, through whatever current
handle or path it is created. -/
def NeverRefused (s : Fs) (i : Iptr) (name : Name) : Prop :=
  (∀ h code h' s', Current s.vol h → h.inodeId = i →
    cncreat h name s = some (code, h', s') → code = 0) ∧
  ∀ path cwd code s', s.cwd = some cwd → NoFilesMkdir s.vol.disk cwd.inodeId (strtok path) →
    mkdirTarget s.vol.disk cwd.inodeId (strtok path) = some (i, name) →
      cnmkdir path s = some (code, s') → code = 0

section
variable {s s' : Session} {v v' : Vol} {own own' : Owner} {node node' : Nodes} {i p : Iptr}
  {es : List DirEntry} {e : DirEntry} {st : Inode}

def extent (es : List DirEntry) : Nat := 24 + (es.map DirEntry.entryLen).sum

omit [InodeLayout] in
theorem extent_append : extent (es ++ [e]) = extent es + e.entryLen := by
  rw [extent, extent, List.map_append, List.sum_append]
  simp only [List.map_cons, List.map_nil, List.sum_cons, List.sum_nil]
  omega

omit [InodeLayout] in
theorem extent_filter (keeps : DirEntry → Bool) : extent (es.filter keeps) ≤ extent es := by
  have sub : ((es.filter keeps).map DirEntry.entryLen).Sublist (es.map DirEntry.entryLen) :=
    List.filter_sublist.map _
  exact Nat.add_le_add_left (sub.sum_le_sum fun _ _ => Nat.zero_le _) 24

theorem DirAt.size_eq (dir : DirAt v.disk own i st (records i p es)) :
    st.size.toNat = extent es := by
  have stop := dir.tiles.stop_eq
  rw [records, List.map_cons, List.map_cons, List.sum_cons, List.sum_cons] at stop
  change st.size.toNat = 0 + (12 + (12 + (es.map DirEntry.entryLen).sum)) at stop
  rw [extent]
  omega

theorem Holds.room_iff (holds : Holds v own node) (found : node i = some (.dir p es)) :
    EntryRoom v.disk i name ↔ extent es + entryLenOf name.length ≤ 4096 := by
  obtain ⟨st, dir⟩ := holds.dirs i p es found
  have one : st.blocks.toNat = 1 := by rw [dir.blocks]; rfl
  constructor
  · intro room
    have fits := room st dir.read
    rw [dir.size_eq, one] at fits
    exact fits
  · intro fits st' read
    obtain rfl := Option.some.inj (dir.read.symm.trans read)
    rw [dir.size_eq, one]
    exact fits

/-- Staying within the blocks is a property of the tree. -/
theorem Holds.withinBlocks (holds : Holds v own node) :
    WithinBlocks v ↔ ∀ i p es, node i = some (.dir p es) → extent es ≤ 4096 := by
  constructor
  · intro within i p es found
    obtain ⟨st, dir⟩ := holds.dirs i p es found
    have fits := within i st (holds.inodes i (by rw [found]; simp)).2 dir.read dir.type
    rw [dir.size_eq, dir.blocks] at fits
    exact fits
  · intro bounded i st used read type
    obtain ⟨p, es, found, dir⟩ := holds.usedDir used read type
    rw [dir.size_eq, dir.blocks]
    exact bounded _ p es found

theorem Holds.readAgain (holds : Holds v own node) : ReadAgain v := by
  intro i st used read type
  obtain ⟨p, es, found, dir⟩ := holds.usedDir used read type
  refine ⟨_, dir.listing_eq holds.ledger, ?_, fun e member => ?_⟩
  · rw [dir.tiles.stop_eq, Nat.zero_add]
  · obtain ⟨self, parent⟩ := holds.lookup_dots found
    rcases List.mem_cons.mp member with rfl | member
    · exact self
    · rcases List.mem_cons.mp member with rfl | member
      · exact parent
      · exact holds.lookup_member found member

theorem WithinBlocks.same (within : WithinBlocks v) (holds : Holds v own node)
    (holds' : Holds v' own' node) : WithinBlocks v' :=
  holds'.withinBlocks.mpr (holds.withinBlocks.mp within)

theorem WithinBlocks.insert (within : WithinBlocks v) (holds : Holds v own node)
    (found : node i = some (.dir p es)) (fresh : node e.inode = none)
    (holds' : Holds v' own' (NameTree.insert scheme node i p es e (newNode i e)))
    (room : EntryRoom v.disk i e.name) : WithinBlocks v' := by
  have entry : Entry (NameTree.insert scheme node i p es e (newNode i e)) i e :=
    (entry_insert (S := scheme) found fresh fun _ _ same => (newNode_dir same).2.2).mpr
      (.inr ⟨rfl, rfl⟩)
  have sound := (holds'.proper i e entry).sound
  rw [holds.room_iff found] at room
  refine holds'.withinBlocks.mpr fun j q fs here => ?_
  rcases insert_cases (S := scheme) here with ⟨_, new⟩ | ⟨_, ⟨_, parent⟩ | ⟨_, before⟩⟩
  · obtain ⟨_, _, rfl⟩ := newNode_dir new.symm
    exact show 24 ≤ 4096 by decide
  · cases parent
    rw [extent_append, sound.padded]
    exact room
  · exact holds.withinBlocks.mp within j q fs before

theorem WithinBlocks.erase (within : WithinBlocks v) (holds : Holds v own node)
    (found : node i = some (.dir p es))
    (holds' : Holds v' own' (NameTree.erase scheme node i p es e)) : WithinBlocks v' := by
  have bounded := holds.withinBlocks.mp within
  refine holds'.withinBlocks.mpr fun j q fs here => ?_
  obtain ⟨_, ⟨_, parent⟩ | ⟨_, before⟩⟩ := erase_cases (S := scheme) here
  · cases parent
    exact Nat.le_trans (extent_filter _) (bounded i p es found)
  · exact bounded j q fs before

theorem WithinBlocks.reached {f f' : Fs} (within : WithinBlocks f.vol) (sound : Sound f own node)
    (reached : Reached f own node f' node) : WithinBlocks f'.vol := by
  obtain ⟨_, after, _⟩ := reached
  exact within.same sound.holds after.holds

theorem WithinBlocks.newFile {f f₁ : Fs} (within : WithinBlocks f.vol) (sound : Sound f own node)
    (new : NewFile f own node i name h' f₁ own' p es e) (room : EntryRoom f.vol.disk i name) :
    WithinBlocks f₁.vol :=
  within.insert sound.holds new.entered.found (sound.holds.unowned new.entered.fresh).2.1
    new.entered.holds (new.named ▸ room)

theorem WithinBlocks.step (within : WithinBlocks s.fs.vol) (inv : Inv s own node)
    (sane : Sane s op) (fits : EntryFits s op) (run : s.step op = some (r, s')) :
    WithinBlocks s'.fs.vol := by
  have sound := inv.sound
  cases op with
  | mkfs => exact absurd sane id
  | mount =>
    obtain ⟨mounts, _, _⟩ := Session.global_eq run
    obtain ⟨_, _, after, _⟩ := sound.holds.mount sound.synced sound.magic mounts
    exact within.same sound.holds after.holds
  | umount =>
    obtain ⟨unmounts, _, _⟩ := Session.global_eq run
    obtain ⟨_, _, after, _⟩ := sound.umount unmounts
    exact within.same sound.holds after.holds
  | mkdir path =>
    obtain ⟨makes, _, _⟩ := Session.global_eq run
    rcases sound.mkdir sane makes with ⟨_, same⟩ |
      ⟨cwd, j, q, fs, e, own', here, _, target, _, _, _, entered, after⟩
    · rw [same]
      exact within
    · exact within.insert sound.holds entered.found (sound.holds.unowned entered.fresh).2.1
        after.holds (fits cwd j e.name here target)
  | rmdir path =>
    obtain ⟨removes, _, _⟩ := Session.global_eq run
    rcases sound.rmdir sane removes with ⟨_, same⟩ | ⟨_, _, _, after, _⟩ |
      ⟨_, _, _, i, p, es, e, ptr, removed, after⟩
    · rw [same]
      exact within
    · exact within.same sound.holds after.holds
    · exact within.erase sound.holds removed.found after.holds
  | cd path =>
    obtain ⟨moves, _, _⟩ := Session.global_eq run
    exact within.same sound.holds (sound.cd sane moves).1.holds
  | ls path =>
    obtain ⟨_, rfl⟩ := Session.ls_eq run
    exact within
  | opendir k path =>
    rcases Session.opendir_eq run with ⟨_, rfl⟩ | ⟨_, _, rfl⟩
    · exact within
    · exact within
  | closedir k =>
    cases run
    exact within
  | creat h name =>
    obtain ⟨d, d', fs', here, creates, _, rfl⟩ := Session.onDir_eq run
    rw [setDir_vol]
    rcases sound.creat (sane d here) creates with ⟨_, rfl, _⟩ |
      ⟨own', p, es, e, next, _, stat, new, _⟩
    · exact within
    · exact within.newFile sound new (fits d next here stat)
  | openFile h name mode =>
    obtain ⟨d, d', fs', here, opens, _, rfl⟩ := Session.onDir_eq run
    rw [setDir_vol]
    generalize r.code = fd at opens
    cases sound.openFile (inv.shown h d here) (sane d here) opens with
    | failed => exact within
    | found _ _ _ after => exact within.same sound.holds after.holds
    | created write stat new opened _ =>
      have grown := within.newFile sound new (fits write d _ here stat)
      rw [opened.state]
      exact grown
  | close fd =>
    obtain ⟨closes, _, _⟩ := Session.global_eq run
    exact within.same sound.holds (sound.close closes).1.holds
  | read fd bytes =>
    obtain ⟨reads, _⟩ := Session.read_eq run
    exact within.same sound.holds (sound.read reads).1.holds
  | write fd buf =>
    obtain ⟨_, writes, _⟩ := Session.write_eq run
    rcases sound.write sane writes with ⟨_, same, _⟩ | ⟨_, _, _, _, _, _, _, _, _, _, after⟩
    · rw [same]
      exact within
    · exact within.same sound.holds after.holds
  | seek fd offset =>
    obtain ⟨seeks, _, _⟩ := Session.global_eq run
    obtain ⟨_, _, _, ⟨_, _, same⟩ | ⟨_, ⟨_, _, after⟩ | ⟨_, _, _, _, _, _, _, after⟩⟩⟩ :=
      sound.seek sane seeks
    · rw [same]
      exact within
    · exact within.same sound.holds after.holds
    · exact within.same sound.holds after.holds
  | cat name =>
    obtain ⟨cats, _⟩ := Session.cat_eq run
    exact within.reached sound (sound.cat sane cats)
  | importFile hName gName =>
    obtain ⟨imports, _, _⟩ := Session.global_eq run
    obtain ⟨cwd, p, es, e, here, found, fresh, named, _, _, after, _⟩ :=
      sound.importFile sane imports
    exact within.insert sound.holds found fresh after.holds (named ▸ fits cwd here)
  | exportFile gName hName =>
    obtain ⟨exports, _, _⟩ := Session.global_eq run
    exact within.reached sound (sound.exportFile sane exports)

theorem boot_within {before : Fs} (started : boot before = some s) : WithinBlocks s.fs.vol := by
  refine (boot_inv started).sound.holds.withinBlocks.mpr fun i p es found => ?_
  obtain rfl := rootNodes_live (i := i) (by rw [found]; simp)
  cases found
  exact show 24 ≤ 4096 by decide

theorem Sound.creat_never {f f' : Fs} {h h' : DirPtr} (sound : Sound f own node)
    (current : Current f.vol h) (missing : lookup f.vol.disk h.inodeId name = none)
    (run : cncreat h name f = some (code, h', f')) : code = 0 := by
  obtain ⟨p, es, st, found, _, handleOf⟩ := current.handleOf sound.holds
  obtain ⟨k, stat, _⟩ := handleOf.stat sound.holds found name
  rw [missing] at stat
  rw [cncreat, stat] at run
  simp only [Option.map_none, Option.bind_eq_bind, Option.bind_some] at run
  obtain ⟨⟨n, h₁, f₁⟩, _, run⟩ := Option.bind_eq_some_iff.mp run
  obtain ⟨d, _, run⟩ := Option.bind_eq_some_iff.mp run
  cases run
  rfl

theorem Sound.mkdir_never {f f' : Fs} {cwd : DirPtr} (sound : Sound f own node)
    (here : f.cwd = some cwd) (noFiles : NoFilesMkdir f.vol.disk cwd.inodeId (strtok path))
    (target : mkdirTarget f.vol.disk cwd.inodeId (strtok path) = some (i, name))
    (run : cnmkdir path f = some (code, f')) : code = 0 := by
  obtain ⟨p, es, found⟩ := sound.home cwd here
  obtain ⟨st, dir⟩ := sound.holds.dirs _ _ _ found
  rw [cnmkdir, here] at run
  simp only [Option.bind_eq_bind, Option.bind_some, dir.read] at run
  rcases sound.holds.mkdirWalk_eq found dir noFiles run with ⟨stopped, _⟩ | created
  · rw [target] at stopped
    cases stopped
  · obtain ⟨_, _, _, _, _, _, _, _, _, _, _, run⟩ := created
    obtain ⟨_, _, run⟩ := Option.bind_eq_some_iff.mp run
    obtain ⟨_, _, run⟩ := Option.bind_eq_some_iff.mp run
    cases run
    rfl

/-- In every run of sane commands from `boot` whose new records all fit, every directory is
within its blocks and read again as it was written; what a further command enters is found
until it is removed. A name without room is never refused, in any sound state. -/
theorem full_directory {before : Fs} {s₀ : Session} (started : boot before = some s₀)
    (steps : Steps Session.step (fun s op => Sane s op ∧ EntryFits s op) s₀ trace s) :
    (WithinBlocks s.fs.vol ∧ ReadAgain s.fs.vol ∧
      ∀ op r s₁ i name, Sane s op → s.step op = some (r, s₁) → Creates s r i name op →
        ∃ number, entryInode s₁.fs.vol.disk i name = some number ∧
          ∀ ys s₂, Steps Session.step (Keeps i name) s₁ ys s₂ →
            entryInode s₂.fs.vol.disk i name = some number) ∧
    ∀ (f : Fs) own node i name, Sound f own node → Full f.vol.disk i name →
      NeverRefused f i name := by
  refine ⟨?_, fun f own node i name sound full => ⟨?_, ?_⟩⟩
  · obtain ⟨own, node, inv, within⟩ := steps.invariant
      (fun s => ∃ own node, Inv s own node ∧ WithinBlocks s.fs.vol)
      (fun _ _ _ _ ⟨_, _, inv, within⟩ ok run => by
        obtain ⟨own', node', after⟩ := inv.step ok.1 run
        exact ⟨own', node', after.inv, within.step inv ok.1 ok.2 run⟩)
      ⟨_, _, boot_inv started, boot_within started⟩
    refine ⟨within, inv.sound.holds.readAgain, fun op r s₁ i name sane run creates => ?_⟩
    exact inv.written sane run creates
  · intro h code h' s' current same run
    exact sound.creat_never current (same ▸ full.missing) run
  · intro path cwd code s' here noFiles target run
    exact sound.mkdir_never here noFiles target run

end
end

section Lp64
attribute [local instance] lp64

/-- Directories of the given names can be made one after the other in the current one, each
with a record that fits. -/
def Makes (s : Session) : List Name → Prop
  | [] => True
  | name :: rest => (0 ∉ name ∧ strtok name = [name]) ∧ (s.step (.mkdir name)).isSome ∧
      Pool.inode.free s.fs.vol ≠ 0 ∧ Pool.block.free s.fs.vol ≠ 0 ∧
      (∀ cwd ∈ s.fs.cwd, ∀ st ∈ inodeRead s.fs.vol.disk cwd.inodeId,
        st.size.toNat + entryLenOf name.length ≤ 4096 * st.blocks.toNat) ∧
      Makes (s.after (.mkdir name)) rest

instance : (s : Session) → (names : List Name) → Decidable (Makes s names)
  | _, [] => inferInstanceAs (Decidable True)
  | s, name :: rest =>
    have := instDecidableMakes (s.after (.mkdir name)) rest
    inferInstanceAs (Decidable (_ ∧ _))

theorem Makes.steps {s : Session} (makes : Makes s names) :
    ∃ trace, Steps Session.step (fun s op => Sane s op ∧ EntryFits s op) s trace
      (names.foldl (fun s name => s.after (.mkdir name)) s) := by
  induction names generalizing s with
  | nil => exact ⟨[], .nil⟩
  | cons name rest ih =>
    obtain ⟨⟨text, single⟩, defined, inodes, blocks, room, makes⟩ := makes
    obtain ⟨trace, steps⟩ := ih makes
    have ok : MkdirOk s.fs name :=
      ⟨text, fun _ _ => by rw [single]; exact fun more => absurd rfl more,
        fun _ _ _ => ⟨inodes, blocks⟩⟩
    have fits : EntryFits s (.mkdir name) := by
      intro cwd i tok here target st read
      rw [single, mkdirTarget] at target
      split at target
      · rw [if_pos rfl] at target
        cases target
      · rw [if_pos rfl] at target
        cases target
        exact room cwd here st read
    have guard : Sane s (.mkdir name) ∧ EntryFits s (.mkdir name) := ⟨ok, fits⟩
    exact ⟨_, .cons guard (Session.after_eq defined) steps⟩

def longNames : List Name := (List.range 15).map fun k => List.replicate 255 (UInt8.ofNat (97 + k))

/-- The root directory with a directory for each of them, which takes 3984 bytes. -/
def packed : Session := longNames.foldl (fun s name => s.after (.mkdir name)) emptyBooted

def lastName : Name := List.replicate 104 120

theorem lastName_length : lastName.length = 104 := List.length_replicate

theorem packed_facts : Makes emptyBooted longNames ∧
    lookup packed.fs.vol.disk 0 lastName = none ∧
    (∃ st ∈ inodeRead packed.fs.vol.disk 0, st.size = 3984 ∧ st.blocks = 1) ∧
    (packed.step (.mkdir lastName)).isSome ∧ (packed.reply (.mkdir lastName)).code = 0 ∧
    bit (packed.after (.mkdir lastName)).fs.vol.inodeBmCache 0 = true ∧
    ∃ st ∈ inodeRead (packed.after (.mkdir lastName)).fs.vol.disk 0,
      st.type = ITYPE_DIR ∧ st.size = 4100 ∧ st.blocks = 1 := by decide +kernel

theorem packed_full : Full packed.fs.vol.disk 0 lastName := by
  obtain ⟨_, missing, ⟨st, read, size, blocks⟩, _⟩ := packed_facts
  have short : 1 ≤ lastName.length ∧ lastName.length ≤ 255 := by
    rw [lastName_length]
    exact ⟨by omega, by omega⟩
  refine ⟨short, missing, fun room => ?_⟩
  have fits := room st read
  rw [size, blocks, lastName_length] at fits
  exact absurd fits (by decide)

theorem packed_steps : ∃ trace,
    Steps Session.step (fun s op => Sane s op ∧ EntryFits s op) emptyBooted trace packed := by
  obtain ⟨trace, steps⟩ := packed_facts.1.steps
  refine ⟨trace, ?_⟩
  rw [packed]
  exact steps

theorem packed_sound : ∃ own node, Sound packed.fs own node := by
  obtain ⟨trace, steps⟩ := packed_steps
  obtain ⟨own, node, inv⟩ := (boot_inv emptyBooted_eq).run (steps.mono fun _ _ ok => ok.1)
  exact ⟨own, node, inv.sound⟩

theorem full_directory_filled : WithinBlocks packed.fs.vol ∧ NeverRefused packed.fs 0 lastName := by
  obtain ⟨trace, steps⟩ := packed_steps
  obtain ⟨⟨within, _⟩, never⟩ := full_directory emptyBooted_eq steps
  obtain ⟨own, node, sound⟩ := packed_sound
  exact ⟨within, never packed.fs own node 0 lastName sound packed_full⟩

/-- The last name does not fit, is entered all the same, and the directory is then larger than
its block. -/
theorem full_directory_entered : (∃ own node, Sound packed.fs own node) ∧
    Full packed.fs.vol.disk 0 lastName ∧
    ∃ r s, packed.step (.mkdir lastName) = some (r, s) ∧ r.code = 0 ∧ ¬ WithinBlocks s.fs.vol := by
  obtain ⟨_, _, _, defined, done, used, st, read, type, size, blocks⟩ := packed_facts
  refine ⟨packed_sound, packed_full, _, _, Session.after_eq defined, done, fun within => ?_⟩
  have fits := within 0 st used read type
  rw [size, blocks] at fits
  exact absurd fits (by decide)

end Lp64

end CdnwSh
