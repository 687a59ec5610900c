import CdnwSh.Library.PartialRun
import CdnwSh.Mount

/-! Runs of the whole machine: a condition on each command and the state it is issued in,
under which every state of a run is sound, whatever handles and descriptors are held. -/
namespace CdnwSh

open ByteMemory RecordList PartialRun

section
variable [InodeLayout]

structure Inv (s : Session) (own : Owner) (node : Nodes) : Prop where
  sound : Sound s.fs own node
  shown : ∀ h d, s.dir h = some d → Shown node d

/-- The conditions of the single commands. Making a file system is no step of a run, it
starts one. -/
def Sane (s : Session) : Op → Prop
  | .mkfs => False
  | .mount | .umount | .closedir _ | .close _ | .read _ _ => True
  | .mkdir path => MkdirOk s.fs path
  | .rmdir path => RmdirOk s.fs path
  | .cd path | .ls path | .opendir _ path => PathOk s.fs path
  | .creat h name => ∀ d, s.dir h = some d → CreatOk s.fs d name
  | .openFile h name mode => ∀ d, s.dir h = some d → OpenOk s.fs d name mode
  | .write fd buf => WriteOk s.fs fd buf
  | .seek fd offset => SeekOk s.fs fd offset
  | .cat name | .exportFile name _ => FileName s.fs name
  | .importFile hName gName => ImportOk s.fs hName gName

section
variable {s s' : Session} {own own' : Owner} {node node' : Nodes} {r : Reply}

omit [InodeLayout] in
theorem Session.global_eq {result : Option (Int × Fs)} (run : s.global result = some (r, s')) :
    result = some (r.code, s'.fs) ∧ r.bytes = [] ∧ s'.handles = s.handles := by
  obtain ⟨⟨code, fs⟩, same, run⟩ := Option.bind_eq_some_iff.mp run
  cases run
  exact ⟨same, rfl, rfl⟩

omit [InodeLayout] in
/-- A command on a handle changes that handle and the globals. -/
theorem Session.onDir_eq {f : DirPtr → Fs → Option (Int × DirPtr × Fs)}
    (run : s.onDir h f = some (r, s')) :
    ∃ d d' fs', s.dir h = some d ∧ f d s.fs = some (r.code, d', fs') ∧ r.bytes = [] ∧
      s' = ({ s with fs := fs' } : Session).setDir h d' := by
  obtain ⟨d, here, run⟩ := Option.bind_eq_some_iff.mp run
  obtain ⟨⟨code, d', fs'⟩, same, run⟩ := Option.bind_eq_some_iff.mp run
  cases run
  exact ⟨d, d', fs', here, same, rfl, rfl⟩

theorem Session.read_eq (run : s.step (.read fd bytes) = some (r, s')) :
    cnread bytes fd s.fs = some (r.bytes, s'.fs) ∧ s'.handles = s.handles := by
  obtain ⟨⟨out, fs⟩, reads, run⟩ := Option.bind_eq_some_iff.mp run
  cases run
  exact ⟨reads, rfl⟩

theorem Session.write_eq (run : s.step (.write fd buf) = some (r, s')) :
    ∃ count, cnwrite buf fd s.fs = some (count, s'.fs) ∧ r = ⟨count, []⟩ ∧
      s'.handles = s.handles := by
  obtain ⟨⟨count, fs⟩, writes, run⟩ := Option.bind_eq_some_iff.mp run
  cases run
  exact ⟨count, writes, rfl, rfl⟩

theorem Session.cat_eq (run : s.step (.cat name) = some (r, s')) :
    cncat name s.fs = some (r.code, r.bytes, s'.fs) ∧ s'.handles = s.handles := by
  obtain ⟨⟨code, bytes, fs⟩, cats, run⟩ := Option.bind_eq_some_iff.mp run
  cases run
  exact ⟨cats, rfl⟩

theorem Session.ls_eq (run : s.step (.ls path) = some (r, s')) :
    cnls path s.fs = some (r.code, r.bytes) ∧ s' = s := by
  obtain ⟨⟨code, bytes⟩, lists, run⟩ := Option.bind_eq_some_iff.mp run
  cases run
  exact ⟨lists, rfl⟩

theorem Session.opendir_eq (run : s.step (.opendir k path) = some (r, s')) :
    (cnopendir s.fs path = some none ∧ s' = s) ∨
      ∃ d, cnopendir s.fs path = some (some d) ∧ s' = s.setDir (.held k) d := by
  obtain ⟨found, opens, run⟩ := Option.bind_eq_some_iff.mp run
  cases found with
  | none =>
    cases run
    exact .inl ⟨opens, rfl⟩
  | some d =>
    cases run
    exact .inr ⟨d, opens, rfl⟩

/-- New globals with the old directory handles, up to `cwd`. -/
theorem Inv.globals (inv : Inv s own node) (sound : Sound s'.fs own' node')
    (handles : s'.handles = s.handles)
    (cwd : ∀ d, s'.fs.cwd = some d → s.fs.cwd = some d ∨ Shown node' d)
    (files : ∀ j, node j = some .file → node' j = some .file) : Inv s' own' node' := by
  refine ⟨sound, fun h d here => ?_⟩
  cases h with
  | cwd =>
    rcases cwd d here with same | shown
    · exact (inv.shown .cwd d same).mono files
    · exact shown
  | held k =>
    have same : s.dir (.held k) = some d := by
      rw [← here]
      exact congrFun handles.symm k
    exact (inv.shown _ d same).mono files

/-- A handle that was used is stored back. -/
theorem Inv.setDir {fs' : Fs} (inv : Inv s own node) (sound : Sound fs' own' node')
    (shown : Shown node' d') (used : s.dir h = some d) (same : d'.inodeId = d.inodeId)
    (cwd : fs'.cwd = s.fs.cwd) (files : ∀ j, node j = some .file → node' j = some .file) :
    Inv (({ s with fs := fs' } : Session).setDir h d') own' node' := by
  cases h with
  | cwd =>
    refine ⟨⟨sound.holds, sound.synced, sound.magic, fun dir here => ?_, sound.copies⟩,
      fun k x here => ?_⟩
    · cases here
      rw [same]
      exact sound.home d (cwd.trans used)
    · cases k with
      | cwd =>
        cases here
        exact shown
      | held k => exact (inv.shown (.held k) x here).mono files
  | held n =>
    refine ⟨sound, fun k x here => ?_⟩
    cases k with
    | cwd => exact (inv.shown .cwd x (cwd.symm.trans here)).mono files
    | held k =>
      change (if k = n then some d' else s.handles k) = some x at here
      split at here
      · cases here
        exact shown
      · exact (inv.shown (.held k) x here).mono files

/-- A successful `cnrmdir` of the entry of a directory. -/
def Removes (s : Session) (op : Op) (r : Reply) (i : Iptr) (name : Name) : Prop :=
  op = .rmdir name ∧ r.code = 0 ∧ ∃ cwd, s.fs.cwd = some cwd ∧ cwd.inodeId = i

/-- What a step leaves: a sound state, a change that respects `Next` unless the step mounts
or unmounts, all directories with all entries unless the step is a `cnrmdir`, and in any
case the entries that it does not remove. -/
structure Advanced (s : Session) (own : Owner) (node : Nodes) (op : Op) (r : Reply) (s' : Session)
    (own' : Owner) (node' : Nodes) : Prop where
  inv : Inv s' own' node'
  next : op ≠ .mount → op ≠ .umount → Next s.fs.vol own node s'.fs.vol own' node'
  grown : (∀ path, op ≠ .rmdir path) → NameTree.Grown node node'
  entries : ∀ i e, NameTree.Entry node i e → ¬ Removes s op r i e.name → NameTree.Entry node' i e

def Advance (s : Session) (own : Owner) (node : Nodes) (op : Op) (r : Reply) (s' : Session) : Prop :=
  ∃ own' node', Advanced s own node op r s' own' node'

theorem Inv.kept (inv : Inv s own node) (sound : Sound s'.fs own' node')
    (handles : s'.handles = s.handles)
    (cwd : ∀ d, s'.fs.cwd = some d → s.fs.cwd = some d ∨ Shown node' d)
    (next : Next s.fs.vol own node s'.fs.vol own' node') (grown : NameTree.Grown node node') :
    Advance s own node op r s' :=
  ⟨own', node', inv.globals sound handles cwd next.files, fun _ _ => next, fun _ => grown,
    fun _ _ entry _ => grown.entry entry⟩

theorem Inv.unchanged (inv : Inv s own node) (handles : s'.handles = s.handles)
    (same : s'.fs = s.fs) : Advance s own node op r s' := by
  refine inv.kept (by rw [same]; exact inv.sound) handles (fun d here => .inl (same ▸ here)) ?_ .refl
  rw [same]
  exact .refl

/-- A command that only touches descriptors. -/
theorem Inv.descriptors (inv : Inv s own node) (sound : Sound s'.fs own node)
    (handles : s'.handles = s.handles) (vol : s'.fs.vol = s.fs.vol) (cwd : s'.fs.cwd = s.fs.cwd) :
    Advance s own node op r s' := by
  refine inv.kept sound handles (fun d here => .inl (cwd ▸ here)) ?_ .refl
  rw [vol]
  exact .refl

omit [InodeLayout] in
theorem setDir_vol (s : Session) : (s.setDir h d).fs.vol = s.fs.vol := by cases h <;> rfl

theorem Inv.onDir {fs' : Fs} (inv : Inv s own node) (sound : Sound fs' own' node')
    (shown : Shown node' d') (used : s.dir h = some d) (same : d'.inodeId = d.inodeId)
    (cwd : fs'.cwd = s.fs.cwd) (next : Next s.fs.vol own node fs'.vol own' node')
    (grown : NameTree.Grown node node') :
    Advance s own node op r (({ s with fs := fs' } : Session).setDir h d') :=
  ⟨own', node', inv.setDir sound shown used same cwd next.files,
    fun _ _ => by rw [setDir_vol]; exact next, fun _ => grown, fun _ _ entry _ => grown.entry entry⟩

theorem Inv.reached (inv : Inv s own node) (reached : Reached s.fs own node s'.fs node')
    (handles : s'.handles = s.handles) (grown : NameTree.Grown node node') :
    Advance s own node op r s' := by
  obtain ⟨own', sound, next, cwd⟩ := reached
  exact inv.kept sound handles (fun d here => .inl (cwd ▸ here)) next grown

/-- A sane command keeps the invariant. -/
theorem Inv.step (inv : Inv s own node) (sane : Sane s op) (run : s.step op = some (r, s')) :
    Advance s own node op r s' := by
  have sound := inv.sound
  cases op with
  | mkfs => exact absurd sane id
  | mount =>
    obtain ⟨mounts, _, handles⟩ := Session.global_eq run
    obtain ⟨_, _, after, ⟨h, here, opened⟩, _⟩ := sound.holds.mount sound.synced sound.magic mounts
    refine ⟨own, node, inv.globals after handles (fun d same => .inr ?_) fun _ => id,
      fun other _ => absurd rfl other, fun _ => .refl, fun _ _ entry _ => entry⟩
    obtain rfl := Option.some.inj (here.symm.trans same)
    exact opened.shown after.holds
  | umount =>
    obtain ⟨unmounts, _, handles⟩ := Session.global_eq run
    obtain ⟨_, _, after, cwd, _⟩ := sound.umount unmounts
    exact ⟨own, node, inv.globals after handles (fun d here => by rw [cwd] at here; cases here)
      fun _ => id, fun _ other => absurd rfl other, fun _ => .refl, fun _ _ entry _ => entry⟩
  | mkdir path =>
    obtain ⟨makes, _, handles⟩ := Session.global_eq run
    rcases sound.mkdir sane makes with ⟨_, same⟩ |
      ⟨_, j, q, fs, e, own', _, _, _, _, _, cwd, entered, after⟩
    · exact inv.unchanged handles same
    · exact inv.kept after handles (fun d here => .inl (cwd ▸ here)) (entered.next sound.holds)
        (entered.grown sound.holds)
  | rmdir path =>
    obtain ⟨removes, _, handles⟩ := Session.global_eq run
    rcases sound.rmdir sane removes with ⟨_, same⟩ | ⟨_, _, cwd, after, _, _, _, _, confined⟩ |
      ⟨done, _, cwd, i, p, es, e, ptr, removed, after⟩
    · exact inv.unchanged handles same
    · exact inv.kept after handles (fun d here => .inl (cwd ▸ here)) confined.next .refl
    · have next := removed.next sound.holds.ledger
      refine ⟨_, _, inv.globals after handles (fun d here => .inl (cwd ▸ here)) next.files,
        fun _ _ => next, fun other => absurd rfl (other path), fun j f entry other => ?_⟩
      have apart := (sound.holds.tree.target_ne (.of removed.found removed.member)).symm
      refine (sound.holds.tree.entry_erase removed.found removed.member removed.empty apart).mpr
        ⟨entry, ?_⟩
      rintro ⟨rfl, rfl⟩
      exact other ⟨by rw [removed.name], done, removed.here⟩
  | cd path =>
    obtain ⟨moves, _, handles⟩ := Session.global_eq run
    obtain ⟨after, ⟨_, same⟩ | ⟨h, j, k, _, opened, same⟩⟩ := sound.cd sane moves
    · exact inv.unchanged handles same
    · refine inv.kept after handles (fun d here => ?_) (by rw [same]; exact .refl) .refl
      rw [same] at here
      cases here
      exact .inr (opened.shown sound.holds)
  | ls path =>
    obtain ⟨_, rfl⟩ := Session.ls_eq run
    exact inv.unchanged rfl rfl
  | opendir k path =>
    rcases Session.opendir_eq run with ⟨_, rfl⟩ | ⟨d, opens, rfl⟩
    · exact inv.unchanged rfl rfl
    · obtain ⟨j, n, opened⟩ := sound.opendir sane opens
      refine ⟨own, node, ⟨sound, fun h x here => ?_⟩, fun _ _ => .refl, fun _ => .refl,
        fun _ _ entry _ => entry⟩
      cases h with
      | cwd => exact inv.shown .cwd x here
      | held m =>
        change (if m = k then some d else s.handles m) = some x at here
        split at here
        · cases here
          exact opened.shown sound.holds
        · exact inv.shown (.held m) x here
  | closedir k =>
    cases run
    refine ⟨own, node, ⟨sound, fun h x here => ?_⟩, fun _ _ => .refl, fun _ => .refl,
        fun _ _ entry _ => entry⟩
    cases h with
    | cwd => exact inv.shown .cwd x here
    | held m =>
      change (if m = k then none else s.handles m) = some x at here
      split at here
      · cases here
      · exact inv.shown (.held m) x here
  | creat h name =>
    obtain ⟨d, d', fs', here, creates, _, rfl⟩ := Session.onDir_eq run
    have shown := inv.shown h d here
    rcases sound.creat (sane d here) creates with ⟨_, rfl, _, stat⟩ |
      ⟨own', p, es, e, next, _, _, new, after⟩
    · obtain ⟨k, rfl⟩ := cnstat_index stat
      exact inv.onDir sound shown here rfl rfl .refl .refl
    · obtain ⟨_, _, handleOf⟩ := new.shows
      exact inv.onDir after (handleOf.shown after.holds (new.parent sound)) here handleOf.inodeId
        (by rw [new.state]) (new.entered.next sound.holds) (new.entered.grown sound.holds)
  | openFile h name mode =>
    obtain ⟨d, d', fs', here, opens, _, rfl⟩ := Session.onDir_eq run
    have shown := inv.shown h d here
    generalize r.code = fd at opens
    cases sound.openFile shown (sane d here) opens with
    | failed => exact inv.onDir sound shown here rfl rfl .refl .refl
    | found stat _ opened after =>
      obtain ⟨k, rfl⟩ := cnstat_index stat
      refine inv.onDir after shown here rfl (by rw [opened.state]) ?_ .refl
      rw [opened.state]
      exact .refl
    | created _ _ new opened after =>
      obtain ⟨_, _, handleOf⟩ := new.shows
      refine inv.onDir after ((handleOf.reindex (k := _)).shown after.holds (new.parent sound)) here
        handleOf.inodeId (by rw [opened.state, new.state]) ?_ (new.entered.grown sound.holds)
      rw [opened.state]
      exact new.entered.next sound.holds
  | close fd =>
    obtain ⟨closes, _, handles⟩ := Session.global_eq run
    obtain ⟨after, ⟨_, same⟩ | ⟨_, _, _, _, _, _, same⟩⟩ := sound.close closes
    · exact inv.unchanged handles same
    · exact inv.descriptors after handles (by rw [same]; rfl) (by rw [same]; rfl)
  | read fd bytes =>
    obtain ⟨reads, handles⟩ := Session.read_eq run
    obtain ⟨after, same | ⟨_, _, _, same⟩⟩ := sound.read reads
    · exact inv.unchanged handles same
    · exact inv.descriptors after handles (by rw [same]; rfl) (by rw [same]; rfl)
  | write fd buf =>
    obtain ⟨_, writes, _, handles⟩ := Session.write_eq run
    rcases sound.write sane writes with ⟨_, same, _⟩ |
      ⟨_, own', _, _, _, _, _, _, acted, _, after⟩
    · exact inv.unchanged handles same
    · exact inv.kept after handles (fun d here => .inl (acted.cwd ▸ here)) acted.confined.next
        .refl
  | seek fd offset =>
    obtain ⟨seeks, _, handles⟩ := Session.global_eq run
    obtain ⟨n, _, _, ⟨_, _, same⟩ | ⟨_, ⟨_, same, after⟩ |
      ⟨_, _, own', _, _, _, acted, after⟩⟩⟩ := sound.seek sane seeks
    · exact inv.unchanged handles same
    · exact inv.descriptors after handles (by rw [same]; rfl) (by rw [same]; rfl)
    · exact inv.kept after handles (fun d here => .inl (acted.cwd ▸ here)) acted.confined.next
        .refl
  | cat name =>
    obtain ⟨cats, handles⟩ := Session.cat_eq run
    exact inv.reached (sound.cat sane cats) handles .refl
  | importFile hName gName =>
    obtain ⟨imports, _, handles⟩ := Session.global_eq run
    obtain ⟨_, _, _, _, _, found, fresh, _, _, reached⟩ := sound.importFile sane imports
    exact inv.reached reached handles (NameTree.insert_grown found fresh)
  | exportFile gName hName =>
    obtain ⟨exports, _, handles⟩ := Session.global_eq run
    exact inv.reached (sound.exportFile sane exports) handles .refl

/-- Every state of a run of sane commands is sound. -/
theorem Inv.run (inv : Inv s own node) (steps : Steps Session.step Sane s trace s') :
    ∃ own' node', Inv s' own' node' :=
  steps.invariant (fun s => ∃ own node, Inv s own node)
    (fun _ _ _ _ ⟨_, _, inv⟩ sane run => by
      obtain ⟨own', node', after⟩ := inv.step sane run
      exact ⟨own', node', after.inv⟩) ⟨own, node, inv⟩

/-- A mount of a consistent disk does not change it and takes the flag off the cache. -/
theorem Mountable.mount {s s' : Fs} (mountable : Mountable s.vol.disk)
    (run : cnmount s = some (code, s')) :
    (∃ own node, Inv ⟨s', fun _ => none⟩ own node) ∧ s'.vol.disk = s.vol.disk ∧
      fsState s'.vol.superblkCache ≠ VALID_FS := by
  obtain ⟨own, node, holds, isMagic⟩ := mountable
  have unclean := cnmount_unclean isMagic run
  rw [← cnmount_loaded] at run
  obtain ⟨_, _, after, ⟨h, here, opened⟩, disk, _⟩ := holds.mount loaded_synced isMagic run
  refine ⟨⟨own, node, after, fun k d same => ?_⟩, disk, unclean⟩
  cases k with
  | cwd =>
    obtain rfl := Option.some.inj (here.symm.trans same)
    exact opened.shown after.holds
  | held n => cases same

theorem boot_inv {before : Fs} (run : boot before = some s) : Inv s rootOwner rootNodes := by
  obtain ⟨sound, handles, ⟨h, here, opened⟩, _⟩ := boot_sound run
  refine ⟨sound, fun k d same => ?_⟩
  cases k with
  | cwd =>
    obtain rfl := Option.some.inj (here.symm.trans same)
    exact opened.shown sound.holds
  | held n =>
    change s.handles n = some d at same
    rw [handles] at same
    cases same

end
end

section Lp64
attribute [local instance] lp64

/-- A name that is new on a fresh file system can be opened for writing, its handle is current. -/
theorem boot_opensF {before : Fs} {s : Session} (booted : boot before = some s)
    (missing : lookup s.fs.vol.disk 0 [102] = none) (free : Pool.inode.free s.fs.vol ≠ 0) :
    Sane s (.openFile .cwd [102] FD_WRITE) := by
  intro d here
  obtain ⟨sound, _, ⟨h, cwd, opened⟩, _⟩ := boot_sound booted
  obtain rfl := Option.some.inj (cwd.symm.trans here)
  refine ⟨fun e next scanned => ?_, fun _ => ⟨by decide, fun next _ =>
    ⟨by decide, opened.current sound.holds, free⟩⟩⟩
  have named := opened.findName_eq sound.holds scanned
  rw [missing] at named
  cases named

theorem emptyBooted_sane : Sane emptyBooted (.openFile .cwd [102] FD_WRITE) :=
  boot_opensF emptyBooted_eq (by decide +kernel) (by decide +kernel)

/-- The file system with an empty file open for writing on descriptor 0. -/
def fileOpened : Session := emptyBooted.after (.openFile .cwd [102] FD_WRITE)

theorem fileOpened_eq : emptyBooted.step (.openFile .cwd [102] FD_WRITE) =
    some (emptyBooted.reply (.openFile .cwd [102] FD_WRITE), fileOpened) :=
  Session.after_eq (by decide +kernel)

theorem fileOpened_inv : ∃ own node, Inv fileOpened own node := by
  obtain ⟨own, node, after⟩ := (boot_inv emptyBooted_eq).step emptyBooted_sane fileOpened_eq
  exact ⟨own, node, after.inv⟩

theorem mkdirOk_a : MkdirOk emptyBooted.fs [97] where
  text := by decide
  noFiles := fun cwd _ => by
    rw [show strtok [97] = [[97]] by decide]
    exact fun more => absurd rfl more
  left := fun _ _ _ => ⟨by decide +kernel, by decide +kernel⟩

/-- The file system with a directory a. -/
def dirMade : Session := emptyBooted.after (.mkdir [97])

theorem dirMade_eq : emptyBooted.step (.mkdir [97]) = some (emptyBooted.reply (.mkdir [97]), dirMade) :=
  Session.after_eq (by decide +kernel)

theorem dirMade_inv : ∃ own node, Inv dirMade own node := by
  obtain ⟨own, node, after⟩ := (boot_inv emptyBooted_eq).step
    (show Sane emptyBooted (.mkdir [97]) from mkdirOk_a) dirMade_eq
  exact ⟨own, node, after.inv⟩

end Lp64

end CdnwSh
