import CdnwSh.Machine

/-! Blocks 0, 1 and 2 and the inode of the root directory over runs of sane commands: the
blocks change to their caches only, so the magic number stays, and inode 0 stays the root
directory. -/
namespace CdnwSh

open PartialRun

section
variable [InodeLayout]

/-- A sane command of a mounted file system. -/
def FileWork (s : Session) (op : Op) : Prop := Sane s op ∧ op ≠ .mount ∧ op ≠ .umount

/-- Blocks 0, 1 and 2 are what they were or what their caches are. -/
structure MetadataKept (v v' : Vol) : Prop where
  superblk : v'.disk 0 = v.disk 0 ∨ v'.disk 0 = v'.superblkCache
  blockBm : v'.disk 1 = v.disk 1 ∨ v'.disk 1 = v'.blockBmCache
  inodeBm : v'.disk 2 = v.disk 2 ∨ v'.disk 2 = v'.inodeBmCache

def RootSafe (d : Disk) : Prop :=
  magic (d 0) = FS_MAGIC ∧
    ∃ st, inodeRead d 0 = some st ∧ st.type = ITYPE_DIR ∧ st.block0 = 103

theorem Sound.rootSafe {s : Fs} (sound : Sound s own node) : RootSafe s.vol.disk := by
  have superblk : SameSuperblk s.vol.superblkCache (s.vol.disk 0) := sound.synced.superblk
  refine ⟨Eq.trans (superblk.field (.inl (by decide)) (by decide)) sound.magic, ?_⟩
  obtain ⟨st, read, place⟩ := sound.holds.root
  obtain ⟨es, top⟩ := sound.holds.tree.root_dir
  obtain ⟨st', dir⟩ := sound.holds.dirs 0 0 es top
  obtain rfl := Option.some.inj (read.symm.trans dir.read)
  exact ⟨st, read, dir.type, place⟩

omit [InodeLayout] in
theorem Next.metadata (next : Next v own node v' own' node') (synced : v.Synced) :
    MetadataKept v v' := by
  have after := next.flush.synced synced
  refine ⟨?_, .inr after.blockBm, .inr after.inodeBm⟩
  rcases next.flush.written with ⟨_, same⟩ | cache
  · exact .inl same
  · exact .inr cache

/-- In every run of sane commands on a new file system: block 0 has the magic number, inode 0
is the root directory, and every command changes blocks 0, 1 and 2 to their caches only. -/
theorem metadata_safety {before : Fs} {s s' : Session} (booted : boot before = some s)
    (steps : Steps Session.step FileWork s trace s') :
    RootSafe s'.fs.vol.disk ∧ ∀ first op r rest, trace = first ++ (op, r) :: rest → ∃ m m',
      Steps Session.step FileWork s first m ∧ m.step op = some (r, m') ∧
      MetadataKept m.fs.vol m'.fs.vol := by
  have start := boot_inv booted
  obtain ⟨own, node, last⟩ := start.run (steps.mono fun _ _ work => work.1)
  refine ⟨last.sound.rootSafe, ?_⟩
  rintro first op r rest rfl
  obtain ⟨m, sofar, others⟩ := steps.split
  obtain ⟨own₁, node₁, inv⟩ := start.run (sofar.mono fun _ _ work => work.1)
  cases others with
  | @cons _ _ _ m' _ _ work moved _ =>
    obtain ⟨sane, mounts, unmounts⟩ := work
    obtain ⟨own₂, node₂, after⟩ := inv.step sane moved
    exact ⟨m, m', sofar, moved, (after.next mounts unmounts).metadata inv.sound.synced⟩

end

section Lp64
attribute [local instance] lp64

theorem metadata_safety_mkdir : RootSafe dirMade.fs.vol.disk :=
  (metadata_safety emptyBooted_eq (.single
    (show FileWork emptyBooted (.mkdir [97]) from ⟨mkdirOk_a, by simp, by simp⟩) dirMade_eq)).1

def neverOpened : Session := emptyBooted.after (.seek 0 1)

theorem neverOpened_run : (emptyBooted.step (.seek 0 1)).isSome ∧
    (inodeRead neverOpened.fs.vol.disk 0).map (·.type) = some ITYPE_FILE := by decide +kernel

/-- It makes inode 0 a regular file. -/
theorem metadata_safety_seek : boot emptyStart = some emptyBooted ∧
    ∃ trace s', Steps Session.step (fun _ _ => True) emptyBooted trace s' ∧
      ¬ RootSafe s'.fs.vol.disk := by
  obtain ⟨defined, type⟩ := neverOpened_run
  refine ⟨emptyBooted_eq, _, neverOpened, .single trivial (Session.after_eq defined), ?_⟩
  rintro ⟨_, st, read, isDir, _⟩
  rw [read] at type
  exact absurd (isDir.symm.trans (Option.some.inj type)) (by decide)

end Lp64

end CdnwSh
