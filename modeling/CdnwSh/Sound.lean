import CdnwSh.Remove

/-! The invariant of a mounted file system: the volume holds a tree, the caches are on
disk, `cwd` is a directory of the tree, and every open descriptor has a copy of a
regular file's inode, possibly an old one. `Next` is what every operation respects. -/
namespace CdnwSh

open ByteMemory RecordList

variable [InodeLayout]

/-- A descriptor's copy of a regular file: its blocks are the file's and its cache covers
them. Copies of one file in several descriptors may differ. -/
structure Copy (v : Vol) (own : Owner) (fde : FdEntry) : Prop where
  type : fde.inode.type = ITYPE_FILE
  mapped : Mapped v.disk own fde.inodeId fde.inode
  blocks : fde.inode.blocks.toNat = blocksFor fde.inode.size.toNat
  cache : (dataBuf fde.data).size = 4096 * fde.inode.blocks.toNat

/-- Regular files stay regular files and copies of them keep their blocks. -/
structure Next (v : Vol) (own : Owner) (node : Nodes) (v' : Vol) (own' : Owner) (node' : Nodes) :
    Prop where
  files : ∀ j, node j = some .file → node' j = some .file
  copies : ∀ j st, node j = some .file → Mapped v.disk own j st → Mapped v'.disk own' j st
  flush : Flushes v v'

structure Sound (s : Fs) (own : Owner) (node : Nodes) : Prop where
  holds : Holds s.vol own node
  synced : s.vol.Synced
  magic : magic s.vol.superblkCache = FS_MAGIC
  home : ∀ dir, s.cwd = some dir → ∃ p es, node dir.inodeId = some (.dir p es)
  copies : ∀ n, (s.fdTbl n).state ≠ FD_FREE →
    node (s.fdTbl n).inodeId = some .file ∧ Copy s.vol own (s.fdTbl n)

section
variable {s s' : Fs} {v v' v'' : Vol} {own own' own'' : Owner} {node node' node'' : Nodes}
  {i p : Iptr} {es : List DirEntry} {e : DirEntry} {fde : FdEntry}

omit [InodeLayout] in
theorem Next.refl : Next v own node v own node := ⟨fun _ h => h, fun _ _ _ h => h, .refl v⟩

omit [InodeLayout] in
theorem Next.trans (first : Next v own node v' own' node')
    (second : Next v' own' node' v'' own'' node'') : Next v own node v'' own'' node'' where
  files := fun j h => second.files j (first.files j h)
  copies := fun j st h mapped => second.copies j st (first.files j h) (first.copies j st h mapped)
  flush := first.flush.trans second.flush

theorem Confined.next (confined : Confined v own who v' own') : Next v own node v' own' node :=
  ⟨fun _ h => h, fun _ _ _ mapped => confined.copies _ _ mapped, confined.flush⟩

theorem Entered.next (entered : Entered v own node i p es e v' own') (holds : Holds v own node) :
    Next v own node v' own' (NameTree.insert scheme node i p es e (newNode i e)) := by
  refine ⟨fun j file => ?_, fun _ _ _ mapped => entered.confined.copies _ _ mapped,
    entered.confined.flush⟩
  have new : j ≠ e.inode := by
    rintro rfl
    rw [(holds.unowned entered.fresh).2.1] at file
    cases file
  have here : j ≠ i := by
    rintro rfl
    rw [entered.found] at file
    cases file
  exact (NameTree.insert_other (S := scheme) new here).trans file

theorem Removed.next (removed : Removed s own node path i p es e ptr v') (ledger : Ledger s.vol own) :
    Next s.vol own node v' (own.drop ptr) (NameTree.erase scheme node i p es e) := by
  have gone {j : Iptr} (file : node j = some .file) : j ≠ e.inode := by
    rintro rfl
    rw [removed.empty] at file
    cases file
  refine ⟨fun j file => ?_, fun j st file mapped => ?_, ?_⟩
  · have here : j ≠ i := by
      rintro rfl
      rw [removed.found] at file
      cases file
    exact (NameTree.erase_other (S := scheme) (gone file) here).trans file
  · exact removed.confined.copies _ _ (mapped.released ledger removed.owner (gone file))
  · exact (given_flushes.trans given_flushes).trans removed.confined.flush

omit [InodeLayout] in
theorem Copy.next (copy : Copy v own fde) (next : Next v own node v' own' node')
    (file : node fde.inodeId = some .file) : Copy v' own' fde :=
  ⟨copy.type, next.copies _ _ file copy.mapped, copy.blocks, copy.cache⟩

omit [InodeLayout] in
/-- The fields behind the counters stay. -/
theorem Flushes.field (flush : Flushes v v') (behind : 1040 ≤ off) (bound : off + n ≤ 4096) :
    getField v'.superblkCache off n = getField v.superblkCache off n := by
  refine readLE_congr fun k low high => ?_
  have inside : k < 4096 := by omega
  rw [Block.mem_apply _ inside, Block.mem_apply _ inside]
  exact flush.superblk ⟨k, inside⟩ (.inr (behind.trans low))

omit [InodeLayout] in
theorem Flushes.magic (flush : Flushes v v') : magic v'.superblkCache = magic v.superblkCache :=
  flush.field (by decide) (by decide)

/-- An operation that keeps the tree and respects `Next` keeps the invariant. -/
theorem Sound.next (sound : Sound s own node) (holds : Holds s'.vol own' node')
    (next : Next s.vol own node s'.vol own' node')
    (home : ∀ dir, s'.cwd = some dir → ∃ p es, node' dir.inodeId = some (.dir p es))
    (copies : ∀ n, (s'.fdTbl n).state ≠ FD_FREE → s'.fdTbl n = s.fdTbl n ∨
      node' (s'.fdTbl n).inodeId = some .file ∧ Copy s'.vol own' (s'.fdTbl n)) :
    Sound s' own' node' := by
  refine ⟨holds, next.flush.synced sound.synced, next.flush.magic.trans sound.magic, home,
    fun n used => ?_⟩
  rcases copies n used with same | new
  · rw [same] at used ⊢
    obtain ⟨file, copy⟩ := sound.copies n used
    exact ⟨next.files _ file, copy.next next file⟩
  · exact new

theorem Entered.grown (entered : Entered v own node i p es e v' own') (holds : Holds v own node) :
    NameTree.Grown node (NameTree.insert scheme node i p es e (newNode i e)) :=
  NameTree.insert_grown entered.found (holds.unowned entered.fresh).2.1

theorem Removed.dirs (removed : Removed s own node path i p es e ptr v')
    (found : node j = some (.dir q fs)) (apart : j ≠ e.inode) :
    ∃ fs', NameTree.erase scheme node i p es e j = some (.dir q fs') := by
  by_cases here : j = i
  · subst here
    rw [removed.found] at found
    cases found
    exact ⟨_, NameTree.erase_parent (S := scheme) apart⟩
  · exact ⟨fs, (NameTree.erase_other (S := scheme) apart here).trans found⟩

end
end CdnwSh
