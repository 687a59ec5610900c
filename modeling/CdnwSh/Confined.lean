import CdnwSh.Growth
import CdnwSh.Directory

/-! What an operation on one inode leaves alone. Growth, inode writes and whole-file
writes are confined to their inode: other inodes, their blocks and every directory
listing stay, and copies of inodes that descriptors hold stay mapped. -/
namespace CdnwSh

open ByteMemory

variable [InodeLayout]

/-- From `v` to `v'` only the inodes in `who` and their blocks changed; `own'` records the
blocks they gained. -/
structure Confined (v : Vol) (own : Owner) (who : Iptr → Prop) (v' : Vol) (own' : Owner) :
    Prop where
  ledger : Ledger v' own'
  extends' : own.Extends own'
  new : ∀ b o, own' b = some o → own b = some o ∨ who o.1
  copies : ∀ j copy, Mapped v.disk own j copy → Mapped v'.disk own' j copy
  disk : ∀ b o, own b = some o → ¬ who o.1 → v'.disk b = v.disk b
  table : ∀ j : Iptr, j.toNat < 6400 → ¬ who j → inodeRead v'.disk j = inodeRead v.disk j
  inodes : ∀ n, bit v.inodeBmCache n = true → bit v'.inodeBmCache n = true
  used : ∀ n, bit v'.blockBmCache n = true →
    bit v.blockBmCache n = true ∨ ∃ b o, b.toNat = n ∧ own' b = some o
  flush : Flushes v v'

section
variable {v v' v'' : Vol} {own own' own'' : Owner} {who : Iptr → Prop} {i : Iptr} {st : Inode}

theorem Confined.refl (ledger : Ledger v own) : Confined v own who v own :=
  ⟨ledger, .refl own, fun _ _ found => .inl found, fun _ _ held => held, fun _ _ _ _ => rfl,
    fun _ _ _ => rfl, fun _ h => h, fun _ h => .inl h, .refl v⟩

theorem Confined.trans (first : Confined v own who v' own')
    (second : Confined v' own' who v'' own'') : Confined v own who v'' own'' where
  ledger := second.ledger
  extends' := first.extends'.trans second.extends'
  new := fun b o found => by
    rcases second.new b o found with found | same
    · exact first.new b o found
    · exact .inr same
  copies := fun j copy held => second.copies j copy (first.copies j copy held)
  disk := fun b o found apart =>
    (second.disk b o (first.extends' b o found) apart).trans (first.disk b o found apart)
  table := fun j bound apart => (second.table j bound apart).trans (first.table j bound apart)
  inodes := fun n h => second.inodes n (first.inodes n h)
  used := fun n h => by
    rcases second.used n h with h | new
    · rcases first.used n h with h | ⟨b, o, same, found⟩
      · exact .inl h
      · exact .inr ⟨b, o, same, second.extends' b o found⟩
    · exact .inr new
  flush := first.flush.trans second.flush

theorem Confined.mono (confined : Confined v own who v' own') (wider : ∀ j, who j → who' j) :
    Confined v own who' v' own' :=
  { confined with
    new := fun b o found => (confined.new b o found).imp_right (wider _)
    disk := fun b o found apart => confined.disk b o found fun h => apart (wider _ h)
    table := fun j bound apart => confined.table j bound fun h => apart (wider _ h) }

omit [InodeLayout] in
theorem Ledger.withDisk (ledger : Ledger v own) : Ledger { v with disk := d } own :=
  ⟨fun p => by cases p; exacts [ledger.agrees .inode, ledger.agrees .block], ledger.metadata,
    ledger.owned⟩

/-- Growing the block map of `i`. -/
theorem Grown.confined (grow : Growable v st need) (grown : Grown v st need v' st')
    (ledger : Ledger v own) (mapped : Mapped v.disk own i st) :
    Confined v own (· = i) v' (own.grown i (freeList .block v) st need) ∧
      Mapped v'.disk (own.grown i (freeList .block v) st need) i st' := by
  obtain ⟨kept, mine⟩ := grown.ledger grow ledger mapped
  refine ⟨?_, mine⟩
  have inodeBm : v'.inodeBmCache = v.inodeBmCache := (grown.took.others .inode (by decide)).2
  refine ⟨kept.ledger, kept.extends', fun b o found => ?_, kept.copies, fun b o found apart => ?_,
    fun j bound _ => inodeRead_congr bound kept.table, fun n h => by rw [inodeBm]; exact h,
    fun n used => ?_, grown.flush⟩
  · rcases kept.new b o found with old | new
    · exact .inl old
    · exact .inr new.1
  · exact kept.disk b o found (by rintro rfl; exact apart rfl)
  · have bits := grown.took.bits .block n
    rw [show bit (Pool.block.cache v') n = true from used] at bits
    rcases (Bool.or_eq_true _ _).mp bits.symm with old | new
    · exact .inl old
    · obtain ⟨b, member, same⟩ := List.mem_map.mp (of_decide_eq_true new).2
      obtain ⟨o, found⟩ := grown_owned member (i := i)
      exact .inr ⟨b, o, same, found⟩

/-- A disk that differs in `i`'s table slot and data blocks only. -/
theorem Ledger.confined (ledger : Ledger v own)
    (disk : ∀ b : UInt32, b.toNat < 3 ∨ 103 ≤ b.toNat → (∀ k, own b ≠ some (i, .data k)) → d b = v.disk b)
    (table : ∀ j : Iptr, j.toNat < 6400 → j ≠ i → inodeRead d j = inodeRead v.disk j) :
    Confined v own (· = i) { v with disk := d } own where
  ledger := ledger.withDisk
  extends' := .refl own
  new := fun _ _ found => .inl found
  copies := fun j copy held => held.frame fun many => by
    have owner := held.single (held.indirect many)
    exact (disk _ (.inr (ledger.owned _ _ owner).1) (by simp [owner])).symm
  disk := fun b o found apart => disk b (.inr (ledger.owned b o found).1) (by
    intro k same
    rw [found, Option.some.injEq] at same
    exact apart (by rw [same]))
  table := table
  inodes := fun _ h => h
  used := fun _ h => .inl h
  flush := .withDisk fun b low => disk b (.inl low) fun k found => by
    have := (ledger.owned _ _ found).1
    omega

theorem inodeWrite_confined (ledger : Ledger v own) (bound : i.toNat < 6400)
    (written : inodeWrite v.disk i st = some d) :
    Confined v own (· = i) { v with disk := d } own ∧ inodeRead d i = some st := by
  obtain ⟨_, back, others, outside⟩ := inodeWrite_spec bound written
  exact ⟨ledger.confined (fun b apart _ => outside b apart) others, back⟩

theorem scatter_confined (ledger : Ledger v own) (mapped : Mapped v.disk own i st) :
    Confined v own (· = i) { v with disk := Extents.scatter v.disk (blockList v.disk st) array k } own ∧
    ∀ j : Iptr, j.toNat < 6400 →
      inodeRead (Extents.scatter v.disk (blockList v.disk st) array k) j = inodeRead v.disk j := by
  have outside (b : UInt32) (apart : ∀ k, own b ≠ some (i, .data k)) :
      Extents.scatter v.disk (blockList v.disk st) array k b = v.disk b :=
    Extents.scatter_out fun member => by
      obtain ⟨k, found⟩ := mapped.mem member
      exact apart k found
  have table (j : Iptr) (bound : j.toNat < 6400) :
      inodeRead (Extents.scatter v.disk (blockList v.disk st) array k) j = inodeRead v.disk j := by
    refine inodeRead_congr bound fun b _ high => outside b fun k found => ?_
    have := (ledger.owned _ _ found).1
    omega
  exact ⟨ledger.confined (fun b _ apart => outside b apart) fun j bound _ => table j bound, table⟩

/-- A directory whose inode and blocks did not change is opened as before. -/
theorem inflatedir_congr (ledger : Ledger v own) (read : inodeRead v.disk j = some st)
    (mapped : Mapped v.disk own j st) (same : inodeRead d j = inodeRead v.disk j)
    (blocks : ∀ b o, own b = some o → o.1 = j → d b = v.disk b) :
    inflatedir d j = inflatedir v.disk j := by
  have inside := mapped.inside ledger
  have list : blockList d st = blockList v.disk st := blockList_congr fun many =>
    blocks _ _ (mapped.single (mapped.indirect many)) rfl
  have inside' : Inside d st := ⟨inside.few, list ▸ inside.blocks, inside.single⟩
  have content : Extents.gather 0 d (blockList d st) =
      Extents.gather 0 v.disk (blockList v.disk st) := by
    rw [list]
    refine Extents.gather_congr fun b member => ?_
    obtain ⟨k, found⟩ := mapped.mem member
    exact blocks b _ found rfl
  rw [inflatedir, inflatedir, same, read]
  simp only [Option.bind_eq_bind, Option.bind_some]
  rw [llread_eq inside, llread_eq inside', content]

theorem Confined.inflatedir_eq (confined : Confined v own who v' own') (ledger : Ledger v own)
    (bound : j.toNat < 6400) (apart : ¬ who j) (read : inodeRead v.disk j = some st)
    (mapped : Mapped v.disk own j st) : inflatedir v'.disk j = inflatedir v.disk j :=
  inflatedir_congr ledger read mapped (confined.table j bound apart) fun b o found owner =>
    confined.disk b o found (owner ▸ apart)

end
end CdnwSh
