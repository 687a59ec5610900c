import CdnwSh.FileArray

/-! Descriptors on distinct files do not disturb each other: in any interleaving every file
ends as it does when its calls run alone, and directories stay as they were. -/
namespace CdnwSh

open ByteMemory RecordList PartialRun

section
variable [InodeLayout]

/-- What a file shows: its size and bytes in the descriptor and its bytes on disk. -/
structure SameFile (s s' : Fs) (fd : Nat) : Prop where
  size : (s.fdTbl fd).inode.size = (s'.fdTbl fd).inode.size
  cached : cachedBytes (s.fdTbl fd) = cachedBytes (s'.fdTbl fd)
  onDisk : inodeRead s.vol.disk (s.fdTbl fd).inodeId = some (s.fdTbl fd).inode ∧
    inodeRead s'.vol.disk (s'.fdTbl fd).inodeId = some (s'.fdTbl fd).inode
  stored : contentOf s.vol.disk (s.fdTbl fd).inodeId = contentOf s'.vol.disk (s'.fdTbl fd).inodeId

variable {s s' : Fs} {own own' : Owner} {fd : Nat} {fds : Finset Nat} {m : Nat → CursorArray UInt8}

theorem OpenFile.same {a : CursorArray UInt8} (one : OpenFile s own fd a)
    (two : OpenFile s' own' fd a) (ledger : Ledger s.vol own) (ledger' : Ledger s'.vol own') :
    SameFile s s' fd where
  size := UInt32.toNat_inj.mp (one.length.symm.trans two.length)
  cached := one.cached.trans two.cached.symm
  onDisk := ⟨one.onDisk, two.onDisk⟩
  stored := (one.contentOf_eq ledger).trans (two.contentOf_eq ledger').symm

theorem OpenFiles.one (files : OpenFiles s own fds m) (acting : fd ∈ fds) :
    OpenFiles s own {fd} m := by
  refine ⟨files.ledger, fun k member => ?_, fun k member l member' _ => ?_⟩
  · rw [Finset.mem_singleton.mp member]
    exact files.opened fd acting
  · rw [Finset.mem_singleton.mp member, Finset.mem_singleton.mp member']

omit [InodeLayout] in
theorem Enough.one (enough : Enough s fds size) (acting : fd ∈ fds) : Enough s {fd} size := by
  refine ⟨fun k member => ?_, ?_⟩
  · rw [Finset.mem_singleton.mp member]
    exact enough.room fd acting
  · rw [Finset.sum_singleton]
    exact (Finset.single_le_sum (f := fun fd => demand (s.fdTbl fd).inode (size fd))
      (fun _ _ => Nat.zero_le _) acting).trans enough.total

omit [InodeLayout] in
theorem Enough.congr (enough : Enough s fds size) (same : ∀ fd ∈ fds, size' fd = size fd) :
    Enough s fds size' := by
  refine ⟨fun k member => ?_, ?_⟩
  · rw [same k member]
    exact enough.room k member
  · refine Nat.le_trans (Nat.le_of_eq (Finset.sum_congr rfl fun k member => ?_)) enough.total
    rw [same k member]

/-- Every interleaving of calls on distinct files, each with its own descriptor, succeeds
while the blocks suffice; each file ends as its own calls leave it when they run alone, and
every directory is read as before. -/
theorem non_interference (consistent : Consistent s.vol) (opened : ∀ fd ∈ fds, WriteOpen s fd (m fd))
    (distinct : ∀ fd ∈ fds, ∀ other ∈ fds,
      (s.fdTbl fd).inodeId = (s.fdTbl other).inodeId → fd = other)
    (trace : List (Nat × FileCmd)) (acting : ∀ x ∈ trace, x.1 ∈ fds)
    (allowed : ∀ fd ∈ fds, AllowedRun (m fd) (ownCmds fd trace))
    (enough : Enough s fds fun fd => (arrayRun (m fd) (ownCmds fd trace)).content.length) :
    ∃ s', PartialRun.run exec s trace = some (trace.map fun x => x.2.reply, s') ∧
      (∀ fd ∈ fds, ∃ alone, PartialRun.run exec s ((ownCmds fd trace).map fun c => (fd, c)) =
          some ((ownCmds fd trace).map FileCmd.reply, alone) ∧ SameFile s' alone fd) ∧
      ∀ j dir, ReadsDir s.vol j dir → ReadsDir s'.vol j dir ∧
        listing s'.vol.disk j = listing s.vol.disk j := by
  obtain ⟨own, consistent⟩ := consistent
  have files : OpenFiles s own fds m :=
    ⟨consistent.ledger, fun fd member => (opened fd member).openFile consistent, distinct⟩
  obtain ⟨s', own', run, files', confined, _, _⟩ := files.run trace acting allowed enough
  refine ⟨s', run, fun fd member => ?_, fun j dir reads => ?_⟩
  · have own_eq : ownCmds fd ((ownCmds fd trace).map fun c => (fd, c)) = ownCmds fd trace :=
      ownCmds_map
    obtain ⟨alone, own₁, run₁, files₁, _, _, _⟩ := (files.one member).run
      ((ownCmds fd trace).map fun c => (fd, c))
      (fun x inside => by
        obtain ⟨c, _, rfl⟩ := List.mem_map.mp inside
        exact Finset.mem_singleton_self fd)
      (fun k inside => by
        rw [Finset.mem_singleton.mp inside, own_eq]
        exact allowed fd member)
      ((enough.one member).congr fun k inside => by
        rw [Finset.mem_singleton.mp inside, own_eq])
    refine ⟨alone, by rw [run₁, List.map_map]; rfl, ?_⟩
    have after := files₁.opened fd (Finset.mem_singleton_self fd)
    rw [own_eq] at after
    exact (files'.opened fd member).same after files'.ledger files₁.ledger
  · have after := reads.confined consistent confined fun i mine => by
      obtain ⟨k, member, rfl⟩ := mine
      exact ⟨_, (opened k member).onDisk, (opened k member).type⟩
    exact ⟨after, by rw [listing, listing, after.read, reads.read]⟩

end

section Lp64
attribute [local instance] lp64

/-- File f is opened for writing on a fresh file system. -/
def openF : Option (Int × DirPtr × Fs) := do cnopen (← emptyBooted.fs.cwd) [102] FD_WRITE emptyBooted.fs

theorem openF_code : openF.map (·.1) = some 0 := by decide +kernel

theorem openF_missing : (emptyBooted.fs.cwd.bind fun h => cnstat h [102]).map Prod.fst =
    some none := by decide +kernel

theorem openG_code : (openF.bind fun x => cnopen x.2.1 [103] FD_WRITE x.2.2).map (·.1) = some 1 := by
  decide +kernel

theorem openG_missing : (openF.bind fun x => cnstat x.2.1 [103]).map Prod.fst = some none := by
  decide +kernel

theorem openG_free : (openF.map fun x => decide (Pool.inode.free x.2.2.vol ≠ 0 ∧
    10 ≤ Pool.block.free x.2.2.vol)) = some true := by decide +kernel

theorem demand_new {t : UInt64} : demand (newInode ITYPE_FILE t) 2 = 1 := rfl

theorem files_opened : ∃ s : Fs, Consistent s.vol ∧ WriteOpen s 0 ⟨[], 0⟩ ∧ WriteOpen s 1 ⟨[], 0⟩ ∧
    (s.fdTbl 0).inodeId ≠ (s.fdTbl 1).inodeId ∧
    demand (s.fdTbl 0).inode 2 + demand (s.fdTbl 1).inode 2 ≤ Pool.block.free s.vol := by
  have inv := boot_inv emptyBooted_eq
  obtain ⟨⟨r₁, h₁, s₁⟩, first, code⟩ := Option.map_eq_some_iff.mp openF_code
  have opened := first
  unfold openF at opened
  obtain ⟨h, here, opens⟩ := Option.bind_eq_some_iff.mp opened
  have missing := openF_missing
  have missing' := openG_missing
  have free := openG_free
  obtain ⟨⟨r₂, h₂, s₂⟩, second, code'⟩ := Option.map_eq_some_iff.mp openG_code
  rw [here] at missing
  rw [first] at missing' second free
  obtain ⟨⟨_, _⟩, stat, rfl⟩ := Option.map_eq_some_iff.mp missing
  obtain ⟨⟨_, _⟩, stat', rfl⟩ := Option.map_eq_some_iff.mp missing'
  simp only [Option.bind_some, Option.map_some, Option.some.injEq, decide_eq_true_eq]
    at stat stat' second free
  dsimp only at code code'
  rcases inv.sound.openNew (inv.shown .cwd h here) (emptyBooted_sane h here) stat opens with
    failed | ⟨n, own₁, node₁, same, one⟩
  · omega
  obtain rfl : n = 0 := by omega
  have openOk : OpenOk s₁ h₁ [103] FD_WRITE := by
    refine ⟨fun e rest scanned => ?_, fun _ => ⟨by decide, fun _ _ => ⟨by decide, one.current, free.1⟩⟩⟩
    rw [cnstat, scanned] at stat'
    cases stat'
  rcases one.sound.openNew one.shown openOk stat' second with failed | ⟨n, own₂, node₂, same', two⟩
  · omega
  obtain rfl : n = 1 := by omega
  obtain ⟨who, confined, apart⟩ := two.confined
  have file := (one.sound.copies 0 (by rw [one.opened.mode]; decide)).1
  have kept : s₂.fdTbl 0 = s₁.fdTbl 0 := two.others 0 (by decide)
  refine ⟨s₂, ⟨own₂, two.sound.holds.consistent⟩,
    one.opened.frame one.sound.holds.consistent confined (apart _ file) kept, two.opened, ?_, ?_⟩
  · intro shared
    have fresh := two.fresh
    rw [← shared, kept, file] at fresh
    cases fresh
  · obtain ⟨t, inode⟩ := one.inode
    obtain ⟨t', inode'⟩ := two.inode
    rw [kept, inode, inode', demand_new, demand_new,
      ← length_freeList (two.sound.holds.ledger.agrees .block), two.free,
      length_freeList (one.sound.holds.ledger.agrees .block)]
    omega

/-- Two files are written in turns. -/
theorem non_interference_two : ∃ s s' alone : Fs, (s.fdTbl 0).inodeId ≠ (s.fdTbl 1).inodeId ∧
    PartialRun.run exec s [(0, .write [1]), (1, .write [2, 3]), (0, .write [4])] =
      some ([1, 2, 1], s') ∧
    PartialRun.run exec s [(0, .write [1]), (0, .write [4])] = some ([1, 1], alone) ∧
    SameFile s' alone 0 := by
  obtain ⟨s, consistent, first, second, apart, enough⟩ := files_opened
  have both (fd : Nat) (member : fd ∈ ({0, 1} : Finset Nat)) : fd = 0 ∨ fd = 1 := by
    simpa using member
  obtain ⟨s', run, files, _⟩ := non_interference (s := s) (m := fun _ => ⟨[], 0⟩)
    consistent
    (fun fd member => by
      rcases both fd member with rfl | rfl
      · exact first
      · exact second)
    (fun fd member other member' shared => by
      rcases both fd member with rfl | rfl <;> rcases both other member' with rfl | rfl
      · rfl
      · exact absurd shared apart
      · exact absurd shared.symm apart
      · rfl)
    [(0, .write [1]), (1, .write [2, 3]), (0, .write [4])] (by decide) (by decide)
    ⟨by decide, by
      rw [Finset.sum_pair (by decide)]
      exact enough⟩
  obtain ⟨alone, runAlone, same⟩ := files 0 (by decide)
  exact ⟨s, s', alone, apart, run, runAlone, same⟩

end Lp64

end CdnwSh
