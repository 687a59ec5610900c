import CdnwSh.CreateMany
import CdnwSh.RmdirExact

/-! A list of directories is made in the current directory and removed again, in any order:
the current directory, the bitmaps and everything else are what they were. -/
namespace CdnwSh

open ByteMemory RecordList PartialRun

/-- The bitmap `blk` is `blk₀` with these ids, which were clear, each once. -/
structure TakenIds (blk₀ : Block) (ids : List Nat) (blk : Block) : Prop where
  nodup : ids.Nodup
  clear : ∀ n ∈ ids, bit blk₀ n = false
  bits : ∀ n, bit blk n = (bit blk₀ n || decide (n ∈ ids))

section
variable {blk₀ blk blk' : Block} {ids front back : List Nat}

theorem TakenIds.refl : TakenIds blk [] blk := ⟨.nil, by simp, by simp⟩

theorem TakenIds.take (taken : TakenIds blk₀ ids blk) (clear : bit blk n = false)
    (bits : ∀ m, bit blk' m = (bit blk m || decide (m = n))) : TakenIds blk₀ (ids ++ [n]) blk' := by
  have before := clear
  rw [taken.bits, Bool.or_eq_false_iff, decide_eq_false_iff_not] at before
  refine ⟨?_, fun m member => ?_, fun m => ?_⟩
  · rw [List.nodup_append]
    refine ⟨taken.nodup, List.nodup_singleton n, fun m member k single => ?_⟩
    rw [List.mem_singleton.mp single]
    rintro rfl
    exact before.2 member
  · rcases List.mem_append.mp member with old | new
    · exact taken.clear m old
    · rw [List.mem_singleton.mp new]
      exact before.1
  · rw [bits, taken.bits, Bool.or_assoc]
    simp

theorem TakenIds.give (taken : TakenIds blk₀ (front ++ n :: back) blk)
    (bits : ∀ m, bit blk' m = (bit blk m && decide (m ≠ n))) : TakenIds blk₀ (front ++ back) blk' := by
  have split := taken.nodup
  rw [List.nodup_middle, List.nodup_cons] at split
  refine ⟨split.2, fun m member => taken.clear m ?_, fun m => ?_⟩
  · rw [List.mem_append, List.mem_cons]
    exact (List.mem_append.mp member).imp_right .inr
  · rw [bits, taken.bits]
    by_cases here : m = n
    · subst here
      have clear := taken.clear m (by simp)
      simp [clear, split.1]
    · simp [here]

theorem block_ext (bits : ∀ n, bit blk n = bit blk' n) : blk = blk' := by
  funext i
  have bound := i.isLt
  apply UInt8.toNat_inj.mp
  apply Nat.eq_of_testBit_eq
  intro k
  by_cases low : k < 8
  · have same := bits (i.val * 8 + k)
    rw [bit, bit, show (i.val * 8 + k) / 8 = i.val by omega, show (i.val * 8 + k) % 8 = k by omega,
      Block.mem_apply _ bound, Block.mem_apply _ bound] at same
    exact same
  · have wide : 2 ^ 8 ≤ 2 ^ k := Nat.pow_le_pow_right (by decide) (Nat.le_of_not_lt low)
    rw [Nat.testBit_lt_two_pow (Nat.lt_of_lt_of_le (blk i).toNat_lt wide),
      Nat.testBit_lt_two_pow (Nat.lt_of_lt_of_le (blk' i).toNat_lt wide)]

theorem TakenIds.none (taken : TakenIds blk₀ [] blk) : blk = blk₀ :=
  block_ext fun n => by rw [taken.bits]; simp

end

section
variable [InodeLayout]

/-- Size and entries of directory `i`, the bitmaps, the counters, and all other inodes in use
with their entries. -/
structure Restored (v : Vol) (i : Iptr) (v' : Vol) : Prop where
  size : (inodeRead v'.disk i).map Inode.size = (inodeRead v.disk i).map Inode.size
  entries : listing v'.disk i = listing v.disk i
  bitmaps : ∀ p : Pool, p.cache v' = p.cache v
  counters : ∀ p : Pool, p.free v' = p.free v
  others : ∀ k : Iptr, bit v.inodeBmCache k.toNat = true → k ≠ i →
    inodeRead v'.disk k = inodeRead v.disk k ∧ listing v'.disk k = listing v.disk k

/-- A directory that was made: its record and its block. -/
abbrev NewDir := DirEntry × UInt32

/-- Between the calls: the directories made and not yet removed stand behind the old entries,
and the ids taken are theirs. -/
structure Between (s₀ : Fs) (cwd : DirPtr) (p : Iptr) (es : List DirEntry) (made : List NewDir)
    (own : Owner) (node : Nodes) (s : Fs) : Prop where
  holds : Holds s.vol own node
  here : s.cwd = some cwd
  found : node cwd.inodeId = some (.dir p (es ++ made.map Prod.fst))
  inodes : TakenIds s₀.vol.inodeBmCache (made.map fun x => x.1.inode.toNat) s.vol.inodeBmCache
  blocks : TakenIds s₀.vol.blockBmCache (made.map fun x => x.2.toNat) s.vol.blockBmCache
  children : ∀ x ∈ made, x.1.fileType = ITYPE_DIR ∧ ∃ st, inodeRead s.vol.disk x.1.inode = some st ∧
    st.size = 24 ∧ st.block0 = x.2
  others : ∀ k : Iptr, bit s₀.vol.inodeBmCache k.toNat = true → k ≠ cwd.inodeId →
    inodeRead s.vol.disk k = inodeRead s₀.vol.disk k ∧ listing s.vol.disk k = listing s₀.vol.disk k

section
variable {s₀ s s' : Fs} {v v' : Vol} {own own' : Owner} {node : Nodes} {cwd : DirPtr} {i j n p q : Iptr}
  {es fs : List DirEntry} {e : DirEntry} {made front back : List NewDir} {x : NewDir}
  {names : List Name}

/-- The new directory stands in the block that was taken for it. -/
theorem Entered.child (entered : Entered v own node j q fs e v' own') (holds : Holds v own node)
    (isDir : e.fileType = ITYPE_DIR) {ptr : UInt32}
    (blockBm : ∀ n, bit v'.blockBmCache n = (bit v.blockBmCache n || decide (n = ptr.toNat))) :
    ∃ st, inodeRead v'.disk e.inode = some st ∧ st.size = 24 ∧ st.block0 = ptr := by
  have target : NameTree.insert scheme node j q fs e (newNode j e) e.inode = some (.dir j []) :=
    insert_newDir isDir
  obtain ⟨st, dir⟩ := entered.holds.dirs _ _ _ target
  refine ⟨st, dir.read, UInt32.toNat_inj.mp dir.size_eq, ?_⟩
  obtain ⟨low, _, used⟩ := entered.holds.ledger.owned _ _ dir.owner
  rw [blockBm] at used
  rcases (Bool.or_eq_true _ _).mp used with old | new
  · exfalso
    rcases holds.exact_blocks _ old with metadata | ⟨b, o, same, owner⟩
    · omega
    · obtain rfl := UInt32.toNat_inj.mp same
      have kept := entered.confined.extends' _ o owner
      rw [dir.owner] at kept
      cases kept
      exact holds.owners _ _ owner (holds.unowned entered.fresh).2.1
  · exact UInt32.toNat_inj.mp (of_decide_eq_true new)

theorem Between.child (between : Between s₀ cwd p es made own node s) (member : x ∈ made) :
    bit s.vol.inodeBmCache x.1.inode.toNat = true ∧ x.1.inode ≠ cwd.inodeId := by
  refine ⟨?_, between.holds.tree.target_ne (.of between.found ?_)⟩
  · rw [between.inodes.bits, Bool.or_eq_true]
    exact .inr (decide_eq_true (List.mem_map_of_mem member))
  · exact List.mem_append_right _ (List.mem_map_of_mem member)

theorem Between.make (between : Between s₀ cwd p es made own node s) (text : 0 ∉ name)
    (single : slash ∉ name) (short : 1 ≤ name.length ∧ name.length ≤ 255)
    (missing : lookup s.vol.disk cwd.inodeId name = none) {ptr : UInt32}
    (inode : freeList .inode s.vol = n :: rest) (block : freeList .block s.vol = ptr :: rest')
    (fits : Fits n) (room : extent (es ++ made.map Prod.fst) + entryLenOf name.length ≤ 4096) :
    ∃ s' e own' node', cnmkdir name s = some (0, s') ∧ e.name = name ∧
      Between s₀ cwd p es (made ++ [(e, ptr)]) own' node' s' ∧
      freeList .inode s'.vol = rest ∧ freeList .block s'.vol = rest' := by
  have holds := between.holds
  have next : NextFits s.vol := fun i head => by
    rw [inode] at head
    cases head
    exact fits
  obtain ⟨s', e, own', run, state, named, isDir, handed, entered, made', inodeBm, blockBm⟩ :=
    holds.mkdir_made next between.here between.found text single short missing inode block
      ((holds.room_iff between.found).mpr room)
  have same : NameTree.insert scheme node cwd.inodeId p (es ++ made.map Prod.fst) e
      (newNode cwd.inodeId e) cwd.inodeId = some (.dir p (es ++ (made ++ [(e, ptr)]).map Prod.fst)) := by
    rw [List.map_append, ← List.append_assoc]
    exact NameTree.insert_parent (S := scheme) (entered.apart holds)
  have used (k : Iptr) (old : bit s₀.vol.inodeBmCache k.toNat = true) :
      bit s.vol.inodeBmCache k.toNat = true := by
    rw [between.inodes.bits, old, Bool.true_or]
  refine ⟨s', e, own', _, run, named, ⟨entered.holds, ?_, same, ?_, ?_, fun x member => ?_,
    fun k old other => ?_⟩, ?_, ?_⟩
  · rw [state]
    exact between.here
  · rw [List.map_append]
    refine between.inodes.take (n := e.inode.toNat) (mem_freeList.mp entered.fresh).2 ?_
    rw [handed]
    exact made'.inodeBm
  · rw [List.map_append]
    exact between.blocks.take made'.freeBlock.2 made'.blockBm
  · rcases List.mem_append.mp member with before | last
    · obtain ⟨kind, st, read, size, block⟩ := between.children x before
      obtain ⟨taken, apart⟩ := between.child before
      exact ⟨kind, st, (made'.others _ taken apart).1.trans read, size, block⟩
    · rw [List.mem_singleton.mp last]
      exact ⟨isDir, entered.child holds isDir made'.blockBm⟩
  · obtain ⟨read, lists⟩ := between.others k old other
    obtain ⟨read', lists', _⟩ := made'.others k (used k old) other
    exact ⟨read'.trans read, lists'.trans lists⟩
  · have cache : Pool.inode.cache s'.vol = Pool.inode.cache (s.vol.taken .inode n) :=
      inodeBm.trans (taken_cache (q := .inode) (p := .inode)).symm
    exact (freeList_congr cache).trans (freeList_taken inode)
  · have cache : Pool.block.cache s'.vol = Pool.block.cache (s.vol.taken .block ptr) :=
      blockBm.trans (taken_cache (q := .block) (p := .block)).symm
    exact (freeList_congr cache).trans (freeList_taken block)

theorem Between.makeAll (between : Between s₀ cwd p es made own node s)
    (texts : ∀ name ∈ names, 0 ∉ name ∧ slash ∉ name ∧ 1 ≤ name.length ∧ name.length ≤ 248)
    (distinct : names.Nodup)
    (absent : ∀ name ∈ names, name ∉ namesOf (records cwd.inodeId p (es ++ made.map Prod.fst)))
    (room : extent (es ++ made.map Prod.fst) + recordBytes names ≤ 4096)
    (inodes : freeList .inode s.vol = ids ++ rest) (blocks : freeList .block s.vol = ptrs ++ rest')
    (enough : ids.length = names.length ∧ ptrs.length = names.length) (table : ∀ n ∈ ids, Fits n) :
    ∃ s' more own' node', PartialRun.run (fun s name => cnmkdir name s) s names =
        some (List.replicate names.length 0, s') ∧
      Between s₀ cwd p es (made ++ more) own' node' s' ∧ namesOf (more.map Prod.fst) = names := by
  induction names generalizing s made own node ids ptrs with
  | nil => exact ⟨s, [], own, node, rfl, by rw [List.append_nil]; exact between, rfl⟩
  | cons name names ih =>
    obtain ⟨text, single, short⟩ := texts name List.mem_cons_self
    obtain ⟨fresh, apart⟩ := List.nodup_cons.mp distinct
    have missing := (between.holds.missing_iff between.found).mpr (absent name List.mem_cons_self)
    rw [recordBytes, List.map_cons, List.sum_cons, ← recordBytes] at room
    cases ids with
    | nil => exact absurd enough.1 (by simp)
    | cons n ids =>
      cases ptrs with
      | nil => exact absurd enough.2 (by simp)
      | cons ptr ptrs =>
        obtain ⟨s₁, e, own₁, node₁, makes, rfl, after, inodes', blocks'⟩ := between.make text single
          ⟨short.1, by omega⟩ missing inodes blocks (table n List.mem_cons_self) (by omega)
        have length : entryLenOf e.name.length = e.entryLen :=
          (after.holds.proper _ e (.of after.found (by simp))).sound.padded.symm
        have grown : es ++ (made ++ [(e, ptr)]).map Prod.fst = es ++ made.map Prod.fst ++ [e] := by simp
        obtain ⟨s', more, own', node', runs, final, named⟩ := ih after
          (fun other member => texts other (List.mem_cons_of_mem _ member)) apart
          (fun other member => by
            rw [grown, namesOf, records, ← List.cons_append, ← List.cons_append, List.map_append,
              List.mem_append]
            rintro (old | new)
            · exact absent other (List.mem_cons_of_mem _ member) old
            · rw [List.mem_singleton.mp new] at member
              exact fresh member)
          (by rw [grown, extent_append, ← length]; omega) inodes' blocks'
          ⟨Nat.succ_inj.mp enough.1, Nat.succ_inj.mp enough.2⟩
          fun m member => table m (List.mem_cons_of_mem _ member)
        refine ⟨s', (e, ptr) :: more, own', node', ?_, ?_, ?_⟩
        · rw [PartialRun.run, makes]
          simp only [Option.bind_eq_bind, Option.bind_some, runs]
          rfl
        · rw [List.append_assoc] at final
          exact final
        · rw [← named]
          rfl

theorem Between.namesEmpty (between : Between s₀ cwd p es (front ++ x :: back) own node s) :
    NamesEmpty s x.1.name cwd.inodeId x.1 := by
  obtain ⟨isDir, st, read, size, _⟩ := between.children x (by simp)
  have member : x.1 ∈ es ++ (front ++ x :: back).map Prod.fst := by simp
  have proper := between.holds.proper _ _ (.of between.found member)
  obtain ⟨nonempty, single⟩ := proper.dirName isDir
  refine ⟨⟨cwd.inodeId, [], ?_, strtok_single nonempty single, rfl, trivial⟩,
    between.holds.lookup_member between.found member, proper.notDot, proper.notDotDot, isDir, st, read, size⟩
  have relative : ¬ x.1.name.head? = some slash := fun head =>
    single (List.mem_of_mem_head? head)
  rw [walkStart, if_neg relative, between.here]
  rfl

theorem Between.remove (between : Between s₀ cwd p es (front ++ x :: back) own node s)
    (short : x.1.name.length ≤ 248) : ∃ s' own' node', cnrmdir x.1.name s = some (0, s') ∧
      Between s₀ cwd p es (front ++ back) own' node' s' := by
  have holds := between.holds
  have names := between.namesEmpty
  have home : ∀ dir, s.cwd = some dir → ∃ q fs, node dir.inodeId = some (.dir q fs) := fun dir same => by
    cases between.here.symm.trans same
    exact ⟨p, _, between.found⟩
  obtain ⟨isDir, st, read, _, block⟩ := between.children x (by simp)
  have member : x.1 ∈ es ++ (front ++ x :: back).map Prod.fst := by simp
  have plain := ((holds.proper _ _ (.of between.found member)).dirName isDir).2
  obtain ⟨⟨code, s'⟩, run⟩ := names.plain_total holds home plain (by omega)
  obtain ⟨rfl, q, fs, ptr, v', rfl, removed⟩ := names.plain_step holds home plain run
  have effect := removed.entryRemoved holds
  cases between.found.symm.trans removed.found
  have inodes : TakenIds s₀.vol.inodeBmCache ((front ++ back).map fun x => x.1.inode.toNat)
      v'.inodeBmCache := by
    have taken := between.inodes
    rw [List.map_append, List.map_cons] at taken
    rw [List.map_append]
    exact taken.give effect.inodeBm
  have blocks : TakenIds s₀.vol.blockBmCache ((front ++ back).map fun x => x.2.toNat) v'.blockBmCache := by
    have taken := between.blocks
    rw [List.map_append, List.map_cons, ← block] at taken
    rw [List.map_append]
    obtain ⟨st', read', _, bits⟩ := effect.blockBm
    obtain rfl := Option.some.inj (read.symm.trans read')
    exact taken.give bits
  have apart : cwd.inodeId ≠ x.1.inode := (holds.tree.target_ne (.of between.found member)).symm
  have after : NameTree.erase scheme node cwd.inodeId p (es ++ (front ++ x :: back).map Prod.fst) x.1
      cwd.inodeId = some (.dir p (es ++ (front ++ back).map Prod.fst)) := by
    have distinct := holds.tree.names _ _ _ between.found
    have middle : es ++ (front ++ x :: back).map Prod.fst =
        (es ++ front.map Prod.fst) ++ x.1 :: back.map Prod.fst := by simp
    rw [middle] at distinct
    rw [NameTree.erase_parent (S := scheme) apart, middle, NameTree.filter_middle distinct,
      List.map_append, List.append_assoc]
  have alone := between.inodes.nodup
  rw [List.map_append, List.map_cons, List.nodup_middle, List.nodup_cons, ← List.map_append] at alone
  refine ⟨_, _, _, run, removed.holds, between.here, after, inodes, blocks, fun y other => ?_,
    fun k old other => ?_⟩
  · have before : y ∈ front ++ x :: back := by
      rw [List.mem_append, List.mem_cons]
      exact (List.mem_append.mp other).imp_right .inr
    obtain ⟨kind, st', read', size, block'⟩ := between.children y before
    obtain ⟨used, outside⟩ := between.child before
    have different : y.1.inode ≠ x.1.inode := fun same => alone.1 (by
      rw [← same]
      exact List.mem_map_of_mem (f := fun x : NewDir => x.1.inode.toNat) other)
    exact ⟨kind, st', (effect.others _ used outside different).1.trans read', size, block'⟩
  · have used : bit s.vol.inodeBmCache k.toNat = true := by
      rw [between.inodes.bits, old, Bool.true_or]
    have different : k ≠ x.1.inode := by
      rintro rfl
      rw [between.inodes.clear _ (by simp)] at old
      cases old
    obtain ⟨read', lists', _⟩ := effect.others k used other different
    obtain ⟨first, lists⟩ := between.others k old other
    exact ⟨read'.trans first, lists'.trans lists⟩

theorem Between.removeAll (between : Between s₀ cwd p es made own node s)
    (perm : names.Perm (namesOf (made.map Prod.fst))) (short : ∀ name ∈ names, name.length ≤ 248) :
    ∃ s' own' node', PartialRun.run (fun s name => cnrmdir name s) s names =
        some (List.replicate names.length 0, s') ∧ Between s₀ cwd p es [] own' node' s' := by
  induction names generalizing s made own node with
  | nil =>
    have none : made = [] := by simpa [namesOf] using perm.symm.eq_nil
    subst none
    exact ⟨s, own, node, rfl, between⟩
  | cons name names ih =>
    obtain ⟨e, listed, rfl⟩ := List.mem_map.mp (perm.mem_iff.mp List.mem_cons_self)
    obtain ⟨x, member, rfl⟩ := List.mem_map.mp listed
    obtain ⟨front, back, rfl⟩ := List.append_of_mem member
    obtain ⟨s₁, own₁, node₁, removes, after⟩ := between.remove (short _ List.mem_cons_self)
    have others : names.Perm (namesOf ((front ++ back).map Prod.fst)) := by
      simp only [namesOf, List.map_append, List.map_cons] at perm ⊢
      exact (List.perm_cons _).mp (perm.trans List.perm_middle)
    obtain ⟨s', own', node', runs, final⟩ := ih after others fun other member =>
      short other (List.mem_cons_of_mem _ member)
    refine ⟨s', own', node', ?_, final⟩
    rw [PartialRun.run, removes]
    simp only [Option.bind_eq_bind, Option.bind_some, runs]
    rfl

theorem Between.restored (between : Between s₀ cwd p es [] own' node' s) (holds : Holds s₀.vol own node)
    (found : node cwd.inodeId = some (.dir p es)) : Restored s₀.vol cwd.inodeId s.vol := by
  have found' := between.found
  rw [List.map_nil, List.append_nil] at found'
  obtain ⟨st, dir⟩ := holds.dirs _ _ _ found
  obtain ⟨st', dir'⟩ := between.holds.dirs _ _ _ found'
  have inodes := between.inodes.none
  have blocks := between.blocks.none
  have bitmaps (q : Pool) : q.cache s.vol = q.cache s₀.vol := by
    cases q
    · exact inodes
    · exact blocks
  refine ⟨?_, ?_, bitmaps, fun q => ?_, between.others⟩
  · rw [dir.read, dir'.read, Option.map_some, Option.map_some, Option.some.injEq]
    exact UInt32.toNat_inj.mp (dir'.size_eq.trans dir.size_eq.symm)
  · rw [dir.listing_eq holds.ledger, dir'.listing_eq between.holds.ledger]
  · rw [between.holds.ledger.agrees q, holds.ledger.agrees q, bitmaps q]

end

/-- On a volume that holds a tree, a list of new single-component names of at most 248 bytes, with
room in the current directory and enough inodes and blocks, is made with `cnmkdir` and removed
with `cnrmdir` in any order: every call returns 0, and in the end the size and the entries of
the current directory, the bitmaps, the counters and everything else are what they were. -/
theorem make_remove {s : Fs} {own : Owner} {node : Nodes} {cwd : DirPtr} {p : Iptr}
    {es : List DirEntry} {names order : List Name} (holds : Holds s.vol own node)
    (here : s.cwd = some cwd) (found : node cwd.inodeId = some (.dir p es)) (distinct : names.Nodup)
    (texts : ∀ name ∈ names, 0 ∉ name ∧ slash ∉ name ∧ 1 ≤ name.length ∧ name.length ≤ 248)
    (absent : ∀ name ∈ names, lookup s.vol.disk cwd.inodeId name = none)
    (room : ∀ st, inodeRead s.vol.disk cwd.inodeId = some st →
      st.size.toNat + recordBytes names ≤ 4096 * st.blocks.toNat)
    (inodes : names.length ≤ Pool.inode.free s.vol) (blocks : names.length ≤ Pool.block.free s.vol)
    (table : ∀ n ∈ (freeList .inode s.vol).take names.length, Fits n) (perm : order.Perm names) :
    ∃ s₁ s₂, PartialRun.run (fun s name => cnmkdir name s) s names =
        some (List.replicate names.length 0, s₁) ∧
      PartialRun.run (fun s name => cnrmdir name s) s₁ order =
        some (List.replicate order.length 0, s₂) ∧ Restored s.vol cwd.inodeId s₂.vol := by
  obtain ⟨st, dir⟩ := holds.dirs _ _ _ found
  have space := room st dir.read
  rw [dir.size_eq, dir.blocks] at space
  have start : Between s cwd p es [] own node s :=
    ⟨holds, here, by rw [List.map_nil, List.append_nil]; exact found, .refl, .refl,
      fun x member => (by cases member), fun _ _ _ => ⟨rfl, rfl⟩⟩
  rw [← length_freeList (holds.ledger.agrees .inode)] at inodes
  rw [← length_freeList (holds.ledger.agrees .block)] at blocks
  obtain ⟨s₁, made, own₁, node₁, makes, between, named⟩ := start.makeAll texts distinct
    (fun name member => by
      rw [List.map_nil, List.append_nil]
      exact (holds.missing_iff found).mp (absent name member))
    (by rw [List.map_nil, List.append_nil]; exact space)
    (List.take_append_drop _ _).symm (List.take_append_drop _ _).symm
    ⟨List.length_take_of_le inodes, List.length_take_of_le blocks⟩ table
  rw [List.nil_append] at between
  obtain ⟨s₂, own₂, node₂, removes, final⟩ := between.removeAll (by rw [named]; exact perm)
    fun name member => (texts name (perm.mem_iff.mp member)).2.2.2
  exact ⟨s₁, s₂, makes, removes, final.restored holds found⟩

end

section Lp64
attribute [local instance] lp64

theorem freshRoot : emptyBooted.fs.cwd.map (·.inodeId) = some 0 ∧
    (inodeRead emptyBooted.fs.vol.disk 0).map (fun st => (st.size, st.blocks)) = some (24, 1) ∧
    Pool.inode.free emptyBooted.fs.vol = 6399 ∧ 3 ≤ Pool.block.free emptyBooted.fs.vol ∧
    ∀ name ∈ [[97], [98, 98], [99]], lookup emptyBooted.fs.vol.disk 0 name = none := by decide +kernel

/-- A fresh file system hands out the inodes 1, 2 and 3. -/
theorem freshIds : (freeList .inode emptyBooted.fs.vol).take 3 = [1, 2, 3] := by
  have low : (List.range 4).filter (fun n => !bit (Pool.inode.cache emptyBooted.fs.vol) n) = [1, 2, 3] := by
    decide +kernel
  rw [freeList, show Pool.inode.limit = 4 + 6396 from rfl, List.range_add, List.filter_append, low]
  rfl

/-- The directories a, bb and c in the root of a fresh file system, bb removed first. -/
theorem make_remove_three : ∃ s₁ s₂,
    PartialRun.run (fun s name => cnmkdir name s) emptyBooted.fs [[97], [98, 98], [99]] =
      some ([0, 0, 0], s₁) ∧
    PartialRun.run (fun s name => cnrmdir name s) s₁ [[98, 98], [99], [97]] = some ([0, 0, 0], s₂) ∧
    Restored emptyBooted.fs.vol 0 s₂.vol := by
  obtain ⟨sound, _⟩ := boot_sound emptyBooted_eq
  obtain ⟨here, sizes, inodes, blocks, missing⟩ := freshRoot
  obtain ⟨cwd, here, root⟩ := Option.map_eq_some_iff.mp here
  have node : rootNodes 0 = some (.dir 0 []) := rfl
  have perm : [[98, 98], [99], [97]].Perm ([[97], [98, 98], [99]] : List Name) := by decide
  rw [← root] at node sizes missing ⊢
  exact make_remove sound.holds here node (by decide) (by decide) missing
    (fun st read => by
      rw [read, Option.map_some, Option.some.injEq, Prod.mk.injEq] at sizes
      rw [sizes.1, sizes.2]
      decide)
    (by rw [inodes]; decide) blocks (fun n member => by
      change n ∈ (freeList .inode emptyBooted.fs.vol).take 3 at member
      rw [freshIds] at member
      exact List.forall_mem_cons.mpr ⟨by decide, List.forall_mem_cons.mpr
        ⟨by decide, List.forall_mem_singleton.mpr (by decide)⟩⟩ n member)
    perm

end Lp64

end CdnwSh
