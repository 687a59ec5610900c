import CdnwSh.Library.Shares
import CdnwSh.Durability
import CdnwSh.RmdirExact

/-! Where the space of the device is. In every state that a run reaches, the blocks in use are
the metadata and the blocks of the files and directories of the tree, each of them once, and the
counters say how many are left. -/
namespace CdnwSh

open ByteMemory RecordList FileStore PartialRun

/-- The blocks of an inode: those with its data and the indirect one. -/
def mapOf (d : Disk) (st : Inode) : List UInt32 :=
  blockList d st ++ if st.data1 = 0 then [] else [st.data1]

def Inode.span (st : Inode) : Nat := st.blocks.toNat + if st.data1 = 0 then 0 else 1

theorem length_mapOf : (mapOf d st).length = st.span := by
  rw [mapOf, List.length_append, length_blockList, Inode.span]
  split <;> rfl

section
variable [InodeLayout]

/-- The blocks of inode `n`, if it is in use. -/
def spanAt (v : Vol) (n : Nat) : Nat :=
  if bit v.inodeBmCache n = true then (inodeRead v.disk (.ofNat n)).elim 0 Inode.span else 0

/-- The free blocks and those of all inodes are the blocks behind the inode table. -/
def Balanced (v : Vol) : Prop :=
  Pool.block.free v + ∑ n ∈ Finset.range 6400, spanAt v n = 25497

section
variable {s s' : Fs} {v v' : Vol} {own own' : Owner} {node node' : Nodes} {i j p : Iptr}
  {st st' : Inode} {es : List DirEntry} {e : DirEntry} {n : Nat}

theorem Balanced.moved (balanced : Balanced v) (bound : i.toNat < 6400)
    (others : ∀ j : Iptr, j.toNat < 6400 → j ≠ i → spanAt v' j.toNat = spanAt v j.toNat)
    (change : Pool.block.free v' + spanAt v' i.toNat = Pool.block.free v + spanAt v i.toNat) :
    Balanced v' := by
  have sums := Shares.sum_changed (f := spanAt v) (g := spanAt v') (Finset.mem_range.mpr bound)
    fun m inside other => by
      have low := Finset.mem_range.mp inside
      have same : (UInt32.ofNat m).toNat = m := by
        rw [UInt32.toNat_ofNat']
        omega
      rw [← same]
      exact others _ (by omega) fun here => other (by rw [← same, here])
  rw [Balanced] at balanced ⊢
  omega

theorem Balanced.still (balanced : Balanced v)
    (all : ∀ j : Iptr, j.toNat < 6400 → spanAt v' j.toNat = spanAt v j.toNat)
    (free : Pool.block.free v' = Pool.block.free v) : Balanced v' :=
  balanced.moved (i := 0) (by decide) (fun j low _ => all j low) (by rw [free, all 0 (by decide)])

theorem Holds.spanAt (holds : Holds v own node) (live : node i ≠ none)
    (read : inodeRead v.disk i = some st) : CdnwSh.spanAt v i.toNat = st.span := by
  rw [CdnwSh.spanAt, if_pos (holds.inodes i live).2, UInt32.ofNat_toNat, read]
  rfl

theorem Holds.spanAt_none (holds : Holds v own node) (free : node i = none) :
    CdnwSh.spanAt v i.toNat = 0 := by
  refine if_neg fun used => ?_
  obtain ⟨j, same, live⟩ := holds.exact_inodes _ used
  rw [UInt32.toNat_inj.mp same] at live
  exact live free

theorem Holds.spanAt_dir (holds : Holds v own node) (found : node i = some (.dir p es)) :
    CdnwSh.spanAt v i.toNat = 1 := by
  obtain ⟨st, dir⟩ := holds.dirs i p es found
  rw [holds.spanAt (by rw [found]; simp) dir.read, Inode.span, dir.blocks, if_pos dir.single]
  rfl

theorem Holds.spanAt_kept (holds : Holds v own node) (holds' : Holds v' own' node')
    (live : node' j ≠ none ↔ node j ≠ none)
    (read : node j ≠ none → inodeRead v'.disk j = inodeRead v.disk j) :
    CdnwSh.spanAt v' j.toNat = CdnwSh.spanAt v j.toNat := by
  by_cases free : node j = none
  · rw [holds.spanAt_none free, holds'.spanAt_none (not_not.mp (mt live.mp (not_not.mpr free)))]
  · have bits : bit v'.inodeBmCache j.toNat = bit v.inodeBmCache j.toNat := by
      rw [(holds.inodes j free).2, (holds'.inodes j (live.mpr free)).2]
    rw [CdnwSh.spanAt, CdnwSh.spanAt, bits, UInt32.ofNat_toNat, read free]

theorem Reloaded.balanced (same : Reloaded v v') (holds : Holds v own node) (balanced : Balanced v) :
    Balanced v' :=
  balanced.still (fun _ low => holds.spanAt_kept (holds.reload same) Iff.rfl fun _ =>
    inodeRead_congr low fun b inside _ => same.disk b inside) (same.free .block)

theorem Entered.spans (entered : Entered v own node i p es e v' own') (holds : Holds v own node)
    (other : j ≠ e.inode) (bound : j.toNat < 6400) : spanAt v' j.toNat = spanAt v j.toNat := by
  have live : NameTree.insert scheme node i p es e (newNode i e) j ≠ none ↔ j = e.inode ∨ node j ≠ none :=
    NameTree.insert_live (S := scheme) entered.found
  by_cases here : j = i
  · subst here
    rw [holds.spanAt_dir entered.found,
      entered.holds.spanAt_dir (NameTree.insert_parent (S := scheme) other)]
  · refine holds.spanAt_kept entered.holds (live.trans (or_iff_right other)) fun _ => ?_
    exact entered.confined.table j bound (by rintro (same | same) <;> contradiction)

/-- The block of a new directory. -/
theorem Entered.taken (entered : Entered v own node i p es e v' own') (holds : Holds v own node)
    (isDir : e.fileType = ITYPE_DIR) : Pool.block.free v' + 1 = Pool.block.free v := by
  have parent : NameTree.insert scheme node i p es e (newNode i e) i = some (.dir p (es ++ [e])) :=
    NameTree.insert_parent (S := scheme) (entered.apart holds)
  obtain ⟨_, before⟩ := holds.dirs _ _ _ entered.found
  obtain ⟨_, after⟩ := entered.holds.dirs _ _ _ parent
  obtain ⟨child, target⟩ := entered.holds.dirs _ _ _ (insert_newDir isDir)
  have confined := entered.confined
  obtain ⟨low, high, used⟩ := confined.ledger.owned _ _ target.owner
  have bits (n : Nat) : bit (Pool.block.cache v) n =
      (bit (Pool.block.cache v') n && decide (n ≠ child.block0.toNat)) := by
    change bit v.blockBmCache n = (bit v'.blockBmCache n && _)
    rw [Bool.eq_iff_iff, Bool.and_eq_true, decide_eq_true_iff]
    constructor
    · intro old
      rcases holds.exact_blocks n old with metadata | ⟨b, o, rfl, owner⟩
      · exact ⟨confined.ledger.metadata n metadata, by omega⟩
      · have kept := confined.extends' b o owner
        refine ⟨(confined.ledger.owned b o kept).2.2, fun same => ?_⟩
        rw [UInt32.toNat_inj.mp same, target.owner] at kept
        cases kept
        exact (holds.unowned entered.fresh).2.2 b _ owner
    · rintro ⟨new, other⟩
      rcases confined.used n new with old | ⟨b, ⟨k, r⟩, rfl, owner⟩
      · exact old
      rcases confined.new b _ owner with old | rfl | rfl
      · exact (holds.ledger.owned b _ old).2.2
      · have same : b = _ := (after.only b r owner).trans
          (after.only _ _ (confined.extends' _ _ before.owner)).symm
        rw [same]
        exact (holds.ledger.owned _ _ before.owner).2.2
      · exact absurd (congrArg UInt32.toNat (target.only b r owner)) other
  have set : bit (Pool.block.cache v') child.block0.toNat = true := used
  exact (free_succ confined.ledger holds.ledger high set bits).symm

theorem Entered.balancedDir (entered : Entered v own node i p es e v' own') (holds : Holds v own node)
    (isDir : e.fileType = ITYPE_DIR) (balanced : Balanced v) : Balanced v' := by
  obtain ⟨bound, free, _⟩ := holds.unowned entered.fresh
  refine balanced.moved bound (fun j low other => entered.spans holds other low) ?_
  rw [entered.holds.spanAt_dir (insert_newDir isDir), holds.spanAt_none free, entered.taken holds isDir]
  rfl

theorem NewFile.balanced (new : NewFile s own node i name h' s' own' p es e) (holds : Holds s.vol own node)
    (balanced : Balanced s.vol) : Balanced s'.vol := by
  have entered := new.entered
  obtain ⟨bound, free, _⟩ := holds.unowned entered.fresh
  obtain ⟨t, read⟩ := new.inode
  have live : NameTree.insert scheme node i p es e (newNode i e) e.inode ≠ none := by
    rw [insert_newFile new.kind]
    simp
  refine balanced.moved bound (fun j low other => entered.spans holds other low) ?_
  rw [entered.holds.spanAt live read, holds.spanAt_none free,
    ← length_freeList (entered.confined.ledger.agrees .block), new.blocks,
    length_freeList (holds.ledger.agrees .block)]
  rfl

theorem Removed.balanced {ptr : UInt32} (removed : Removed s own node path i p es e ptr v')
    (holds : Holds s.vol own node) (balanced : Balanced s.vol) : Balanced v' := by
  have exactly := removed.entryRemoved holds
  have bound := (holds.inodes e.inode (by rw [removed.empty]; simp)).1
  have live (j : Iptr) : NameTree.erase scheme node i p es e j ≠ none ↔ j ≠ e.inode ∧ node j ≠ none :=
    NameTree.erase_live (S := scheme) removed.found
  refine balanced.moved bound (fun j low other => ?_) ?_
  · by_cases here : j = i
    · subst here
      rw [holds.spanAt_dir removed.found,
        removed.holds.spanAt_dir (NameTree.erase_parent (S := scheme) other)]
    · refine holds.spanAt_kept removed.holds ((live j).trans (and_iff_right other)) fun before => ?_
      exact (exactly.others j (holds.inodes j before).2 here other).1
  · have gone : spanAt v' e.inode.toNat = 0 :=
      removed.holds.spanAt_none (NameTree.erase_target (S := scheme))
    rw [gone, holds.spanAt_dir removed.empty, exactly.blocks]

theorem Confined.balanced (confined : Confined v own (· = i) v' own) (holds : Holds v own node)
    (holds' : Holds v' own node) (found : node i = some (.dir p es)) (balanced : Balanced v) :
    Balanced v' := by
  refine balanced.still (fun j low => ?_) ?_
  · by_cases here : j = i
    · rw [here, holds.spanAt_dir found, holds'.spanAt_dir found]
    · exact holds.spanAt_kept holds' Iff.rfl fun _ => confined.table j low here
  · rw [holds.ledger.agrees .block, holds'.ledger.agrees .block]
    have bits (n : Nat) : bit v'.blockBmCache n = bit v.blockBmCache n := by
      rw [Bool.eq_iff_iff]
      constructor
      · intro new
        rcases confined.used n new with old | ⟨b, o, rfl, owner⟩
        · exact old
        · exact (holds.ledger.owned b o owner).2.2
      · intro old
        rcases holds.exact_blocks n old with metadata | ⟨b, o, rfl, owner⟩
        · exact holds'.ledger.metadata n metadata
        · exact (holds'.ledger.owned b o owner).2.2
    exact congrArg (LeastIndex.clearCount 25600) (funext bits)

theorem BlocksGrown.span (grown : BlocksGrown v own i st need v' own' st') :
    Pool.block.free v' + st'.span = Pool.block.free v + st.span := by
  have free := grown.free
  rw [newBlocks, directShare, singleShare, indirectShare] at free
  rw [Inode.span, Inode.span, grown.blocks, if_congr grown.single rfl rfl]
  by_cases single : st.data1 = 0
  · by_cases few : need ≤ 8
    · rw [if_neg (by omega)] at free
      rw [if_pos ⟨single, few⟩, if_pos single]
      omega
    · rw [if_pos ⟨by omega, single⟩] at free
      rw [if_neg fun both => few both.2, if_pos single]
      omega
  · rw [if_neg fun both => single both.2] at free
    rw [if_neg fun both => single both.1, if_neg single]
    omega

theorem Acted.balanced (acted : Acted s own n s' own') (sound : Sound s own node)
    (used : (s.fdTbl n).state ≠ FD_FREE)
    (before : inodeRead s.vol.disk (s.fdTbl n).inodeId = some (s.fdTbl n).inode)
    (change : Pool.block.free s'.vol + (s'.fdTbl n).inode.span =
      Pool.block.free s.vol + (s.fdTbl n).inode.span) (balanced : Balanced s.vol) :
    Balanced s'.vol := by
  have holds := sound.holds
  have holds' := (acted.sound sound used).holds
  have live : node (s.fdTbl n).inodeId ≠ none := by
    rw [(sound.copies n used).1]
    simp
  have after : inodeRead s'.vol.disk (s.fdTbl n).inodeId = some (s'.fdTbl n).inode := by
    rcases acted.inode with ⟨same, read⟩ | read
    · rw [read, before, same]
    · exact read
  refine balanced.moved (holds.inodes _ live).1 (fun j low other =>
    holds.spanAt_kept holds' Iff.rfl fun _ => acted.confined.table j low other) ?_
  rw [holds'.spanAt live after, holds.spanAt live before]
  exact change

variable {fs : FileSystem}

theorem Mirrors.write_balanced (mirrors : Mirrors s own fs) (ok : WriteOk s fd buf)
    (run : cnwrite buf fd s = some (count, s')) (balanced : Balanced s.vol) : Balanced s'.vol := by
  rcases mirrors.sound.write ok run with ⟨_, rfl, _⟩ | ⟨k, own', fde, v, rfl, _, _, mode, acted, stored, _⟩
  · exact balanced
  obtain ⟨d, found, writes⟩ := mirrors.files.mode true mode
  have shown := mirrors.files.fds k d found
  refine acted.balanced mirrors.sound (by rw [mode]; decide) (shown.file ▸ shown.inode writes) ?_ balanced
  have free : Pool.block.free s'.vol = Pool.block.free v := by rw [stored.vol]; rfl
  rw [free, stored.inode]
  rcases stored.grown with ⟨_, rfl, rfl, _⟩ | ⟨_, grown⟩
  · rfl
  · exact grown.span

theorem Mirrors.seek_balanced (mirrors : Mirrors s own fs) (ok : SeekOk s fd offset)
    (stays : SeekStays s fd offset) (run : cnseek fd offset s = some (code, s'))
    (balanced : Balanced s.vol) : Balanced s'.vol := by
  obtain ⟨k, rfl, small, ⟨_, _, rfl⟩ | ⟨_, ⟨_, rfl, _⟩ |
    ⟨more, used, own', fde, grown, mine, acted, _⟩⟩⟩ := mirrors.sound.seek ok run
  · exact balanced
  · exact balanced
  have mode := (stays k (fdSlot_small small) used).2 more
  obtain ⟨d, found, writes⟩ := mirrors.files.mode true mode
  have shown := mirrors.files.fds k d found
  refine acted.balanced mirrors.sound used (shown.file ▸ shown.inode writes) ?_ balanced
  rw [mine]
  exact grown.span

theorem Mirrors.import_balanced (mirrors : Mirrors s own fs) (ok : ImportOk s hName gName)
    (left : IsFree s m) (run : cnimport hName gName s = some (code, s')) (balanced : Balanced s.vol) :
    Balanced s'.vol := by
  obtain ⟨content, cwd, i, own', d, d₁, s₁, s₂, s₃, k, reads, _, made, opens, _, _, vol, mirrors₂,
    ⟨_, closes⟩, rest⟩ := mirrors.imports ok left run
  obtain ⟨p, es, new⟩ := made.new
  have opened : Balanced s₂.vol := by
    rw [vol]
    exact new.balanced mirrors.sound.holds balanced
  rw [cnclose_vol closes]
  rcases rest with ⟨_, rfl, _⟩ | ⟨_, _, writes, _⟩
  · exact opened
  · have writable := made.writable mirrors ok.text (by omega) opens (ok.blocks content reads)
    exact mirrors₂.write_balanced writable writes opened

end

section
variable {s s' : Session} {own : Owner} {fs : FileSystem} {r : Reply}

theorem Refines.balanced (refines : Refines s own fs) (inLimits : InLimits s op)
    (run : s.step op = some (r, s')) (balanced : Balanced s.fs.vol) : Balanced s'.fs.vol := by
  obtain ⟨sane, limits⟩ := inLimits
  have mirrors := refines.globals
  have sound := mirrors.sound
  have holds := sound.holds
  cases op with
  | mkfs => exact absurd sane id
  | mount =>
    obtain ⟨_, reloaded, _⟩ := holds.mount sound.synced sound.magic (Session.global_eq run).1
    exact reloaded.balanced holds balanced
  | umount =>
    obtain ⟨_, reloaded, _⟩ := sound.umount (Session.global_eq run).1
    exact reloaded.balanced holds balanced
  | mkdir path =>
    rcases sound.mkdir sane (Session.global_eq run).1 with
      ⟨_, same⟩ | ⟨_, _, _, _, _, _, _, _, _, isDir, _, _, entered, _⟩
    · rw [same]
      exact balanced
    · exact entered.balancedDir holds isDir balanced
  | rmdir path =>
    rcases sound.rmdir sane (Session.global_eq run).1 with ⟨_, same⟩ |
      ⟨_, _, _, after, _, _, _, found, confined⟩ | ⟨_, _, _, _, _, _, _, _, removed, _⟩
    · rw [same]
      exact balanced
    · exact confined.balanced holds after.holds found balanced
    · exact removed.balanced holds balanced
  | cd path =>
    obtain ⟨_, ⟨_, same⟩ | ⟨_, _, _, _, _, same⟩⟩ := sound.cd sane (Session.global_eq run).1
    · rw [same]
      exact balanced
    · rw [same]
      exact balanced
  | ls path =>
    obtain ⟨_, rfl⟩ := Session.ls_eq run
    exact balanced
  | opendir k path =>
    rcases Session.opendir_eq run with ⟨_, rfl⟩ | ⟨_, _, rfl⟩
    · exact balanced
    · exact balanced
  | closedir k =>
    cases run
    exact balanced
  | creat h name =>
    obtain ⟨d, d', fs', here, creates, _, rfl⟩ := Session.onDir_eq run
    rw [setDir_vol]
    rcases sound.creat (sane d here) creates with ⟨_, rfl, _⟩ | ⟨_, _, _, _, _, _, _, new, _⟩
    · exact balanced
    · exact new.balanced holds balanced
  | openFile h name mode =>
    obtain ⟨d, d', fs', here, opens, _, rfl⟩ := Session.onDir_eq run
    rw [setDir_vol]
    obtain ⟨_, _, shown⟩ := refines.held here
    generalize r.code = fd at opens
    cases sound.openFile shown.shown (sane d here) opens with
    | failed => exact balanced
    | found _ _ opened _ =>
      rw [opened.state]
      exact balanced
    | created _ _ new opened _ =>
      rw [opened.state]
      exact new.balanced holds balanced
  | close fd =>
    rw [cnclose_vol (Session.global_eq run).1]
    exact balanced
  | read fd bytes =>
    rw [cnread_vol (Session.read_eq run).1]
    exact balanced
  | write fd buf =>
    obtain ⟨_, writes, _⟩ := Session.write_eq run
    exact mirrors.write_balanced sane writes balanced
  | seek fd offset => exact mirrors.seek_balanced sane limits (Session.global_eq run).1 balanced
  | cat name =>
    rw [cncat_vol (Session.cat_eq run).1]
    exact balanced
  | importFile hName gName =>
    obtain ⟨_, left⟩ := limits
    exact mirrors.import_balanced sane left (Session.global_eq run).1 balanced
  | exportFile gName hName =>
    rw [cnexport_vol (Session.global_eq run).1]
    exact balanced

end

/-- Block `b` is in the block map of inode `i`, which is in use. -/
structure Maps (v : Vol) (i : Iptr) (b : UInt32) : Prop where
  number : i.toNat < 6400
  used : bit v.inodeBmCache i.toNat = true
  inMap : ∃ st, inodeRead v.disk i = some st ∧ b ∈ mapOf v.disk st

/-- Directory `i` has the entry `e`, which is neither "." nor "..". -/
def Lists (v : Vol) (i : Iptr) (e : DirEntry) : Prop :=
  IsDir v.disk i ∧ ∃ rs, listing v.disk i = some rs ∧ e ∈ rs ∧ isProper e = true

/-- The inodes that the entries lead to from the root directory. -/
inductive Linked (v : Vol) : Iptr → Prop where
  | root : Linked v 0
  | entry : Linked v i → Lists v i e → Linked v e.inode

/-- The bitmaps are the inodes that the root leads to and their blocks, the counters are those
of the bitmaps, and no inode has two entries and no block two places. -/
structure Checked (v : Vol) : Prop where
  inodes : ∀ n, bit v.inodeBmCache n = true ↔ ∃ i : Iptr, i.toNat = n ∧ Linked v i
  entries : ∀ i j e f, Linked v i → Linked v j → Lists v i e → Lists v j f → e.inode = f.inode →
    i = j ∧ e = f
  blocks : ∀ b : UInt32, b.toNat < 25600 →
    (bit v.blockBmCache b.toNat = true ↔ b.toNat < 103 ∨ ∃ i, Maps v i b)
  owner : ∀ i j b, Maps v i b → Maps v j b → i = j
  once : ∀ i st, bit v.inodeBmCache i.toNat = true → inodeRead v.disk i = some st →
    (mapOf v.disk st).Nodup
  freeInodes : Pool.inode.free v = LeastIndex.clearCount 6400 (bit v.inodeBmCache)
  freeBlocks : Pool.block.free v = LeastIndex.clearCount 25600 (bit v.blockBmCache)

section
variable {v : Vol} {own : Owner} {node : Nodes} {i j : Iptr} {st : Inode} {e : DirEntry} {b : UInt32}

theorem Holds.live (holds : Holds v own node) : bit v.inodeBmCache i.toNat = true ↔ node i ≠ none := by
  constructor
  · intro used
    obtain ⟨j, same, live⟩ := holds.exact_inodes _ used
    rwa [UInt32.toNat_inj.mp same] at live
  · exact fun live => (holds.inodes i live).2

theorem Holds.lists (holds : Holds v own node) (live : node i ≠ none) :
    Lists v i e ↔ NameTree.Entry node i e := by
  constructor
  · rintro ⟨⟨st, read, isDir⟩, rs, list, member, proper⟩
    obtain ⟨p, es, st', found, dir⟩ := holds.dir_used (holds.live.mpr live) ⟨st, read, isDir⟩
    rw [dir.listing_eq holds.ledger, Option.some.injEq] at list
    refine .of found ?_
    rw [← filter_records (i := i) (p := p) fun e member => holds.proper i e (.of found member)]
    exact List.mem_filter.mpr ⟨list ▸ member, proper⟩
  · rintro ⟨p, es, found, member⟩
    obtain ⟨st, dir⟩ := holds.dirs i p es found
    have proper := holds.proper i e (.of found member)
    exact ⟨⟨st, dir.read, dir.type⟩, _, dir.listing_eq holds.ledger,
      List.mem_cons_of_mem _ (List.mem_cons_of_mem _ member),
      decide_eq_true ⟨proper.notDot, proper.notDotDot⟩⟩

theorem Holds.linked (holds : Holds v own node) : Linked v i ↔ node i ≠ none := by
  constructor
  · intro linked
    induction linked with
    | root =>
      obtain ⟨es, top⟩ := holds.tree.root_dir
      rw [top]
      simp
    | @entry i e _ lists live =>
      have entry := (holds.lists live).mp lists
      exact holds.tree.live (.entry (holds.tree.reach live) entry)
  · intro live
    induction holds.tree.reach live with
    | root => exact .root
    | @entry i e reached entry ih =>
      have before := holds.tree.live reached
      exact .entry (ih before) ((holds.lists before).mpr entry)

omit [InodeLayout] in
theorem Mapped.owner (mapped : Mapped v.disk own i st) (member : b ∈ mapOf v.disk st) :
    ∃ role, own b = some (i, role) := by
  rw [mapOf, List.mem_append] at member
  rcases member with data | single
  · obtain ⟨k, owner⟩ := mapped.mem data
    exact ⟨_, owner⟩
  · split at single
    · cases single
    next linked =>
      rw [List.mem_singleton.mp single]
      exact ⟨_, mapped.single linked⟩

omit [InodeLayout] in
theorem Mapped.mapOf_nodup (mapped : Mapped v.disk own i st) : (mapOf v.disk st).Nodup := by
  rw [mapOf]
  split
  · rw [List.append_nil]
    exact mapped.nodup
  next linked =>
    refine List.nodup_append.mpr ⟨mapped.nodup, List.nodup_singleton _, fun b data c single same => ?_⟩
    obtain ⟨k, owner⟩ := mapped.mem data
    rw [same, List.mem_singleton.mp single, mapped.single linked] at owner
    cases owner

theorem Holds.mapped (holds : Holds v own node) (live : node i ≠ none)
    (read : inodeRead v.disk i = some st) : Mapped v.disk own i st := by
  cases kind : node i with
  | none => exact absurd kind live
  | some n =>
    cases n with
    | file =>
      obtain ⟨st', file⟩ := holds.files i kind
      obtain rfl := Option.some.inj (read.symm.trans file.read)
      exact file.mapped
    | dir p es =>
      obtain ⟨st', dir⟩ := holds.dirs i p es kind
      obtain rfl := Option.some.inj (read.symm.trans dir.read)
      exact dir.mapped

theorem Maps.owner (maps : Maps v i b) (holds : Holds v own node) : ∃ role, own b = some (i, role) := by
  obtain ⟨st, read, member⟩ := maps.inMap
  exact (holds.mapped (holds.live.mp maps.used) read).owner member

theorem Maps.unique (holds : Holds v own node) (maps : Maps v i b) (maps' : Maps v j b) : i = j := by
  obtain ⟨_, owner⟩ := maps.owner holds
  obtain ⟨_, owner'⟩ := maps'.owner holds
  rw [owner, Option.some.injEq, Prod.mk.injEq] at owner'
  exact owner'.1

/-- The numbers of the blocks of inode `n`. -/
def share (v : Vol) (n : Nat) : Finset Nat :=
  if bit v.inodeBmCache n = true then
    (inodeRead v.disk (.ofNat n)).elim ∅ fun st => ((mapOf v.disk st).map UInt32.toNat).toFinset
  else ∅

theorem mem_share (bound : n < 6400) : m ∈ share v n ↔ ∃ b : UInt32, b.toNat = m ∧ Maps v (.ofNat n) b := by
  have number : (UInt32.ofNat n).toNat = n := by
    rw [UInt32.toNat_ofNat']
    omega
  rw [share]
  constructor
  · intro member
    split at member
    next used =>
      cases read : inodeRead v.disk (.ofNat n) with
      | none =>
        rw [read] at member
        cases member
      | some st =>
        rw [read, Option.elim_some, List.mem_toFinset, List.mem_map] at member
        obtain ⟨b, inside, same⟩ := member
        exact ⟨b, same, by omega, by rwa [number], st, read, inside⟩
    · cases member
  · rintro ⟨b, rfl, _, used, st, read, member⟩
    rw [number] at used
    rw [if_pos used, read, Option.elim_some, List.mem_toFinset]
    exact List.mem_map_of_mem member

theorem Holds.card_share (holds : Holds v own node) (n : Nat) (bound : n < 6400) :
    (share v n).card = CdnwSh.spanAt v n := by
  have number : (UInt32.ofNat n).toNat = n := by
    rw [UInt32.toNat_ofNat']
    omega
  rw [share, CdnwSh.spanAt]
  split
  next used =>
    cases read : inodeRead v.disk (.ofNat n) with
    | none => rfl
    | some st =>
      have mapped := holds.mapped (holds.live.mp (number.symm ▸ used)) read
      rw [Option.elim_some, Option.elim_some, List.toFinset_card_of_nodup
        (mapped.mapOf_nodup.map fun _ _ => UInt32.toNat_inj.mp), List.length_map, length_mapOf]
  · rfl

def taken (v : Vol) : Finset Nat :=
  (Finset.range 25600).filter (fun n => bit v.blockBmCache n = true) \ Finset.range 103

omit [InodeLayout] in
theorem mem_taken {n : Nat} :
    n ∈ taken v ↔ 103 ≤ n ∧ n < 25600 ∧ bit v.blockBmCache n = true := by
  rw [taken, Finset.mem_sdiff, Finset.mem_filter, Finset.mem_range, Finset.mem_range]
  constructor
  · rintro ⟨⟨bound, used⟩, high⟩
    exact ⟨by omega, bound, used⟩
  · rintro ⟨high, bound, used⟩
    exact ⟨⟨bound, used⟩, by omega⟩

theorem Holds.card_taken (holds : Holds v own node) : (taken v).card + Pool.block.free v = 25497 := by
  have metadata : Finset.range 103 ⊆ (Finset.range 25600).filter fun n => bit v.blockBmCache n = true := by
    intro n low
    have low := Finset.mem_range.mp low
    exact Finset.mem_filter.mpr ⟨Finset.mem_range.mpr (by omega), holds.ledger.metadata n low⟩
  have all := Finset.card_filter_add_card_filter_not (s := Finset.range 25600)
    (fun n => bit v.blockBmCache n = true)
  simp only [Bool.not_eq_true, Finset.card_range] at all
  have free : Pool.block.free v = ((Finset.range 25600).filter fun n => bit v.blockBmCache n = false).card :=
    holds.ledger.agrees .block
  have inside := Finset.card_le_card metadata
  rw [Finset.card_range] at inside
  rw [taken, Finset.card_sdiff_of_subset metadata, Finset.card_range]
  omega

/-- As the shares have the size of what is taken together, no block is lost. -/
theorem Holds.mapped_of_used (holds : Holds v own node) (balanced : Balanced v)
    (high : 103 ≤ b.toNat) (bound : b.toNat < 25600) (used : bit v.blockBmCache b.toNat = true) :
    ∃ i, Maps v i b := by
  have member : b.toNat ∈ taken v := mem_taken.mpr ⟨high, bound, used⟩
  have inside : ∀ n ∈ Finset.range 6400, share v n ⊆ taken v := by
    intro n low m found
    obtain ⟨c, rfl, maps⟩ := (mem_share (Finset.mem_range.mp low)).mp found
    obtain ⟨_, owner⟩ := maps.owner holds
    exact mem_taken.mpr (holds.ledger.owned _ _ owner)
  have apart : ∀ n ∈ Finset.range 6400, ∀ k ∈ Finset.range 6400, ∀ m, m ∈ share v n → m ∈ share v k →
      n = k := by
    intro n low k low' m one two
    have low := Finset.mem_range.mp low
    have low' := Finset.mem_range.mp low'
    obtain ⟨c, rfl, maps⟩ := (mem_share low).mp one
    obtain ⟨c', same, maps'⟩ := (mem_share low').mp two
    rw [UInt32.toNat_inj.mp same] at maps'
    have equal := congrArg UInt32.toNat (Maps.unique holds maps maps')
    rw [UInt32.toNat_ofNat', UInt32.toNat_ofNat'] at equal
    omega
  have count : (taken v).card ≤ ∑ n ∈ Finset.range 6400, (share v n).card := by
    have sizes : ∑ n ∈ Finset.range 6400, (share v n).card =
        ∑ n ∈ Finset.range 6400, CdnwSh.spanAt v n :=
      Finset.sum_congr rfl fun n low => holds.card_share n (Finset.mem_range.mp low)
    have total := holds.card_taken
    rw [Balanced] at balanced
    omega
  obtain ⟨n, low, found⟩ := Shares.covered inside apart count member
  obtain ⟨c, same, maps⟩ := (mem_share (Finset.mem_range.mp low)).mp found
  rw [UInt32.toNat_inj.mp same] at maps
  exact ⟨_, maps⟩

theorem Holds.checked (holds : Holds v own node) (balanced : Balanced v) : Checked v := by
  constructor
  case inodes =>
    intro n
    constructor
    · intro used
      obtain ⟨i, same, live⟩ := holds.exact_inodes n used
      exact ⟨i, same, holds.linked.mpr live⟩
    · rintro ⟨i, rfl, linked⟩
      exact holds.live.mpr (holds.linked.mp linked)
  case entries =>
    intro i j e f before before' lists lists' same
    exact holds.tree.once i e j f ((holds.lists (holds.linked.mp before)).mp lists)
      ((holds.lists (holds.linked.mp before')).mp lists') same
  case blocks =>
    intro b bound
    constructor
    · intro used
      by_cases low : b.toNat < 103
      · exact .inl low
      · exact .inr (holds.mapped_of_used balanced (by omega) bound used)
    · rintro (low | ⟨i, maps⟩)
      · exact holds.ledger.metadata _ low
      · obtain ⟨_, owner⟩ := maps.owner holds
        exact (holds.ledger.owned _ _ owner).2.2
  case owner => exact fun i j b => Maps.unique holds
  case once => exact fun i st used read => (holds.mapped (holds.live.mp used) read).mapOf_nodup
  case freeInodes => exact holds.ledger.agrees .inode
  case freeBlocks => exact holds.ledger.agrees .block

end

section
variable {m m' : Sessions} {r : Reply}

/-- A new file system has the root directory and its block. -/
theorem cnmkfs_balanced {s s' : Fs} (run : cnmkfs s = some (code, s')) : Balanced (.loaded s'.vol.disk) := by
  have holds : Holds (.loaded s'.vol.disk) rootOwner rootNodes := (cnmkfs_onDisk run).2.holds
  have left : Pool.block.free (.loaded s'.vol.disk) = 25496 := by
    rw [Pool.free, Vol.loaded, (cnmkfs_formatted run).2.superblk]
    exact superblockInit_fields.2.1
  have one : ∑ n ∈ Finset.range 6400, spanAt (.loaded s'.vol.disk) n = 1 := by
    rw [Finset.sum_eq_single_of_mem 0 (Finset.mem_range.mpr (by decide)) fun n low other => ?_]
    · exact holds.spanAt_dir (i := 0) rfl
    · have same : (UInt32.ofNat n).toNat = n := by
        have low := Finset.mem_range.mp low
        rw [UInt32.toNat_ofNat']
        omega
      rw [← same]
      refine holds.spanAt_none (if_neg fun root => other ?_)
      rw [← same, root]
      rfl
  rw [Balanced, left, one]

/-- The caches of a sound state and the disk have the same balance. -/
theorem Sound.balanced_loaded {s : Fs} {own : Owner} {node : Nodes} (sound : Sound s own node) :
    Balanced (.loaded s.vol.disk) ↔ Balanced s.vol := by
  have synced := sound.synced
  have saved : Reloaded s.vol (.loaded s.vol.disk) :=
    ⟨fun _ _ => rfl, synced.superblk, synced.blockBm, synced.inodeBm, loaded_synced⟩
  have back : Reloaded (.loaded s.vol.disk) s.vol :=
    ⟨fun _ _ => rfl, fun i low high => (synced.superblk i low high).symm, synced.blockBm.symm,
      synced.inodeBm.symm, synced⟩
  exact ⟨back.balanced (sound.holds.reload saved), saved.balanced sound.holds⟩

theorem Carries.balanced {fs : FileSystem} (carries : Carries m fs) (ok : Limited m event)
    (run : m.step event = some (r, m')) (balanced : Balanced (.loaded m.disk)) :
    Balanced (.loaded m'.disk) := by
  cases event with
  | crash =>
    rw [Sessions.step] at run
    split at run
    · cases run
      exact balanced
    · cases run
  | call op =>
    by_cases mounts : op = .mount
    · subst mounts
      rw [Sessions.step] at run
      split at run
      · cases run
      · obtain ⟨⟨code, s'⟩, mounting, run⟩ := Option.bind_eq_some_iff.mp run
        cases run
        obtain ⟨_, _, _, _, vol, _⟩ := cnmount_eq mounting
        have disk : s'.vol.disk = m.disk := by rw [vol]; rfl
        change Balanced (.loaded s'.vol.disk)
        rw [disk]
        exact balanced
    by_cases makes : op = .mkfs
    · subst makes
      exact cnmkfs_balanced (Sessions.made ok run).1
    obtain ⟨up, called⟩ := Sessions.called mounts makes run
    obtain ⟨own, follows⟩ := carries.running up
    have inLimits := ok.inLimits mounts makes
    obtain ⟨own', fs', _, after⟩ := follows.step inLimits called
    have kept := follows.toRefines.balanced inLimits called (follows.toRefines.sound.balanced_loaded.mp balanced)
    exact after.sound.balanced_loaded.mpr kept

/-- At every point between two commands of any sessions on a new file system, also after a crash, a
check of the device finds nothing wrong: no block or inode is lost or used twice, and the counters
are right. So it is for the caches of a session. -/
theorem device_checked {before : Fs} (made : cnmkfs before = some (code, m.current.fs))
    (down : m.mounted = false) (steps : Steps Sessions.step Limited m trace m') :
    Checked (.loaded m'.disk) ∧ (m'.mounted = true → Checked m'.current.fs.vol) := by
  have stored := (cnmkfs_onDisk made).2
  have start : Carries m (.new before.host) :=
    ⟨fun up => absurd (down.symm.trans up) (by decide), fun _ => ⟨_, stored⟩⟩
  obtain ⟨⟨fs, carries⟩, balanced⟩ := steps.invariant
    (fun m => (∃ fs, Carries m fs) ∧ Balanced (.loaded m.disk))
    (fun m event r next ⟨⟨fs, carries⟩, balanced⟩ ok run => by
      obtain ⟨fs', _, after⟩ := carries.step ok run
      exact ⟨⟨fs', after⟩, carries.balanced ok run balanced⟩)
    ⟨⟨_, start⟩, cnmkfs_balanced made⟩
  cases up : m'.mounted with
  | true =>
    obtain ⟨own, follows⟩ := carries.running up
    have stored := follows.globals.onDisk
    have caches := follows.toRefines.sound.balanced_loaded.mp balanced
    exact ⟨stored.holds.checked balanced, fun _ => follows.toRefines.sound.holds.checked caches⟩
  | false =>
    obtain ⟨own, stored⟩ := carries.down up
    exact ⟨stored.holds.checked balanced, fun up => absurd up (by decide)⟩

end
end

section Lp64
attribute [local instance] lp64

/-- The device of a session that made a directory and crashed. -/
theorem device_checked_crashed : Checked (.loaded dirCrashed.disk) := by
  have steps : Steps Sessions.step Limited madeSessions
      [(.call .mount, ⟨0, []⟩), (.call (.mkdir [97]), emptyBooted.reply (.mkdir [97])), (.crash, ⟨0, []⟩)]
      dirCrashed :=
    .cons trivial firstSession_eq (.cons ⟨mkdirOk_a, trivial⟩ dirMade_session (.single trivial rfl))
  exact (device_checked (Option.some_get emptyStart_makes).symm rfl steps).1

end Lp64

end CdnwSh
