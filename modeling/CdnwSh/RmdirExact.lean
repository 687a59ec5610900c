import CdnwSh.MkdirLookup
import CdnwSh.RootSafety

/-! What `cnrmdir` removes. It finds the parent by the path followed by "/..", but looks there
for a record that is named like the whole path: a plain name of an empty directory is removed
as it should be, and everything else is refused only if there is such a record and it is not
that of an empty directory. -/
namespace CdnwSh

open ByteMemory RecordList

section
variable [InodeLayout]

/-- The path names the empty directory `e` of directory `j`, by a name other than "." and
"..". -/
structure NamesEmpty (s : Fs) (path : Name) (j : Iptr) (e : DirEntry) : Prop where
  leads : ∃ start front, walkStart s path = some start ∧ strtok path = front ++ [e.name] ∧
    Leads s.vol.disk start front j
  found : lookup s.vol.disk j e.name = some e
  notDot : e.name ≠ dot
  notDotDot : e.name ≠ dotDot
  isDir : e.fileType = ITYPE_DIR
  empty : ∃ st, inodeRead s.vol.disk e.inode = some st ∧ st.size = 24

/-- The entry of the directory `e` is gone from directory `j`, its inode and its block are
released, and every other file and directory is what it was. -/
structure EntryRemoved (v : Vol) (j : Iptr) (e : DirEntry) (v' : Vol) : Prop where
  gone : lookup v'.disk j e.name = none
  entries : ∃ front back, listing v.disk j = some (front ++ e :: back) ∧
    listing v'.disk j = some (front ++ back)
  inodeBm : ∀ n, bit v'.inodeBmCache n = (bit v.inodeBmCache n && decide (n ≠ e.inode.toNat))
  blockBm : ∃ st, inodeRead v.disk e.inode = some st ∧ st.blocks = 1 ∧
    ∀ n, bit v'.blockBmCache n = (bit v.blockBmCache n && decide (n ≠ st.block0.toNat))
  inodes : Pool.inode.free v' = Pool.inode.free v + 1
  blocks : Pool.block.free v' = Pool.block.free v + 1
  others : ∀ k : Iptr, bit v.inodeBmCache k.toNat = true → k ≠ j → k ≠ e.inode →
    inodeRead v'.disk k = inodeRead v.disk k ∧ listing v'.disk k = listing v.disk k ∧
      contentOf v'.disk k = contentOf v.disk k

/-- `cnrmdir` returns 0 exactly for the name of an empty directory, which it then removes, and
otherwise fails without any change. -/
structure RemovesExactly (s : Fs) (path : Name) (code : Int) (s' : Fs) : Prop where
  success : code = 0 ↔ ∃ j e, NamesEmpty s path j e
  removed : ∀ j e, NamesEmpty s path j e → EntryRemoved s.vol j e s'.vol
  refused : (¬ ∃ j e, NamesEmpty s path j e) → code = -1 ∧ s' = s

/-- The path followed by "/.." opens a directory in which the first record that is named like the
whole path belongs to an inode whose size is not 24. -/
def Refuses (s : Fs) (path : Name) : Prop :=
  ∃ h e h' st, cnopendir s (parentPath path) = some (some h) ∧
    findName h path = some (some e, h') ∧ inodeRead s.vol.disk e.inode = some st ∧ st.size ≠ 24

section
variable {s s' : Fs} {v v' : Vol} {d : Disk} {own own' : Owner} {node : Nodes} {i j n p q : Iptr}
  {es fs rs : List DirEntry} {st : Inode} {h h' : DirPtr} {e : DirEntry}

omit [InodeLayout] in
theorem release_some {pool : Pool} (run : release pool n v = some v') : v' = v.given pool n := by
  obtain ⟨bm, cleared, run⟩ := Option.bind_eq_some_iff.mp run
  have inside : n.toNat < 32768 := by
    rw [clearBitmap] at cleared
    split at cleared
    · omega
    · cases cleared
  have again := release_eq (p := pool) (v := v) inside
  rw [release, cleared] at again
  exact Option.some.inj (run.symm.trans again)

omit [InodeLayout] in
theorem released_free (ptr : UInt32) : Pool.inode.free ((v.given .block ptr).given .inode n) =
    (Pool.inode.free v + 1) % 2 ^ 32 := by
  have block : Pool.inode.free (v.given .block ptr) = Pool.inode.free v := by
    change Pool.inode.free ((Pool.block.setCache v _).setFree .block _) = _
    rw [setFree_free_other (by decide)]
    rfl
  rw [← block]
  change Pool.inode.free ((Pool.inode.setCache _ _).setFree .inode _) = _
  rw [Pool.free, Vol.setFree, getField_setField (by decide)]
  rfl

/-- The loop against a scan for the name: without a match nothing is released; a first match
that is not empty ends it; otherwise inodes are released, fewer than 2^32 of them. -/
theorem rmdirLoop_scan (run : rmdirLoop name fuel h new v = some (out, v')) :
    ∃ found h', findNameLoop fuel h name = some (found, h') ∧
      (∃ k, k < fuel ∧ Pool.inode.free v' = (Pool.inode.free v + k) % 2 ^ 32 ∧
        (∀ e st, found = some e → inodeRead v.disk e.inode = some st → st.size = 24 → 0 < k)) ∧
      (found = none → out ≠ none ∧ v' = v) ∧
      (∀ e, found = some e → ∃ st, inodeRead v.disk e.inode = some st ∧
        (st.size ≠ 24 → out = none ∧ v' = v)) := by
  induction fuel generalizing h new v with
  | zero => cases run
  | succ fuel ih =>
    have still : Pool.inode.free v = (Pool.inode.free v + 0) % 2 ^ 32 :=
      (Nat.mod_eq_of_lt free_lt).symm
    rw [rmdirLoop] at run
    rw [findNameLoop]
    cases read : cnreaddir h with
    | none =>
      rw [read] at run
      cases run
    | some next =>
      rw [read, Option.bind_eq_bind, Option.bind_some] at run
      rw [Option.bind_eq_bind, Option.bind_some]
      cases next with
      | none =>
        cases run
        exact ⟨none, h, rfl, ⟨0, by omega, still, fun e st same => by cases same⟩,
          fun _ => ⟨by simp, rfl⟩, fun e same => by cases same⟩
      | some record =>
        obtain ⟨entry, parent⟩ := record
        dsimp only at run ⊢
        by_cases named : cstr entry.name = name
        · rw [if_pos named] at run ⊢
          obtain ⟨st, target, run⟩ := Option.bind_eq_some_iff.mp run
          by_cases full : st.size ≠ 24
          · rw [if_pos full] at run
            cases run
            refine ⟨some entry, parent, rfl, ⟨0, by omega, still, fun e st' same read' size => ?_⟩,
              fun same => (by cases same), fun e same => ?_⟩
            · cases same
              cases target.symm.trans read'
              exact absurd size full
            · cases same
              exact ⟨st, target, fun _ => ⟨rfl, rfl⟩⟩
          · rw [if_neg full] at run
            obtain ⟨v₁, block, run⟩ := Option.bind_eq_some_iff.mp run
            obtain ⟨v₂, inode, run⟩ := Option.bind_eq_some_iff.mp run
            obtain rfl := release_some block
            obtain rfl := release_some inode
            obtain ⟨_, _, _, ⟨k, less, count, _⟩, _⟩ := ih run
            refine ⟨some entry, parent, rfl, ⟨k + 1, by omega, ?_, fun _ _ _ _ _ => by omega⟩,
              fun same => (by cases same), fun e same => ?_⟩
            · rw [count, released_free]
              omega
            · cases same
              exact ⟨st, target, fun other => absurd other full⟩
        · rw [if_neg named] at run ⊢
          obtain ⟨new', _, run⟩ := Option.bind_eq_some_iff.mp run
          obtain ⟨found, h', scanned, ⟨k, less, count, positive⟩, rest⟩ := ih run
          exact ⟨found, h', scanned, ⟨k, by omega, count, positive⟩, rest⟩

theorem rmdirLoop_bits (lists : h.Lists rs)
    (run : rmdirLoop name fuel h new v = some (out, v')) (used : bit v.inodeBmCache n.toNat = true)
    (others : ∀ r ∈ rs, cstr r.name = name → r.inode ≠ n) : bit v'.inodeBmCache n.toNat = true := by
  induction fuel generalizing h new v rs with
  | zero => cases run
  | succ fuel ih =>
    rw [rmdirLoop] at run
    cases rs with
    | nil =>
      have ended : h.index.toNat = h.inodeSt.size.toNat := lists
      rw [cnreaddir_end (Nat.le_of_eq ended.symm)] at run
      cases run
      exact used
    | cons r rs =>
      obtain ⟨next, read, _, _, rest⟩ := cnreaddir_next lists
      rw [read, Option.bind_eq_bind, Option.bind_some] at run
      dsimp only at run
      have fewer : ∀ t ∈ rs, cstr t.name = name → t.inode ≠ n := fun t member =>
        others t (List.mem_cons_of_mem _ member)
      by_cases named : cstr r.name = name
      · rw [if_pos named] at run
        obtain ⟨st, _, run⟩ := Option.bind_eq_some_iff.mp run
        split at run
        · cases run
          exact used
        · obtain ⟨v₁, block, run⟩ := Option.bind_eq_some_iff.mp run
          obtain ⟨v₂, inode, run⟩ := Option.bind_eq_some_iff.mp run
          obtain rfl := release_some block
          obtain rfl := release_some inode
          have apart : n.toNat ≠ r.inode.toNat := fun same =>
            others r List.mem_cons_self named (UInt32.toNat_inj.mp same.symm)
          refine ih rest run ?_ fewer
          change bit (v.released st.block0 r.inode).inodeBmCache n.toNat = true
          rw [released_inodeBm, used, Bool.true_and]
          exact decide_eq_true apart
      · rw [if_neg named] at run
        obtain ⟨new', _, run⟩ := Option.bind_eq_some_iff.mp run
        exact ih rest run used fewer

/-- The copy never outgrows the directory, so the loop comes to its end. -/
theorem rmdirLoop_total {new : Rebuilt} (lists : h.Lists rs) (enough : rs.length < fuel)
    (size : h.data.size = 4096 ∧ new.data.size = 4096) (behind : new.index.toNat ≤ h.index.toNat)
    (sounds : ∀ r ∈ rs, r.Sound)
    (targets : ∀ r ∈ rs, cstr r.name = name → r.inode.toNat < 6400 ∧
      ∃ st, inodeRead v.disk r.inode = some st ∧ st.block0.toNat < 25600) :
    ∃ out v', rmdirLoop name fuel h new v = some (out, v') ∧
      ∀ new', out = some new' → new'.data.size = 4096 := by
  induction fuel generalizing h new v rs with
  | zero => omega
  | succ fuel ih =>
    rw [rmdirLoop]
    cases rs with
    | nil =>
      have ended : h.index.toNat = h.inodeSt.size.toNat := lists
      rw [cnreaddir_end (Nat.le_of_eq ended.symm)]
      refine ⟨some new, v, rfl, fun new' same => ?_⟩
      cases same
      exact size.2
    | cons r rs =>
      have inside := entryAt_inside lists.1
      obtain ⟨next, read, same, moved, rest⟩ := cnreaddir_next lists
      have data : next.data.size = 4096 := by rw [same]; exact size.1
      have sound := sounds r List.mem_cons_self
      have fewer (t) (member : t ∈ rs) : t.Sound := sounds t (List.mem_cons_of_mem _ member)
      have shorter : rs.length < fuel := Nat.lt_of_succ_lt_succ enough
      rw [read, Option.bind_eq_bind, Option.bind_some]
      dsimp only
      by_cases named : cstr r.name = name
      · rw [if_pos named]
        obtain ⟨number, st, target, block⟩ := targets r List.mem_cons_self named
        rw [target]
        simp only [Option.bind_eq_bind, Option.bind_some]
        by_cases full : st.size ≠ 24
        · rw [if_pos full]
          exact ⟨none, v, rfl, fun new' same => by cases same⟩
        · rw [if_neg full, releaseBlock, release_eq (by omega)]
          simp only [Option.bind_some]
          rw [releaseInode, release_eq (by omega)]
          simp only [Option.bind_some]
          refine ih rest shorter ⟨data, size.2⟩ (by omega) fewer fun t member called => ?_
          obtain ⟨number', st', target', block'⟩ := targets t (List.mem_cons_of_mem _ member) called
          refine ⟨number', st', ?_, block'⟩
          rw [← target']
          exact inodeRead_congr number' fun b low _ => released_disk low
      · rw [if_neg named]
        obtain ⟨long, short⟩ := sound.len
        have fits : new.index.toNat + 8 + r.name.length ≤ new.data.size := by omega
        have step : (new.index + UInt32.ofNat r.entryLen).toNat = new.index.toNat + r.entryLen := by
          have := sound.short
          rw [UInt32.toNat_add, UInt32.toNat_ofNat']
          omega
        rw [Rebuilt.keep, storeEntry, if_pos fits]
        simp only [Option.bind_eq_bind, Option.bind_some]
        exact ih rest shorter ⟨data, size.2⟩ (by rw [step]; omega) fewer fun t member =>
          targets t (List.mem_cons_of_mem _ member)

/-- Up to the first record with the name the copy stays behind the directory, and that record ends
the loop. -/
theorem rmdirLoop_stops {new : Rebuilt} (scanned : findNameLoop fuel h name = some (some e, h'))
    (read : inodeRead v.disk e.inode = some st) (full : st.size ≠ 24)
    (room : h.data.size ≤ new.data.size) (few : h.data.size ≤ 4096 * 1032)
    (behind : new.index.toNat ≤ h.index.toNat) :
    rmdirLoop name fuel h new v = some (none, v) := by
  induction fuel generalizing h new with
  | zero => cases scanned
  | succ fuel ih =>
    rw [findNameLoop] at scanned
    obtain ⟨step, next, scanned⟩ := Option.bind_eq_some_iff.mp scanned
    rw [rmdirLoop, next, Option.bind_eq_bind, Option.bind_some]
    cases step with
    | none => cases scanned
    | some record =>
      obtain ⟨r, parent⟩ := record
      dsimp only at scanned ⊢
      by_cases named : cstr r.name = name
      · rw [if_pos named] at scanned
        cases scanned
        rw [if_pos named, read, Option.bind_eq_bind, Option.bind_some, if_pos full]
        rfl
      · rw [if_neg named] at scanned ⊢
        unfold cnreaddir at next
        split at next
        · cases next
        obtain ⟨r', here, next⟩ := Option.bind_eq_some_iff.mp next
        cases next
        have inside := entryAt_inside here
        have len := entryAt_len here
        have fits : new.index.toNat + 8 + r.name.length ≤ new.data.size := by omega
        have kept : new.keep r = some ⟨⟨new.data.size, putEntry new.data.mem new.index.toNat
            r.inode.toNat r.entryLen r.name.length r.fileType (ofList r.name) r.name.length⟩,
            new.index + UInt32.ofNat r.entryLen, new.size + UInt32.ofNat r.entryLen⟩ := by
          rw [Rebuilt.keep, storeEntry, if_pos fits]
          rfl
        rw [kept, Option.bind_eq_bind, Option.bind_some]
        refine ih scanned room few ?_
        change (new.index + UInt32.ofNat r.entryLen).toNat ≤ (h.index + UInt32.ofNat r.entryLen).toNat
        rw [UInt32.toNat_add, UInt32.toNat_add, UInt32.toNat_ofNat']
        omega

theorem Refuses.fails (refuses : Refuses s path) : cnrmdir path s = some (-1, s) := by
  obtain ⟨h, e, h', st, opened, scanned, read, full⟩ := refuses
  obtain ⟨size, few⟩ := inflatedir_size (cnopendir_fresh opened)
  change h.data.size = 4096 * h.inodeSt.blocks.toNat at size
  change h.inodeSt.blocks.toNat ≤ 1032 at few
  change cnopendir s (path ++ slash :: dotDot) = some (some h) at opened
  have stops : rmdirLoop path (h.inodeSt.size.toNat + 1) h
      ⟨callocBlocks h.inodeSt.blocks.toNat, 0, 0⟩ s.vol = some (none, s.vol) :=
    rmdirLoop_stops scanned read full (Nat.le_of_eq size) (by omega) (Nat.zero_le _)
  rw [cnrmdir, opened]
  simp only [Option.bind_eq_bind, Option.bind_some]
  rw [stops]
  rfl

/-- The call fails without any change if and only if it refuses. -/
theorem cnrmdir_refuses : cnrmdir path s = some (-1, s) ↔ Refuses s path := by
  refine ⟨fun run => ?_, Refuses.fails⟩
  obtain ⟨r, opened, run⟩ := Option.bind_eq_some_iff.mp run
  obtain ⟨h, isSome, run⟩ := Option.bind_eq_some_iff.mp run
  rw [isSome] at opened
  change cnopendir s (parentPath path) = some (some h) at opened
  obtain ⟨⟨out, v'⟩, looped, run⟩ := Option.bind_eq_some_iff.mp run
  obtain ⟨found, h', scanned, ⟨k, less, count, positive⟩, unmatched, matched⟩ :=
    rmdirLoop_scan looped
  change findName h path = _ at scanned
  cases out with
  | some new =>
    obtain ⟨d, _, run⟩ := Option.bind_eq_some_iff.mp run
    obtain ⟨d', _, run⟩ := Option.bind_eq_some_iff.mp run
    cases run
  | none =>
    rw [Option.pure_def, Option.some.injEq, Prod.mk.injEq] at run
    cases found with
    | none => exact absurd rfl (unmatched rfl).1
    | some e =>
      obtain ⟨st, read, _⟩ := matched e rfl
      refine ⟨h, e, h', st, opened, scanned, read, fun size => ?_⟩
      -- a released inode is counted
      have moved := positive e st rfl read size
      have vol : v' = s.vol := congrArg Fs.vol run.2
      rw [vol] at count
      have small : Pool.inode.free s.vol < 2 ^ 32 := free_lt
      have short := h.inodeSt.size.toNat_lt
      omega

theorem Leads.snoc (leads : Leads d i toks j) (named : lookup d j tok = some e)
    (noFile : e.fileType ≠ ITYPE_FILE) : Leads d i (toks ++ [tok]) e.inode := by
  induction toks generalizing i with
  | nil =>
    obtain rfl := leads_nil.mp leads
    exact leads_cons.mpr ⟨e, named, noFile, leads_nil.mpr rfl⟩
  | cons t rest ih =>
    obtain ⟨f, first, clean, leads⟩ := leads_cons.mp leads
    exact leads_cons.mpr ⟨f, first, clean, ih leads⟩

theorem NamesEmpty.parent (names : NamesEmpty s path j e) (holds : Holds s.vol own node)
    (home : ∀ dir, s.cwd = some dir → ∃ q fs, node dir.inodeId = some (.dir q fs)) :
    (∃ q fs, node j = some (.dir q fs) ∧ e ∈ fs) ∧ node e.inode = some (.dir j []) ∧
      landing s (parentPath path) = some j ∧ PathOk s (parentPath path) := by
  obtain ⟨start, front, starts, toks, leads⟩ := names.leads
  obtain ⟨_, _, first⟩ := holds.start_dir home starts
  obtain ⟨q, fs, there⟩ := holds.leads_dir first leads
  have member := (holds.lookup_proper there names.found names.notDot names.notDotDot).1
  obtain ⟨gs, st, sub, dir, _⟩ := holds.child there member names.isDir
  obtain ⟨st', read, size⟩ := names.empty
  obtain rfl := Option.some.inj (dir.read.symm.trans read)
  obtain rfl := dir.empty size
  have down := leads.snoc names.found (by rw [names.isDir]; decide)
  have up := down.snoc (holds.lookup_dots sub).2 (show ITYPE_DIR ≠ ITYPE_FILE by decide)
  have nonempty : path ≠ [] := by
    rintro rfl
    cases front <;> cases toks
  obtain ⟨c, rest, rfl⟩ := List.exists_cons_of_ne_nil nonempty
  have again : walkStart s (parentPath (c :: rest)) = some start := starts
  have components : walkToks (parentPath (c :: rest)) = front ++ [e.name] ++ [dotDot] := by
    rw [walkToks, if_neg (by simp [parentPath]), parentPath, strtok_append_slash, toks]
    rfl
  refine ⟨⟨q, fs, there, member⟩, sub, ?_, fun i same => ?_⟩
  · rw [landing, again, components]
    exact up.1
  · obtain rfl := Option.some.inj (again.symm.trans same)
    rw [components]
    exact up.2

theorem NamesEmpty.opened (names : NamesEmpty s path j e) (holds : Holds s.vol own node)
    (home : ∀ dir, s.cwd = some dir → ∃ q fs, node dir.inodeId = some (.dir q fs))
    (run : cnopendir s (parentPath path) = some r) :
    ∃ h, r = some h ∧ Opened s.vol own node j 0 h := by
  obtain ⟨_, _, land, noFiles⟩ := names.parent holds home
  exact (holds.opendir home noFiles run).2.1 j land

theorem NamesEmpty.slash_kept (names : NamesEmpty s path j e) (holds : Holds s.vol own node)
    (home : ∀ dir, s.cwd = some dir → ∃ q fs, node dir.inodeId = some (.dir q fs))
    (has : slash ∈ path) (run : cnrmdir path s = some (code, s')) :
    bit s'.vol.inodeBmCache e.inode.toNat = true := by
  obtain ⟨⟨q, fs, there, member⟩, sub, _⟩ := names.parent holds home
  obtain ⟨r, opened, run⟩ := Option.bind_eq_some_iff.mp run
  obtain ⟨parent, isSome, run⟩ := Option.bind_eq_some_iff.mp run
  obtain ⟨h, rfl, q', fs', st, there', dir, rfl⟩ := names.opened holds home opened
  cases there.symm.trans there'
  obtain rfl := Option.some.inj isSome
  obtain ⟨⟨out, v'⟩, looped, run⟩ := Option.bind_eq_some_iff.mp run
  have used := (holds.inodes e.inode (by rw [sub]; simp)).2
  have kept : bit v'.inodeBmCache e.inode.toNat = true := by
    refine rmdirLoop_bits dir.lists looped used fun r inside named same => ?_
    rw [(holds.records_text there inside).2] at named
    rw [← named] at has
    rcases List.mem_cons.mp inside with rfl | inside
    · exact absurd has (show slash ∉ dot by decide)
    · rcases List.mem_cons.mp inside with rfl | inside
      · exact absurd has (show slash ∉ dotDot by decide)
      · have entry : NameTree.Entry node j e := .of there member
        obtain ⟨_, rfl⟩ := holds.tree.once j r j e (.of there inside) entry same
        exact ((holds.proper j r entry).dirName names.isDir).2 has
  cases out with
  | none =>
    cases run
    exact kept
  | some new =>
    obtain ⟨d, _, run⟩ := Option.bind_eq_some_iff.mp run
    obtain ⟨d', _, run⟩ := Option.bind_eq_some_iff.mp run
    cases run
    exact kept

theorem Removed.frame {e : DirEntry} {ptr : UInt32} (removed : Removed s own node path i p es e ptr v')
    (holds : Holds s.vol own node) (used : bit s.vol.inodeBmCache n.toNat = true) (here : n ≠ i)
    (gone : n ≠ e.inode) : inodeRead v'.disk n = inodeRead s.vol.disk n ∧
      listing v'.disk n = listing s.vol.disk n ∧ contentOf v'.disk n = contentOf s.vol.disk n := by
  obtain ⟨m, same, live⟩ := holds.exact_inodes _ used
  obtain rfl := UInt32.toNat_inj.mp same
  have bound := (holds.inodes m live).1
  obtain ⟨number, set⟩ := holds.inodes e.inode (by rw [removed.empty]; simp)
  have ledger := holds.ledger.released removed.owner number set
  have table : inodeRead (s.vol.released ptr e.inode).disk m = inodeRead s.vol.disk m :=
    inodeRead_congr bound fun b low _ => released_disk low
  have inflate : inflatedir v'.disk m = inflatedir s.vol.disk m := by
    have blocks : ∀ b o, own b = some o → o.1 = m →
        (s.vol.released ptr e.inode).disk b = s.vol.disk b := fun b o owner _ =>
      released_disk (by have := (holds.ledger.owned b o owner).1; omega)
    cases kind : node m with
    | none => exact absurd kind live
    | some found =>
      cases found with
      | file =>
        obtain ⟨st, file⟩ := holds.files m kind
        have after := file.released holds.ledger removed.owner gone bound
        exact (removed.confined.inflatedir_eq ledger bound here after.read after.mapped).trans
          (inflatedir_congr holds.ledger file.read file.mapped table blocks)
      | dir q fs =>
        obtain ⟨st, dir⟩ := holds.dirs m q fs kind
        have after := dir.released holds.ledger removed.owner gone bound
        exact (removed.confined.inflatedir_eq ledger bound here after.read after.mapped).trans
          (inflatedir_congr holds.ledger dir.read dir.mapped table blocks)
  refine ⟨(removed.confined.table m bound here).trans table, ?_, ?_⟩
  · rw [listing, listing, inflate]
  · rw [contentOf_inflate, contentOf_inflate, inflate]

omit [InodeLayout] in
theorem free_succ {pool : Pool} {k : Nat} (ledger : Ledger v own) (ledger' : Ledger v' own')
    (bound : k < pool.limit) (set : bit (pool.cache v) k = true)
    (bits : ∀ m, bit (pool.cache v') m = (bit (pool.cache v) m && decide (m ≠ k))) :
    pool.free v' = pool.free v + 1 := by
  rw [ledger'.agrees pool, ledger.agrees pool]
  refine LeastIndex.clearCount_insert bound ?_ fun m _ => ?_
  · rw [bits]
    simp
  · rw [bits]
    by_cases same : m = k
    · simp [same, set]
    · simp [same]

theorem Removed.inodeBits {e : DirEntry} {ptr : UInt32}
    (removed : Removed s own node path i p es e ptr v') (holds : Holds s.vol own node) (n : Nat) :
    bit v'.inodeBmCache n = (bit s.vol.inodeBmCache n && decide (n ≠ e.inode.toNat)) := by
  rw [Bool.eq_iff_iff, Bool.and_eq_true, decide_eq_true_iff]
  constructor
  · intro used
    obtain ⟨k, rfl, live⟩ := removed.holds.exact_inodes n used
    obtain ⟨other, before⟩ := (NameTree.erase_live (S := scheme) removed.found).mp live
    exact ⟨(holds.inodes k before).2, fun same => other (UInt32.toNat_inj.mp same)⟩
  · rintro ⟨used, other⟩
    refine removed.confined.inodes n ?_
    rw [released_inodeBm, used, Bool.true_and]
    exact decide_eq_true other

theorem Removed.blockBits {e : DirEntry} {ptr : UInt32}
    (removed : Removed s own node path i p es e ptr v') (holds : Holds s.vol own node) (n : Nat) :
    bit v'.blockBmCache n = (bit s.vol.blockBmCache n && decide (n ≠ ptr.toNat)) := by
  rw [Bool.eq_iff_iff, Bool.and_eq_true, decide_eq_true_iff]
  constructor
  · intro used
    rcases removed.confined.used n used with old | ⟨b, o, rfl, owner⟩
    · rw [released_blockBm, Bool.and_eq_true, decide_eq_true_iff] at old
      exact old
    · obtain ⟨other, owner⟩ := Owner.drop_of owner
      exact ⟨(holds.ledger.owned b o owner).2.2, fun same => other (UInt32.toNat_inj.mp same)⟩
  · rintro ⟨used, other⟩
    rcases holds.exact_blocks n used with low | ⟨b, o, rfl, owner⟩
    · exact removed.confined.ledger.metadata n low
    · have kept : own.drop ptr b = some o := by
        rw [Owner.drop_other (fun same => other (by rw [same])), owner]
      exact (removed.confined.ledger.owned b o kept).2.2

theorem Removed.entryRemoved {e : DirEntry} {ptr : UInt32}
    (removed : Removed s own node path i p es e ptr v') (holds : Holds s.vol own node) :
    EntryRemoved s.vol i e v' := by
  obtain ⟨number, set⟩ := holds.inodes e.inode (by rw [removed.empty]; simp)
  have proper := holds.proper i e (.of removed.found removed.member)
  have apart : i ≠ e.inode := (holds.tree.target_ne (.of removed.found removed.member)).symm
  have after : NameTree.erase scheme node i p es e i =
      some (.dir p (es.filter fun f => f.name ≠ e.name)) := NameTree.erase_parent (S := scheme) apart
  have ledger := removed.confined.ledger
  obtain ⟨st, dir⟩ := holds.dirs i p es removed.found
  obtain ⟨st', dir'⟩ := removed.holds.dirs i p _ after
  obtain ⟨child, target⟩ := holds.dirs _ _ _ removed.empty
  obtain rfl : ptr = child.block0 := target.only ptr (.data 0) removed.owner
  obtain ⟨_, high, block⟩ := holds.ledger.owned _ _ target.owner
  have inodeBits := removed.inodeBits holds
  have blockBits := removed.blockBits holds
  have inodes : Pool.inode.free v' = Pool.inode.free s.vol + 1 :=
    free_succ holds.ledger ledger number set inodeBits
  have blocks : Pool.block.free v' = Pool.block.free s.vol + 1 :=
    free_succ holds.ledger ledger high block blockBits
  obtain ⟨front, back, split, others⟩ := NameTree.split_entry (S := scheme)
    (holds.tree.names i p es removed.found) removed.member
  refine ⟨?_, ⟨dotEntry i :: dotDotEntry p :: front, back, ?_, ?_⟩, inodeBits,
    ⟨child, target.read, target.blocks, blockBits⟩, inodes, blocks,
    fun k used here gone => removed.frame holds used here gone⟩
  · rw [removed.holds.lookup_eq after, List.find?_eq_none]
    intro r member
    rcases List.mem_cons.mp member with rfl | member
    · exact (decide_eq_false proper.notDot.symm) ▸ Bool.false_ne_true
    · rcases List.mem_cons.mp member with rfl | member
      · exact (decide_eq_false proper.notDotDot.symm) ▸ Bool.false_ne_true
      · simpa using (List.mem_filter.mp member).2
  · rw [dir.listing_eq holds.ledger, records, split]
    rfl
  · rw [dir'.listing_eq ledger]
    exact congrArg (fun l => some (dotEntry i :: dotDotEntry p :: l)) others

theorem NamesEmpty.plain_name (names : NamesEmpty s path j e) (plain : slash ∉ path) :
    e.name = path := by
  obtain ⟨start, front, _, toks, _⟩ := names.leads
  have nonempty : path ≠ [] := by
    rintro rfl
    cases front <;> cases toks
  rw [strtok_single nonempty plain] at toks
  exact (List.append_singleton_inj.mp (show [] ++ [path] = front ++ [e.name] from toks)).2.symm

theorem NamesEmpty.plain_step (names : NamesEmpty s path j e) (holds : Holds s.vol own node)
    (home : ∀ dir, s.cwd = some dir → ∃ q fs, node dir.inodeId = some (.dir q fs))
    (plain : slash ∉ path) (run : cnrmdir path s = some (code, s')) :
    code = 0 ∧ ∃ q fs ptr v', s' = { s with vol := v' } ∧
      Removed s own node path j q fs e ptr v' := by
  obtain ⟨⟨q, fs, there, member⟩, _, land, noFiles⟩ := names.parent holds home
  have named := names.plain_name plain
  have found : lookup s.vol.disk j path = some e := named ▸ names.found
  have onlyDirs (i f) (land' : landing s (parentPath path) = some i)
      (found' : lookup s.vol.disk i path = some f) : f.fileType = ITYPE_DIR := by
    cases land.symm.trans land'
    cases found.symm.trans found'
    exact names.isDir
  rcases holds.rmdir home noFiles (by rw [Whole, land]; simp) (named ▸ names.notDot)
    (named ▸ names.notDotDot) onlyDirs run with
    ⟨failed, same⟩ | ⟨_, i, p, es, v', _, land', missing, _⟩ |
    ⟨done, i, p, es, f, ptr, v', land', rfl, removed⟩
  · exfalso
    rw [failed, same] at run
    obtain ⟨h, f, h', st, opened, scanned, read, full⟩ := cnrmdir_refuses.mp run
    obtain ⟨h₁, isSome, opened⟩ := names.opened holds home opened
    cases isSome
    have front : findName { h with index := 0 } path = some (some f, h') := by
      obtain ⟨_, _, _, _, _, rfl⟩ := opened
      exact scanned
    have first := opened.findName_eq holds front
    rw [found] at first
    cases first
    obtain ⟨st', read', size⟩ := names.empty
    cases read.symm.trans read'
    exact full size
  · rw [land] at land'
    cases land'
    rw [found] at missing
    cases missing
  · rw [land] at land'
    cases land'
    cases there.symm.trans removed.found
    have same : f = e := holds.tree.name_inj (S := scheme) there removed.member member
      (removed.name.trans named.symm)
    subst same
    exact ⟨done, q, fs, ptr, v', rfl, removed⟩

theorem NamesEmpty.plain_removed (names : NamesEmpty s path j e) (holds : Holds s.vol own node)
    (home : ∀ dir, s.cwd = some dir → ∃ q fs, node dir.inodeId = some (.dir q fs))
    (plain : slash ∉ path) (run : cnrmdir path s = some (code, s')) :
    code = 0 ∧ EntryRemoved s.vol j e s'.vol := by
  obtain ⟨done, q, fs, ptr, v', rfl, removed⟩ := names.plain_step holds home plain run
  exact ⟨done, removed.entryRemoved holds⟩

theorem Holds.rmdir_total (holds : Holds s.vol own node) (there : node j = some (.dir q fs))
    (opened : cnopendir s (parentPath path) = some (some h)) (fresh : Opened s.vol own node j 0 h)
    (notDot : path ≠ dot) (notDotDot : path ≠ dotDot)
    (onlyDirs : ∀ e ∈ fs, e.name = path → e.fileType = ITYPE_DIR) : ∃ r, cnrmdir path s = some r := by
  obtain ⟨q', fs', st, there', dir, rfl⟩ := fresh
  cases there.symm.trans there'
  have one : (handle s.vol.disk j st).inodeSt.blocks.toNat = 1 := by
    rw [show (handle s.vol.disk j st).inodeSt.blocks = 1 from dir.blocks]; rfl
  have few : (records j q fs).length < (handle s.vol.disk j st).inodeSt.size.toNat + 1 := by
    have := dir.lists.length_le
    omega
  have targets (r) (inside : r ∈ records j q fs) (called : cstr r.name = path) :
      r.inode.toNat < 6400 ∧ ∃ st', inodeRead s.vol.disk r.inode = some st' ∧
        st'.block0.toNat < 25600 := by
    rw [(holds.records_text there inside).2] at called
    have member : r ∈ fs := by
      rcases List.mem_cons.mp inside with rfl | inside
      · exact absurd called.symm notDot
      · exact (List.mem_cons.mp inside).resolve_left fun same => notDotDot (by rw [← called, same]; rfl)
    obtain ⟨_, child, _, target, _, number, _⟩ := holds.child there member (onlyDirs r member called)
    exact ⟨number, child, target.read, (holds.ledger.owned _ _ target.owner).2.1⟩
  obtain ⟨out, v', looped, size⟩ := rmdirLoop_total dir.lists few
    (show _ ∧ (⟨callocBlocks 1, 0, 0⟩ : Rebuilt).data.size = 4096 from ⟨rfl, rfl⟩) (Nat.le_refl 0)
    (holds.records_sound there) targets
  have bound := (holds.inodes j (by rw [there]; simp)).1
  change cnopendir s (path ++ slash :: dotDot) = some (some (handle s.vol.disk j st)) at opened
  rw [cnrmdir, opened]
  simp only [Option.bind_eq_bind, Option.bind_some, one]
  rw [looped, Option.bind_some]
  cases out with
  | none => exact ⟨_, rfl⟩
  | some new =>
    have single : ({ st with size := new.size } : Inode).blocks.toNat = 1 := one
    have inside (d : Disk) : Inside d { st with size := new.size } :=
      inside_one dir.blocks (holds.ledger.owned _ _ dir.owner).2.1
    dsimp only
    change ∃ r, (inodeWrite v'.disk j { st with size := new.size }).bind _ = some r
    rw [inodeWrite_eq bound, if_pos (fits_of_read bound dir.read), Option.bind_some]
    change ∃ r, (llwrite _ { st with size := new.size } new.data).bind _ = some r
    rw [llwrite_eq (inside _) (by rw [size new rfl, single]) (fun many => by omega)]
    exact ⟨_, rfl⟩

theorem NamesEmpty.plain_total (names : NamesEmpty s path j e) (holds : Holds s.vol own node)
    (home : ∀ dir, s.cwd = some dir → ∃ q fs, node dir.inodeId = some (.dir q fs))
    (plain : slash ∉ path) (short : path.length ≤ 252) : ∃ r, cnrmdir path s = some r := by
  have named := names.plain_name plain
  obtain ⟨⟨q, fs, there, member⟩, sub, land, noFiles⟩ := names.parent holds home
  have toks : walkToks (parentPath path) ≠ [] := by
    rw [walkToks, if_neg (by simp [parentPath]), parentPath, strtok_append_slash]
    exact List.append_ne_nil_of_right_ne_nil _ (by decide)
  obtain ⟨r, opened⟩ := holds.opendir_total home noFiles land toks
    (by simp [parentPath, dotDot]; omega)
  obtain ⟨h, rfl, fresh⟩ := names.opened holds home opened
  refine holds.rmdir_total there opened fresh (fun same => names.notDot (named.trans same))
    (fun same => names.notDotDot (named.trans same)) fun f inside called => ?_
  obtain rfl : f = e := holds.tree.name_inj (S := scheme) there inside member (called.trans named.symm)
  exact names.isDir

/-- `cnrmdir` comes to its end and does exactly what it is there for if and only if the name of an
empty directory has no slash and at most 252 bytes, and every other path is refused. -/
theorem rmdir_exact {s : Fs} {own : Owner} {node : Nodes} (path : Name) (holds : Holds s.vol own node)
    (home : ∀ dir, s.cwd = some dir → ∃ q fs, node dir.inodeId = some (.dir q fs)) :
    (∃ code s', cnrmdir path s = some (code, s') ∧ RemovesExactly s path code s') ↔
      ((∃ j e, NamesEmpty s path j e) → slash ∉ path ∧ path.length ≤ 252) ∧
      ((¬ ∃ j e, NamesEmpty s path j e) → Refuses s path) := by
  constructor
  · rintro ⟨code, s', run, exact⟩
    refine ⟨fun ⟨j, e, names⟩ => ⟨fun has => ?_, ?_⟩, fun other => ?_⟩
    · have kept := names.slash_kept holds home has run
      rw [(exact.removed j e names).inodeBm] at kept
      simp at kept
    · obtain ⟨r, opened, _⟩ := Option.bind_eq_some_iff.mp run
      have short := cnopendir_short opened
      simp only [List.length_append, List.length_cons, dotDot] at short
      exact Nat.le_of_lt_succ (Nat.lt_of_add_lt_add_right short)
    · obtain ⟨rfl, rfl⟩ := exact.refused other
      exact cnrmdir_refuses.mp run
  · rintro ⟨plain, refuses⟩
    by_cases names : ∃ j e, NamesEmpty s path j e
    · obtain ⟨noSlash, short⟩ := plain names
      obtain ⟨j, e, named⟩ := names
      obtain ⟨⟨code, s'⟩, run⟩ := named.plain_total holds home noSlash short
      have removed (j e) (named : NamesEmpty s path j e) :=
        named.plain_removed holds home noSlash run
      exact ⟨code, s', run, ⟨fun _ => ⟨j, e, named⟩, fun _ => (removed j e named).1⟩,
        fun j e named => (removed j e named).2, fun other => absurd ⟨j, e, named⟩ other⟩
    · exact ⟨-1, s, (refuses names).fails,
        ⟨fun done => absurd done (by decide), fun named => absurd named names⟩,
        fun j e named => absurd ⟨j, e, named⟩ names, fun _ => ⟨rfl, rfl⟩⟩

end
end

section Lp64
attribute [local instance] lp64

def entryA : DirEntry := ⟨1, entryLenOf 1, ITYPE_DIR, [97]⟩

theorem dirMade_facts :
    (dirMade.fs.cwd.map (·.inodeId)) = some 0 ∧ lookup dirMade.fs.vol.disk 0 [97] = some entryA ∧
    ((inodeRead dirMade.fs.vol.disk 1).map (·.size)) = some 24 ∧
    ((cnrmdir [slash, 97] dirMade.fs).map (·.1)) = some 0 := by decide +kernel

theorem dirMade_names : NamesEmpty dirMade.fs [97] 0 entryA ∧
    NamesEmpty dirMade.fs [slash, 97] 0 entryA := by
  obtain ⟨here, found, size, _⟩ := dirMade_facts
  obtain ⟨cwd, here, stands⟩ := Option.map_eq_some_iff.mp here
  have empty := Option.map_eq_some_iff.mp size
  refine ⟨⟨⟨0, [], ?_, by decide, rfl, trivial⟩, found, by decide, by decide, rfl, empty⟩,
    ⟨⟨0, [], rfl, by decide, rfl, trivial⟩, found, by decide, by decide, rfl, empty⟩⟩
  rw [walkStart, if_neg (by decide), here, Option.map_some, stands]

/-- The directory a is removed by its plain name. -/
theorem rmdir_exact_plain : ∃ code s', cnrmdir [97] dirMade.fs = some (code, s') ∧
    RemovesExactly dirMade.fs [97] code s' := by
  obtain ⟨own, node, inv⟩ := dirMade_inv
  exact (rmdir_exact [97] (show Holds dirMade.fs.vol own node from inv.sound.holds)
    inv.sound.home).mpr ⟨fun _ => by decide, fun none => absurd ⟨0, entryA, dirMade_names.1⟩ none⟩

/-- The absolute path /a of the directory a succeeds and removes nothing. -/
theorem rmdir_exact_absolute : ∃ s', cnrmdir [slash, 97] dirMade.fs = some (0, s') ∧
    NamesEmpty dirMade.fs [slash, 97] 0 entryA ∧
    ¬ RemovesExactly dirMade.fs [slash, 97] 0 s' := by
  obtain ⟨_, _, _, done⟩ := dirMade_facts
  obtain ⟨⟨code, s'⟩, run, rfl⟩ := Option.map_eq_some_iff.mp done
  obtain ⟨own, node, inv⟩ := dirMade_inv
  have names := dirMade_names.2
  refine ⟨s', run, names, fun exact => ?_⟩
  have kept := names.slash_kept inv.sound.holds inv.sound.home (by decide) run
  rw [(exact.removed 0 entryA names).inodeBm] at kept
  simp at kept

end Lp64

end CdnwSh
