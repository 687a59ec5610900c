import CdnwSh.MkdirEffect

/-! Making a directory and looking it up. `cnmkdir` walks by itself: from the current
directory whatever the path starts with, and in the same directory after a component that is
missing. Its answer agrees with `cnopendir` when that walk ends where the path leads. -/
namespace CdnwSh

open ByteMemory RecordList

section
variable [InodeLayout]

/-- Where the walk of `cnmkdir` ends: at an entry with the last name (`some none`), or in a
directory in which the last name is then created. -/
def mkdirEnd (d : Disk) : Iptr → List Name → Option (Option (Iptr × Name))
  | _, [] => none
  | i, tok :: rest =>
    if 256 ≤ tok.length then none
    else do
      let dir ← inflatedir d i
      let (found, _) ← findName dir tok
      match found with
      | some entry => if rest = [] then return none else mkdirEnd d entry.inode rest
      | none => if rest = [] then return some (i, tok) else mkdirEnd d i rest

/-- "Create the directory at the end of the list". -/
def createBranch (s : Fs) (dir : DirPtr) (tok : Name) : Option (Int × Fs) := do
  let (self, dir, s) ← appendEntry s dir tok ITYPE_DIR
  let s ← createDir s self dir.inodeId
  return (0, s)

/-- The walk from directory `i` ends in the create branch, in directory `j`. -/
def Branches (s : Fs) (i : Iptr) (toks : List Name) (out : Int × Fs) : Prop :=
  ∃ j tok front h h', mkdirEnd s.vol.disk i toks = some (some (j, tok)) ∧
    toks = front ++ [tok] ∧ tok.length ≤ 255 ∧ inflatedir s.vol.disk j = some h ∧
    findName h tok = some (none, h') ∧ createBranch s h' tok = some out

/-- The components lead from directory `i` to directory `j`: each is found, and none is a
regular file. -/
def Leads (d : Disk) (i : Iptr) (toks : List Name) (j : Iptr) : Prop :=
  resolve d i toks = some j ∧ NoFiles d i toks

/-- A component before the last one is missing, from the root for a path that starts with a
slash and from `cwd` otherwise. -/
def ComponentMissing (s : Fs) (path : Name) : Prop :=
  ∃ start front tok back k, walkStart s path = some start ∧ strtok path = front ++ tok :: back ∧
    back ≠ [] ∧ Leads s.vol.disk start front k ∧ lookup s.vol.disk k tok = none

/-- The path did not resolve, all its components but the last did, and it now opens a new
directory below the one they lead to. -/
def NewlyFound (s : Fs) (path : Name) (s' : Fs) : Prop :=
  ∃ start front last j i h, walkStart s path = some start ∧ strtok path = front ++ [last] ∧
    Leads s.vol.disk start front j ∧ lookup s.vol.disk j last = none ∧
    i.toNat < 6400 ∧ bit s.vol.inodeBmCache i.toNat = false ∧
    bit s'.vol.inodeBmCache i.toNat = true ∧ cnopendir s' path = some (some h) ∧
    inflatedir s'.vol.disk i = some h ∧
    listing s'.vol.disk i = some [dotEntry i, dotDotEntry j]

def MkdirAgrees (s : Fs) (path : Name) (code : Int) (s' : Fs) : Prop :=
  (code = 0 → NewlyFound s path s') ∧ (ComponentMissing s path → code = -1 ∧ s' = s)

/-- A walk that does not end at an entry ends in the directory that the components before the
last lead to, and there is an inode left; `cnopendir` takes at most 255 bytes. -/
def EndsRight (s : Fs) (path : Name) : Prop :=
  ∀ cwd j last, s.cwd = some cwd →
    mkdirEnd s.vol.disk cwd.inodeId (strtok path) = some (some (j, last)) →
      (∃ start front, walkStart s path = some start ∧ strtok path = front ++ [last] ∧
        Leads s.vol.disk start front j) ∧ Pool.inode.free s.vol ≠ 0 ∧ path.length ≤ 255

section
variable {s s' : Fs} {v v' : Vol} {d d' : Disk} {own : Owner} {node : Nodes} {i j n p q : Iptr}
  {es fs : List DirEntry} {st : Inode} {h h' : DirPtr} {e : DirEntry}

theorem mkdirEnd_found (short : ¬ 256 ≤ tok.length) (opens : inflatedir d i = some h)
    (scanned : findName h tok = some (some e, h')) :
    mkdirEnd d i (tok :: rest) = if rest = [] then some none else mkdirEnd d e.inode rest := by
  rw [mkdirEnd, if_neg short, opens, Option.bind_eq_bind, Option.bind_some, scanned]
  rfl

theorem mkdirEnd_missing (short : ¬ 256 ≤ tok.length) (opens : inflatedir d i = some h)
    (scanned : findName h tok = some (none, h')) :
    mkdirEnd d i (tok :: rest) = if rest = [] then some (some (i, tok)) else mkdirEnd d i rest := by
  rw [mkdirEnd, if_neg short, opens, Option.bind_eq_bind, Option.bind_some, scanned]
  rfl

theorem mkdirWalk_end (read : inodeRead s.vol.disk i = some st) :
    (mkdirEnd s.vol.disk i toks = some none → mkdirWalk s toks st i = some (-1, s)) ∧
    ∀ out, mkdirWalk s toks st i = some out →
      (mkdirEnd s.vol.disk i toks = some none ∧ out = (-1, s)) ∨ Branches s i toks out := by
  induction toks generalizing i st with
  | nil => exact ⟨fun ended => (by cases ended), fun out walked => by cases walked⟩
  | cons tok rest ih =>
    by_cases long : 256 ≤ tok.length
    · rw [mkdirEnd, mkdirWalk, if_pos long, if_pos long]
      exact ⟨fun ended => (by cases ended), fun out walked => by cases walked⟩
    rw [mkdirWalk, if_neg long]
    cases loaded : llread s.vol.disk st (callocBlocks st.blocks.toNat) with
    | none =>
      rw [mkdirEnd, if_neg long, inflatedir, read]
      simp only [Option.bind_eq_bind, Option.bind_some, loaded]
      exact ⟨fun ended => (by cases ended), fun out walked => by cases walked⟩
    | some data =>
      have opens : inflatedir s.vol.disk i = some ⟨st, i, 0, data⟩ := by
        rw [inflatedir, read, Option.bind_eq_bind, Option.bind_some, loaded]
        rfl
      rw [Option.bind_eq_bind, Option.bind_some]
      cases scanned : findName ⟨st, i, 0, data⟩ tok with
      | none =>
        rw [mkdirEnd, if_neg long, opens, Option.bind_eq_bind, Option.bind_some, scanned]
        exact ⟨fun ended => (by cases ended), fun out walked => by cases walked⟩
      | some found =>
        obtain ⟨found, dir⟩ := found
        rw [Option.bind_eq_bind, Option.bind_some]
        have step {k : Iptr} (same : mkdirEnd s.vol.disk i (tok :: rest) = mkdirEnd s.vol.disk k rest)
            {out : Int × Fs} (tail : (mkdirEnd s.vol.disk k rest = some none ∧ out = (-1, s)) ∨
              Branches s k rest out) :
            (mkdirEnd s.vol.disk i (tok :: rest) = some none ∧ out = (-1, s)) ∨
              Branches s i (tok :: rest) out := by
          rcases tail with ⟨stopped, failed⟩ | ⟨j, t, front, h, h', ended, rfl, created⟩
          · exact .inl ⟨same.trans stopped, failed⟩
          · exact .inr ⟨j, t, tok :: front, h, h', same.trans ended, rfl, created⟩
        cases found with
        | some entry =>
          have ends : mkdirEnd s.vol.disk i (tok :: rest) = _ := mkdirEnd_found long opens scanned
          dsimp only
          by_cases last : rest = []
          · rw [if_pos last] at ends ⊢
            exact ⟨fun _ => rfl, fun out walked => .inl ⟨ends, (Option.some.inj walked).symm⟩⟩
          · rw [if_neg last] at ends ⊢
            rw [ends]
            cases next : inodeRead s.vol.disk entry.inode with
            | some inodeSt =>
              rw [Option.bind_eq_bind, Option.bind_some]
              exact ⟨(ih next).1, fun out walked => ends ▸ step ends ((ih next).2 out walked)⟩
            | none =>
              refine ⟨fun ended => ?_, fun out walked => by cases walked⟩
              obtain ⟨t, more, rfl⟩ := List.exists_cons_of_ne_nil last
              rw [mkdirEnd, inflatedir, next] at ended
              split at ended <;> cases ended
        | none =>
          have ends : mkdirEnd s.vol.disk i (tok :: rest) = _ := mkdirEnd_missing long opens scanned
          dsimp only
          by_cases last : rest = []
          · rw [if_pos last] at ends ⊢
            rw [ends]
            subst last
            exact ⟨fun ended => (by cases ended), fun out walked => .inr ⟨i, tok, [],
              ⟨st, i, 0, data⟩, dir, ends, rfl, by omega, opens, scanned, walked⟩⟩
          · rw [if_neg last] at ends ⊢
            rw [ends]
            exact ⟨(ih read).1, fun out walked => ends ▸ step ends ((ih read).2 out walked)⟩

omit [InodeLayout] in
theorem reserveBlock_any (ledger : Ledger v own) (run : reserveBlock v = some (ptr, v')) :
    (ptr.toNat < 3 ∨ 103 ≤ ptr.toNat) ∧ ptr.toNat < 25600 ∧ own ptr = none ∧
      v'.inodeBmCache = v.inodeBmCache ∧ ∀ b : UInt32, 3 ≤ b.toNat → v'.disk b = v.disk b := by
  by_cases left : Pool.block.free v = 0
  · rw [reserveBlock, reserve_none left] at run
    cases run
    refine ⟨.inl (by decide), by decide, ?_, rfl, fun _ _ => rfl⟩
    cases owner : own 0 with
    | none => rfl
    | some o => exact absurd (ledger.owned 0 o owner).1 (by decide)
  · obtain ⟨head, rest, free⟩ := ledger.head left
    rw [reserveBlock, reserve_head (ledger.agrees .block) free] at run
    cases run
    obtain ⟨low, high, unowned⟩ := ledger.fresh
      (show ptr ∈ freeList .block v by rw [free]; exact List.mem_cons_self)
    exact ⟨.inr low, high, unowned, rfl, fun b data => taken_disk data⟩

theorem createDir_frame (ledger : Ledger s.vol own) (bound : n.toNat < 6400)
    (run : createDir s n p = some s') :
    s'.cwd = s.cwd ∧ s'.vol.inodeBmCache = s.vol.inodeBmCache ∧
    (∀ k : Iptr, k.toNat < 6400 → k ≠ n → inodeRead s'.vol.disk k = inodeRead s.vol.disk k) ∧
    (∀ b o, own b = some o → s'.vol.disk b = s.vol.disk b) ∧
    ∃ h, inflatedir s'.vol.disk n = some h ∧ h.Lists [dotEntry n, dotDotEntry p] := by
  rw [createDir] at run
  obtain ⟨⟨ptr, v⟩, reserved, run⟩ := Option.bind_eq_some_iff.mp run
  obtain ⟨place, high, unowned, inodeBm, data⟩ := reserveBlock_any ledger reserved
  obtain ⟨d, written, run⟩ := Option.bind_eq_some_iff.mp run
  obtain ⟨_, back, others, outside⟩ := inodeWrite_spec bound written
  dsimp only at run
  rw [blkWrite_inside high] at run
  cases run
  have table (k : Iptr) (inside : k.toNat < 6400) :
      inodeRead (Extents.set d ptr (newDirBlock n p)) k = inodeRead d k :=
    inodeRead_congr inside fun b _ _ => Extents.set_other (by rintro rfl; omega)
  refine ⟨rfl, inodeBm, fun k inside apart => ?_, fun b o owner => ?_, ?_⟩
  · refine (table k inside).trans ((others k inside apart).trans ?_)
    exact inodeRead_congr inside fun b low _ => data b low
  · have low := (ledger.owned b o owner).1
    have apart : b ≠ ptr := by
      rintro rfl
      rw [unowned] at owner
      cases owner
    exact (Extents.set_other apart).trans ((outside b (.inr low)).trans (data b (by omega)))
  · refine ⟨_, inflatedir_one ((table n bound).trans back) rfl high, ?_⟩
    have slot : ((Vector.replicate 8 (0 : UInt32)).setIfInBounds 0 ptr)[0] = ptr := rfl
    unfold DirPtr.Lists
    simp only [handle, slot, Extents.set_same]
    exact newDirBlock_tiles n p

/-- The create branch takes the first inode that is left for a directory below the one it is
in, whatever that is. -/
theorem createBranch_made (ledger : Ledger s.vol own) (left : Pool.inode.free s.vol ≠ 0)
    (run : createBranch s h tok = some (code, s')) :
    code = 0 ∧ ∃ n rest, freeList .inode s.vol = n :: rest ∧
      s'.vol.inodeBmCache = setBit s.vol.inodeBmCache n.toNat ∧
      listing s'.vol.disk n = some [dotEntry n, dotDotEntry h.inodeId] := by
  obtain ⟨n, rest, free⟩ := ledger.head left
  have number := (mem_freeList.mp (show n ∈ freeList .inode s.vol by
    rw [free]; exact List.mem_cons_self)).1
  obtain ⟨⟨m, h₁, s₁⟩, appended, run⟩ := Option.bind_eq_some_iff.mp run
  obtain ⟨s₂, made, run⟩ := Option.bind_eq_some_iff.mp run
  cases run
  rw [appendEntry, reserveInode, reserve_head (ledger.agrees .inode) free] at appended
  simp only [Option.bind_eq_bind, Option.bind_some, timeNull] at appended
  obtain ⟨data, stored, appended⟩ := Option.bind_eq_some_iff.mp appended
  obtain ⟨d, written, appended⟩ := Option.bind_eq_some_iff.mp appended
  obtain ⟨⟨c, d'⟩, flushed, appended⟩ := Option.bind_eq_some_iff.mp appended
  cases appended
  have taken : Confined s.vol own (fun _ => False) (s.vol.taken .inode n) own :=
    taken_confined ledger (by rw [free]; exact List.mem_cons_self) (.refl own)
      (fun _ _ found => .inl found) (by simp)
  obtain ⟨_, inodeBm, _, _, h', opened, lists⟩ := createDir_frame (taken.ledger.withDisk (d := d'))
    number made
  refine ⟨rfl, n, rest, free, inodeBm, ?_⟩
  rw [listing, opened]
  exact readAll_eq lists

def ShowsOneMore (d' : Disk) (node : Nodes) (j : Iptr) (e : DirEntry) : Prop :=
  ∀ k p es, node k = some (.dir p es) → ∃ h more, inflatedir d' k = some h ∧
    h.Lists (records k p es ++ more) ∧ (k = j → more = [e])

omit [InodeLayout] in
theorem DirPtr.Lists.finds (lists : h.Lists es) (tok : Name) :
    ∃ next, findName h tok = some (es.find? (fun e => cstr e.name = tok), next) := by
  obtain ⟨next, scanned, _⟩ := findName_eq lists
  exact ⟨next, scanned⟩

theorem leads_nil : Leads d i [] j ↔ i = j :=
  ⟨fun leads => Option.some.inj leads.1, fun same => ⟨congrArg some same, trivial⟩⟩

theorem leads_cons : Leads d i (tok :: rest) j ↔
    ∃ e, lookup d i tok = some e ∧ e.fileType ≠ ITYPE_FILE ∧ Leads d e.inode rest j := by
  rw [Leads, resolve, NoFiles]
  cases named : lookup d i tok with
  | none =>
    constructor
    · rintro ⟨resolved, -⟩
      cases resolved
    · rintro ⟨e, found, -⟩
      cases found
  | some f =>
    constructor
    · rintro ⟨resolved, noFile, noFiles⟩
      exact ⟨f, rfl, noFile, resolved, noFiles⟩
    · rintro ⟨e, found, noFile, resolved, noFiles⟩
      cases found
      exact ⟨resolved, noFile, noFiles⟩

theorem Holds.openWalk_new (holds : Holds v own node) (shows : ShowsOneMore d' node j e)
    (found : node i = some (.dir p es)) (leads : Leads v.disk i front j)
    (missing : lookup v.disk j e.name = none) (text : 0 ∉ e.name)
    (opens : inflatedir d' i = some h) (new : inflatedir d' e.inode = some h') (loaded : Iptr) :
    openWalk d' (front ++ [e.name]) h loaded = some (some h') := by
  obtain ⟨h₁, more, opens₁, lists, here⟩ := shows i p es found
  obtain rfl := Option.some.inj (opens₁.symm.trans opens)
  induction front generalizing i p es h₁ more loaded with
  | nil =>
    obtain rfl := leads_nil.mp leads
    obtain rfl := here rfl
    have first : (records i p es ++ [e]).find? (fun r => cstr r.name = e.name) = some e := by
      rw [List.find?_append, List.find?_eq_none.mpr]
      · simp [cstr_self text]
      · intro r member
        rw [(holds.records_text found member).2]
        simpa using holds.unnamed found missing r member
    obtain ⟨next, scanned⟩ := lists.finds e.name
    rw [List.nil_append, openWalk, scanned, first]
    simp only [Option.bind_eq_bind, Option.bind_some]
    rw [new, Option.bind_some]
    rfl
  | cons tok rest ih =>
    obtain ⟨f, named, noFile, leads⟩ := leads_cons.mp leads
    obtain ⟨q, fs, _, sub, _⟩ := holds.component found named noFile
    obtain ⟨h₂, more₂, opens₂, lists₂, here₂⟩ := shows f.inode q fs sub
    have first : (records i p es ++ more).find? (fun r => cstr r.name = tok) = some f := by
      rw [holds.lookup_eq found, ← holds.find_eq found] at named
      rw [List.find?_append, named]
      rfl
    obtain ⟨next, scanned⟩ := lists.finds tok
    rw [List.cons_append, openWalk, scanned, first]
    simp only [Option.bind_eq_bind, Option.bind_some]
    rw [opens₂, Option.bind_some]
    exact ih sub leads f.inode h₂ more₂ opens₂ lists₂ here₂ opens₂

theorem Holds.leads_dir (holds : Holds v own node) (found : node i = some (.dir p es))
    (leads : Leads v.disk i toks j) : ∃ q fs, node j = some (.dir q fs) := by
  induction toks generalizing i p es with
  | nil =>
    obtain rfl := leads_nil.mp leads
    exact ⟨p, es, found⟩
  | cons tok rest ih =>
    obtain ⟨f, named, noFile, leads⟩ := leads_cons.mp leads
    obtain ⟨q, fs, _, sub, _⟩ := holds.component found named noFile
    exact ih sub leads

theorem Leads.not_missing (leads : Leads d i (front ++ tok :: back) j)
    (before : Leads d i front k) : lookup d k tok ≠ none := by
  induction front generalizing i with
  | nil =>
    obtain rfl := leads_nil.mp before
    obtain ⟨f, named, _⟩ := leads_cons.mp leads
    rw [named]
    simp
  | cons t rest ih =>
    obtain ⟨f, named, _, leads⟩ := leads_cons.mp leads
    obtain ⟨g, same, _, before⟩ := leads_cons.mp before
    obtain rfl := Option.some.inj (named.symm.trans same)
    exact ih leads before

theorem Holds.branch_shows (holds : Holds s.vol own node) (found : node j = some (.dir q fs))
    (opens : inflatedir s.vol.disk j = some h) (scanned : findName h tok = some (none, h'))
    (short : tok.length ≤ 255) (left : Pool.inode.free s.vol ≠ 0)
    (run : createBranch s h' tok = some (code, s')) :
    lookup s.vol.disk j tok = none ∧ s'.cwd = s.cwd ∧ ∃ e h₁, e.name = tok ∧
      ShowsOneMore s'.vol.disk node j e ∧ e.inode.toNat < 6400 ∧
      bit s.vol.inodeBmCache e.inode.toNat = false ∧ bit s'.vol.inodeBmCache e.inode.toNat = true ∧
      inflatedir s'.vol.disk e.inode = some h₁ ∧
      h₁.Lists [dotEntry e.inode, dotDotEntry j] := by
  obtain ⟨st, dir⟩ := holds.dirs j q fs found
  obtain rfl := Option.some.inj ((dir.inflate holds.ledger).symm.trans opens)
  obtain ⟨k, scanned', ended⟩ := dir.findName_eq holds.ledger tok
  rw [scanned, Option.some.injEq, Prod.mk.injEq] at scanned'
  obtain ⟨missing, rfl⟩ := scanned'
  obtain rfl := ended missing.symm
  have bound := (holds.inodes j (by rw [found]; simp)).1
  obtain ⟨⟨n, h₁, s₁⟩, appended, run⟩ := Option.bind_eq_some_iff.mp run
  obtain ⟨s₂, made, run⟩ := Option.bind_eq_some_iff.mp run
  cases run
  obtain ⟨v₁, st', rfl, _, entry⟩ := appendEntry_spec
    (h := { handle s.vol.disk j st with index := st.size }) holds.ledger dir dir.handleOf.reindex
    rfl bound (holds.records_sound found) short left appended
  obtain ⟨number, free, _⟩ := holds.unowned entry.fresh
  obtain ⟨cwd, inodeBm, table, blocks, h₂, opens₂, lists⟩ := createDir_frame
    (s := { s with vol := v₁, ticks := s.ticks + 1 }) entry.confined.ledger number made
  have self : h₁.inodeId = j := entry.handle.inodeId
  rw [self] at lists
  -- a directory as the two writes leave it
  have after {k : Iptr} {rs : List DirEntry} {sk : Inode} (live : node k ≠ none)
      (there : DirAt v₁.disk own k sk rs) :
      inflatedir s'.vol.disk k = some (handle s'.vol.disk k sk) ∧
        (handle s'.vol.disk k sk).Lists rs := by
    have inside := (holds.inodes k live).1
    have apart : k ≠ n := by
      rintro rfl
      exact live free
    have read := (table k inside apart).trans there.read
    refine ⟨inflatedir_one read there.blocks (entry.confined.ledger.owned _ _ there.owner).2.1, ?_⟩
    unfold DirPtr.Lists
    rw [handle, blocks _ _ there.owner]
    exact there.tiles
  refine ⟨missing.symm, cwd, ⟨n, entryLenOf tok.length, ITYPE_DIR, tok⟩, h₂, rfl,
    fun k p es here => ?_, number, (mem_freeList.mp entry.fresh).2, ?_, opens₂, lists⟩
  · have live : node k ≠ none := by rw [here]; simp
    by_cases same : k = j
    · subst same
      rw [found] at here
      cases here
      obtain ⟨opens', lists'⟩ := after live entry.dir
      exact ⟨_, _, opens', lists', fun _ => rfl⟩
    · obtain ⟨sk, there⟩ := holds.dirs k p es here
      obtain ⟨opens', lists'⟩ := after live
        (there.frame entry.confined same (holds.inodes k live).1)
      exact ⟨_, [], opens', by rw [List.append_nil]; exact lists', fun other => absurd other same⟩
  · change bit s'.vol.inodeBmCache n.toNat = true
    rw [inodeBm]
    change bit v₁.inodeBmCache n.toNat = true
    rw [entry.inodeBm, bit_setBit (Nat.lt_of_lt_of_le number (by decide))]
    simp

theorem Holds.newlyFound (holds : Holds s.vol own node) {cwd : DirPtr} (here : s.cwd = some cwd)
    (found : node cwd.inodeId = some (.dir p es)) (text : 0 ∉ path) (short : path.length ≤ 255)
    (starts : walkStart s path = some start) (toks : strtok path = front ++ [tok])
    (leads : Leads s.vol.disk start front j) (opens : inflatedir s.vol.disk j = some h)
    (scanned : findName h tok = some (none, h')) (left : Pool.inode.free s.vol ≠ 0)
    (run : createBranch s h' tok = some (code, s')) : NewlyFound s path s' := by
  have member : tok ∈ strtok path := by rw [toks]; simp
  obtain ⟨_, _, less, sub⟩ := strtok_mem member
  obtain ⟨q, fs, first⟩ := holds.start_dir (home_of here found) starts
  obtain ⟨q', fs', there⟩ := holds.leads_dir first leads
  obtain ⟨missing, cwd', e, h₁, rfl, shows, number, clear, used, opens₁, lists⟩ :=
    holds.branch_shows there opens scanned (by omega) left run
  obtain ⟨h₀, _, opens₀, _⟩ := shows start q fs first
  have begins : startDir s' path = some h₀ := by
    unfold walkStart at starts
    rw [startDir]
    split at starts
    next absolute =>
      cases starts
      rw [if_pos absolute]
      exact opens₀
    next relative =>
      rw [here] at starts
      cases starts
      rw [if_neg relative, cwd', here]
      exact opens₀
  have nonempty : path ≠ [] := by
    rintro rfl
    cases front <;> cases toks
  have notRoot : path ≠ [slash] := by
    rintro rfl
    cases front <;> cases toks
  have opened : cnopendir s' path = some (some h₁) := by
    have walked := holds.openWalk_new shows first leads missing (fun zero => text (sub 0 zero))
      opens₀ opens₁ 6401
    rw [cnopendir, if_neg (by omega), begins, Option.bind_eq_bind, Option.bind_some,
      if_neg notRoot, if_neg nonempty, toks]
    cases front with
    | nil => exact walked
    | cons t rest => exact walked
  refine ⟨start, front, e.name, j, e.inode, h₁, starts, toks, leads, missing, number, clear, used,
    opened, opens₁, ?_⟩
  rw [listing, opens₁]
  exact readAll_eq lists

end

/-- For every call that is defined: its answer agrees with path lookup if and only if its walk
ends at an entry or in the directory that the components before the last lead to, with an
inode left and a path short enough to be opened. A walk that ends at an entry fails. -/
theorem mkdir_lookup {s : Fs} {own : Owner} {node : Nodes} {cwd : DirPtr} {p : Iptr}
    {es : List DirEntry} {path : Name} (holds : Holds s.vol own node) (here : s.cwd = some cwd)
    (found : node cwd.inodeId = some (.dir p es)) (text : 0 ∉ path) :
    (mkdirEnd s.vol.disk cwd.inodeId (strtok path) = some none →
      cnmkdir path s = some (-1, s)) ∧
    ∀ code s', cnmkdir path s = some (code, s') →
      (MkdirAgrees s path code s' ↔ EndsRight s path) := by
  obtain ⟨st, dir⟩ := holds.dirs _ _ _ found
  have walks : cnmkdir path s = mkdirWalk s (strtok path) st cwd.inodeId := by
    rw [cnmkdir, here]
    simp only [Option.bind_eq_bind, Option.bind_some, dir.read]
  rw [walks]
  obtain ⟨stops, ends⟩ := mkdirWalk_end dir.read
  refine ⟨stops, fun code s' run => ?_⟩
  rcases ends _ run with ⟨stopped, same⟩ |
    ⟨j, tok, front, h, h', ended, toks, short, opens, scanned, made⟩
  · -- nothing is created
    cases same
    refine ⟨fun _ cwd' j last here' ended => ?_,
      fun _ => ⟨fun zero => (by cases zero), fun _ => ⟨rfl, rfl⟩⟩⟩
    cases here.symm.trans here'
    rw [stopped] at ended
    cases ended
  have stands : h'.inodeId = j := by
    obtain ⟨k, rfl⟩ := findNameLoop_index scanned
    obtain ⟨_, _, opens⟩ := Option.bind_eq_some_iff.mp opens
    obtain ⟨_, _, opens⟩ := Option.bind_eq_some_iff.mp opens
    cases opens
    rfl
  have done : code = 0 := by
    obtain ⟨_, _, made⟩ := Option.bind_eq_some_iff.mp made
    obtain ⟨_, _, made⟩ := Option.bind_eq_some_iff.mp made
    cases made
    rfl
  constructor
  · intro agrees cwd' j' last here' ended'
    cases here.symm.trans here'
    rw [ended] at ended'
    cases ended'
    obtain ⟨start, front', last, j', i, h₁, starts, toks', leads, _, number, clear, used, opened, _,
      list⟩ := agrees.1 done
    obtain ⟨rfl, rfl⟩ := List.append_singleton_inj.mp (toks.symm.trans toks')
    have member : i ∈ freeList .inode s.vol := mem_freeList.mpr ⟨number, clear⟩
    have left : Pool.inode.free s.vol ≠ 0 := by
      rw [← length_freeList (holds.ledger.agrees .inode)]
      exact (List.length_pos_of_mem member).ne'
    obtain ⟨_, n, rest, free, inodeBm, list'⟩ := createBranch_made holds.ledger left made
    have inside := (mem_freeList.mp (show n ∈ freeList .inode s.vol by
      rw [free]; exact List.mem_cons_self)).1
    have same : i = n := by
      rw [inodeBm, bit_setBit (Nat.lt_of_lt_of_le inside limit_le), clear, Bool.false_or] at used
      exact UInt32.toNat_inj.mp (of_decide_eq_true used)
    rw [same, list', stands] at list
    have below : j = j' := by
      simp only [Option.some.injEq, List.cons.injEq, dotDotEntry, DirEntry.mk.injEq] at list
      exact list.2.1.1
    refine ⟨⟨start, front, starts, toks, below ▸ leads⟩, left, ?_⟩
    by_contra long
    rw [cnopendir, if_pos (by omega)] at opened
    cases opened
  · intro right
    obtain ⟨⟨start, front', starts, toks', leads⟩, left, less⟩ := right cwd j tok here ended
    obtain ⟨rfl, _⟩ := List.append_singleton_inj.mp (toks.symm.trans toks')
    refine ⟨fun _ => holds.newlyFound here found text less starts toks leads opens scanned left made,
      ?_⟩
    rintro ⟨start', front', t, back, k, starts', toks', more, before, missing⟩
    obtain rfl := Option.some.inj (starts.symm.trans starts')
    obtain ⟨more', last', rfl⟩ := List.eq_nil_or_concat back |>.resolve_left more
    rw [toks, List.concat_eq_append, ← List.cons_append, ← List.append_assoc] at toks'
    obtain ⟨rfl, _⟩ := List.append_singleton_inj.mp toks'
    exact absurd missing (leads.not_missing before)

end

section Lp64
attribute [local instance] lp64

theorem emptyBooted_cwd : ∃ h, emptyBooted.fs.cwd = some h ∧ h.inodeId = 0 := by
  obtain ⟨_, _, ⟨h, here, opened⟩, _⟩ := boot_sound emptyBooted_eq
  obtain ⟨_, _, _, _, _, rfl⟩ := opened
  exact ⟨_, here, rfl⟩

theorem mkdirPaths_facts :
    ((cnmkdir [97] emptyBooted.fs).map (·.1)) = some 0 ∧
    mkdirEnd emptyBooted.fs.vol.disk 0 [[97]] = some (some (0, [97])) ∧
    Pool.inode.free emptyBooted.fs.vol ≠ 0 ∧
    ((cnmkdir [120, 47, 121] emptyBooted.fs).map (·.1)) = some 0 ∧
    lookup emptyBooted.fs.vol.disk 0 [120] = none := by decide +kernel

theorem mkdir_lookup_first : ∃ s', cnmkdir [97] emptyBooted.fs = some (0, s') ∧
    MkdirAgrees emptyBooted.fs [97] 0 s' := by
  obtain ⟨done, ends, left, _⟩ := mkdirPaths_facts
  obtain ⟨h, here, stands⟩ := emptyBooted_cwd
  obtain ⟨⟨code, s'⟩, run, rfl⟩ := Option.map_eq_some_iff.mp done
  have toks : strtok [97] = [] ++ [[97]] := by decide
  have right : EndsRight emptyBooted.fs [97] := by
    intro cwd j last here' ended
    cases here.symm.trans here'
    rw [toks, stands, List.nil_append, ends] at ended
    cases ended
    refine ⟨⟨0, [], ?_, toks, rfl, trivial⟩, left, by decide⟩
    rw [walkStart, if_neg (by decide), here, Option.map_some, stands]
  exact ⟨s', run, ((mkdir_lookup (boot_inv emptyBooted_eq).sound.holds here
    (show rootNodes h.inodeId = some (.dir 0 []) by rw [stands]; rfl)
    (show (0 : UInt8) ∉ [97] by decide)).2 _ s' run).mpr right⟩

/-- The path x/y with x missing makes a directory y. -/
theorem mkdir_lookup_missing : ∃ s', cnmkdir [120, 47, 121] emptyBooted.fs = some (0, s') ∧
    ComponentMissing emptyBooted.fs [120, 47, 121] ∧
    ¬ MkdirAgrees emptyBooted.fs [120, 47, 121] 0 s' := by
  obtain ⟨_, _, _, done, missing⟩ := mkdirPaths_facts
  obtain ⟨h, here, stands⟩ := emptyBooted_cwd
  obtain ⟨⟨code, s'⟩, run, rfl⟩ := Option.map_eq_some_iff.mp done
  have lacks : ComponentMissing emptyBooted.fs [120, 47, 121] := by
    refine ⟨0, [], [120], [[121]], 0, ?_, by decide, by simp, ⟨rfl, trivial⟩, missing⟩
    rw [walkStart, if_neg (by decide), here, Option.map_some, stands]
  refine ⟨s', run, lacks, fun agrees => ?_⟩
  exact absurd (agrees.2 lacks).1 (show (0 : Int) ≠ -1 by decide)

end Lp64

end CdnwSh
