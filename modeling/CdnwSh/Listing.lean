import CdnwSh.Machine
import CdnwSh.Shell

/-! `cnls` prints every entry of the directory a path leads to, and its text fits the buffer
of `sh_ls`. Nothing is assumed of the rest of the volume. -/
namespace CdnwSh

open RecordList

def lsText (es : List DirEntry) : Name := es.flatMap fun e => e.name ++ [newline]

/-- A record as `cnmkdir`, `cncreat` and `write_root_dir` make it. -/
def Printable (e : DirEntry) : Prop := e.Sound ∧ 0 ∉ e.name

section
variable {es : List DirEntry}

theorem lsText_length (sounds : ∀ e ∈ es, e.Sound) :
    (lsText es).length + 8 * es.length ≤ (es.map DirEntry.entryLen).sum := by
  induction es with
  | nil => exact Nat.le_refl 0
  | cons e rest ih =>
    have tail := ih fun r member => sounds r (List.mem_cons_of_mem _ member)
    have len := (sounds e List.mem_cons_self).len.1
    have cons : (lsText (e :: rest)).length = e.name.length + 1 + (lsText rest).length := by
      rw [lsText, List.flatMap_cons, List.length_append, List.length_append]
      rfl
    simp only [cons, List.length_cons, List.map_cons, List.sum_cons]
    omega

theorem lsText_fits (tiles : Tiles decode DirEntry.entryLen 0 stop es) (small : stop ≤ 4096)
    (sounds : ∀ e ∈ es, e.Sound) : (lsText es).length + 1 ≤ 4096 := by
  have total := lsText_length sounds
  have size := tiles.stop_eq
  cases es with
  | nil => decide
  | cons e rest =>
    rw [List.length_cons] at total
    omega

theorem lsText_clean (texts : ∀ e ∈ es, 0 ∉ e.name) : 0 ∉ lsText es := by
  intro member
  obtain ⟨e, inside, member⟩ := List.mem_flatMap.mp member
  rcases List.mem_append.mp member with named | line
  · exact texts e inside named
  · exact absurd line (by decide)

/-- A directory that can be enumerated is searched for its first record with a name. -/
theorem findNameLoop_readAll (all : readAllLoop fuel dir = some es) (tok : Name) :
    ∃ dir', findNameLoop fuel dir tok = some (es.find? (fun e => cstr e.name = tok), dir') := by
  induction fuel generalizing dir es with
  | zero => cases all
  | succ fuel ih =>
    rw [readAllLoop] at all
    obtain ⟨step, read, all⟩ := Option.bind_eq_some_iff.mp all
    rw [findNameLoop, read, Option.bind_eq_bind, Option.bind_some]
    cases step with
    | none =>
      cases all
      exact ⟨dir, rfl⟩
    | some next =>
      obtain ⟨entry, next⟩ := next
      obtain ⟨rest, others, all⟩ := Option.bind_eq_some_iff.mp all
      cases all
      dsimp only
      by_cases named : cstr entry.name = tok
      · exact ⟨next, by simp [named]⟩
      · obtain ⟨dir', scanned⟩ := ih others
        exact ⟨dir', by simp [named, scanned]⟩

variable [InodeLayout]

theorem findName_lookup {d : Disk} (inflated : inflatedir d i = some dir) (named : lookup d i tok = some e) :
    ∃ dir', findName dir tok = some (some e, dir') := by
  obtain ⟨rs, listed, first⟩ := Option.bind_eq_some_iff.mp named
  rw [listing, inflated] at listed
  obtain ⟨dir', scanned⟩ := findNameLoop_readAll listed tok
  exact ⟨dir', by rw [findName, scanned, first]⟩

/-- A walk whose components are all found ends with a fresh copy of the last one. -/
theorem openWalk_resolve {d : Disk} (resolved : resolve d i toks = some j)
    (inflated : inflatedir d j = some h) :
    ∃ dir, inflatedir d i = some dir ∧ ∀ loaded, openWalk d toks dir loaded = some (some h) := by
  induction toks generalizing i with
  | nil =>
    cases resolved
    exact ⟨h, inflated, fun _ => rfl⟩
  | cons tok rest ih =>
    rw [resolve] at resolved
    cases named : lookup d i tok with
    | none =>
      rw [named] at resolved
      cases resolved
    | some e =>
      rw [named] at resolved
      obtain ⟨next, loads, walks⟩ := ih resolved
      obtain ⟨rs, listed, _⟩ := Option.bind_eq_some_iff.mp named
      obtain ⟨dir, start, _⟩ := Option.bind_eq_some_iff.mp listed
      obtain ⟨dir', scanned⟩ := findName_lookup start named
      refine ⟨dir, start, fun loaded => ?_⟩
      rw [openWalk, scanned]
      simp only [Option.bind_eq_bind, Option.bind_some, loads]
      exact walks e.inode

/-- The path leads to `i`; "/" is the only path without a component. -/
structure LeadsTo (s : Fs) (path : Name) (i : Iptr) : Prop where
  short : path.length ≤ 255
  component : walkToks path ≠ [] ∨ path = [slash]
  lands : landing s path = some i

theorem LeadsTo.opendir {s : Fs} (leads : LeadsTo s path i) (inflated : inflatedir s.vol.disk i = some h) :
    cnopendir s path = some (some h) := by
  obtain ⟨start, starts, resolved⟩ := Option.bind_eq_some_iff.mp leads.lands
  obtain ⟨dir, loads, walks⟩ := openWalk_resolve resolved inflated
  have begins : startDir s path = some dir := by
    rw [walkStart] at starts
    rw [startDir]
    split at starts
    next absolute =>
      cases starts
      rw [if_pos absolute, loads]
    next relative =>
      obtain ⟨cwd, here, rfl⟩ := Option.map_eq_some_iff.mp starts
      rw [if_neg relative, here]
      exact loads
  rw [cnopendir, if_neg (Nat.not_le.mpr (Nat.lt_succ_of_le leads.short)), begins, Option.bind_eq_bind,
    Option.bind_some]
  have walked := walks 6401
  by_cases root : path = [slash]
  · subst root
    rw [if_pos rfl]
    exact walked
  · obtain ⟨tok, rest, toks⟩ := List.exists_cons_of_ne_nil (leads.component.resolve_right root)
    rw [toks] at walked
    rw [if_neg root, ← walkToks, toks]
    exact walked

theorem LeadsTo.dot {s : Fs} (leads : LeadsTo s path i) :
    LeadsTo s (if path = [] then CdnwSh.dot else path) i := by
  by_cases empty : path = []
  · subst empty
    exact ⟨by decide, .inl (by decide), leads.lands⟩
  · rw [if_neg empty]
    exact leads

/-- For every path that leads to a directory of at most a block of records, `cnls` prints all its
entries in stored order, one on each line, and `sh_ls` has room for them and the final NUL. -/
theorem ls_complete {s : Fs} {h : DirPtr} (leads : LeadsTo s path i)
    (inflated : inflatedir s.vol.disk i = some h) (lists : h.Lists es)
    (small : h.inodeSt.size.toNat ≤ 4096) (printable : ∀ e ∈ es, Printable e) :
    cnls path s = some (0, lsText es) ∧ (lsText es).length + 1 ≤ 4096 ∧
    ∀ sh argv, sh.fs = s → sh.vfs = true → argv.length ≤ 1 → arg argv 0 = path →
      shLs argv sh = .done (lsText es, sh) := by
  have start : h.index.toNat = 0 := by
    obtain ⟨st, _, rest⟩ := Option.bind_eq_some_iff.mp inflated
    obtain ⟨data, _, rest⟩ := Option.bind_eq_some_iff.mp rest
    cases rest
    rfl
  have clean : ∀ e ∈ es, 0 ∉ e.name := fun e member => (printable e member).2
  have fits : (lsText es).length + 1 ≤ 4096 := by
    have tiles := lists
    rw [DirPtr.Lists, start] at tiles
    exact lsText_fits tiles small fun e member => (printable e member).1
  have text : (es.flatMap fun e => cstr e.name ++ [10]) = lsText es :=
    List.flatMap_congr fun e member => by rw [cstr_self (clean e member)]; rfl
  have lists : cnls path s = some (0, lsText es) := by
    rw [cnls, if_neg (Nat.not_le.mpr (Nat.lt_succ_of_le leads.short)), leads.dot.opendir inflated]
    simp only [Option.bind_eq_bind, Option.bind_some, readAll_eq lists, text]
    rfl
  refine ⟨lists, fits, ?_⟩
  rintro sh argv rfl on count rfl
  rw [shLs, checked, if_neg (by simp [on]), if_neg (by simpa using count), lists]
  simp only [Option.bind_eq_bind, Option.bind_some, stored]
  rw [if_neg (by omega), if_neg (by decide), cstr_self (lsText_clean clean)]
  rfl

end

section Lp64
attribute [local instance] lp64

/-- What the root directory holds behind a directory a. -/
def rootRecords : List DirEntry := [dotEntry 0, dotDotEntry 0, ⟨1, entryLenOf 1, ITYPE_DIR, [97]⟩]

theorem rootRecords_lists : (inflatedir dirMade.fs.vol.disk 0).map (fun h =>
    decide (Tiles (entryAt h.data) DirEntry.entryLen h.index.toNat h.inodeSt.size.toNat rootRecords ∧
      h.inodeSt.size.toNat ≤ 4096)) = some true := by decide +kernel

theorem ls_complete_root :
    cnls [47, 97, 47, 46, 46] dirMade.fs = some (0, lsText rootRecords) ∧
    lsText rootRecords = [46, 10, 46, 46, 10, 97, 10] := by
  obtain ⟨h, inflated, lists⟩ := Option.map_eq_some_iff.mp rootRecords_lists
  obtain ⟨lists, small⟩ := of_decide_eq_true lists
  have leads : LeadsTo dirMade.fs [47, 97, 47, 46, 46] 0 :=
    ⟨by decide, .inl (by decide), by decide +kernel⟩
  have printable : ∀ e ∈ rootRecords, Printable e := by
    intro e member
    rcases List.mem_cons.mp member with rfl | member
    · exact ⟨⟨by decide, rfl⟩, by decide⟩
    rcases List.mem_cons.mp member with rfl | member
    · exact ⟨⟨by decide, rfl⟩, by decide⟩
    · rw [List.mem_singleton.mp member]
      exact ⟨⟨by decide, rfl⟩, by decide⟩
  exact ⟨(ls_complete leads inflated lists small printable).1, by decide⟩

end Lp64

end CdnwSh
