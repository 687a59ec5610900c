import CdnwSh.DescriptorTable

/-! The descriptor table after `cncat`, `cnimport` and `cnexport`, in every run and without a
condition on its commands: what the calls that borrow a descriptor give back. -/
namespace CdnwSh

open PartialRun

/-- A descriptor in use has its bit set. Opening with the mode `FD_FREE` sets a bit only. -/
def Marked (s : Fs) : Prop := ∀ n, n < 1024 → (s.fdTbl n).state ≠ FD_FREE → bit s.fdBm n = true

/-- The descriptor bitmap and the states of all descriptors. -/
def SameDescriptors (s s' : Fs) : Prop :=
  ∀ n, n < 1024 → bit s'.fdBm n = bit s.fdBm n ∧ (s'.fdTbl n).state = (s.fdTbl n).state

/-- The search for a descriptor ends at a clear bit. -/
def BitLeft (s : Fs) : Prop := ∃ n, n < 32768 ∧ bit s.fdBm n = false

structure SameTable (s s' : Fs) : Prop where
  fdTbl : s'.fdTbl = s.fdTbl
  fdBm : s'.fdBm = s.fdBm

section
variable {s s' s₁ s₂ : Fs}

theorem SameTable.refl : SameTable s s := ⟨rfl, rfl⟩

theorem SameTable.trans (first : SameTable s s₁) (second : SameTable s₁ s') : SameTable s s' :=
  ⟨second.fdTbl.trans first.fdTbl, second.fdBm.trans first.fdBm⟩

theorem OnlyVol.table (only : OnlyVol s s') : SameTable s s' := by
  rw [OnlyVol] at only
  rw [only]
  exact ⟨rfl, rfl⟩

theorem Used.trans (first : Used s s₁) (second : Used s₁ s') : Used s s' :=
  ⟨first.files.trans second.files, fun n => (second.states n).trans (first.states n),
    second.fdBm.trans first.fdBm⟩

theorem Used.withHost (used : Used s s') : Used s { s' with host := host } :=
  ⟨used.files.trans rfl, used.states, used.fdBm⟩

theorem Used.refl : Used s s := ⟨.refl s, fun _ => rfl, rfl⟩

theorem Marked.same (marked : Marked s) (states : SameStates s s') (fdBm : s'.fdBm = s.fdBm) :
    Marked s' := by
  intro n bound used
  rw [fdBm]
  exact marked n bound (by rw [← states n]; exact used)

theorem Marked.table (marked : Marked s) (same : SameTable s s') : Marked s' :=
  marked.same (fun n => by rw [same.fdTbl]) same.fdBm

theorem Taken.marked (marked : Marked s) (taken : Taken s mode n s') : Marked s' := by
  intro k bound used
  have small := taken.inside
  rw [taken.fdBm, bit_setBit (by omega)]
  by_cases here : k = n
  · simp [here]
  · rw [taken.others k here] at used
    simp [marked k bound used]

theorem GivenBack.marked (marked : Marked s) (small : n < 1024) (back : GivenBack s n s') : Marked s' := by
  intro k bound used
  have apart : k ≠ n := by
    rintro rfl
    exact used back.state
  rw [back.others k apart] at used
  rw [back.fdBm, bit_clearBit, marked k bound used, decide_eq_false apart]
  rfl

theorem cnclose_marked (marked : Marked s) (run : cnclose fd s = some (code, s')) : Marked s' := by
  obtain ⟨n, _, small, ⟨_, rfl⟩ | ⟨_, back⟩⟩ := cnclose_cases run
  · exact marked
  · exact back.marked marked small

/-- The descriptor taken was not in use, unless the search overran. -/
theorem Taken.fresh (taken : Taken s mode n s') (marked : Marked s) (left : BitLeft s) :
    bit s.fdBm n = false ∧ (s.fdTbl n).state = FD_FREE := by
  obtain ⟨k, bound, clear⟩ := left
  obtain ⟨_, unset, _⟩ := findFreeBit_least clear bound
  rw [← taken.search] at unset
  refine ⟨unset, ?_⟩
  by_contra used
  rw [marked n taken.inside used] at unset
  cases unset

/-- With no bit left the search answers 0, whoever has descriptor 0. -/
theorem Taken.overrun (taken : Taken s mode n s') (full : ¬ BitLeft s) :
    n = 0 ∧ bit s.fdBm 0 = true := by
  have all (k : Nat) (bound : k < 32768) : bit s.fdBm k = true := by
    by_contra clear
    exact full ⟨k, bound, by simpa using clear⟩
  have zero := taken.search
  rw [findFreeBit_full all] at zero
  exact ⟨zero, all 0 (by decide)⟩

/-- A call that takes a descriptor, uses it and closes it. -/
def Borrowed (s : Fs) (mode : UInt8) (s' : Fs) : Prop :=
  ∃ s₁ n s₂ s₃, SameTable s s₁ ∧ Taken s₁ mode n s₂ ∧ Used s₂ s₃ ∧ GivenBack s₃ n s'

/-- A call that takes a descriptor and keeps it. -/
def Leaked (s : Fs) (mode : UInt8) (s' : Fs) : Prop :=
  ∃ n s₁, Taken s mode n s₁ ∧ Used s₁ s'

theorem Borrowed.marked (borrowed : Borrowed s mode s') (marked : Marked s) : Marked s' := by
  obtain ⟨s₁, n, s₂, s₃, same, taken, used, back⟩ := borrowed
  exact back.marked ((taken.marked (marked.table same)).same used.states used.fdBm) taken.inside

theorem Leaked.marked (leaked : Leaked s mode s') (marked : Marked s) : Marked s' := by
  obtain ⟨n, s₁, taken, used⟩ := leaked
  exact (taken.marked marked).same used.states used.fdBm

theorem Borrowed.restores (borrowed : Borrowed s mode s') (marked : Marked s) :
    SameDescriptors s s' ↔ BitLeft s := by
  obtain ⟨s₁, n, s₂, s₃, same, taken, used, back⟩ := borrowed
  have small := taken.inside
  have bits (k : Nat) : bit s'.fdBm k = ((bit s.fdBm k || decide (k = n)) && !decide (k = n)) := by
    rw [back.fdBm, bit_clearBit, used.fdBm, taken.fdBm, bit_setBit (by omega), same.fdBm]
  constructor
  · intro kept
    by_contra full
    obtain ⟨rfl, set⟩ := taken.overrun (by rw [BitLeft, same.fdBm]; exact full)
    rw [same.fdBm] at set
    have bit := (kept 0 (by decide)).1
    rw [bits, set] at bit
    cases bit
  · intro left k bound
    obtain ⟨clear, free⟩ := taken.fresh (marked.table same) (by rw [BitLeft, same.fdBm]; exact left)
    rw [same.fdBm] at clear
    rw [same.fdTbl] at free
    by_cases here : k = n
    · subst here
      rw [bits, clear, back.state, free]
      simp
    · rw [bits, back.others k here, used.states k, taken.others k here, same.fdTbl]
      simp [here]

theorem Leaked.restores (leaked : Leaked s mode s') (marked : Marked s) :
    SameDescriptors s s' ↔ ¬ BitLeft s ∧ (s.fdTbl 0).state = mode := by
  obtain ⟨n, s₁, taken, used⟩ := leaked
  have small := taken.inside
  have bits (k : Nat) : bit s'.fdBm k = (bit s.fdBm k || decide (k = n)) := by
    rw [used.fdBm, taken.fdBm, bit_setBit (by omega)]
  have state : (s'.fdTbl n).state = mode := (used.states n).trans taken.state
  constructor
  · intro kept
    have full : ¬ BitLeft s := by
      intro left
      have bit := (kept n small).1
      rw [bits, (taken.fresh marked left).1] at bit
      simp at bit
    obtain ⟨rfl, _⟩ := taken.overrun full
    exact ⟨full, (kept 0 small).2.symm.trans state⟩
  · rintro ⟨full, holder⟩ k bound
    obtain ⟨rfl, set⟩ := taken.overrun full
    by_cases here : k = 0
    · subst here
      exact ⟨by rw [bits, set]; rfl, state.trans holder.symm⟩
    · rw [bits, used.states k, taken.others k here]
      simp [here]

/-- The descriptor that `cnopen` took is closed after its use. -/
theorem borrowed_of_close (same : SameTable s s₁) (taken : Taken s₁ mode n s₂) (used : Used s₂ s₃)
    (mode_used : mode ≠ FD_FREE) (closes : cnclose n s₃ = some (code, s')) : Borrowed s mode s' := by
  obtain ⟨m, number, _, ⟨free, _⟩ | ⟨_, back⟩⟩ := cnclose_cases closes
  · obtain rfl := Int.natCast_inj.mp number
    rw [used.states n, taken.state] at free
    exact absurd free mode_used
  · obtain rfl := Int.natCast_inj.mp number
    exact ⟨s₁, n, s₂, s₃, same, taken, used, back⟩

/-- The error exit of a call that has no descriptor is undefined. -/
theorem no_close_of_negative (negative : fd < 0) (closes : cnclose fd s = some (code, s')) : False := by
  obtain ⟨n, rfl, _⟩ := cnclose_cases closes
  omega

section
variable [InodeLayout]

/-- The current directory, opened as ".", has the name. -/
def InCwd (s : Fs) (name : Name) : Prop :=
  ∃ dir i next, cnopendir s dot = some (some dir) ∧ cnstat dir name = some (some i, next)

/-- The current directory can be opened as "." and does not have the name. -/
def NotInCwd (s : Fs) (name : Name) : Prop :=
  ∃ dir next, cnopendir s dot = some (some dir) ∧ cnstat dir name = some (none, next)

theorem cncat_table (run : cncat name s = some (code, out, s')) :
    (NotInCwd s name ∧ s' = s) ∨ (InCwd s name ∧ Leaked s FD_READ s') := by
  obtain ⟨dir, opensDot, ⟨next, stat, _, _, rfl⟩ |
    ⟨i, next, _, _, _, s₁, stat, _, opens, reading⟩⟩ := cncat_eq run
  · exact .inl ⟨⟨dir, next, opensDot, stat⟩, rfl⟩
  · refine .inr ⟨⟨dir, i, next, opensDot, stat⟩, ?_⟩
    rw [cnopen, cnstat_again stat, Option.bind_eq_bind, Option.bind_some] at opens
    obtain ⟨⟨fd₁, s₂⟩, takes, opens⟩ := Option.bind_eq_some_iff.mp opens
    cases opens
    obtain ⟨n, _, taken⟩ := openFd_taken takes
    rcases reading with ⟨_, _, _, rfl⟩ | ⟨_, _, reads⟩
    · exact ⟨n, _, taken, .refl⟩
    · exact ⟨n, _, taken, cnread_used reads⟩

/-- A descriptor that is closed was taken. -/
theorem cnopen_taken (opens : cnopen dir name mode s = some (fd, dir', s₁))
    (closes : cnclose fd s₂ = some (code, s')) :
    ∃ (n : Nat) (s₀ : Fs), fd = (n : Int) ∧ OnlyVol s s₀ ∧ Taken s₀ mode n s₁ := by
  rcases cnopen_cases opens with ⟨_, rfl, _⟩ | ⟨_, i, s₀, only, takes⟩
  · exact (no_close_of_negative (by decide) closes).elim
  · obtain ⟨n, number, taken⟩ := openFd_taken takes
    exact ⟨n, s₀, number, only, taken⟩

theorem cnimport_table (run : cnimport hName gName s = some (code, s')) : Borrowed s FD_WRITE s' := by
  obtain ⟨_, _, _, s₁, _, _, s₂, _, _, _, creates, opens, _, ⟨_, closes⟩, rest⟩ := cnimport_eq run
  obtain ⟨n, s₀, rfl, only, taken⟩ := cnopen_taken opens closes
  have same := (cncreat_only creates).table.trans only.table
  rcases rest with ⟨_, rfl, _⟩ | ⟨_, _, _, writes, _⟩
  · exact borrowed_of_close same taken .refl (by decide) closes
  · exact borrowed_of_close same taken (cnwrite_used writes) (by decide) closes

theorem cnexport_table (run : cnexport gName hName s = some (code, s')) : Borrowed s FD_READ s' := by
  obtain ⟨_, _, _, _, s₁, _, _, _, opens, ⟨_, closes⟩, rest⟩ := cnexport_eq run
  obtain ⟨n, s₀, rfl, only, taken⟩ := cnopen_taken opens closes
  have same : SameTable s s₀ := ⟨only.table.fdTbl, only.table.fdBm⟩
  rcases rest with ⟨_, rfl, _⟩ | ⟨_, _, _, _, _, _, _, _, reads, ⟨_, rfl, _⟩ | ⟨_, rfl, _⟩⟩
  · exact borrowed_of_close same taken .refl (by decide) closes
  · exact borrowed_of_close same taken (cnread_used reads) (by decide) closes
  · exact borrowed_of_close same taken (cnread_used reads).withHost (by decide) closes

end

end

section
variable [InodeLayout] {s s' : Session} {r : Reply}

theorem cnmkfs_table {s s' : Fs} (run : cnmkfs s = some (code, s')) : SameTable s s' := by
  rw [cnmkfs_eq] at run
  obtain ⟨d, _, run⟩ := Option.map_eq_some_iff.mp run
  cases run
  exact ⟨rfl, rfl⟩

omit [InodeLayout] in
theorem cnumount_table {s s' : Fs} (run : cnumount s = some (code, s')) : SameTable s s' := by
  obtain ⟨_, _, rfl⟩ := cnumount_eq run
  exact ⟨rfl, rfl⟩

theorem cncd_table {s s' : Fs} (run : cncd name s = some (code, s')) : SameTable s s' := by
  rcases cncd_cases run with ⟨_, rfl, _⟩ | ⟨_, _, _, rfl⟩
  · exact ⟨rfl, rfl⟩
  · exact ⟨rfl, rfl⟩

theorem cnopen_marked {s s' : Fs} (marked : Marked s)
    (run : cnopen dir name mode s = some (code, dir', s')) : Marked s' := by
  rcases cnopen_cases run with ⟨_, _, only⟩ | ⟨_, i, s₁, only, opens⟩
  · exact marked.table only.table
  · obtain ⟨n, _, taken⟩ := openFd_taken opens
    exact taken.marked (marked.table only.table)

omit [InodeLayout] in
theorem setDir_table (s : Session) (h : Handle) (d : DirPtr) : SameTable s.fs (s.setDir h d).fs := by
  obtain ⟨fdTbl, fdBm⟩ := setDir_tables s h d
  exact ⟨fdTbl, fdBm⟩

/-- Every command keeps the marks, whatever its arguments. -/
theorem marked_step (marked : Marked s.fs) (run : s.step op = some (r, s')) : Marked s'.fs := by
  cases op with
  | mkfs => exact marked.table (cnmkfs_table (Session.global_eq run).1)
  | mount =>
    intro n bound used
    exact absurd (cnmount_noneOpen (Session.global_eq run).1 n bound).1 used
  | umount => exact marked.table (cnumount_table (Session.global_eq run).1)
  | mkdir path => exact marked.table (cnmkdir_only (Session.global_eq run).1).table
  | rmdir path => exact marked.table (cnrmdir_only (Session.global_eq run).1).table
  | cd path => exact marked.table (cncd_table (Session.global_eq run).1)
  | ls path =>
    obtain ⟨_, rfl⟩ := Session.ls_eq run
    exact marked
  | opendir k path =>
    rcases Session.opendir_eq run with ⟨_, rfl⟩ | ⟨_, _, rfl⟩
    · exact marked
    · exact marked
  | closedir k =>
    cases run
    exact marked
  | creat h name =>
    obtain ⟨d, d', fs', _, creates, _, rfl⟩ := Session.onDir_eq run
    exact (marked.table (cncreat_only creates).table).table (setDir_table { s with fs := fs' } h d')
  | openFile h name mode =>
    obtain ⟨d, d', fs', _, opens, _, rfl⟩ := Session.onDir_eq run
    exact (cnopen_marked marked opens).table (setDir_table { s with fs := fs' } h d')
  | close fd => exact cnclose_marked marked (Session.global_eq run).1
  | read fd bytes =>
    obtain ⟨reads, _⟩ := Session.read_eq run
    have used := cnread_used reads
    exact marked.same used.states used.fdBm
  | write fd buf =>
    obtain ⟨_, writes, _⟩ := Session.write_eq run
    have used := cnwrite_used writes
    exact marked.same used.states used.fdBm
  | seek fd offset =>
    have used := cnseek_used (Session.global_eq run).1
    exact marked.same used.states used.fdBm
  | cat name =>
    obtain ⟨cats, _⟩ := Session.cat_eq run
    rcases cncat_table cats with ⟨_, same⟩ | ⟨_, leaked⟩
    · rw [same]
      exact marked
    · exact leaked.marked marked
  | importFile hName gName => exact (cnimport_table (Session.global_eq run).1).marked marked
  | exportFile gName hName => exact (cnexport_table (Session.global_eq run).1).marked marked

theorem boot_marked (run : boot before = some s) : Marked s.fs :=
  fun n bound used => absurd (boot_noneOpen run n bound).1 used

/-- `cat`, `import` and `export`. -/
inductive Transfers : Op → Prop where
  | cat : Transfers (.cat name)
  | importFile : Transfers (.importFile hName gName)
  | exportFile : Transfers (.exportFile gName hName)

/-- The call gives back what it takes: `cncat` never does, the other two do as long as the
search for a descriptor does not overrun. -/
def GivesBack (s : Fs) : Op → Prop
  | .cat name => NotInCwd s name ∨ (¬ BitLeft s ∧ (s.fdTbl 0).state = FD_READ)
  | _ => BitLeft s

/-- The error exit is taken before `g_file` is set, or with -1 in it. -/
def UnsetDescriptor (s : Fs) : Op → Prop
  | .importFile hName gName => s.host.files hName = none ∨ InCwd s gName
  | .exportFile gName hName => s.host.writable hName = none ∨ NotInCwd s gName
  | _ => False

theorem NotInCwd.not_inCwd {s : Fs} (missing : NotInCwd s name) : ¬ InCwd s name := by
  obtain ⟨dir, next, opens, stat⟩ := missing
  rintro ⟨dir', i, next', opens', stat'⟩
  rw [opens] at opens'
  cases opens'
  rw [stat] at stat'
  cases stat'

theorem import_unset {s : Fs} (unset : s.host.files hName = none ∨ InCwd s gName) :
    cnimport hName gName s = none := by
  rcases unset with missing | ⟨dir, i, next, opens, stat⟩
  · rw [cnimport, missing]
    rfl
  · rw [cnimport]
    cases s.host.files hName with
    | none => rfl
    | some content =>
      simp [opens, cncreat, stat]

theorem export_unset {s : Fs} (unset : s.host.writable hName = none ∨ NotInCwd s gName) :
    cnexport gName hName s = none := by
  by_contra defined
  obtain ⟨⟨code, s'⟩, run⟩ := Option.ne_none_iff_exists'.mp defined
  obtain ⟨_, _, _, _, _, _, writable, opened, opening, ⟨_, closes⟩, _⟩ := cnexport_eq run
  rcases unset with missing | ⟨dir, next, opens, stat⟩
  · rw [missing] at writable
    cases writable
  · change cnopendir s dot = _ at opened
    rw [opens] at opened
    cases opened
    rcases cnopen_read opening with ⟨rfl, _⟩ | ⟨i, found, _⟩
    · exact no_close_of_negative (by decide) closes
    · rw [stat] at found
      cases found

/-- In every run from a boot, whatever its commands: a `cat`, `import` or `export` that
returns leaves the descriptor bitmap and the states of all descriptors as they were, if and
only if it gives back what it takes; and one that closes a descriptor it never set does not
return. -/
theorem table_restored {before : Fs} {s₀ s : Session} (booted : boot before = some s₀)
    (steps : Steps Session.step (fun _ _ => True) s₀ trace s) (call : Transfers op) :
    (∀ r s', s.step op = some (r, s') → (SameDescriptors s.fs s'.fs ↔ GivesBack s.fs op)) ∧
    (UnsetDescriptor s.fs op → s.step op = none) := by
  have marked := steps.invariant (fun s : Session => Marked s.fs)
    (fun _ _ _ _ marked _ run => marked_step marked run) (boot_marked booted)
  cases call with
  | cat =>
    refine ⟨fun r s' run => ?_, fun unset => absurd unset id⟩
    obtain ⟨cats, _⟩ := Session.cat_eq run
    rcases cncat_table cats with ⟨missing, same⟩ | ⟨found, leaked⟩
    · refine ⟨fun _ => .inl missing, fun _ n _ => ?_⟩
      rw [same]
      exact ⟨rfl, rfl⟩
    · rw [leaked.restores marked]
      exact ⟨.inr, fun back => back.resolve_left fun missing => missing.not_inCwd found⟩
  | importFile =>
    refine ⟨fun r s' run => (cnimport_table (Session.global_eq run).1).restores marked, fun unset => ?_⟩
    rw [Session.step, import_unset unset]
    rfl
  | exportFile =>
    refine ⟨fun r s' run => (cnexport_table (Session.global_eq run).1).restores marked, fun unset => ?_⟩
    rw [Session.step, export_unset unset]
    rfl

end

section Lp64
attribute [local instance] lp64

theorem fileOpened_cat : ((fileOpened.step (.cat [102])).map fun x => x.1.code) = some 0 ∧
    bit fileOpened.fs.fdBm 1 = false ∧ bit (fileOpened.after (.cat [102])).fs.fdBm 1 = true := by
  decide +kernel

theorem fileOpened_steps : ∃ trace, Steps Session.step (fun _ _ => True) emptyBooted trace fileOpened :=
  ⟨_, .single trivial fileOpened_eq⟩

/-- The file is not missing, so `cat` keeps its descriptor. -/
theorem table_restored_cat : ∃ r s', fileOpened.step (.cat [102]) = some (r, s') ∧
    (SameDescriptors fileOpened.fs s'.fs ↔ GivesBack fileOpened.fs (.cat [102])) := by
  obtain ⟨returns, _⟩ := fileOpened_cat
  obtain ⟨trace, steps⟩ := fileOpened_steps
  have defined : (fileOpened.step (.cat [102])).isSome := by
    rw [← Option.isSome_map, returns]
    rfl
  have run := Session.after_eq defined
  exact ⟨_, _, run, (table_restored emptyBooted_eq steps .cat).1 _ _ run⟩

/-- After `cat f` descriptor 1 stays taken. -/
theorem table_restored_leak : boot emptyStart = some emptyBooted ∧
    ∃ trace s r s', Steps Session.step (fun _ _ => True) emptyBooted trace s ∧
      s.step (.cat [102]) = some (r, s') ∧ r.code = 0 ∧ ¬ SameDescriptors s.fs s'.fs := by
  obtain ⟨returns, before, after⟩ := fileOpened_cat
  obtain ⟨trace, steps⟩ := fileOpened_steps
  have defined : (fileOpened.step (.cat [102])).isSome := by
    rw [← Option.isSome_map, returns]
    rfl
  have run := Session.after_eq defined
  refine ⟨emptyBooted_eq, trace, fileOpened, _, _, steps, run, ?_, fun same => ?_⟩
  · rw [run] at returns
    exact Option.some.inj returns
  · have bit := (same 1 (by decide)).1
    rw [before, after] at bit
    cases bit

end Lp64

end CdnwSh
