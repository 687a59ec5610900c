import CdnwSh.OpenFile
import CdnwSh.Lookup

/-! Which globals of `fs.c` the operations leave alone, on any state and any disk. -/
namespace CdnwSh

/-- Everything but the volume and the time. -/
def OnlyVol (s s' : Fs) : Prop := s' = { s with vol := s'.vol, ticks := s'.ticks }

theorem OnlyVol.refl (s : Fs) : OnlyVol s s := rfl

theorem OnlyVol.trans (first : OnlyVol s s') (second : OnlyVol s' s'') : OnlyVol s s'' := by
  rw [OnlyVol] at *
  rw [second, first]

/-- Everything but the volume, the time, the descriptors and the host's files. -/
def OnlyFiles (s s' : Fs) : Prop :=
  s' = { s with vol := s'.vol, ticks := s'.ticks, fdTbl := s'.fdTbl, fdBm := s'.fdBm, host := s'.host }

theorem OnlyFiles.refl (s : Fs) : OnlyFiles s s := rfl

theorem OnlyFiles.trans (first : OnlyFiles s s') (second : OnlyFiles s' s'') : OnlyFiles s s'' := by
  rw [OnlyFiles] at *
  rw [second, first]

theorem OnlyVol.files (only : OnlyVol s s') : OnlyFiles s s' := by
  rw [OnlyVol] at only
  rw [OnlyFiles, only]

variable [InodeLayout]

theorem appendEntry_only (run : appendEntry s dir name type = some (inode, dir', s')) : OnlyVol s s' := by
  obtain ⟨⟨_, v⟩, _, run⟩ := Option.bind_eq_some_iff.mp run
  obtain ⟨data, _, run⟩ := Option.bind_eq_some_iff.mp run
  obtain ⟨d, _, run⟩ := Option.bind_eq_some_iff.mp run
  obtain ⟨⟨_, d'⟩, _, run⟩ := Option.bind_eq_some_iff.mp run
  cases run
  rfl

theorem createDir_only (run : createDir s self parent = some s') : OnlyVol s s' := by
  obtain ⟨⟨ptr, v⟩, _, run⟩ := Option.bind_eq_some_iff.mp run
  obtain ⟨d, _, run⟩ := Option.bind_eq_some_iff.mp run
  obtain ⟨⟨_, d'⟩, _, run⟩ := Option.bind_eq_some_iff.mp run
  cases run
  rfl

theorem mkdirWalk_only (run : mkdirWalk s toks st i = some (code, s')) : OnlyVol s s' := by
  induction toks generalizing st i with
  | nil => cases run
  | cons tok rest ih =>
    rw [mkdirWalk] at run
    split at run
    · cases run
    obtain ⟨data, _, run⟩ := Option.bind_eq_some_iff.mp run
    obtain ⟨⟨found, dir⟩, _, run⟩ := Option.bind_eq_some_iff.mp run
    cases found with
    | some entry =>
      dsimp only at run
      split at run
      · cases run
        exact .refl _
      · obtain ⟨inner, _, run⟩ := Option.bind_eq_some_iff.mp run
        exact ih run
    | none =>
      dsimp only at run
      split at run
      · obtain ⟨⟨self, dir', s₁⟩, appends, run⟩ := Option.bind_eq_some_iff.mp run
        obtain ⟨s₂, creates, run⟩ := Option.bind_eq_some_iff.mp run
        cases run
        exact (appendEntry_only appends).trans (createDir_only creates)
      · exact ih run

theorem cnmkdir_only (run : cnmkdir name s = some (code, s')) : OnlyVol s s' := by
  obtain ⟨cwd, _, run⟩ := Option.bind_eq_some_iff.mp run
  obtain ⟨st, _, run⟩ := Option.bind_eq_some_iff.mp run
  exact mkdirWalk_only run

theorem cnrmdir_only (run : cnrmdir name s = some (code, s')) : OnlyVol s s' := by
  obtain ⟨found, _, run⟩ := Option.bind_eq_some_iff.mp run
  obtain ⟨parent, _, run⟩ := Option.bind_eq_some_iff.mp run
  obtain ⟨⟨new, v⟩, _, run⟩ := Option.bind_eq_some_iff.mp run
  cases new with
  | none =>
    cases run
    rfl
  | some new =>
    obtain ⟨d, _, run⟩ := Option.bind_eq_some_iff.mp run
    obtain ⟨d', _, run⟩ := Option.bind_eq_some_iff.mp run
    cases run
    rfl

theorem cncreat_only (run : cncreat dir name s = some (code, dir', s')) : OnlyVol s s' := by
  obtain ⟨⟨found, next⟩, _, run⟩ := Option.bind_eq_some_iff.mp run
  cases found with
  | some e =>
    cases run
    exact .refl _
  | none =>
    obtain ⟨⟨self, dir₁, s₁⟩, appends, run⟩ := Option.bind_eq_some_iff.mp run
    obtain ⟨d, _, run⟩ := Option.bind_eq_some_iff.mp run
    cases run
    exact (appendEntry_only appends).trans rfl

theorem createMissing_only (run : createMissing dir name mode s = some (code, dir', s')) :
    OnlyVol s s' := by
  rw [createMissing] at run
  split at run
  · exact cncreat_only run
  · cases run
    exact .refl _

theorem growFd_only (run : growFd s fde required = some (0, fde', s')) : OnlyVol s s' := by
  rcases growFd_eq run with ⟨_, _, rfl⟩ | ⟨_, _, _, _, _, _, _, _, _, rfl⟩
  · exact .refl _
  · rfl

/-- What an open file keeps when it grows. -/
theorem growFd_same (run : growFd s fde required = some (0, fde', s')) :
    fde' = { fde with data := fde'.data, inode := fde'.inode } := by
  rcases growFd_eq run with ⟨_, rfl, _⟩ | ⟨_, _, _, _, _, _, _, _, rfl, _⟩
  · rfl
  · rfl

/-- Every descriptor keeps its state. -/
def SameStates (s s' : Fs) : Prop := ∀ n, (s'.fdTbl n).state = (s.fdTbl n).state

omit [InodeLayout] in
theorem setFd_states (same : fde.state = (s.fdTbl n).state) : SameStates s (s.setFd n fde) := by
  intro k
  by_cases here : k = n
  · rw [here, setFd_same, same]
  · rw [setFd_other here]

/-- What a read, a write or a seek changes: one entry of the table, which stays in use. -/
structure Used (s s' : Fs) : Prop where
  files : OnlyFiles s s'
  states : SameStates s s'
  fdBm : s'.fdBm = s.fdBm

omit [InodeLayout] in
theorem cnread_used (run : cnread bytes fd s = some (out, s')) : Used s s' := by
  obtain ⟨n, _, ⟨_, _, rfl⟩ | ⟨_, _, _, rfl⟩⟩ := cnread_eq run
  · exact ⟨.refl _, fun _ => rfl, rfl⟩
  · exact ⟨rfl, setFd_states rfl, rfl⟩

omit [InodeLayout] in
theorem Used.grown (only : OnlyVol s s') (same : fde.state = (s.fdTbl n).state) :
    Used s (s'.setFd n fde) := by
  have table : s'.fdTbl = s.fdTbl := by rw [only]
  refine ⟨only.files.trans rfl, fun k => ?_, ?_⟩
  · rw [setFd_states (same.trans (by rw [table])) k, table]
  · rw [only]
    rfl

theorem cnseek_used (run : cnseek fd offset s = some (code, s')) : Used s s' := by
  obtain ⟨n, _, ⟨_, _, rfl⟩ | ⟨fde, s₁, grows, _, rfl⟩⟩ := cnseek_eq run
  · exact ⟨.refl _, fun _ => rfl, rfl⟩
  · refine .grown (growFd_only grows) ?_
    rw [growFd_same grows]

theorem cnwrite_used (run : cnwrite buf fd s = some (written, s')) : Used s s' := by
  obtain ⟨n, _, ⟨_, _, rfl⟩ | ⟨_, fde, s₁, data, d, grows, _, _, _, rfl⟩⟩ := cnwrite_eq run
  · exact ⟨.refl _, fun _ => rfl, rfl⟩
  · have state : fde.state = (s.fdTbl n).state := by rw [growFd_same grows]
    let moved : FdEntry := { fde with data, cursor := fde.cursor + UInt32.ofNat buf.length }
    have used : Used s (s₁.setFd n moved) := .grown (growFd_only grows) state
    exact ⟨used.files.trans rfl, used.states, used.fdBm⟩

omit [InodeLayout] in
theorem cnclose_files (run : cnclose fd s = some (code, s')) : OnlyFiles s s' := by
  obtain ⟨n, _, ⟨_, _, rfl⟩ | ⟨_, _, fdBm, _, rfl⟩⟩ := cnclose_eq run
  · exact .refl _
  · rfl

theorem openFd_files (run : openFd s i mode = some (fd, s')) : OnlyFiles s s' := by
  obtain ⟨n, fdBm, inode, data, _, _, _, _, _, _, rfl⟩ := openFd_eq run
  rfl

/-- Whether `cnopen` gets to the point where it takes a descriptor: the name is found or
the file was made. -/
def opensFile (dir : DirPtr) (name : Name) (mode : UInt8) (s : Fs) : Bool :=
  match cnstat dir name with
  | none => false
  | some (some _, _) => true
  | some (none, dir) =>
    match createMissing dir name mode s with
    | none => false
    | some (created, dir, _) => created = 0 ∧ ((cnstat dir name).bind Prod.fst).isSome

/-- `cnopen` fails, or takes a descriptor in a state in which at most the file was made. -/
theorem cnopen_cases (run : cnopen dir name mode s = some (code, dir', s')) :
    (opensFile dir name mode s = false ∧ code = -1 ∧ OnlyVol s s') ∨
    (opensFile dir name mode s = true ∧ ∃ i s₁, OnlyVol s s₁ ∧ openFd s₁ i mode = some (code, s')) := by
  obtain ⟨⟨found, dir₁⟩, scanned, run⟩ := Option.bind_eq_some_iff.mp run
  cases found with
  | some i =>
    obtain ⟨⟨fd, s₁⟩, opens, run⟩ := Option.bind_eq_some_iff.mp run
    cases run
    exact .inr ⟨by rw [opensFile, scanned], i, s, .refl _, opens⟩
  | none =>
    obtain ⟨⟨created, dir₂, s₁⟩, creates, run⟩ := Option.bind_eq_some_iff.mp run
    have only := createMissing_only creates
    dsimp only at run
    split at run
    next failed =>
      cases run
      exact .inl ⟨by simp [opensFile, scanned, creates, failed], rfl, only⟩
    next made =>
      obtain ⟨⟨again, dir₃⟩, rescanned, run⟩ := Option.bind_eq_some_iff.mp run
      cases again with
      | none =>
        cases run
        exact .inl ⟨by simp [opensFile, scanned, creates, rescanned], rfl, only⟩
      | some i =>
        obtain ⟨⟨fd, s₂⟩, opens, run⟩ := Option.bind_eq_some_iff.mp run
        cases run
        exact .inr ⟨by simp [opensFile, scanned, creates, rescanned, not_not.mp made], i, s₁, only, opens⟩

theorem cnopen_files (run : cnopen dir name mode s = some (code, dir', s')) : OnlyFiles s s' := by
  rcases cnopen_cases run with ⟨_, _, only⟩ | ⟨_, i, s₁, only, opens⟩
  · exact only.files
  · exact only.files.trans (openFd_files opens)

theorem cncat_files (run : cncat name s = some (code, out, s')) : OnlyFiles s s' := by
  obtain ⟨_, _, ⟨_, _, _, _, rfl⟩ | ⟨_, _, _, _, _, _, _, _, opens, reading⟩⟩ := cncat_eq run
  · exact .refl _
  · have opened := cnopen_files opens
    rcases reading with ⟨_, _, _, rfl⟩ | ⟨_, _, reads⟩
    · exact opened
    · exact opened.trans (cnread_used reads).files

theorem cnimport_files (run : cnimport hName gName s = some (code, s')) : OnlyFiles s s' := by
  obtain ⟨_, _, _, _, _, _, _, _, _, _, creates, opens, _, ⟨_, closes⟩, rest⟩ := cnimport_eq run
  have opened := (cncreat_only creates).files.trans (cnopen_files opens)
  rcases rest with ⟨_, rfl, _⟩ | ⟨_, _, _, writes, _⟩
  · exact opened.trans (cnclose_files closes)
  · exact (opened.trans (cnwrite_used writes).files).trans (cnclose_files closes)

omit [InodeLayout] in
theorem cnread_vol (run : cnread bytes fd s = some (out, s')) : s'.vol = s.vol := by
  obtain ⟨n, _, ⟨_, _, rfl⟩ | ⟨_, _, _, rfl⟩⟩ := cnread_eq run
  · rfl
  · rfl

omit [InodeLayout] in
theorem cnclose_vol (run : cnclose fd s = some (code, s')) : s'.vol = s.vol := by
  obtain ⟨n, _, ⟨_, _, rfl⟩ | ⟨_, _, fdBm, _, rfl⟩⟩ := cnclose_eq run
  · rfl
  · rfl

theorem openFd_vol (run : openFd s i mode = some (fd, s')) : s'.vol = s.vol := by
  obtain ⟨n, fdBm, inode, data, _, _, _, _, _, _, rfl⟩ := openFd_eq run
  rfl

/-- Only an open for writing makes a file. -/
theorem cnopen_vol (reads : mode ≠ FD_WRITE) (run : cnopen dir name mode s = some (code, dir', s')) :
    s'.vol = s.vol := by
  obtain ⟨⟨found, dir₁⟩, _, run⟩ := Option.bind_eq_some_iff.mp run
  cases found with
  | some i =>
    obtain ⟨⟨fd, s₁⟩, opens, run⟩ := Option.bind_eq_some_iff.mp run
    cases run
    exact openFd_vol opens
  | none =>
    obtain ⟨⟨created, dir₂, s₁⟩, creates, run⟩ := Option.bind_eq_some_iff.mp run
    rw [createMissing, if_neg reads] at creates
    cases creates
    obtain ⟨⟨again, dir₃⟩, _, run⟩ := Option.bind_eq_some_iff.mp run
    cases again with
    | none =>
      cases run
      rfl
    | some i =>
      obtain ⟨⟨fd, s₂⟩, opens, run⟩ := Option.bind_eq_some_iff.mp run
      cases run
      exact openFd_vol opens

theorem cncat_vol (run : cncat name s = some (code, out, s')) : s'.vol = s.vol := by
  obtain ⟨_, _, ⟨_, _, _, _, rfl⟩ | ⟨_, _, _, _, _, _, _, _, opens, reading⟩⟩ := cncat_eq run
  · rfl
  · have opened := cnopen_vol (by decide) opens
    rcases reading with ⟨_, _, _, rfl⟩ | ⟨_, _, reads⟩
    · exact opened
    · exact (cnread_vol reads).trans opened

/-- A seek within the file moves the cursor only. -/
theorem cnseek_vol (inside : ∀ n, fdSlot fd = some n → ¬ (s.fdTbl n).inode.size < (s.fdTbl n).cursor + offset)
    (run : cnseek fd offset s = some (code, s')) : s'.vol = s.vol := by
  obtain ⟨n, slot, ⟨_, _, rfl⟩ | ⟨fde, s₁, grows, _, rfl⟩⟩ := cnseek_eq run
  · rfl
  · rw [growFd, if_neg (inside n slot)] at grows
    cases grows
    rfl

theorem cnexport_vol (run : cnexport gName hName s = some (code, s')) : s'.vol = s.vol := by
  obtain ⟨_, _, _, _, _, _, _, _, opens, ⟨_, closes⟩, rest⟩ := cnexport_eq run
  have opened := cnopen_vol (by decide) opens
  rw [cnclose_vol closes]
  rcases rest with ⟨_, rfl, _⟩ | ⟨_, _, _, _, _, _, _, _, reads, ⟨_, rfl, _⟩ | ⟨_, rfl, _⟩⟩
  · exact opened
  · exact (cnread_vol reads).trans opened
  · exact (cnread_vol reads).trans opened

end CdnwSh
