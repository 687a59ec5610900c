import CdnwSh.DirCommands

/-! Descriptor commands on a mounted file system: `cnclose`, `cnread`, `cnwrite`, `cnseek`
and the filling of a new descriptor, for any number of descriptors on one file. -/
namespace CdnwSh

open ByteMemory RecordList

variable [InodeLayout]

/-- The blocks needed to reach `required` bytes are free. -/
def RoomFor (s : Fs) (fde : FdEntry) (required : UInt32) : Prop :=
  fde.inode.size < required →
    newBlocks fde.inode (required.toNat / 4096 + 1) ≤ Pool.block.free s.vol

def writeEnd (fde : FdEntry) (buf : List UInt8) : UInt32 :=
  UInt32.ofNat (fde.cursor.toNat + buf.length)

/-- No reservation of the write comes away empty. -/
def WriteOk (s : Fs) (fd : Int) (buf : List UInt8) : Prop :=
  ∀ n, fdSlot fd = some n → (s.fdTbl n).state = FD_WRITE →
    RoomFor s (s.fdTbl n) (writeEnd (s.fdTbl n) buf)

/-- A seek that grows the file goes through an open descriptor, and no reservation comes
away empty. -/
def SeekOk (s : Fs) (fd : Int) (offset : UInt32) : Prop :=
  ∀ n, fdSlot fd = some n → (s.fdTbl n).inode.size < (s.fdTbl n).cursor + offset →
    (s.fdTbl n).state ≠ FD_FREE ∧ RoomFor s (s.fdTbl n) ((s.fdTbl n).cursor + offset)

section
variable {s s' : Fs} {v : Vol} {own : Owner} {node : Nodes} {i : Iptr} {st : Inode}
  {fde fde' : FdEntry} {n : Nat}

omit [InodeLayout] in
/-- The cache of a new descriptor holds what the file's blocks hold. -/
theorem loadData_eq (mapped : Mapped v.disk own i st) (ledger : Ledger v own)
    (loads : loadData v.disk st = some data) :
    dataBuf data = ⟨4096 * st.blocks.toNat, Extents.gather 0 v.disk (blockList v.disk st)⟩ := by
  unfold loadData at loads
  split at loads
  · rw [llread_eq (mapped.inside ledger)] at loads
    cases loads
    rfl
  next none =>
    have zero : st.blocks.toNat = 0 := by
      by_contra some
      exact none (UInt32.lt_iff_toNat_lt.mpr (Nat.pos_of_ne_zero some))
    cases loads
    have empty : blockList v.disk st = [] :=
      List.eq_nil_of_length_eq_zero (by rw [length_blockList, zero])
    rw [empty, zero, Extents.gather_nil]
    rfl

structure FdOpened (s : Fs) (i : Iptr) (mode : UInt8) (n : Nat) (st : Inode) (s' : Fs) : Prop where
  slot : n < 1024
  read : inodeRead s.vol.disk i = some st
  type : st.type = ITYPE_FILE
  entry : s'.fdTbl n = ⟨(s'.fdTbl n).data, mode, i, st, 0, false⟩
  data : dataBuf (s'.fdTbl n).data =
    ⟨4096 * st.blocks.toNat, Extents.gather 0 s.vol.disk (blockList s.vol.disk st)⟩
  others : ∀ k, k ≠ n → s'.fdTbl k = s.fdTbl k
  state : s' = { s with fdTbl := s'.fdTbl, fdBm := s'.fdBm }

theorem FdOpened.fileAt (opened : FdOpened s i mode n st s') (sound : Sound s' own node)
    (file : node i = some .file) : FileAt s.vol.disk own i st := by
  obtain ⟨st', there⟩ := sound.holds.files i file
  rw [show s'.vol = s.vol by rw [opened.state]] at there
  obtain rfl := Option.some.inj (there.read.symm.trans opened.read)
  exact there

theorem Sound.openFd (sound : Sound s own node) (file : node i = some .file)
    (run : openFd s i mode = some (fd, s')) :
    ∃ (n : Nat) (st : Inode), fd = (n : Int) ∧ FdOpened s i mode n st s' ∧ Sound s' own node := by
  obtain ⟨n, fdBm, st, data, rfl, slot, _, _, read, loads, rfl⟩ := openFd_eq run
  obtain ⟨st', there⟩ := sound.holds.files i file
  obtain rfl := Option.some.inj (read.symm.trans there.read)
  have cache := loadData_eq there.mapped sound.holds.ledger loads
  have mine : ({ s.setFd n ⟨data, mode, i, st, 0, false⟩ with fdBm := fdBm } : Fs).fdTbl n =
      ⟨data, mode, i, st, 0, false⟩ := setFd_same
  refine ⟨n, st, rfl, ⟨slot, read, there.type, by rw [mine], by rw [mine]; exact cache,
    fun k apart => setFd_other apart, rfl⟩, ?_⟩
  refine sound.next sound.holds
    .refl sound.home fun k _ => ?_
  by_cases same : k = n
  · subst same
    rw [mine]
    exact .inr ⟨file, there.type, there.mapped, there.blocks, by rw [cache]⟩
  · exact .inl (setFd_other same)

theorem Sound.setFd (sound : Sound s own node) (id : fde.inodeId = (s.fdTbl n).inodeId)
    (inode : fde.inode = (s.fdTbl n).inode) (data : fde.data = (s.fdTbl n).data)
    (closed : (s.fdTbl n).state = FD_FREE → fde.state = FD_FREE) :
    Sound { s.setFd n fde with fdBm := fdBm } own node := by
  refine sound.next sound.holds .refl sound.home
    fun k used => ?_
  by_cases same : k = n
  · subst same
    have mine : ({ s.setFd k fde with fdBm := fdBm } : Fs).fdTbl k = fde := setFd_same
    rw [mine] at used ⊢
    obtain ⟨file, copy⟩ := sound.copies k (mt closed used)
    rw [id]
    exact .inr ⟨file, by rw [inode]; exact copy.type, by rw [id, inode]; exact copy.mapped,
      by rw [inode]; exact copy.blocks, by rw [data, inode]; exact copy.cache⟩
  · exact .inl (setFd_other same)

theorem Sound.close (sound : Sound s own node) (run : cnclose fd s = some (code, s')) :
    Sound s' own node ∧ ((code = -1 ∧ s' = s) ∨ ∃ (n : Nat) (fdBm : Block), fd = (n : Int) ∧ n < 1024 ∧ code = 0 ∧
      (s.fdTbl n).state ≠ FD_FREE ∧
      s' = { s.setFd n (s.fdTbl n).closed with fdBm := fdBm }) := by
  obtain ⟨n, slot, ⟨_, rfl, rfl⟩ | ⟨used, rfl, fdBm, _, rfl⟩⟩ := cnclose_eq run
  · exact ⟨sound, .inl ⟨rfl, rfl⟩⟩
  · obtain ⟨rfl, small⟩ := fdSlot_eq slot
    exact ⟨sound.setFd rfl rfl rfl fun _ => rfl, .inr ⟨n, fdBm, rfl, small, rfl, used, rfl⟩⟩

theorem Sound.read (sound : Sound s own node) (run : cnread bytes fd s = some (out, s')) :
    Sound s' own node ∧ (s' = s ∨ ∃ (n : Nat) (cursor : UInt32), fd = (n : Int) ∧
      s' = s.setFd n { s.fdTbl n with cursor := cursor }) := by
  obtain ⟨n, slot, ⟨_, _, rfl⟩ | ⟨_, _, _, rfl⟩⟩ := cnread_eq run
  · exact ⟨sound, .inl rfl⟩
  · exact ⟨sound.setFd rfl rfl rfl id, .inr ⟨n, _, (fdSlot_eq slot).1, rfl⟩⟩

theorem Holds.fits (holds : Holds v own node) (file : node i = some .file) :
    i.toNat < 6400 ∧ Fits i := by
  have bound := (holds.inodes i (by rw [file]; simp)).1
  obtain ⟨st, there⟩ := holds.files i file
  have read := there.read
  rw [inodeRead_eq bound] at read
  split at read
  next fits => exact ⟨bound, fits⟩
  · cases read

theorem Copy.grow {required : UInt32} (copy : Copy s.vol own fde) (holds : Holds s.vol own node)
    (file : node fde.inodeId = some .file) (used : fde.state ≠ FD_FREE)
    (room : RoomFor s fde required) (run : growFd s fde required = some (0, fde', s')) :
    (¬ fde.inode.size < required ∧ fde' = fde ∧ s' = s) ∨
    (fde.inode.size < required ∧ ∃ v' own', s' = { s with vol := v', ticks := s.ticks + 1 } ∧
      FdGrown s own fde required fde' v' own') := by
  obtain ⟨bound, fits⟩ := holds.fits file
  by_cases more : fde.inode.size < required
  · have less := UInt32.lt_iff_toNat_lt.mp more
    have enough := room more
    have cached : fde.inode.size.toNat ≤ (dataBuf fde.data).size := by
      rw [copy.cache, copy.blocks]; exact size_le_blocks
    have limit : required.toNat / 4096 + 1 ≤ 1032 := by
      rcases growFd_eq run with ⟨large, _⟩ | ⟨_, data, st₁, v₁, d, _, grown, _⟩
      · exact absurd more large
      have few := copy.mapped.few
      rw [growBlocks] at grown
      split at grown
      next allocates =>
        have := reallocFsBlocks_bound holds.ledger.agrees
          (show ({ fde.inode with size := required } : Inode).blocks.toNat ≤ 1032 from few) (UInt32.lt_iff_toNat_lt.mp allocates)
          (by rw [length_freeList (holds.ledger.agrees .block), required_blocks]; exact enough) grown
        rwa [required_blocks] at this
      next large =>
        have := mt UInt32.lt_iff_toNat_lt.mpr large
        rw [required_blocks] at this
        exact Nat.le_trans (Nat.not_lt.mp this) few
    obtain ⟨fde₁, v', own', grows, grown⟩ := growFd_grown holds.ledger used bound fits copy.mapped
      cached less limit enough
    rw [run] at grows
    cases grows
    exact .inr ⟨more, v', own', rfl, grown⟩
  · rcases growFd_eq run with same | ⟨less, _⟩
    · exact .inl same
    · exact absurd less more

theorem FdGrown.copy {required : UInt32} (grown : FdGrown s own fde required fde' v' own')
    (copy : Copy s.vol own fde) (more : fde.inode.size < required) : Copy v' own' fde' := by
  have less := UInt32.lt_iff_toNat_lt.mp more
  have count : max fde.inode.blocks.toNat (required.toNat / 4096 + 1) =
      required.toNat / 4096 + 1 := by
    have := blocksFor_mono (Nat.le_of_lt less)
    rw [← copy.blocks, blocksFor_pos (by omega)] at this
    omega
  have id : fde'.inodeId = fde.inodeId := by rw [grown.same]
  refine ⟨grown.type.trans copy.type, id ▸ grown.mapped, ?_, ?_⟩
  · rw [grown.blocks, count, grown.size, blocksFor_pos (by omega)]
  · rw [grown.data, dataBuf_some, grown.blocks, count]

structure Acted (s : Fs) (own : Owner) (n : Nat) (s' : Fs) (own' : Owner) : Prop where
  confined : Confined s.vol own (· = (s.fdTbl n).inodeId) s'.vol own'
  inodeBm : s'.vol.inodeBmCache = s.vol.inodeBmCache
  id : (s'.fdTbl n).inodeId = (s.fdTbl n).inodeId
  open' : (s'.fdTbl n).state = (s.fdTbl n).state
  others : ∀ k, k ≠ n → s'.fdTbl k = s.fdTbl k
  cwd : s'.cwd = s.cwd
  copy : Copy s'.vol own' (s'.fdTbl n)
  inode : ((s'.fdTbl n).inode = (s.fdTbl n).inode ∧
      inodeRead s'.vol.disk (s.fdTbl n).inodeId = inodeRead s.vol.disk (s.fdTbl n).inodeId) ∨
    inodeRead s'.vol.disk (s.fdTbl n).inodeId = some (s'.fdTbl n).inode

theorem Acted.sound (acted : Acted s own n s' own') (sound : Sound s own node)
    (used : (s.fdTbl n).state ≠ FD_FREE) : Sound s' own' node := by
  obtain ⟨file, _⟩ := sound.copies n used
  have copy := acted.copy
  have mapped := copy.mapped
  rw [acted.id] at mapped
  refine sound.next (sound.holds.confined acted.confined acted.inodeBm (fun j same => ?_)
    (fun j q fs same kind => ?_) (fun j same _ => ?_) fun same => ?_) acted.confined.next
    (by rw [acted.cwd]; exact sound.home) fun k _ => ?_
  · rw [same, file]; simp
  · rw [same, file] at kind; cases kind
  · subst same
    rcases acted.inode with ⟨_, read⟩ | read
    · obtain ⟨st, there⟩ := sound.holds.files _ file
      exact ⟨st, read.trans there.read, there.type, acted.confined.copies _ _ there.mapped,
        there.blocks⟩
    · exact ⟨_, read, copy.type, mapped, copy.blocks⟩
  · obtain ⟨es, top⟩ := sound.holds.tree.root_dir
    rw [same, file] at top
    cases top
  · by_cases same : k = n
    · subst same
      rw [acted.id]
      exact .inr ⟨file, copy⟩
    · exact .inl (acted.others k same)

/-- The volume after `llwrite` of a whole cache. -/
def Vol.scattered (v : Vol) (st : Inode) (mem : Bytes) : Vol :=
  { v with disk := Extents.scatter v.disk (blockList v.disk st) mem 0 }

/-- What a write stores: the copy after growth, its cache with the bytes in place, and the
whole cache in its blocks. -/
structure Stored (s : Fs) (own : Owner) (n : Nat) (buf : List UInt8) (s' : Fs) (own' : Owner)
    (fde : FdEntry) (v : Vol) : Prop where
  grown : (¬ (s.fdTbl n).inode.size < writeEnd (s.fdTbl n) buf ∧ fde = s.fdTbl n ∧ v = s.vol ∧
      own' = own) ∨
    (s.fdTbl n).inode.size < writeEnd (s.fdTbl n) buf ∧
      FdGrown s own (s.fdTbl n) (writeEnd (s.fdTbl n) buf) fde v own'
  inode : (s'.fdTbl n).inode = fde.inode
  cursor : (s'.fdTbl n).cursor = fde.cursor + UInt32.ofNat buf.length
  room : buf = [] ∨ fde.cursor.toNat + buf.length ≤ (dataBuf fde.data).size
  cache : (dataBuf (s'.fdTbl n).data).mem =
    copy (dataBuf fde.data).mem fde.cursor.toNat (ofList buf) buf.length
  vol : s'.vol = v.scattered fde.inode (dataBuf (s'.fdTbl n).data).mem
  copy : Copy v own' fde

omit [InodeLayout] in
theorem writeData_some (stored : writeData data off bytes = some data') :
    (bytes = [] ∨ off + bytes.length ≤ (dataBuf data).size) ∧
    (dataBuf data').size = (dataBuf data).size ∧
    (dataBuf data').mem = copy (dataBuf data).mem off (ofList bytes) bytes.length := by
  unfold writeData at stored
  split at stored
  next empty =>
    cases stored
    exact ⟨.inl empty, rfl, by rw [empty]; simp⟩
  · cases data with
    | none => cases stored
    | some buf =>
      obtain ⟨buf', copied, same⟩ := Option.bind_eq_some_iff.mp
        (show (buf.copyIn off (ofList bytes) bytes.length).bind (fun b => some (some b)) = some data'
          from stored)
      cases same
      unfold Buf.copyIn at copied
      split at copied
      next inside =>
        cases copied
        exact ⟨.inr inside, rfl, rfl⟩
      · cases copied

theorem Sound.write (sound : Sound s own node) (ok : WriteOk s fd buf)
    (run : cnwrite buf fd s = some (r, s')) :
    (r = 0 ∧ s' = s ∧ ∀ n : Nat, fd = (n : Int) → (s.fdTbl n).state ≠ FD_WRITE ∨
      Refused s (s.fdTbl n) (writeEnd (s.fdTbl n) buf)) ∨
    ∃ (n : Nat) (own' : Owner) (fde : FdEntry) (v : Vol), fd = (n : Int) ∧ n < 1024 ∧
      r = buf.length ∧ (s.fdTbl n).state = FD_WRITE ∧
      Acted s own n s' own' ∧ Stored s own n buf s' own' fde v ∧ Sound s' own' node := by
  obtain ⟨n, slot, effect⟩ := cnwrite_eq run
  obtain ⟨rfl, small⟩ := fdSlot_eq slot
  rcases effect with ⟨other, rfl, rfl⟩ | ⟨mode, fde, s₁, data, d, grows, stored, flushed, rfl, rfl⟩
  · exact .inl ⟨rfl, rfl, fun m same => by rw [← Int.ofNat_inj.mp same]; exact other⟩
  · have used : (s.fdTbl n).state ≠ FD_FREE := by rw [mode]; decide
    obtain ⟨file, copy⟩ := sound.copies n used
    obtain ⟨place, size, mem⟩ := writeData_some stored
    have growth := copy.grow sound.holds file used (ok n slot mode) grows
    have stage : ∃ own', s₁ = { s with vol := s₁.vol, ticks := s₁.ticks } ∧
        fde = { s.fdTbl n with data := fde.data, inode := fde.inode } ∧
        Confined s.vol own (· = (s.fdTbl n).inodeId) s₁.vol own' ∧
        s₁.vol.inodeBmCache = s.vol.inodeBmCache ∧ Copy s₁.vol own' fde ∧
        ((fde.inode = (s.fdTbl n).inode ∧ s₁.vol = s.vol) ∨
          inodeRead s₁.vol.disk (s.fdTbl n).inodeId = some fde.inode) ∧
        ((¬ (s.fdTbl n).inode.size < writeEnd (s.fdTbl n) buf ∧ fde = s.fdTbl n ∧
            s₁.vol = s.vol ∧ own' = own) ∨
          (s.fdTbl n).inode.size < writeEnd (s.fdTbl n) buf ∧
            FdGrown s own (s.fdTbl n) (writeEnd (s.fdTbl n) buf) fde s₁.vol own') := by
      rcases growth with ⟨less, rfl, rfl⟩ | ⟨more, v', own', rfl, grown⟩
      · exact ⟨own, rfl, rfl, .refl sound.holds.ledger, rfl, copy, .inl ⟨rfl, rfl⟩,
          .inl ⟨less, rfl, rfl, rfl⟩⟩
      · exact ⟨own', rfl, grown.same, grown.confined, grown.inodeBm, grown.copy copy more,
          .inr grown.onDisk, .inr ⟨more, grown⟩⟩
    obtain ⟨own', state, same, confined, inodeBm, copy', onDisk, growth⟩ := stage
    have id : fde.inodeId = (s.fdTbl n).inodeId := by rw [same]
    have mapped := copy'.mapped
    rw [id] at mapped
    rw [llwrite_eq (mapped.inside confined.ledger) (by rw [size, copy'.cache])
      mapped.single_apart] at flushed
    cases flushed
    obtain ⟨after, table⟩ := scatter_confined (k := 0)
      confined.ledger mapped
    have bound := (sound.holds.inodes _ (by rw [file]; simp)).1
    generalize moved : ({ fde with
      data := data,
      cursor := fde.cursor + UInt32.ofNat buf.length } : FdEntry) = fde₁
    have mine : ({ s₁.setFd n fde₁ with
        vol := s₁.vol.scattered fde.inode (dataBuf data).mem } : Fs).fdTbl n = fde₁ := setFd_same
    have acted : Acted s own n { s₁.setFd n fde₁ with
        vol := s₁.vol.scattered fde.inode (dataBuf data).mem } own' := by
      constructor
      case confined => exact confined.trans after
      case inodeBm => exact inodeBm
      case id =>
        rw [mine, ← moved]
        exact id
      case open' =>
        rw [mine, ← moved]
        change fde.state = _
        rw [same]
      case others =>
        intro k apart
        refine (setFd_other (s := s₁) apart).trans ?_
        rw [state]
      case cwd =>
        change s₁.cwd = s.cwd
        rw [state]
      case copy =>
        rw [mine, ← moved]
        refine ⟨copy'.type, ?_, copy'.blocks, size.trans copy'.cache⟩
        change Mapped _ own' fde.inodeId fde.inode
        rw [id]
        exact after.copies _ _ mapped
      case inode =>
        rw [mine, ← moved]
        rcases onDisk with ⟨inode, vol⟩ | read
        · exact .inl ⟨inode, by rw [← vol]; exact table _ bound⟩
        · exact .inr ((table _ bound).trans read)
    refine .inr ⟨n, own', fde, s₁.vol, rfl, small, rfl, mode, ?_, ?_, ?_⟩
    · exact acted
    · exact ⟨growth, by rw [mine, ← moved], by rw [mine, ← moved], place,
        by rw [mine, ← moved]; exact mem, by rw [mine, ← moved]; rfl, copy'⟩
    · exact acted.sound sound used

/-- A seek is refused, or moves the cursor and grows an open file that is too small. -/
theorem Sound.seek (sound : Sound s own node) (ok : SeekOk s fd offset)
    (run : cnseek fd offset s = some (code, s')) :
    ∃ n : Nat, fd = (n : Int) ∧ n < 1024 ∧
    (Refused s (s.fdTbl n) ((s.fdTbl n).cursor + offset) ∧ code = -1 ∧ s' = s ∨ code = 0 ∧
    ((¬ (s.fdTbl n).inode.size < (s.fdTbl n).cursor + offset ∧
        s' = s.setFd n { s.fdTbl n with cursor := offset } ∧ Sound s' own node) ∨
      ((s.fdTbl n).inode.size < (s.fdTbl n).cursor + offset ∧ (s.fdTbl n).state ≠ FD_FREE ∧
        ∃ own' fde, FdGrown s own (s.fdTbl n) ((s.fdTbl n).cursor + offset) fde s'.vol own' ∧
          s'.fdTbl n = { fde with cursor := offset } ∧ Acted s own n s' own' ∧
          Sound s' own' node))) := by
  obtain ⟨n, slot, effect⟩ := cnseek_eq run
  obtain ⟨rfl, small⟩ := fdSlot_eq slot
  refine ⟨n, rfl, small, ?_⟩
  rcases effect with refused | ⟨fde, s₁, grows, rfl, rfl⟩
  · exact .inl refused
  refine .inr ⟨rfl, ?_⟩
  by_cases more : (s.fdTbl n).inode.size < (s.fdTbl n).cursor + offset
  · obtain ⟨used, room⟩ := ok n slot more
    obtain ⟨file, copy⟩ := sound.copies n used
    rcases copy.grow sound.holds file used room grows with ⟨less, _⟩ | ⟨_, v', own', rfl, grown⟩
    · exact absurd more less
    have mine : (({ s with vol := v', ticks := s.ticks + 1 } : Fs).setFd n
        { fde with cursor := offset }).fdTbl n = { fde with cursor := offset } := setFd_same
    have after := grown.copy copy more
    have acted : Acted s own n (({ s with vol := v', ticks := s.ticks + 1 } : Fs).setFd n
        { fde with cursor := offset }) own' := by
      constructor
      case confined => exact grown.confined
      case inodeBm => exact grown.inodeBm
      case id =>
        rw [mine]
        change fde.inodeId = _
        rw [grown.same]
      case open' =>
        rw [mine]
        change fde.state = _
        rw [grown.same]
      case others => exact fun k apart => setFd_other apart
      case cwd => rfl
      case copy =>
        rw [mine]; exact ⟨after.type, after.mapped, after.blocks, after.cache⟩
      case inode =>
        rw [mine]
        exact .inr grown.onDisk
    exact .inr ⟨more, used, own', fde, grown, mine, acted, acted.sound sound used⟩
  · rcases growFd_eq grows with ⟨_, rfl, rfl⟩ | ⟨less, _⟩
    · exact .inl ⟨more, rfl, sound.setFd rfl rfl rfl id⟩
    · exact absurd less more

end
end CdnwSh
