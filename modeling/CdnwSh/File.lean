import CdnwSh.Namespace

/-! Descriptors and the operations on open files: `cnopen`, `cnclose`, `cnread`,
`cnseek`, `cnwrite`, `cncat`, `cnimport` and `cnexport`. -/
namespace CdnwSh

open ByteMemory

def fdSlot (fd : Int) : Option Nat := if 0 ≤ fd ∧ fd < 1024 then some fd.toNat else none

def Fs.setFd (s : Fs) (fd : Nat) (fde : FdEntry) : Fs :=
  { s with fdTbl := fun k => if k = fd then fde else s.fdTbl k }

def readData (data : Option Buf) (off n : Nat) : Option (List UInt8) :=
  if n = 0 then some []
  else do
    let buf ← data
    if off + n ≤ buf.size then some (slice buf.mem off n) else none

def writeData (data : Option Buf) (off : Nat) (bytes : List UInt8) : Option (Option Buf) :=
  if bytes = [] then some data
  else do
    let buf ← data
    return some (← buf.copyIn off (ofList bytes) bytes.length)

/-- Transfers of a file without blocks do not look at its null data pointer. -/
def dataBuf (data : Option Buf) : Buf := data.getD (callocBlocks 0)

section
variable [InodeLayout]

def loadData (d : Disk) (inode : Inode) : Option (Option Buf) :=
  if inode.blocks > 0 then (llread d inode (callocBlocks inode.blocks.toNat)).map some
  else some none

/-- The second half of `cnopen`: a free descriptor is filled in from the inode. -/
def openFd (s : Fs) (inodeId : Iptr) (mode : UInt8) : Option (Int × Fs) := do
  let fd := (findFreeBit s.fdBm).toNat
  if 1024 ≤ fd then none
  else
    let fdBm ← setBitmap s.fdBm (UInt32.ofNat fd)
    let inode ← inodeRead s.vol.disk inodeId
    let data ← loadData s.vol.disk inode
    return (fd, { s.setFd fd ⟨data, mode, inodeId, inode, 0, false⟩ with fdBm := fdBm })

def createMissing (dir : DirPtr) (name : Name) (mode : UInt8) (s : Fs) :
    Option (Int × DirPtr × Fs) :=
  if mode = FD_WRITE then cncreat dir name s else some (0, dir, s)

def cnopen (dir : DirPtr) (name : Name) (mode : UInt8) (s : Fs) :
    Option (Int × DirPtr × Fs) := do
  match ← cnstat dir name with
  | (some inodeId, dir) =>
    let (fd, s) ← openFd s inodeId mode
    return (fd, dir, s)
  | (none, dir) =>
    let (created, dir, s) ← createMissing dir name mode s
    if created ≠ 0 then return (-1, dir, s)
    else match ← cnstat dir name with
      | (none, dir) => return (-1, dir, s)
      | (some inodeId, dir) =>
        let (fd, s) ← openFd s inodeId mode
        return (fd, dir, s)

/-- An entry that is not in use keeps its inode and its data pointer. -/
def FdEntry.closed (fde : FdEntry) : FdEntry :=
  { fde with state := FD_FREE, released := fde.data.isSome }

def cnclose (fd : Int) (s : Fs) : Option (Int × Fs) := do
  let fd ← fdSlot fd
  let fde := s.fdTbl fd
  if fde.state = FD_FREE then return (-1, s)
  else
    let fdBm ← clearBitmap s.fdBm (UInt32.ofNat fd)
    return (0, { s.setFd fd fde.closed with fdBm := fdBm })

/-- The bytes stored in the caller's buffer; their number is the result. The byte
before the end of the file is where a read stops. -/
def cnread (bytes : Nat) (fd : Int) (s : Fs) : Option (List UInt8 × Fs) := do
  let fd ← fdSlot fd
  let fde := s.fdTbl fd
  if fde.state ≠ FD_READ then return ([], s)
  else
    let bytesToRead := min bytes (fde.inode.size - (fde.cursor + 1)).toNat
    let read ← readData fde.data fde.cursor.toNat bytesToRead
    return (read, s.setFd fd { fde with cursor := fde.cursor + UInt32.ofNat bytesToRead })

def growBlocks (v : Vol) (inode : Inode) (requiredBlocks : UInt32) : Option (Inode × Vol) :=
  if inode.blocks < requiredBlocks then reallocFsBlocks v inode requiredBlocks else some (inode, v)

/-- What `cnseek` and `cnwrite` do when the file is smaller than `required`: the cache
grows even where the allocated blocks already suffice. The result is -1 for the exit to
`error`. -/
def growFd (s : Fs) (fde : FdEntry) (required : UInt32) : Option (Int × FdEntry × Fs) :=
  if fde.inode.size < required then do
    let requiredBlocks := required / 4096 + 1
    let (cached, fde) ← reallocCache s.host.heap fde requiredBlocks
    if cached ≠ 0 then return (-1, fde, s)
    else
      let inode := { fde.inode with size := required }
      let (inode, v) ← growBlocks s.vol inode requiredBlocks
      let (modified, s) := timeNull { s with vol := v }
      let inode := { inode with modified := modified }
      let d ← inodeWrite s.vol.disk fde.inodeId inode
      return (0, { fde with inode := inode }, { s with vol := { s.vol with disk := d } })
  else some (0, fde, s)

def cnseek (fd : Int) (offset : UInt32) (s : Fs) : Option (Int × Fs) := do
  let fd ← fdSlot fd
  let fde := s.fdTbl fd
  let (grown, fde, s) ← growFd s fde (fde.cursor + offset)
  if grown ≠ 0 then return (-1, s)
  else return (0, s.setFd fd { fde with cursor := offset })

/-- The result is the number of bytes written, 0 for a failure. -/
def cnwrite (buf : List UInt8) (fd : Int) (s : Fs) : Option (Nat × Fs) := do
  let fd ← fdSlot fd
  let fde := s.fdTbl fd
  if fde.state ≠ FD_WRITE then return (0, s)
  else
    let (grown, fde, s) ← growFd s fde (UInt32.ofNat (fde.cursor.toNat + buf.length))
    if grown ≠ 0 then return (0, s)
    else
      let data ← writeData fde.data fde.cursor.toNat buf
      let fde := { fde with data := data, cursor := fde.cursor + UInt32.ofNat buf.length }
      let d ← llwrite s.vol.disk fde.inode (dataBuf fde.data)
      return (buf.length, { s.setFd fd fde with vol := { s.vol with disk := d } })

/-- An `int16_t` stored in an `int8_t`. -/
def toInt8 (fd : Int) : Int := fd.bmod 256

/-- The descriptor that was opened stays open. -/
def cncat (name : Name) (s : Fs) : Option (Int × List UInt8 × Fs) := do
  let dir ← ← cnopendir s dot
  match ← cnstat dir name with
  | (none, _) => return (-1, [], s)
  | (some inodeId, dir) =>
    let inode ← inodeRead s.vol.disk inodeId
    let (fd, _, s) ← cnopen dir name FD_READ s
    if toInt8 fd < 0 then return (-1, [], s)
    else
      let (bytes, s) ← cnread inode.size.toNat (toInt8 fd) s
      return (0, bytes, s)

/-- Up to the successful `cnopen`, the error exit closes a descriptor that is not set. The
buffer for the whole file is filled without a look at whether it was granted. -/
def cnimport (hName gName : Name) (s : Fs) : Option (Int × Fs) := do
  let content ← s.host.files hName
  let dir ← ← cnopendir s dot
  let (created, dir, s) ← cncreat dir gName s
  if created ≠ 0 then none
  else
    let (gFile, _, s) ← cnopen dir gName FD_WRITE s
    let failed (s : Fs) : Option (Int × Fs) := do return (-1, (← cnclose gFile s).2)
    if gFile < 0 then failed s
    else if s.host.heap.grants content.length = false then none
    else if min (s.host.readable hName) content.length ≠ content.length then failed s
    else
      let (result, s) ← cnwrite content gFile s
      if result = 0 then failed s
      else return (0, (← cnclose gFile s).2)

def Host.put (h : Host) (name : Name) (content : List UInt8) : Host :=
  { h with files := fun n => if n = name then some content else h.files n }

/-- `fopen` with "wb" leaves an empty file, `fwrite` fills it as far as the host goes. The
buffer is filled as that of `cnimport`. -/
def cnexport (gName hName : Name) (s : Fs) : Option (Int × Fs) := do
  let room ← s.host.writable hName
  let s := { s with host := s.host.put hName [] }
  let dir ← ← cnopendir s dot
  let (gFile, dir, s) ← cnopen dir gName FD_READ s
  let failed (s : Fs) : Option (Int × Fs) := do return (-1, (← cnclose gFile s).2)
  if gFile < 0 then failed s
  else match ← cnstat dir gName with
    | (none, _) => failed s
    | (some inodeId, _) =>
      let inode ← inodeRead s.vol.disk inodeId
      let size := inode.size.toNat
      if s.host.heap.grants size = false then none
      else
        let (bytes, s) ← cnread size gFile s
        if bytes.length ≠ size then failed s
        else
          let written := bytes.take room
          let s := { s with host := s.host.put hName written }
          if written.length = 0 then failed s
          else return (0, (← cnclose gFile s).2)

omit [InodeLayout] in
theorem fdSlot_eq (slot : fdSlot fd = some n) : fd = (n : Int) ∧ n < 1024 := by
  unfold fdSlot at slot
  split at slot
  next inside =>
    cases slot
    omega
  · cases slot

omit [InodeLayout] in
theorem cnclose_eq (run : cnclose fd s = some (code, s')) :
    ∃ n, fdSlot fd = some n ∧
      ((s.fdTbl n).state = FD_FREE ∧ code = -1 ∧ s' = s ∨
        (s.fdTbl n).state ≠ FD_FREE ∧ code = 0 ∧
          ∃ fdBm, clearBitmap s.fdBm (UInt32.ofNat n) = some fdBm ∧
            s' = { s.setFd n (s.fdTbl n).closed with fdBm := fdBm }) := by
  obtain ⟨n, slot, run⟩ := Option.bind_eq_some_iff.mp run
  refine ⟨n, slot, ?_⟩
  dsimp only at run
  split at run
  next free =>
    cases run
    exact .inl ⟨free, rfl, rfl⟩
  next used =>
    obtain ⟨fdBm, clears, run⟩ := Option.bind_eq_some_iff.mp run
    cases run
    exact .inr ⟨used, rfl, fdBm, clears, rfl⟩

omit [InodeLayout] in
theorem readData_some (read : readData data off n = some bytes) :
    bytes = slice (dataBuf data).mem off n := by
  unfold readData at read
  split at read
  next none =>
    cases read
    rw [none]
    rfl
  · obtain ⟨buf, here, read⟩ := Option.bind_eq_some_iff.mp read
    split at read
    · cases read
      rw [here]
      rfl
    · cases read

omit [InodeLayout] in
theorem readData_length (read : readData data off n = some bytes) : bytes.length = n := by
  rw [readData_some read, length_slice]

omit [InodeLayout] in
theorem cnread_eq (run : cnread bytes fd s = some (out, s')) :
    ∃ n, fdSlot fd = some n ∧
      ((s.fdTbl n).state ≠ FD_READ ∧ out = [] ∧ s' = s ∨
        (s.fdTbl n).state = FD_READ ∧
          readData (s.fdTbl n).data (s.fdTbl n).cursor.toNat out.length = some out ∧
          out.length = min bytes ((s.fdTbl n).inode.size - ((s.fdTbl n).cursor + 1)).toNat ∧
          s' = s.setFd n { s.fdTbl n with
            cursor := (s.fdTbl n).cursor + UInt32.ofNat out.length }) := by
  obtain ⟨n, slot, run⟩ := Option.bind_eq_some_iff.mp run
  refine ⟨n, slot, ?_⟩
  dsimp only at run
  split at run
  next other =>
    cases run
    exact .inl ⟨other, rfl, rfl⟩
  next opened =>
    obtain ⟨read, copied, run⟩ := Option.bind_eq_some_iff.mp run
    have length := readData_length copied
    cases run
    rw [← length] at copied ⊢
    exact .inr ⟨not_not.mp opened, copied, rfl, rfl⟩

def CacheGranted (heap : Heap) (size : Nat) : Prop :=
  heap.grants (4096 * (UInt32.ofNat size / 4096 + 1).toNat) = true

instance : Decidable (CacheGranted heap size) := inferInstanceAs (Decidable (_ = true))

/-- A growth to `required` bytes asks for a cache that `calloc` refuses. -/
def Refused (s : Fs) (fde : FdEntry) (required : UInt32) : Prop :=
  fde.inode.size < required ∧ s.host.heap.grants (4096 * (required / 4096 + 1).toNat) = false

omit [InodeLayout] in
theorem reallocCache_cases {need : UInt32} (run : reallocCache heap fde need = some (code, fde')) :
    (heap.grants (4096 * need.toNat) = false ∧ code = -1 ∧ fde' = fde) ∨
    (heap.grants (4096 * need.toNat) = true ∧ code = 0 ∧
      fde' = { fde with data := fde'.data } ∧ (dataBuf fde'.data).size = 4096 * need.toNat) := by
  unfold reallocCache at run
  split at run
  next refused =>
    cases run
    exact .inl ⟨refused, rfl, rfl⟩
  next granted =>
    have granted := Bool.eq_true_of_not_eq_false granted
    dsimp only at run
    split at run
    · cases run
      exact .inr ⟨granted, rfl, rfl, rfl⟩
    · split at run
      · cases run
      split at run
      · obtain ⟨buf, copied, run⟩ := Option.bind_eq_some_iff.mp run
        cases run
        unfold Buf.copyIn at copied
        split at copied
        · cases copied
          exact .inr ⟨granted, rfl, rfl, rfl⟩
        · cases copied
      · cases run

/-- A growth that is refused changes nothing, and every other one succeeds. -/
theorem growFd_cases {required : UInt32} (run : growFd s fde required = some (code, fde', s')) :
    (Refused s fde required ∧ code = -1 ∧ fde' = fde ∧ s' = s) ∨
    (¬ Refused s fde required ∧ code = 0) := by
  unfold growFd at run
  split at run
  next less =>
    obtain ⟨⟨cached, fde₁⟩, cache, run⟩ := Option.bind_eq_some_iff.mp run
    dsimp only at run
    rcases reallocCache_cases cache with ⟨refused, rfl, same⟩ | ⟨granted, rfl, _, _⟩
    · rw [if_pos (by decide), same] at run
      cases run
      exact .inl ⟨⟨less, refused⟩, rfl, rfl, rfl⟩
    · rw [if_neg (not_not.mpr rfl)] at run
      obtain ⟨⟨st, v⟩, grown, run⟩ := Option.bind_eq_some_iff.mp run
      obtain ⟨d, written, run⟩ := Option.bind_eq_some_iff.mp run
      cases run
      refine .inr ⟨fun refused => ?_, rfl⟩
      rw [refused.2] at granted
      cases granted
  next enough =>
    cases run
    exact .inr ⟨fun refused => enough refused.1, rfl⟩

theorem growFd_refused {required : UInt32} (refused : Refused s fde required) :
    growFd s fde required = some (-1, fde, s) := by
  have cached : reallocCache s.host.heap fde (required / 4096 + 1) = some (-1, fde) := if_pos refused.2
  rw [growFd, if_pos refused.1]
  dsimp only
  rw [cached]
  rfl

/-- A file that is large enough is left alone; any other gets a larger cache, its blocks and a
new inode on disk. -/
theorem growFd_eq {required : UInt32} (run : growFd s fde required = some (0, fde', s')) :
    (¬ fde.inode.size < required ∧ fde' = fde ∧ s' = s) ∨
    (fde.inode.size < required ∧ ∃ data st v d,
      (dataBuf data).size = 4096 * (required / 4096 + 1).toNat ∧
      growBlocks s.vol { fde.inode with size := required } (required / 4096 + 1) = some (st, v) ∧
      inodeWrite v.disk fde.inodeId { st with modified := s.clock s.ticks } = some d ∧
      fde' = { fde with data := data, inode := { st with modified := s.clock s.ticks } } ∧
      s' = { s with vol := { v with disk := d }, ticks := s.ticks + 1 }) := by
  unfold growFd at run
  split at run
  next less =>
    obtain ⟨⟨cached, fde₁⟩, cache, run⟩ := Option.bind_eq_some_iff.mp run
    dsimp only at run
    rcases reallocCache_cases cache with ⟨_, rfl, _⟩ | ⟨_, rfl, same, size⟩
    · rw [if_pos (by decide)] at run
      cases run
    rw [if_neg (not_not.mpr rfl)] at run
    obtain ⟨⟨st, v⟩, grown, run⟩ := Option.bind_eq_some_iff.mp run
    obtain ⟨d, written, run⟩ := Option.bind_eq_some_iff.mp run
    cases run
    rw [same] at grown written ⊢
    exact .inr ⟨less, fde₁.data, st, v, d, size, grown, written, rfl, rfl⟩
  next enough =>
    cases run
    exact .inl ⟨enough, rfl, rfl⟩

theorem cnseek_eq (run : cnseek fd offset s = some (code, s')) :
    ∃ n, fdSlot fd = some n ∧
      (Refused s (s.fdTbl n) ((s.fdTbl n).cursor + offset) ∧ code = -1 ∧ s' = s ∨
        ∃ fde s₁, growFd s (s.fdTbl n) ((s.fdTbl n).cursor + offset) = some (0, fde, s₁) ∧
          code = 0 ∧ s' = s₁.setFd n { fde with cursor := offset }) := by
  obtain ⟨n, slot, run⟩ := Option.bind_eq_some_iff.mp run
  obtain ⟨⟨grown, fde, s₁⟩, grows, run⟩ := Option.bind_eq_some_iff.mp run
  refine ⟨n, slot, ?_⟩
  rcases growFd_cases grows with ⟨refused, rfl, rfl, rfl⟩ | ⟨_, rfl⟩
  · cases run
    exact .inl ⟨refused, rfl, rfl⟩
  · cases run
    exact .inr ⟨fde, s₁, grows, rfl, rfl⟩

theorem cnwrite_eq (run : cnwrite buf fd s = some (written, s')) :
    ∃ n, fdSlot fd = some n ∧
      (((s.fdTbl n).state ≠ FD_WRITE ∨
          Refused s (s.fdTbl n) (UInt32.ofNat ((s.fdTbl n).cursor.toNat + buf.length))) ∧
          written = 0 ∧ s' = s ∨
        (s.fdTbl n).state = FD_WRITE ∧ ∃ fde s₁ data d,
          growFd s (s.fdTbl n) (UInt32.ofNat ((s.fdTbl n).cursor.toNat + buf.length)) =
            some (0, fde, s₁) ∧
          writeData fde.data fde.cursor.toNat buf = some data ∧
          llwrite s₁.vol.disk fde.inode (dataBuf data) = some d ∧
          written = buf.length ∧
          s' = { s₁.setFd n { fde with
              data := data, cursor := fde.cursor + UInt32.ofNat buf.length } with
            vol := { s₁.vol with disk := d } }) := by
  obtain ⟨n, slot, run⟩ := Option.bind_eq_some_iff.mp run
  refine ⟨n, slot, ?_⟩
  dsimp only at run
  split at run
  next other =>
    cases run
    exact .inl ⟨.inl other, rfl, rfl⟩
  next opened =>
    obtain ⟨⟨grown, fde, s₁⟩, grows, run⟩ := Option.bind_eq_some_iff.mp run
    rcases growFd_cases grows with ⟨refused, rfl, rfl, rfl⟩ | ⟨_, rfl⟩
    · cases run
      exact .inl ⟨.inr refused, rfl, rfl⟩
    rw [if_neg (not_not.mpr rfl)] at run
    obtain ⟨data, stores, run⟩ := Option.bind_eq_some_iff.mp run
    obtain ⟨d, writes, run⟩ := Option.bind_eq_some_iff.mp run
    cases run
    exact .inr ⟨not_not.mp opened, fde, s₁, data, d, grows, stores, writes, rfl, rfl⟩

theorem cncat_eq (run : cncat name s = some (code, bytes, s')) :
    ∃ dir, cnopendir s dot = some (some dir) ∧
      ((∃ next, cnstat dir name = some (none, next) ∧ code = -1 ∧ bytes = [] ∧ s' = s) ∨
        ∃ i next inode fd dir' s₁, cnstat dir name = some (some i, next) ∧
          inodeRead s.vol.disk i = some inode ∧ cnopen next name FD_READ s = some (fd, dir', s₁) ∧
          ((toInt8 fd < 0 ∧ code = -1 ∧ bytes = [] ∧ s' = s₁) ∨
            ¬ toInt8 fd < 0 ∧ code = 0 ∧
              cnread inode.size.toNat (toInt8 fd) s₁ = some (bytes, s'))) := by
  obtain ⟨found, opened, run⟩ := Option.bind_eq_some_iff.mp run
  obtain ⟨dir, same, run⟩ := Option.bind_eq_some_iff.mp run
  refine ⟨dir, by rw [opened, same], ?_⟩
  obtain ⟨⟨i, next⟩, stat, run⟩ := Option.bind_eq_some_iff.mp run
  cases i with
  | none =>
    cases run
    exact .inl ⟨next, stat, rfl, rfl, rfl⟩
  | some i =>
    obtain ⟨inode, read, run⟩ := Option.bind_eq_some_iff.mp run
    obtain ⟨⟨fd, dir', s₁⟩, opens, run⟩ := Option.bind_eq_some_iff.mp run
    refine .inr ⟨i, next, inode, fd, dir', s₁, stat, read, opens, ?_⟩
    dsimp only at run
    split at run
    next negative =>
      cases run
      exact .inl ⟨negative, rfl, rfl, rfl⟩
    next valid =>
      obtain ⟨⟨out, s₂⟩, reads, run⟩ := Option.bind_eq_some_iff.mp run
      cases run
      exact .inr ⟨valid, rfl, reads⟩

omit [InodeLayout] in
theorem closed_eq {fd : Int} (run : (do return (code, (← cnclose fd s).2)) = some (code', s')) :
    code' = code ∧ ∃ c, cnclose fd s = some (c, s') := by
  obtain ⟨⟨c, s₁⟩, closes, run⟩ := Option.bind_eq_some_iff.mp run
  cases run
  exact ⟨rfl, c, closes⟩

/-- The file is created, opened and, where the host file reads whole, written. -/
theorem cnimport_eq (run : cnimport hName gName s = some (code, s')) :
    ∃ content dir dir₁ s₁ gFile dir₂ s₂ s₃, s.host.files hName = some content ∧
      cnopendir s dot = some (some dir) ∧ cncreat dir gName s = some (0, dir₁, s₁) ∧
      cnopen dir₁ gName FD_WRITE s₁ = some (gFile, dir₂, s₂) ∧
      (gFile < 0 ∨ s₂.host.heap.grants content.length = true) ∧ (∃ c, cnclose gFile s₃ = some (c, s')) ∧
      (code = -1 ∧ s₃ = s₂ ∧
          (gFile < 0 ∨ min (s₂.host.readable hName) content.length ≠ content.length) ∨
        ¬ gFile < 0 ∧ min (s₂.host.readable hName) content.length = content.length ∧
          ∃ result, cnwrite content gFile s₂ = some (result, s₃) ∧
            code = if result = 0 then -1 else 0) := by
  obtain ⟨content, reads, run⟩ := Option.bind_eq_some_iff.mp run
  obtain ⟨found, opened, run⟩ := Option.bind_eq_some_iff.mp run
  obtain ⟨dir, same, run⟩ := Option.bind_eq_some_iff.mp run
  obtain ⟨⟨created, dir₁, s₁⟩, creates, run⟩ := Option.bind_eq_some_iff.mp run
  dsimp only at run
  split at run
  · cases run
  next made =>
    obtain rfl := not_not.mp made
    obtain ⟨⟨gFile, dir₂, s₂⟩, opens, run⟩ := Option.bind_eq_some_iff.mp run
    have opensDot : cnopendir s dot = some (some dir) := by rw [opened, same]
    dsimp only at run
    split at run
    next negative =>
      obtain ⟨rfl, closes⟩ := closed_eq run
      exact ⟨content, dir, dir₁, s₁, gFile, dir₂, s₂, s₂, reads, opensDot, creates, opens, .inl negative,
        closes, .inl ⟨rfl, rfl, .inl negative⟩⟩
    next valid =>
      split at run
      · cases run
      next granted =>
      have granted := Bool.eq_true_of_not_eq_false granted
      split at run
      next short =>
        obtain ⟨rfl, closes⟩ := closed_eq run
        exact ⟨content, dir, dir₁, s₁, gFile, dir₂, s₂, s₂, reads, opensDot, creates, opens, .inr granted,
          closes, .inl ⟨rfl, rfl, .inr short⟩⟩
      next whole =>
        obtain ⟨⟨result, s₃⟩, writes, run⟩ := Option.bind_eq_some_iff.mp run
        refine ⟨content, dir, dir₁, s₁, gFile, dir₂, s₂, s₃, reads, opensDot, creates, opens,
          .inr granted, ?_⟩
        dsimp only at run
        split at run
        next nothing =>
          obtain ⟨rfl, closes⟩ := closed_eq run
          exact ⟨closes, .inr ⟨valid, not_not.mp whole, result, writes, by rw [if_pos nothing]⟩⟩
        next bytes =>
          obtain ⟨rfl, closes⟩ := closed_eq run
          exact ⟨closes, .inr ⟨valid, not_not.mp whole, result, writes, by rw [if_neg bytes]⟩⟩

/-- The file is opened and, where it is there, read; what was read goes to the host. -/
theorem cnexport_eq (run : cnexport gName hName s = some (code, s')) :
    ∃ room dir gFile dir₁ s₁ s₃, s.host.writable hName = some room ∧
      cnopendir { s with host := s.host.put hName [] } dot = some (some dir) ∧
      cnopen dir gName FD_READ { s with host := s.host.put hName [] } = some (gFile, dir₁, s₁) ∧
      (∃ c, cnclose gFile s₃ = some (c, s')) ∧
      (code = -1 ∧ s₃ = s₁ ∧ (gFile < 0 ∨ ∃ next, cnstat dir₁ gName = some (none, next)) ∨
        ¬ gFile < 0 ∧ ∃ i next inode bytes s₂, cnstat dir₁ gName = some (some i, next) ∧
          inodeRead s₁.vol.disk i = some inode ∧
          cnread inode.size.toNat gFile s₁ = some (bytes, s₂) ∧
          (code = -1 ∧ s₃ = s₂ ∧ bytes.length ≠ inode.size.toNat ∨
            bytes.length = inode.size.toNat ∧
              s₃ = { s₂ with host := s₂.host.put hName (bytes.take room) } ∧
              code = if (bytes.take room).length = 0 then -1 else 0)) := by
  obtain ⟨room, writable, run⟩ := Option.bind_eq_some_iff.mp run
  dsimp only at run
  obtain ⟨found, opened, run⟩ := Option.bind_eq_some_iff.mp run
  obtain ⟨dir, same, run⟩ := Option.bind_eq_some_iff.mp run
  obtain ⟨⟨gFile, dir₁, s₁⟩, opens, run⟩ := Option.bind_eq_some_iff.mp run
  rw [same] at opened
  dsimp only at run
  split at run
  next negative =>
    obtain ⟨rfl, closes⟩ := closed_eq run
    exact ⟨room, dir, gFile, dir₁, s₁, s₁, writable, opened, opens, closes,
      .inl ⟨rfl, rfl, .inl negative⟩⟩
  next valid =>
    obtain ⟨⟨i, next⟩, stat, run⟩ := Option.bind_eq_some_iff.mp run
    cases i with
    | none =>
      obtain ⟨rfl, closes⟩ := closed_eq run
      exact ⟨room, dir, gFile, dir₁, s₁, s₁, writable, opened, opens, closes,
        .inl ⟨rfl, rfl, .inr ⟨next, stat⟩⟩⟩
    | some i =>
      obtain ⟨inode, read, run⟩ := Option.bind_eq_some_iff.mp run
      split at run
      · cases run
      obtain ⟨⟨bytes, s₂⟩, reads, run⟩ := Option.bind_eq_some_iff.mp run
      dsimp only at run
      split at run
      next short =>
        obtain ⟨rfl, closes⟩ := closed_eq run
        exact ⟨room, dir, gFile, dir₁, s₁, s₂, writable, opened, opens, closes,
          .inr ⟨valid, i, next, inode, bytes, s₂, stat, read, reads, .inl ⟨rfl, rfl, short⟩⟩⟩
      next whole =>
        refine ⟨room, dir, gFile, dir₁, s₁, { s₂ with host := s₂.host.put hName (bytes.take room) },
          writable, opened, opens, ?_⟩
        split at run
        next nothing =>
          obtain ⟨rfl, closes⟩ := closed_eq run
          exact ⟨closes, .inr ⟨valid, i, next, inode, bytes, s₂, stat, read, reads,
            .inr ⟨not_not.mp whole, rfl, by rw [if_pos nothing]⟩⟩⟩
        next some_written =>
          obtain ⟨rfl, closes⟩ := closed_eq run
          exact ⟨closes, .inr ⟨valid, i, next, inode, bytes, s₂, stat, read, reads,
            .inr ⟨not_not.mp whole, rfl, by rw [if_neg some_written]⟩⟩⟩

end
end CdnwSh
