import CdnwSh.FileArray
import CdnwSh.Resize

/-! `cnseek` compares the size with `cursor + offset` and grows the file to it, but moves the
cursor to `offset`: what a seek is to leave, and when it leaves it. -/
namespace CdnwSh

open ByteMemory RecordList PartialRun

section
variable [InodeLayout]

/-- A file that held `content`, in the descriptor and on disk, after a seek to `offset`. -/
structure SoughtTo (s : Fs) (fd : Nat) (offset : UInt32) (content : List UInt8) (s' : Fs) :
    Prop where
  cursor : (s'.fdTbl fd).cursor = offset
  size : (s'.fdTbl fd).inode.size.toNat = max content.length offset.toNat
  onDisk : inodeRead s'.vol.disk (s.fdTbl fd).inodeId = some (s'.fdTbl fd).inode
  covers : (s'.fdTbl fd).inode.size.toNat ≤ 4096 * (s'.fdTbl fd).inode.blocks.toNat
  cached : (cachedBytes (s'.fdTbl fd)).take content.length = content
  stored : ∃ bytes, contentOf s'.vol.disk (s.fdTbl fd).inodeId = some bytes ∧
    bytes.take content.length = content

/-- No call of a row of seeks changes the size. -/
def KeepsSize (fd : Nat) : Fs → List UInt32 → Prop
  | _, [] => True
  | s, offset :: offsets => ∃ s', cnseek fd offset s = some (0, s') ∧
      (s'.fdTbl fd).inode.size = (s.fdTbl fd).inode.size ∧ KeepsSize fd s' offsets

section
variable {s s' : Fs} {own own' : Owner} {fd : Nat} {a : CursorArray UInt8} {offset : UInt32}
  {fde fde' : FdEntry} {v' : Vol}

theorem cnseek_grows (run : cnseek fd offset s = some (code, s')) (slot : fd < 1024) :
    (Refused s (s.fdTbl fd) ((s.fdTbl fd).cursor + offset) ∧ code = -1 ∧ s' = s) ∨
    (code = 0 ∧ ∃ fde s₁,
      growFd s (s.fdTbl fd) ((s.fdTbl fd).cursor + offset) = some (0, fde, s₁) ∧
      s'.fdTbl fd = { fde with cursor := offset } ∧ s'.vol = s₁.vol) := by
  obtain ⟨n, number, effect⟩ := cnseek_eq run
  obtain rfl : fd = n := Option.some.inj ((fdSlot_small slot).symm.trans number)
  rcases effect with refused | ⟨fde, s₁, grows, rfl, rfl⟩
  · exact .inl refused
  · exact .inr ⟨rfl, fde, s₁, grows, setFd_same, rfl⟩

theorem cnseek_refused (slot : fd < 1024)
    (refused : Refused s (s.fdTbl fd) ((s.fdTbl fd).cursor + offset)) :
    cnseek fd offset s = some (-1, s) := by
  rw [cnseek, fdSlot_small slot, Option.bind_eq_bind, Option.bind_some]
  dsimp only
  rw [growFd_refused refused]
  rfl

theorem cnwrite_refused (slot : fd < 1024) (mode : (s.fdTbl fd).state = FD_WRITE)
    (refused : Refused s (s.fdTbl fd) (UInt32.ofNat ((s.fdTbl fd).cursor.toNat + buf.length))) :
    cnwrite buf fd s = some (0, s) := by
  rw [cnwrite, fdSlot_small slot, Option.bind_eq_bind, Option.bind_some]
  dsimp only
  rw [if_neg (not_not.mpr mode), growFd_refused refused]
  rfl

theorem cnwrite_fails (run : cnwrite buf fd s = some (written, s'))
    (other : (s.fdTbl fd).state ≠ FD_WRITE ∨
      Refused s (s.fdTbl fd) (UInt32.ofNat ((s.fdTbl fd).cursor.toNat + buf.length))) :
    written = 0 ∧ s' = s := by
  obtain ⟨n, number, effect⟩ := cnwrite_eq run
  obtain rfl : fd = n := Int.ofNat_inj.mp (fdSlot_eq number).1
  rcases effect with ⟨_, none, same⟩ | ⟨mode, _, _, _, _, grows, _⟩
  · exact ⟨none, same⟩
  · rcases other with other | refused
    · exact absurd mode other
    · rw [growFd_refused refused] at grows
      cases grows

theorem cnwrite_grows (run : cnwrite buf fd s = some (written, s')) (slot : fd < 1024)
    (mode : (s.fdTbl fd).state = FD_WRITE) :
    (Refused s (s.fdTbl fd) (UInt32.ofNat ((s.fdTbl fd).cursor.toNat + buf.length)) ∧
      written = 0 ∧ s' = s) ∨
    (written = buf.length ∧ ∃ fde s₁,
      growFd s (s.fdTbl fd) (UInt32.ofNat ((s.fdTbl fd).cursor.toNat + buf.length)) =
        some (0, fde, s₁) ∧
      (s'.fdTbl fd).inode = fde.inode ∧ s'.vol.blockBmCache = s₁.vol.blockBmCache) := by
  obtain ⟨n, number, ⟨other, failed⟩ | ⟨_, fde, s₁, data, d, grows, _, _, count, rfl⟩⟩ :=
    cnwrite_eq run
  all_goals obtain rfl : fd = n := Option.some.inj ((fdSlot_small slot).symm.trans number)
  · exact .inl ⟨other.resolve_left (not_not.mpr mode), failed⟩
  · refine .inr ⟨count, fde, s₁, grows, ?_, rfl⟩
    change ((s₁.setFd fd _).fdTbl fd).inode = _
    rw [setFd_same]

theorem cnseek_size (run : cnseek fd offset s = some (0, s')) (slot : fd < 1024) :
    (s'.fdTbl fd).inode.size.toNat =
      max (s.fdTbl fd).inode.size.toNat ((s.fdTbl fd).cursor + offset).toNat := by
  rcases cnseek_grows run slot with ⟨_, failed, _⟩ | ⟨_, fde, s₁, grows, entry, _⟩
  · cases failed
  rw [entry]
  change fde.inode.size.toNat = _
  rcases growFd_resized grows with ⟨enough, same, _⟩ | ⟨less, resized, _⟩
  · have low := mt UInt32.lt_iff_toNat_lt.mpr enough
    rw [same]
    omega
  · have more := UInt32.lt_iff_toNat_lt.mp less
    rw [resized.size]
    omega

omit [InodeLayout] in
theorem take_slice (m : Bytes) (low : k ≤ n) : (slice m off n).take k = slice m off k := by
  apply List.ext_getElem?
  intro j
  rw [List.getElem?_take, getElem?_slice, getElem?_slice]
  by_cases bound : j < k
  · rw [if_pos bound, if_pos bound, if_pos (by omega)]
  · rw [if_neg bound, if_neg bound]

theorem FdGrown.kept {required : UInt32} (grown : FdGrown s own fde required fde' v' own')
    (covered : fde.inode.size.toNat ≤ 4096 * fde.inode.blocks.toNat)
    (more : fde.inode.size.toNat < required.toNat) :
    (cachedBytes fde').take fde.inode.size.toNat = cachedBytes fde ∧
      (fileBytes v'.disk fde'.inode).take fde.inode.size.toNat = fileBytes s.vol.disk fde.inode := by
  have larger : fde.inode.size.toNat ≤ fde'.inode.size.toNat := by
    rw [grown.size]
    omega
  rw [cachedBytes, cachedBytes, fileBytes, fileBytes, take_slice _ larger, take_slice _ larger]
  constructor
  · refine slice_congr fun j _ high => ?_
    rw [grown.data, dataBuf_some]
    exact if_pos (by omega)
  · refine slice_congr fun j _ high => ?_
    have inside : j < 4096 * (blockList s.vol.disk fde.inode).length := by
      rw [length_blockList]
      omega
    rw [grown.list, Extents.gather_append inside]
    refine congrFun (Extents.gather_congr fun ptr member => ?_) j
    refine grown.content ptr ?_
    rw [grown.list]
    exact List.mem_append_left _ member

theorem OpenFile.seekInside (opened : OpenFile s own fd a) (ledger : Ledger s.vol own)
    (inside : a.cursor + offset.toNat ≤ a.content.length) :
    ∃ s', cnseek fd offset s = some (0, s') ∧ SoughtTo s fd offset a.content s' ∧
      s'.vol = s.vol ∧ OpenFile s' own fd (a.seek offset.toNat) := by
  obtain ⟨fde, run, same, after⟩ := opened.seek offset inside
  have mine : (s.setFd fd fde).fdTbl fd = { s.fdTbl fd with cursor := offset } := by
    rw [setFd_same, same]
  have length := opened.length
  refine ⟨s.setFd fd fde, run, ⟨by rw [mine], ?_, ?_, ?_, ?_, a.content, ?_, List.take_length⟩,
    rfl, after⟩
  · rw [mine]
    change (s.fdTbl fd).inode.size.toNat = _
    omega
  · rw [mine]
    exact opened.onDisk
  · rw [mine]
    change (s.fdTbl fd).inode.size.toNat ≤ 4096 * (s.fdTbl fd).inode.blocks.toNat
    rw [opened.blocks]
    exact size_le_blocks
  · rw [after.cached]
    exact List.take_length
  · exact opened.contentOf_eq ledger

theorem OpenFile.seekGrows (opened : OpenFile s own fd a) (ledger : Ledger s.vol own)
    (start : a.cursor = 0) (more : a.content.length < offset.toNat)
    (room : blocksFor offset.toNat ≤ 1032)
    (enough : demand (s.fdTbl fd).inode offset.toNat ≤ Pool.block.free s.vol) :
    ∃ s', cnseek fd offset s = some (0, s') ∧ SoughtTo s fd offset a.content s' := by
  have length := opened.length
  have cursor : (s.fdTbl fd).cursor = 0 := UInt32.toNat_inj.mp (opened.cursor.trans start)
  have covered : (s.fdTbl fd).inode.size.toNat ≤ 4096 * (s.fdTbl fd).inode.blocks.toNat := by
    rw [opened.blocks]
    exact size_le_blocks
  rw [demand] at enough
  rw [blocksFor_pos (by omega)] at room enough
  obtain ⟨fde', v', own', run, grown⟩ := growFd_grown ledger opened.live opened.number opened.fits
    opened.mapped (by rw [opened.cache]; exact covered) (by omega) room enough
  obtain ⟨cached, stored⟩ := grown.kept covered (by omega)
  have seeks : cnseek fd offset s = some (0, ({ s with vol := v', ticks := s.ticks + 1 } : Fs).setFd
      fd { fde' with cursor := offset }) := by
    rw [cnseek, fdSlot_small opened.slot]
    simp only [Option.bind_eq_bind, Option.bind_some, cursor, UInt32.zero_add, run]
    rfl
  have mine : (({ s with vol := v', ticks := s.ticks + 1 } : Fs).setFd fd
      { fde' with cursor := offset }).fdTbl fd = { fde' with cursor := offset } := setFd_same
  refine ⟨_, seeks, ⟨by rw [mine], ?_, ?_, ?_, ?_, fileBytes v'.disk fde'.inode, ?_, ?_⟩⟩
  · rw [mine]
    change fde'.inode.size.toNat = _
    rw [grown.size]
    omega
  · rw [mine]
    exact grown.onDisk
  · rw [mine]
    change fde'.inode.size.toNat ≤ 4096 * fde'.inode.blocks.toNat
    rw [grown.size, grown.blocks]
    omega
  · rw [mine, length]
    exact cached.trans opened.cached
  · change contentOf v'.disk _ = _
    rw [contentOf, grown.onDisk]
    simp only [Option.bind_eq_bind, Option.bind_some]
    rw [llread_eq (grown.mapped.inside grown.confined.ledger)]
    rfl
  · rw [length]
    exact stored.trans opened.stored

theorem OpenFile.keepsSize (opened : OpenFile s own fd a) (ledger : Ledger s.vol own)
    (inside : ∀ offset ∈ offsets, offset.toNat ≤ a.content.length) :
    KeepsSize fd s offsets ↔
      List.IsChain (fun c o => c + o ≤ a.content.length) (a.cursor :: offsets.map UInt32.toNat) := by
  induction offsets generalizing s a with
  | nil => exact ⟨fun _ => .singleton _, fun _ => trivial⟩
  | cons offset offsets ih =>
    have length := opened.length
    have within := opened.within
    have few := opened.mapped.few
    have blocks := opened.blocks
    have bound : (s.fdTbl fd).inode.size.toNat ≤ 4096 * blocksFor (s.fdTbl fd).inode.size.toNat :=
      size_le_blocks
    have here := inside offset List.mem_cons_self
    have sum : ((s.fdTbl fd).cursor + offset).toNat = a.cursor + offset.toNat := by
      rw [UInt32.toNat_add, opened.cursor]
      omega
    rw [List.map_cons, List.isChain_cons_cons]
    constructor
    · rintro ⟨s', run, kept, rest⟩
      have size := cnseek_size run opened.slot
      rw [kept, sum] at size
      have room : a.cursor + offset.toNat ≤ a.content.length := by omega
      obtain ⟨s₁, run₁, _, vol, after⟩ := opened.seekInside ledger room
      rw [run] at run₁
      cases run₁
      exact ⟨room, (ih after (by rw [vol]; exact ledger) fun o member =>
        inside o (List.mem_cons_of_mem _ member)).mp rest⟩
    · rintro ⟨room, rest⟩
      obtain ⟨s₁, run, sought, vol, after⟩ := opened.seekInside ledger room
      refine ⟨s₁, run, UInt32.toNat_inj.mp ?_, (ih after (by rw [vol]; exact ledger) fun o member =>
        inside o (List.mem_cons_of_mem _ member)).mpr rest⟩
      rw [sought.size]
      omega

end

/-- For every descriptor open for writing, cursor and offset whose sum is below 2^32, with the
blocks that are needed: the seek leaves a file of the larger of the old size and the offset, if
and only if the cursor is 0 or the sum of cursor and offset is within the file. Positions
within the file leave its size if and only if no two successive ones pass the end together. -/
theorem cnseek_exact {s : Fs} {fd : Nat} {a : CursorArray UInt8} {offset : UInt32}
    (consistent : Consistent s.vol) (opened : WriteOpen s fd a)
    (small : a.cursor + offset.toNat < 2 ^ 32)
    (room : blocksFor (max a.content.length offset.toNat) ≤ 1032)
    (enough : demand (s.fdTbl fd).inode (max a.content.length offset.toNat) ≤
      Pool.block.free s.vol) :
    ((∃ s', cnseek fd offset s = some (0, s') ∧ SoughtTo s fd offset a.content s') ↔
      a.cursor = 0 ∨ a.cursor + offset.toNat ≤ a.content.length) ∧
    ∀ offsets : List UInt32, (∀ o ∈ offsets, o.toNat ≤ a.content.length) →
      (KeepsSize fd s offsets ↔ List.IsChain (fun c o => c + o ≤ a.content.length)
        (a.cursor :: offsets.map UInt32.toNat)) := by
  obtain ⟨own, consistent⟩ := consistent
  have file := opened.openFile consistent
  refine ⟨⟨?_, ?_⟩, fun offsets inside => file.keepsSize consistent.ledger inside⟩
  · rintro ⟨s', run, sought⟩
    have size := cnseek_size run opened.slot
    have length := file.length
    have sum : ((s.fdTbl fd).cursor + offset).toNat = a.cursor + offset.toNat := by
      rw [UInt32.toNat_add, opened.cursor]
      omega
    rw [sought.size, sum] at size
    omega
  · intro exactly
    by_cases inside : a.cursor + offset.toNat ≤ a.content.length
    · obtain ⟨s', run, sought, _⟩ := file.seekInside consistent.ledger inside
      exact ⟨s', run, sought⟩
    · have start := exactly.resolve_right inside
      rw [Nat.max_eq_right (by omega)] at room enough
      exact file.seekGrows consistent.ledger start (by omega) room enough

end

section Lp64
attribute [local instance] lp64

/-- The empty file grows to ten bytes. -/
theorem cnseek_exact_ten : ∃ s', cnseek 0 10 fileOpened.fs = some (0, s') ∧
    SoughtTo fileOpened.fs 0 10 [] s' := by
  obtain ⟨own, node, inv⟩ := fileOpened_inv
  exact ((cnseek_exact ⟨own, inv.sound.holds.consistent⟩ fileOpened_writeOpen (by decide)
    (by decide) (by decide +kernel)).1).mpr (.inl rfl)

theorem threeWritten_sought : (cnseek 0 3 threeWritten.fs).map Prod.fst = some 0 ∧
    ((threeWritten.after (.seek 0 3)).fs.fdTbl 0).inode.size = 6 ∧
    blocksFor (max [1, 2, 3].length (3 : UInt32).toNat) ≤ 1032 ∧
    demand (threeWritten.fs.fdTbl 0).inode (max [1, 2, 3].length (3 : UInt32).toNat) ≤
      Pool.block.free threeWritten.fs.vol := by decide +kernel

/-- A seek to position 3 from the end of a file of three bytes makes it six bytes long. -/
theorem cnseek_exact_doubled : Consistent threeWritten.fs.vol ∧
    WriteOpen threeWritten.fs 0 ⟨[1, 2, 3], 3⟩ ∧
    blocksFor (max [1, 2, 3].length (3 : UInt32).toNat) ≤ 1032 ∧
    demand (threeWritten.fs.fdTbl 0).inode (max [1, 2, 3].length (3 : UInt32).toNat) ≤
      Pool.block.free threeWritten.fs.vol ∧
    (cnseek 0 3 threeWritten.fs).map Prod.fst = some 0 ∧
    ((threeWritten.after (.seek 0 3)).fs.fdTbl 0).inode.size = 6 ∧
    ¬ ∃ s', cnseek 0 3 threeWritten.fs = some (0, s') ∧
      SoughtTo threeWritten.fs 0 3 [1, 2, 3] s' := by
  obtain ⟨consistent, opened⟩ := threeWritten_writeOpen
  obtain ⟨returns, size, room, enough⟩ := threeWritten_sought
  refine ⟨consistent, opened, room, enough, returns, size, ?_⟩
  rintro ⟨s', run, sought⟩
  have grown := cnseek_size (show cnseek ((0 : Nat) : Int) 3 threeWritten.fs = some (0, s') from run)
    opened.slot
  have cursor : (threeWritten.fs.fdTbl 0).cursor = 3 := UInt32.toNat_inj.mp opened.cursor
  have before : (threeWritten.fs.fdTbl 0).inode.size.toNat = 3 := opened.size
  rw [sought.size, cursor, before] at grown
  exact absurd grown (by decide)

end Lp64

end CdnwSh
