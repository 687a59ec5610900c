import CdnwSh.Namespace
import CdnwSh.Lookup

/-! The bytes of directory records: a stored record is read back, leaves the records
before it alone and ends where the next one begins. -/
namespace CdnwSh

open ByteMemory RecordList

/-- A record as the creators make it: its name fits the length byte and its length is
the padded one. -/
structure DirEntry.Sound (e : DirEntry) : Prop where
  short : e.name.length ≤ 255
  padded : e.entryLen = entryLenOf e.name.length

theorem DirEntry.Sound.len {e : DirEntry} (sound : e.Sound) :
    8 + e.name.length < e.entryLen ∧ e.entryLen ≤ 12 + e.name.length := by
  rw [sound.padded, entryLenOf]; omega

theorem putEntry_out (outside : i < off ∨ off + 8 + n ≤ i) :
    putEntry m off inode entryLen nameLen fileType name n i = m i := by
  simp only [putEntry, writeLE]
  rw [copy_out (by omega), copy_out (by omega), copy_out (by omega), copy_out (by omega),
    copy_out (by omega)]

theorem entryAt_putEntry {inode : Iptr} {name : Name} (room : off + 8 + name.length ≤ size)
    (short : name.length ≤ 255) (small : entryLen < 65536) :
    entryAt ⟨size, putEntry m off inode.toNat entryLen name.length fileType (ofList name)
      name.length⟩ off = some ⟨inode, entryLen, fileType, name⟩ := by
  have tag : putEntry m off inode.toNat entryLen name.length fileType (ofList name) name.length
      (off + 7) = fileType := by
    simp only [putEntry]
    rw [copy_out (by omega), copy_in (by omega) (by omega)]
  have header (k n) (low : k + n ≤ off + 7) :
      readLE (putEntry m off inode.toNat entryLen name.length fileType (ofList name) name.length)
        k n = readLE (writeLE (writeLE (writeLE m off 4 inode.toNat) (off + 4) 2 entryLen)
          (off + 6) 1 name.length) k n := by
    simp only [putEntry]
    rw [readLE_copy_out (by omega), readLE_copy_out (by omega)]
  have number : readLE (putEntry m off inode.toNat entryLen name.length fileType (ofList name)
      name.length) off 4 = inode.toNat := by
    rw [header off 4 (by omega), readLE_writeLE_out (by omega), readLE_writeLE_out (by omega),
      readLE_writeLE]
    exact Nat.mod_eq_of_lt inode.toNat_lt
  have length : readLE (putEntry m off inode.toNat entryLen name.length fileType (ofList name)
      name.length) (off + 4) 2 = entryLen := by
    rw [header (off + 4) 2 (by omega), readLE_writeLE_out (by omega), readLE_writeLE]
    exact Nat.mod_eq_of_lt small
  have nameLen : (putEntry m off inode.toNat entryLen name.length fileType (ofList name)
      name.length (off + 6)).toNat = name.length := by
    have one := header (off + 6) 1 (by omega)
    rw [readLE_writeLE, Nat.mod_eq_of_lt (by omega)] at one
    simpa [readLE] using one
  have text : slice (putEntry m off inode.toNat entryLen name.length fileType (ofList name)
      name.length) (off + 8) name.length = name := slice_copy_ofList name
  simp only [entryAt, nameLen, number, length, text, tag, UInt32.ofNat_toNat]
  rw [if_pos room]

/-- A record is read from its own bytes. -/
theorem entryAt_congr (read : entryAt buf off = some e) (size : buf.size ≤ buf'.size)
    (same : ∀ i, off ≤ i → i < off + 8 + e.name.length → buf'.mem i = buf.mem i) :
    entryAt buf' off = some e := by
  unfold entryAt at read
  dsimp only at read
  split at read
  next inside =>
    cases read
    simp only [length_slice] at same
    have field (k n) (low : off ≤ k) (high : k + n ≤ off + 8) :
        readLE buf'.mem k n = readLE buf.mem k n :=
      readLE_congr fun i _ bound => same i (by omega) (by omega)
    have text : slice buf'.mem (off + 8) (buf.mem (off + 6)).toNat =
        slice buf.mem (off + 8) (buf.mem (off + 6)).toNat :=
      slice_congr fun i low high => same i (by omega) (by omega)
    simp only [entryAt, same (off + 6) (by omega) (by omega), same (off + 7) (by omega) (by omega),
      field off 4 (by omega) (by omega), field (off + 4) 2 (by omega) (by omega), text]
    rw [if_pos (by omega)]
  · contradiction

theorem entryAt_inside {buf : Buf} (read : entryAt buf o = some e) :
    o + 8 + e.name.length ≤ buf.size := by
  unfold entryAt at read
  dsimp only at read
  split at read
  next fits => cases read; rw [length_slice]; exact fits
  · cases read

theorem entryAt_len {buf : Buf} (read : entryAt buf o = some e) : e.entryLen < 65536 := by
  unfold entryAt at read
  dsimp only at read
  split at read
  · cases read
    exact readLE_lt
  · cases read

/-- Storing a record behind the last one appends it. -/
theorem storeEntry_snoc (tiles : Tiles (entryAt buf) DirEntry.entryLen 0 off rs)
    (sounds : ∀ r ∈ rs, r.Sound) (sound : e.Sound)
    (stored : storeEntry buf off e.inode e.entryLen e.name.length e.fileType e.name = some buf') :
    Tiles (entryAt buf') DirEntry.entryLen 0 (off + e.entryLen) (rs ++ [e]) ∧
      buf'.size = buf.size := by
  unfold storeEntry at stored
  dsimp only at stored
  split at stored
  next room =>
    cases stored
    have len := sound.len
    have short := sound.short
    refine ⟨Tiles.snoc (tiles.congr ?_) ?_ (by omega), rfl⟩
    · intro o r member _ high read
      have := (sounds r member).len
      exact entryAt_congr read (Nat.le_refl _) fun i _ bound => putEntry_out (.inl (by omega))
    · exact entryAt_putEntry room short (by omega)
  · contradiction

/-- The two records every directory starts with. -/
def dotEntry (self : Iptr) : DirEntry := ⟨self, 12, ITYPE_DIR, dot⟩
def dotDotEntry (parent : Iptr) : DirEntry := ⟨parent, 12, ITYPE_DIR, dotDot⟩

theorem dotEntry_sound : (dotEntry self).Sound := ⟨by simp [dotEntry, dot], by simp [dotEntry, dot, entryLenOf]⟩
theorem dotDotEntry_sound : (dotDotEntry parent).Sound :=
  ⟨by simp [dotDotEntry, dotDot], by simp [dotDotEntry, dotDot, entryLenOf]⟩

theorem newDirBlock_tiles (self parent : Iptr) :
    Tiles (entryAt ⟨4096, (newDirBlock self parent).mem⟩) DirEntry.entryLen 0 24
      [dotEntry self, dotDotEntry parent] := by
  have none : Tiles (entryAt (callocBlocks 1)) DirEntry.entryLen 0 0 [] := rfl
  obtain ⟨one, _⟩ := storeEntry_snoc (e := dotEntry self) none (by simp) dotEntry_sound rfl
  have two : Tiles (entryAt ⟨4096, putEntry (putEntry (fun _ => 0) 0 self.toNat 12 1 ITYPE_DIR
      (ofList dot) 1) 12 parent.toNat 12 2 ITYPE_DIR (ofList dotDot) 2⟩) DirEntry.entryLen 0
      (0 + (dotEntry self).entryLen + (dotDotEntry parent).entryLen)
      ([] ++ [dotEntry self] ++ [dotDotEntry parent]) :=
    (storeEntry_snoc one (by simpa using dotEntry_sound) dotDotEntry_sound rfl).1
  refine two.congr fun o r member _ high read => entryAt_congr read (Nat.le_refl _) fun i _ bound => ?_
  have len : 8 + r.name.length < r.entryLen := by
    rcases List.mem_append.mp member with member | member
    · simp only [List.nil_append, List.mem_singleton] at member
      rw [member]; exact dotEntry_sound.len.1
    · rw [List.mem_singleton.mp member]; exact dotDotEntry_sound.len.1
  have total : 0 + (dotEntry self).entryLen + (dotDotEntry parent).entryLen = 24 := rfl
  have inside : i < 4096 := by omega
  change (newDirBlock self parent).mem i = _
  rw [newDirBlock, Block.mem_ofMem inside, Nat.zero_add]

end CdnwSh
