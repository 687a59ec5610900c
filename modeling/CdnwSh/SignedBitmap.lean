import CdnwSh.Bitmap
import Mathlib.Data.Set.Basic
import Mathlib.Order.Bounds.Basic

/-! The functions of `bitmap.c` with the types of the source: bytes are signed, masks are cut
to eight bits, operands are promoted to `int`, and the search counts with 16 and 8 bits. They
do on signed bytes what `Bitmap` has on unsigned ones, and so implement a set of the indices
below 32768. -/
namespace CdnwSh

open LeastIndex

/-- `int8_t byte[BLOCK_SIZE]`. -/
abbrev SignedBlock := Fin 4096 → Int8

/-- The promotion of a `uint8_t` to `int`. -/
def promote (b : UInt8) : Int32 := b.toUInt32.toInt32

/-- An `int` stored in a `uint8_t`. -/
def narrow (n : Int32) : UInt8 := n.toUInt32.toUInt8

namespace SignedBlock

def byte (blk : SignedBlock) (i : Nat) : Int8 := if bound : i < 4096 then blk ⟨i, bound⟩ else 0

def setByte (blk : SignedBlock) (i : Nat) (b : Int8) : SignedBlock :=
  fun k => if k.val = i then b else blk k

def byteLoop (blk : SignedBlock) : Nat → UInt16 → UInt16
  | 0, ptr => ptr
  | turns + 1, ptr =>
    if (blk.byte ptr.toNat).toInt32 &&& 0xFF ≠ 0xFF then ptr else byteLoop blk turns (ptr + 1)

def bitLoop (byteFound : UInt8) : Nat → UInt8 → UInt8 → UInt8
  | 0, _, offset => offset
  | turns + 1, mask, offset =>
    if promote byteFound &&& promote mask = 0 then offset
    else bitLoop byteFound turns (mask <<< 1) (offset + 1)

def findFreeBit (blk : SignedBlock) : UInt32 :=
  let ptr := byteLoop blk 4096 0
  if ptr = 4096 then 0
  else
    let byteFound := (blk.byte ptr.toNat).toUInt8
    let offset := bitLoop byteFound 8 0x01 0
    UInt32.ofNat (ptr.toNat * 8 + offset.toNat)

def readBitmap (blk : SignedBlock) (index : UInt32) : Option Bool :=
  let byteIndex := index >>> 3
  if byteIndex.toNat < 4096 then
    some (decide ((blk.byte byteIndex.toNat).toInt32 &&& 1 <<< (index % 8).toInt32 ≠ 0))
  else none

def setBitmap (blk : SignedBlock) (index : UInt32) : Option SignedBlock :=
  let byteIndex := index / 8
  let offset := (index % 8).toUInt8
  let mask := narrow (1 <<< promote offset)
  if byteIndex.toNat < 4096 then
    some (blk.setByte byteIndex.toNat ((blk.byte byteIndex.toNat).toInt32 ||| promote mask).toInt8)
  else none

def clearBitmap (blk : SignedBlock) (index : UInt32) : Option SignedBlock :=
  let byteIndex := index / 8
  let offset := (index % 8).toUInt8
  let mask := narrow (~~~ (1 <<< promote offset))
  if byteIndex.toNat < 4096 then
    some (blk.setByte byteIndex.toNat ((blk.byte byteIndex.toNat).toInt32 &&& promote mask).toInt8)
  else none

end SignedBlock

def Block.signed (blk : Block) : SignedBlock := fun i => (blk i).toInt8

def SignedBlock.unsigned (blk : SignedBlock) : Block := fun i => (blk i).toUInt8

theorem SignedBlock.signed_unsigned (blk : SignedBlock) : blk.unsigned.signed = blk := by
  funext i
  simp [Block.signed, SignedBlock.unsigned]

theorem Block.signed_byte (blk : Block) (i : Nat) : blk.signed.byte i = (blk.mem i).toInt8 := by
  rw [SignedBlock.byte, Block.mem]
  split
  · rfl
  · rfl

theorem promote_or (b m : UInt8) : (b.toInt8.toInt32 ||| promote m).toInt8 = (b ||| m).toInt8 := by
  apply Int8.toBitVec_inj.mp
  simp [promote, BitVec.signExtend_eq_setWidth_of_le]

theorem promote_and (b m : UInt8) : (b.toInt8.toInt32 &&& promote m).toInt8 = (b &&& m).toInt8 := by
  apply Int8.toBitVec_inj.mp
  simp [promote, BitVec.signExtend_eq_setWidth_of_le]

/-- The sign bits of a byte do not get through a mask of eight bits. -/
theorem and_promote (b m : UInt8) : b.toInt8.toInt32 &&& promote m = promote (b &&& m) := by
  apply Int32.toBitVec_inj.mp
  simp only [promote, Int32.toBitVec_and, Int8.toBitVec_toInt32, UInt8.toBitVec_toInt8,
    UInt32.toBitVec_toInt32, UInt8.toBitVec_toUInt32, UInt8.toBitVec_and]
  ext i bound
  by_cases low : i < 8
  · simp [low, BitVec.getElem_signExtend]
  · simp [low, BitVec.getElem_signExtend, BitVec.getLsbD_of_ge m.toBitVec i (Nat.le_of_not_lt low)]

theorem promote_inj : promote b = promote m ↔ b = m := by
  constructor
  · intro same
    have back (n : UInt8) : narrow (promote n) = n := by simp [narrow, promote]
    rw [← back b, same, back]
  · rintro rfl
    rfl

theorem masks : ∀ k : Fin 8, promote (bitMask k) = 1 <<< promote (UInt8.ofNat k) ∧
    narrow (1 <<< promote (UInt8.ofNat k)) = bitMask k ∧
    narrow (~~~ (1 <<< promote (UInt8.ofNat k))) = ~~~ bitMask k ∧
    bitMask k <<< 1 = bitMask (k + 1) ∧
    (UInt32.ofNat k).toInt32 = promote (UInt8.ofNat k) := by decide

/-- A bit of a byte is what its mask leaves of it. -/
theorem and_bitMask {byte : UInt8} (small : k < 8) :
    byte &&& bitMask k = 0 ↔ byte.toNat.testBit k = false := by
  rw [← UInt8.toNat_inj, UInt8.toNat_and, bitMask_toNat small, Nat.and_two_pow]
  cases byte.toNat.testBit k with
  | false => simp
  | true => simp

section
variable {b : Block} {index : UInt32}

theorem signed_setByte (i : Nat) (value : UInt8) : b.signed.setByte i value.toInt8 =
    Block.signed fun k => if k.val = i then value else b k := by
  funext k
  rw [SignedBlock.setByte, Block.signed, Block.signed]
  split
  · rfl
  · rfl

/-- How the functions take an index apart. -/
theorem index_parts (index : UInt32) : (index / 8).toNat = index.toNat / 8 ∧
    (index >>> 3).toNat = index.toNat / 8 ∧ (index % 8).toNat = index.toNat % 8 ∧
    (index % 8).toUInt8 = UInt8.ofNat (index.toNat % 8) ∧
    (index % 8).toInt32 = promote (UInt8.ofNat (index.toNat % 8)) := by
  have offset : index % 8 = UInt32.ofNat (index.toNat % 8) := by
    rw [← UInt32.toNat_inj, UInt32.toNat_ofNat_of_lt' (by change _ < 2 ^ 32; omega)]
    simp
  refine ⟨by simp, by simp [Nat.shiftRight_eq_div_pow], by simp, ?_, ?_⟩
  · rw [← UInt8.toNat_inj]
    simp
  · rw [offset]
    exact (masks ⟨index.toNat % 8, Nat.mod_lt _ (by decide)⟩).2.2.2.2

theorem signed_readBitmap : b.signed.readBitmap index = readBitmap b index := by
  obtain ⟨_, byte, _, _, offset⟩ := index_parts index
  have small : index.toNat % 8 < 8 := Nat.mod_lt _ (by decide)
  obtain ⟨mask, _⟩ := masks ⟨index.toNat % 8, small⟩
  rw [SignedBlock.readBitmap, readBitmap]
  dsimp only at mask ⊢
  rw [byte, offset, Block.signed_byte, ← mask, and_promote]
  have bit : promote (b.mem (index.toNat / 8) &&& bitMask (index.toNat % 8)) ≠ 0 ↔
      bit b index.toNat = true := by
    rw [show (0 : Int32) = promote 0 from rfl, Ne, promote_inj, and_bitMask small, bit,
      Bool.not_eq_false]
  simp only [bit, Bool.decide_eq_true]

theorem signed_setBitmap : b.signed.setBitmap index = (setBitmap b index).map Block.signed := by
  obtain ⟨byte, _, _, offset, _⟩ := index_parts index
  have small : index.toNat % 8 < 8 := Nat.mod_lt _ (by decide)
  obtain ⟨_, mask, _⟩ := masks ⟨index.toNat % 8, small⟩
  rw [SignedBlock.setBitmap, setBitmap]
  dsimp only at mask ⊢
  rw [byte, offset, mask, Block.signed_byte, promote_or, signed_setByte]
  split
  next inside =>
    refine congrArg some (congrArg Block.signed (funext fun k => ?_))
    rw [setBit]
    split
    next here => rw [Block.mem_apply _ inside, ← Fin.ext (a := k) (b := ⟨_, inside⟩) here]
    · rfl
  · rfl

theorem signed_clearBitmap : b.signed.clearBitmap index = (clearBitmap b index).map Block.signed := by
  obtain ⟨byte, _, _, offset, _⟩ := index_parts index
  have small : index.toNat % 8 < 8 := Nat.mod_lt _ (by decide)
  obtain ⟨_, _, mask, _⟩ := masks ⟨index.toNat % 8, small⟩
  rw [SignedBlock.clearBitmap, clearBitmap]
  dsimp only at mask ⊢
  rw [byte, offset, mask, Block.signed_byte, promote_and, signed_setByte]
  split
  next inside =>
    refine congrArg some (congrArg Block.signed (funext fun k => ?_))
    rw [clearBit]
    split
    next here => rw [Block.mem_apply _ inside, ← Fin.ext (a := k) (b := ⟨_, inside⟩) here]
    · rfl
  · rfl

theorem signed_byteLoop (turns : Nat) (ptr : UInt16) (room : ptr.toNat + turns = 4096) :
    (b.signed.byteLoop turns ptr).toNat =
      firstFrom (fun p => b.mem p &&& 0xFF ≠ 0xFF) turns ptr.toNat := by
  induction turns generalizing ptr with
  | zero => rfl
  | succ turns ih =>
    have test : (b.signed.byte ptr.toNat).toInt32 &&& 0xFF ≠ 0xFF ↔
        b.mem ptr.toNat &&& 0xFF ≠ 0xFF := by
      rw [Block.signed_byte, show (0xFF : Int32) = promote 0xFF from rfl, and_promote, Ne, promote_inj]
    have next : (ptr + 1).toNat = ptr.toNat + 1 := by
      rw [UInt16.toNat_add]
      change (ptr.toNat + 1) % 2 ^ 16 = _
      omega
    rw [SignedBlock.byteLoop, firstFrom]
    simp only [test, decide_eq_true_eq]
    split
    · rfl
    · rw [ih (ptr + 1) (by omega), next]

theorem signed_bitLoop (byteFound : UInt8) (turns : Nat) (offset : UInt8)
    (room : offset.toNat + turns = 8) :
    (SignedBlock.bitLoop byteFound turns (bitMask offset.toNat) offset).toNat =
      firstFrom (fun o => !byteFound.toNat.testBit o) turns offset.toNat := by
  induction turns generalizing offset with
  | zero => rfl
  | succ turns ih =>
    have small : offset.toNat < 8 := by omega
    have test : promote byteFound &&& promote (bitMask offset.toNat) = 0 ↔
        byteFound.toNat.testBit offset.toNat = false := by
      rw [← and_bitMask small, ← promote_inj]
      simp [promote]
    have next : (offset + 1).toNat = offset.toNat + 1 := by
      rw [UInt8.toNat_add]
      change (offset.toNat + 1) % 2 ^ 8 = _
      omega
    have mask : bitMask offset.toNat <<< 1 = bitMask (offset + 1).toNat := by
      rw [next]
      exact (masks ⟨offset.toNat, small⟩).2.2.2.1
    rw [SignedBlock.bitLoop, firstFrom]
    simp only [test, Bool.not_eq_true']
    split
    · rfl
    · rw [mask, ih (offset + 1) (by omega), next]

theorem signed_findFreeBit : b.signed.findFreeBit = findFreeBit b := by
  have bytes := signed_byteLoop (b := b) 4096 0 rfl
  have bits (byteFound : UInt8) := signed_bitLoop byteFound 8 0 rfl
  have full : b.signed.byteLoop 4096 0 = 4096 ↔ (b.signed.byteLoop 4096 0).toNat = 4096 := by
    rw [← UInt16.toNat_inj]
    rfl
  rw [SignedBlock.findFreeBit, findFreeBit]
  rw [show (UInt16.toNat 0) = 0 from rfl] at bytes
  simp only [full, bytes, Block.signed_byte]
  split
  · rfl
  · refine congrArg UInt32.ofNat (congrArg _ ?_)
    rw [UInt8.toUInt8_toInt8]
    exact bits _

end

inductive BitmapCall where
  | set (index : UInt32)
  | clear (index : UInt32)

def BitmapCall.index : BitmapCall → UInt32
  | set index => index
  | clear index => index

def SignedBlock.call (blk : SignedBlock) : BitmapCall → Option SignedBlock
  | .set index => blk.setBitmap index
  | .clear index => blk.clearBitmap index

/-- The indices whose bits are read as set. -/
def SignedBlock.members (blk : SignedBlock) : Set UInt32 := {i | blk.readBitmap i = some true}

/-- What the calls are for: a set that indices are put into and taken out of. -/
def BitmapCall.apply (used : Set UInt32) : BitmapCall → Set UInt32
  | set index => insert index used
  | clear index => used \ {index}

section
variable {blk blk' : SignedBlock} {c : BitmapCall} {i : UInt32}

theorem mem_signed {b : Block} :
    i ∈ b.signed.members ↔ i.toNat < 32768 ∧ bit b i.toNat = true := by
  rw [SignedBlock.members, Set.mem_ofPred_eq, signed_readBitmap, readBitmap]
  split
  · simp only [Option.some.injEq]
    exact (and_iff_right (by omega)).symm
  · simp only [reduceCtorEq, false_iff]
    omega

theorem readBitmap_member (blk : SignedBlock) (inside : i.toNat < 32768) :
    blk.readBitmap i = some true ∧ i ∈ blk.members ∨
      blk.readBitmap i = some false ∧ i ∉ blk.members := by
  cases read : blk.readBitmap i with
  | none =>
    rw [← blk.signed_unsigned, signed_readBitmap, readBitmap, if_pos (by omega)] at read
    cases read
  | some value =>
    cases value with
    | true => exact .inl ⟨rfl, read⟩
    | false => exact .inr ⟨rfl, fun member => by cases read.symm.trans member⟩

/-- A call only shows in the set. -/
theorem readBitmap_congr (same : i ∈ blk'.members ↔ i ∈ blk.members) :
    blk'.readBitmap i = blk.readBitmap i := by
  by_cases inside : i.toNat < 32768
  · rcases readBitmap_member blk inside with ⟨read, member⟩ | ⟨read, other⟩
    · exact (same.mpr member).trans read.symm
    · rcases readBitmap_member blk' inside with ⟨_, member⟩ | ⟨read', _⟩
      · exact absurd (same.mp member) other
      · exact read'.trans read.symm
  · have beyond (blk : SignedBlock) : blk.readBitmap i = none := by
      rw [← blk.signed_unsigned, signed_readBitmap, readBitmap, if_neg (by omega)]
    rw [beyond, beyond]

theorem SignedBlock.call_members (blk : SignedBlock) (inside : c.index.toNat < 32768) :
    ∃ blk', blk.call c = some blk' ∧ blk'.members = c.apply blk.members := by
  rw [← blk.signed_unsigned]
  generalize blk.unsigned = b
  cases c with
  | set index =>
    change index.toNat < 32768 at inside
    refine ⟨(setBit b index.toNat).signed, ?_, Set.ext fun i => ?_⟩
    · rw [SignedBlock.call, signed_setBitmap, setBitmap_inside inside]
      rfl
    · rw [mem_signed, BitmapCall.apply, Set.mem_insert_iff, mem_signed, bit_setBit inside,
        Bool.or_eq_true, decide_eq_true_eq, UInt32.toNat_inj]
      constructor
      · rintro ⟨low, member | here⟩
        · exact .inr ⟨low, member⟩
        · exact .inl here
      · rintro (rfl | ⟨low, member⟩)
        · exact ⟨inside, .inr rfl⟩
        · exact ⟨low, .inl member⟩
  | clear index =>
    change index.toNat < 32768 at inside
    refine ⟨(clearBit b index.toNat).signed, ?_, Set.ext fun i => ?_⟩
    · rw [SignedBlock.call, signed_clearBitmap, clearBitmap_inside inside]
      rfl
    · rw [mem_signed, BitmapCall.apply, Set.mem_sdiff, Set.mem_singleton_iff, mem_signed, bit_clearBit,
        Bool.and_eq_true, Bool.not_eq_true', decide_eq_false_iff_not, UInt32.toNat_inj, and_assoc]

theorem SignedBlock.call_others (called : blk.call c = some blk') (inside : c.index.toNat < 32768)
    (other : i ≠ c.index) : blk'.readBitmap i = blk.readBitmap i := by
  obtain ⟨after, run, shows⟩ := call_members blk inside
  obtain rfl := Option.some.inj (called.symm.trans run)
  apply readBitmap_congr
  rw [shows]
  cases c with
  | set index => exact Set.mem_insert_iff.trans (or_iff_right other)
  | clear index => exact Set.mem_sdiff_singleton.trans (and_iff_left other)

theorem SignedBlock.calls_members (blk : SignedBlock) (calls : List BitmapCall)
    (inside : ∀ c ∈ calls, c.index.toNat < 32768) :
    ∃ blk', calls.foldlM SignedBlock.call blk = some blk' ∧
      blk'.members = calls.foldl BitmapCall.apply blk.members := by
  induction calls generalizing blk with
  | nil => exact ⟨blk, rfl, rfl⟩
  | cons c rest ih =>
    obtain ⟨next, called, shows⟩ := call_members blk (inside c List.mem_cons_self)
    obtain ⟨final, run, ends⟩ := ih next fun c member => inside c (List.mem_cons_of_mem _ member)
    refine ⟨final, ?_, by rw [ends, shows, List.foldl_cons]⟩
    rw [List.foldlM_cons, called]
    exact run

/-- The search finds the least index that is not in the set, and answers 0 when there is none. -/
theorem SignedBlock.findFreeBit_members (blk : SignedBlock) :
    ((∃ i : UInt32, i.toNat < 32768 ∧ i ∉ blk.members) →
      IsLeast {i : UInt32 | i.toNat < 32768 ∧ i ∉ blk.members} blk.findFreeBit) ∧
    ((∀ i : UInt32, i.toNat < 32768 → i ∈ blk.members) → blk.findFreeBit = 0) := by
  rw [← blk.signed_unsigned, signed_findFreeBit]
  generalize blk.unsigned = b
  have clear {i : UInt32} (low : i.toNat < 32768) (free : i ∉ b.signed.members) :
      bit b i.toNat = false := by
    rw [mem_signed, not_and, Bool.not_eq_true] at free
    exact free low
  constructor
  · rintro ⟨i, low, free⟩
    obtain ⟨inside, unset, _⟩ := findFreeBit_least (clear low free) low
    refine ⟨⟨inside, fun member => ?_⟩, fun j other => ?_⟩
    · rw [(mem_signed.mp member).2] at unset
      cases unset
    · exact UInt32.le_iff_toNat_le.mpr (findFreeBit_le (clear other.1 other.2) other.1)
  · intro all
    refine findFreeBit_full fun n low => ?_
    have value : (UInt32.ofNat n).toNat = n :=
      UInt32.toNat_ofNat_of_lt' (show n < 2 ^ 32 by omega)
    have member := (mem_signed.mp (all (UInt32.ofNat n) (by omega))).2
    rw [value] at member
    exact member

end

/-- Whatever the bytes of a block and whatever row of calls is made: the block that is left is
read as the set that the calls make of the initial one, the search answers the least index not
in that set, and one call leaves every other index as it was. -/
theorem bitmap_is_set (blk : SignedBlock) (calls : List BitmapCall)
    (inside : ∀ c ∈ calls, c.index.toNat < 32768) :
    (∃ blk', calls.foldlM SignedBlock.call blk = some blk' ∧
      (∀ i : UInt32, i.toNat < 32768 →
        (i ∈ calls.foldl BitmapCall.apply blk.members → blk'.readBitmap i = some true) ∧
        (i ∉ calls.foldl BitmapCall.apply blk.members → blk'.readBitmap i = some false)) ∧
      ((∃ i : UInt32, i.toNat < 32768 ∧ i ∉ calls.foldl BitmapCall.apply blk.members) →
        IsLeast {i : UInt32 | i.toNat < 32768 ∧ i ∉ calls.foldl BitmapCall.apply blk.members}
          blk'.findFreeBit) ∧
      ((∀ i : UInt32, i.toNat < 32768 → i ∈ calls.foldl BitmapCall.apply blk.members) →
        blk'.findFreeBit = 0)) ∧
    ∀ c ∈ calls, ∀ before after : SignedBlock, before.call c = some after →
      ∀ i : UInt32, i ≠ c.index → after.readBitmap i = before.readBitmap i := by
  refine ⟨?_, fun c member before after called i other =>
    SignedBlock.call_others called (inside c member) other⟩
  obtain ⟨blk', run, shows⟩ := SignedBlock.calls_members blk calls inside
  refine ⟨blk', run, ?_⟩
  rw [← shows]
  refine ⟨fun i low => ?_, blk'.findFreeBit_members⟩
  rcases readBitmap_member blk' low with ⟨read, member⟩ | ⟨read, other⟩
  · exact ⟨fun _ => read, fun out => absurd member out⟩
  · exact ⟨fun into => absurd into other, fun _ => read⟩

/-- Three indices set and the middle one cleared. -/
theorem bitmap_is_set_three : ∃ blk',
    [BitmapCall.set 4095, .set 4094, .set 4093, .clear 4094].foldlM SignedBlock.call (fun _ => 0) =
      some blk' ∧
    blk'.readBitmap 4093 = some true ∧ blk'.readBitmap 4094 = some false ∧
    blk'.readBitmap 4095 = some true := by
  obtain ⟨⟨blk', run, reads, _⟩, _⟩ := bitmap_is_set (fun _ => 0)
    [.set 4095, .set 4094, .set 4093, .clear 4094] (by decide)
  refine ⟨blk', run, (reads 4093 (by decide)).1 ?_, (reads 4094 (by decide)).2 ?_,
    (reads 4095 (by decide)).1 ?_⟩
  · simp [BitmapCall.apply]
  · simp [BitmapCall.apply]
  · simp [BitmapCall.apply]

end CdnwSh
