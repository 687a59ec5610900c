import CdnwSh.Library.Bytes

/-! An array with a cursor: writing replaces what lies behind the cursor, extends the
array where it is too short and moves the cursor; seeking only moves it. This is what
an open file is for. -/

/-- `data` with `piece` in place of what was at `start`, longer if it has to be. -/
def List.splice (data : List α) (start : Nat) (piece : List α) : List α :=
  data.take start ++ piece ++ data.drop (start + piece.length)

structure CursorArray (α : Type) where
  content : List α
  cursor : Nat

namespace CursorArray

def write (a : CursorArray α) (piece : List α) : CursorArray α :=
  ⟨a.content.splice a.cursor piece, a.cursor + piece.length⟩

def seek (a : CursorArray α) (position : Nat) : CursorArray α := { a with cursor := position }

end CursorArray

theorem List.length_splice {data piece : List α} (bound : start ≤ data.length) :
    (data.splice start piece).length = max data.length (start + piece.length) := by
  simp only [List.splice, List.length_append, List.length_take, List.length_drop]
  omega

theorem List.getElem?_splice {data piece : List α} (bound : start ≤ data.length) (k : Nat) :
    (data.splice start piece)[k]? =
      if start ≤ k ∧ k < start + piece.length then piece[k - start]? else data[k]? := by
  have head : (data.take start).length = start := by rw [List.length_take]; omega
  simp only [List.splice, List.append_assoc]
  by_cases before : k < start
  · rw [if_neg (by omega), List.getElem?_append_left (by omega), List.getElem?_take_of_lt before]
  · rw [List.getElem?_append_right (by omega), head]
    by_cases inside : k < start + piece.length
    · rw [if_pos (by omega), List.getElem?_append_left (by omega)]
    · rw [if_neg (by omega), List.getElem?_append_right (by omega), List.getElem?_drop]
      congr 1
      omega

theorem CursorArray.length_write (a : CursorArray α) (piece : List α)
    (bound : a.cursor ≤ a.content.length) :
    (a.write piece).content.length = max a.content.length (a.cursor + piece.length) :=
  List.length_splice bound

theorem CursorArray.write_end {content piece : List α} :
    (CursorArray.mk content content.length).write piece =
      ⟨content ++ piece, (content ++ piece).length⟩ := by
  simp [CursorArray.write, List.splice]

namespace ByteMemory

/-- A list copied into memory replaces that part of what is read back. -/
theorem slice_splice (bound : start ≤ size) :
    slice (copy m start (ofList piece) piece.length) 0 (max size (start + piece.length)) =
      (slice m 0 size).splice start piece := by
  apply List.ext_getElem?
  intro k
  rw [List.getElem?_splice (by rw [length_slice]; exact bound), getElem?_slice, getElem?_slice]
  simp only [Nat.zero_add]
  by_cases inside : start ≤ k ∧ k < start + piece.length
  · rw [if_pos (by omega), if_pos inside, copy_in inside.1 inside.2, ofList,
      List.getElem?_eq_getElem (by omega), List.getD_eq_getElem?_getD,
      List.getElem?_eq_getElem (by omega)]
    rfl
  · rw [if_neg inside, copy_out (by omega)]
    by_cases low : k < size
    · rw [if_pos (by omega), if_pos low]
    · rw [if_neg (by omega), if_neg low]

end ByteMemory
