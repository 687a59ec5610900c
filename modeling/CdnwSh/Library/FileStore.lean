import CdnwSh.Library.CursorArray
import Mathlib.Logic.Function.Basic

/-! Files and the descriptors they are open on. A descriptor shows the bytes that its file had
when it was opened, with what was written through it since; each file has at most one
descriptor that writes. -/
namespace FileStore

variable {I B : Type}

structure Descriptor (I B : Type) where
  file : I
  writes : Bool
  view : List B
  cursor : Nat

/-- Up to `count` bytes behind the cursor. -/
def Descriptor.ahead (d : Descriptor I B) (count : Nat) : List B := (d.view.drop d.cursor).take count

def Descriptor.move (d : Descriptor I B) (cursor : Nat) : Descriptor I B := { d with cursor := cursor }

def Descriptor.write (d : Descriptor I B) (piece : List B) : Descriptor I B :=
  { d with view := d.view.splice d.cursor piece, cursor := d.cursor + piece.length }

/-- A longer file, with the cursor set. -/
def Descriptor.grow (d : Descriptor I B) (more : List B) (cursor : Nat) : Descriptor I B :=
  { d with view := d.view ++ more, cursor := cursor }

structure Files (I B : Type) where
  content : I → List B
  fds : Nat → Option (Descriptor I B)

/-- Of two descriptors that write to one file there is only one, and no cursor is behind the
end of what its descriptor shows. -/
structure Exclusive (t : Files I B) : Prop where
  writer : ∀ m n d e, t.fds m = some d → t.fds n = some e → d.writes = true → e.writes = true →
    d.file = e.file → m = n
  within : ∀ n d, t.fds n = some d → d.cursor ≤ d.view.length

namespace Files

def setFd (t : Files I B) (n : Nat) (d : Option (Descriptor I B)) : Files I B :=
  { t with fds := Function.update t.fds n d }

variable [DecidableEq I]

def fill (t : Files I B) (i : I) (bytes : List B) : Files I B :=
  { t with content := Function.update t.content i bytes }

/-- File `i` opened on descriptor `n`. -/
def opened (t : Files I B) (n : Nat) (i : I) (writes : Bool) : Files I B :=
  t.setFd n (some ⟨i, writes, t.content i, 0⟩)

/-- What is written through a descriptor is what its file then holds. -/
def written (t : Files I B) (n : Nat) (d : Descriptor I B) (piece : List B) : Files I B :=
  (t.setFd n (some (d.write piece))).fill d.file (d.write piece).view

/-- A file and the view of a descriptor get longer, each by bytes of its own. -/
def grown (t : Files I B) (n : Nat) (d : Descriptor I B) (more : List B) (cursor : Nat)
    (junk : List B) : Files I B :=
  (t.setFd n (some (d.grow more cursor))).fill d.file (t.content d.file ++ junk)

end Files

section
variable {t : Files I B} {d e : Descriptor I B} {n m : Nat} {i j : I}

@[simp] theorem Files.fds_setFd : (t.setFd n e').fds n = e' := Function.update_self _ _ _

@[simp] theorem Files.content_setFd : (t.setFd n e').content = t.content := rfl

theorem Files.fds_setFd_other (apart : m ≠ n) : (t.setFd n e').fds m = t.fds m :=
  Function.update_of_ne apart _ _

theorem Files.setFd_setFd : (t.setFd n e').setFd n d' = t.setFd n d' := by
  simp only [setFd, Function.update_idem]

theorem Files.setFd_self (same : t.fds n = e') : t.setFd n e' = t := by
  rw [setFd, Function.update_eq_self_iff.mpr same.symm]

/-- A descriptor is closed. -/
theorem Exclusive.close (exclusive : Exclusive t) : Exclusive (t.setFd n none) := by
  have there (k : Nat) (f : Descriptor I B) (found : (t.setFd n none).fds k = some f) :
      t.fds k = some f := by
    by_cases here : k = n
    · rw [here, Files.fds_setFd] at found
      cases found
    · rwa [Files.fds_setFd_other here] at found
  exact ⟨fun k l f g one two => exclusive.writer k l f g (there k f one) (there l g two),
    fun k f found => exclusive.within k f (there k f found)⟩

/-- A new descriptor, or a new state of one, that writes only where no other one does. -/
theorem Exclusive.set (exclusive : Exclusive t) (inside : e.cursor ≤ e.view.length)
    (only : e.writes = true → ∀ m d, m ≠ n → t.fds m = some d → d.writes = true → d.file ≠ e.file) :
    Exclusive (t.setFd n (some e)) := by
  refine ⟨fun k l f g one two writes writes' same => ?_, fun k f found => ?_⟩
  · by_cases here : k = n
    · subst here
      by_cases there : l = k
      · exact there.symm
      · rw [Files.fds_setFd, Option.some.injEq] at one
        rw [Files.fds_setFd_other there] at two
        subst one
        exact absurd same.symm (only writes l g there two writes')
    · rw [Files.fds_setFd_other here] at one
      by_cases there : l = n
      · subst there
        rw [Files.fds_setFd, Option.some.injEq] at two
        subst two
        exact absurd same (only writes' k f here one writes)
      · rw [Files.fds_setFd_other there] at two
        exact exclusive.writer k l f g one two writes writes' same
  · by_cases here : k = n
    · rw [here, Files.fds_setFd, Option.some.injEq] at found
      rw [← found]
      exact inside
    · rw [Files.fds_setFd_other here] at found
      exact exclusive.within k f found

/-- The next state of a descriptor on the same file. -/
theorem Exclusive.update (exclusive : Exclusive t) (found : t.fds n = some d)
    (inside : e.cursor ≤ e.view.length) (file : e.file = d.file) (writes : e.writes = d.writes) :
    Exclusive (t.setFd n (some e)) :=
  exclusive.set inside fun mine m f apart other writer same =>
    apart (exclusive.writer m n f d other found writer (writes ▸ mine) (same.trans file))

theorem Descriptor.write_within (inside : d.cursor ≤ d.view.length) :
    (d.write piece).cursor ≤ (d.write piece).view.length := by
  have length : (d.view.splice d.cursor piece).length = max d.view.length (d.cursor + piece.length) :=
    List.length_splice inside
  change d.cursor + piece.length ≤ (d.view.splice d.cursor piece).length
  omega

variable [DecidableEq I]

@[simp] theorem Files.content_fill : (t.fill i bytes).content i = bytes := Function.update_self _ _ _

@[simp] theorem Files.fds_fill : (t.fill i bytes).fds = t.fds := rfl

theorem Files.content_fill_other (apart : j ≠ i) : (t.fill i bytes).content j = t.content j :=
  Function.update_of_ne apart _ _

theorem Files.fill_fill : (t.fill i bytes).fill i bytes' = t.fill i bytes' := by
  simp only [fill, Function.update_idem]

theorem Exclusive.fill (exclusive : Exclusive t) : Exclusive (t.fill i bytes) :=
  ⟨exclusive.writer, exclusive.within⟩

theorem Exclusive.write (exclusive : Exclusive t) (found : t.fds n = some d) :
    Exclusive (t.written n d piece) :=
  (exclusive.update found (Descriptor.write_within (exclusive.within n d found)) rfl rfl).fill

/-- An empty file that is opened, written and closed holds what was written. -/
theorem Files.fill_through (free : t.fds n = none) (empty : t.content i = []) (bytes : List B) :
    ((t.opened n i true).written n ⟨i, true, t.content i, 0⟩ bytes).setFd n none = t.fill i bytes := by
  have view : (Descriptor.write ⟨i, true, t.content i, 0⟩ bytes).view = bytes := by
    simp [Descriptor.write, empty, List.splice]
  have closed : Function.update t.fds n none = t.fds := Function.update_eq_self_iff.mpr free.symm
  rw [written, view]
  simp only [setFd, opened, fill, Function.update_idem, closed]

end
end FileStore
