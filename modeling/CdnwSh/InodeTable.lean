import CdnwSh.Library.KeyedStore
import CdnwSh.Inode

/-! The inode table under runs of `inode_write`. A slot is found with `INODE_SIZE` = 64 and
filled with `sizeof(inode)` = 72 bytes: of the 64 slots of a block the last eight do not lie
inside of it. -/
namespace CdnwSh

open KeyedStore

section
variable [InodeLayout]

def writeInodes (d : Disk) (writes : List (Iptr × Inode)) : Option Disk :=
  writes.foldlM (fun d w => inodeWrite d w.1 w.2) d

/-- After a row of writes each inode is read as it was written last, every write stayed inside
one block of the table, and outside of the table nothing changed. -/
def TableStore (d : Disk) (writes : List (Iptr × Inode)) : Prop :=
  ∃ d', writeInodes d writes = some d' ∧
    (∀ i : Iptr, i.toNat < 6400 → inodeRead d' i = lastWritten (inodeRead d) writes i) ∧
    (∀ w ∈ writes, Fits w.1 ∧ 3 ≤ (tableBlock w.1).toNat ∧ (tableBlock w.1).toNat < 103) ∧
    ∀ b : UInt32, b.toNat < 3 ∨ 103 ≤ b.toNat → d' b = d b

theorem table_faithful : Faithful (fun i : Iptr => i.toNat < 6400) inodeRead inodeWrite where
  written := fun _ _ _ _ bound wrote => (inodeWrite_spec bound wrote).2.1
  frame := fun _ _ _ _ other bound inside apart wrote =>
    (inodeWrite_spec bound wrote).2.2.1 other inside apart

variable {d d' : Disk} {writes : List (Iptr × Inode)}

theorem writeInodes_outside (bounds : ∀ w ∈ writes, w.1.toNat < 6400)
    (run : writeInodes d writes = some d') {b : UInt32} (outside : b.toNat < 3 ∨ 103 ≤ b.toNat) :
    d' b = d b := by
  induction writes generalizing d with
  | nil =>
    cases run
    rfl
  | cons w rest ih =>
    rw [writeInodes, List.foldlM_cons] at run
    obtain ⟨next, wrote, run⟩ := Option.bind_eq_some_iff.mp run
    rw [ih (fun x member => bounds x (List.mem_cons_of_mem _ member)) run]
    exact (inodeWrite_spec (bounds w List.mem_cons_self) wrote).2.2.2 b outside

/-- For any layout: the table is a faithful store on the slots that fit, and only on these. -/
theorem tableStore_iff (bounds : ∀ w ∈ writes, w.1.toNat < 6400) :
    TableStore d writes ↔ ∀ w ∈ writes, Fits w.1 := by
  constructor
  · rintro ⟨d', _, _, inside, _⟩ w member
    exact (inside w member).1
  · intro fits
    obtain ⟨d', run⟩ := run_defined (fun w member (d : Disk) => show (inodeWrite d w.1 w.2).isSome by
      rw [inodeWrite_eq (bounds w member), if_pos (fits w member)]
      rfl) d
    exact ⟨d', run, fun i bound => table_faithful.run bounds run bound,
      fun w member => ⟨fits w member, tableBlock_range (bounds w member)⟩,
      fun b outside => writeInodes_outside bounds run outside⟩

end

section Lp64
attribute [local instance] lp64

theorem fits_lp64 {i : Iptr} : Fits i ↔ i.toNat % 64 < 56 := by
  rw [Fits, slotOffset]
  change i.toNat % 64 * 72 + 72 ≤ 4096 ↔ _
  omega

/-- The inode table is a faithful store under a row of writes if and only if none of them goes
to one of the last eight slots of a block. -/
theorem inode_table (d : Disk) (writes : List (Iptr × Inode)) (bounds : ∀ w ∈ writes, w.1.toNat < 6400) :
    TableStore d writes ↔ ∀ w ∈ writes, w.1.toNat % 64 < 56 := by
  rw [tableStore_iff bounds]
  exact forall₂_congr fun w _ => fits_lp64

theorem inode_table_two : TableStore (fun _ => Block.zero)
    [(1, Inode.zero), (2, { Inode.zero with size := 24 }), (1, { Inode.zero with blocks := 1 })] :=
  (inode_table _ _ (by decide)).mpr (by decide)

/-- Slot 56 ends eight bytes behind its block. -/
theorem inode_table_overrun : ¬ TableStore (fun _ => Block.zero) [(56, Inode.zero)] := by
  rintro ⟨d', run, _⟩
  have tooHigh : ¬ Fits 56 := by
    rw [fits_lp64]
    decide
  rw [writeInodes, List.foldlM_cons, inodeWrite_eq (by decide), if_neg tooHigh] at run
  cases run

end Lp64

end CdnwSh
