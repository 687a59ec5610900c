import CdnwSh.Machine

/-! What growing a descriptor does to its own numbers, whatever the allocator answers: the
size becomes the required one, the block count covers it and the cache has that many blocks. -/
namespace CdnwSh

open ByteMemory

/-- `st` with other block pointers and `blocks` blocks. -/
structure Resized (st : Inode) (blocks : Nat) (st' : Inode) : Prop where
  size : st'.size = st.size
  type : st'.type = st.type
  blocks : st'.blocks.toNat = blocks

section
variable {v v' : Vol} {st st' : Inode}

theorem Resized.refl (st : Inode) : Resized st st.blocks.toNat st := ⟨rfl, rfl, rfl⟩

theorem allocDirect_resized (run : allocDirect n st v = some (st', v'))
    (small : st.blocks.toNat + n < 2 ^ 32) : Resized st (st.blocks.toNat + n) st' := by
  induction n generalizing st v with
  | zero =>
    cases run
    exact .refl _
  | succ n ih =>
    rw [allocDirect] at run
    obtain ⟨⟨ptr, v₁⟩, _, run⟩ := Option.bind_eq_some_iff.mp run
    have next : (st.blocks + 1).toNat = st.blocks.toNat + 1 := blocks_succ st (by omega)
    have rest := ih run (by simp only [next]; omega)
    simp only [next] at rest
    exact ⟨rest.size, rest.type, by rw [rest.blocks]; omega⟩

theorem allocIndirect_resized (run : allocIndirect n st sInd v = some (st', sInd', v'))
    (many : 8 ≤ st.blocks.toNat) : Resized st (st.blocks.toNat + n) st' := by
  induction n generalizing st sInd v with
  | zero =>
    cases run
    exact .refl _
  | succ n ih =>
    rw [allocIndirect] at run
    obtain ⟨⟨ptr, v₁⟩, _, run⟩ := Option.bind_eq_some_iff.mp run
    dsimp only at run
    split at run
    next inside =>
      have next : (st.blocks + 1).toNat = st.blocks.toNat + 1 := blocks_succ st (by omega)
      have rest := ih run (by simp only [next]; omega)
      simp only [next] at rest
      exact ⟨rest.size, rest.type, by rw [rest.blocks]; omega⟩
    · cases run

theorem indirectBlock_resized (run : indirectBlock st v = some (st', sInd, v')) :
    Resized st st.blocks.toNat st' := by
  unfold indirectBlock at run
  split at run
  · obtain ⟨⟨ptr, v₁⟩, _, run⟩ := Option.bind_eq_some_iff.mp run
    cases run
    exact ⟨rfl, rfl, rfl⟩
  · obtain ⟨⟨code, blk⟩, _, run⟩ := Option.bind_eq_some_iff.mp run
    cases run
    exact .refl st

theorem growDirect_resized {need : UInt32} (run : growDirect v st need = some (st', v')) :
    Resized st (max st.blocks.toNat (min 8 need.toNat)) st' := by
  unfold growDirect at run
  split at run
  next few =>
    have low : st.blocks.toNat ≤ 8 := UInt32.le_iff_toNat_le.mp few
    have grown := allocDirect_resized run (by omega)
    exact ⟨grown.size, grown.type, by rw [grown.blocks]; omega⟩
  next many =>
    have high : ¬ st.blocks.toNat ≤ 8 := fun low => many (UInt32.le_iff_toNat_le.mpr low)
    cases run
    exact ⟨rfl, rfl, by omega⟩

theorem growIndirect_resized {need : UInt32} (run : growIndirect v st need = some (st', v'))
    (full : st.blocks.toNat < need.toNat → 8 ≤ st.blocks.toNat) :
    Resized st (max st.blocks.toNat need.toNat) st' := by
  unfold growIndirect at run
  split at run
  next less =>
    have more := UInt32.lt_iff_toNat_lt.mp less
    obtain ⟨⟨st₁, sInd, v₁⟩, first, run⟩ := Option.bind_eq_some_iff.mp run
    obtain ⟨⟨st₂, sInd₂, v₂⟩, entries, run⟩ := Option.bind_eq_some_iff.mp run
    obtain ⟨⟨code, d⟩, _, run⟩ := Option.bind_eq_some_iff.mp run
    cases run
    have linked := indirectBlock_resized first
    have count := linked.blocks
    have grown := allocIndirect_resized entries (by rw [count]; exact full more)
    exact ⟨grown.size.trans linked.size, grown.type.trans linked.type,
      by rw [grown.blocks, count]; omega⟩
  next enough =>
    have low := mt UInt32.lt_iff_toNat_lt.mpr enough
    cases run
    exact ⟨rfl, rfl, by omega⟩

theorem growBlocks_resized {need : UInt32} (run : growBlocks v st need = some (st', v')) :
    Resized st (max st.blocks.toNat need.toNat) st' := by
  unfold growBlocks at run
  split at run
  next less =>
    have more := UInt32.lt_iff_toNat_lt.mp less
    rw [reallocFsBlocks, if_pos less] at run
    obtain ⟨⟨st₁, v₁⟩, direct, run⟩ := Option.bind_eq_some_iff.mp run
    have first := growDirect_resized direct
    have count := first.blocks
    have second := growIndirect_resized run (by rw [count]; omega)
    exact ⟨second.size.trans first.size, second.type.trans first.type,
      by rw [second.blocks, count]; omega⟩
  next enough =>
    have low := mt UInt32.lt_iff_toNat_lt.mpr enough
    cases run
    exact ⟨rfl, rfl, by omega⟩

/-- A descriptor that was made to hold `required` bytes. -/
structure FdResized (fde : FdEntry) (required : UInt32) (fde' : FdEntry) : Prop where
  same : fde' = { fde with data := fde'.data, inode := fde'.inode }
  size : fde'.inode.size = required
  type : fde'.inode.type = fde.inode.type
  blocks : fde'.inode.blocks.toNat = max fde.inode.blocks.toNat (required.toNat / 4096 + 1)
  cache : (dataBuf fde'.data).size = 4096 * (required.toNat / 4096 + 1)

variable [InodeLayout] {s s' : Fs}

/-- `growFd` leaves a descriptor that is large enough alone and resizes any other. -/
theorem growFd_resized {required : UInt32} (run : growFd s fde required = some (0, fde', s')) :
    (¬ fde.inode.size < required ∧ fde' = fde ∧ s' = s) ∨
    (fde.inode.size < required ∧ FdResized fde required fde' ∧
      s' = { s with vol := s'.vol, ticks := s'.ticks }) := by
  rcases growFd_eq run with same | ⟨less, data, st, v, d, size, grown, _, rfl, rfl⟩
  · exact .inl same
  · have resized := growBlocks_resized grown
    refine .inr ⟨less, ⟨rfl, resized.size, resized.type, ?_, ?_⟩, rfl⟩
    · rw [← required_blocks]
      exact resized.blocks
    · rw [← required_blocks]
      exact size

end
end CdnwSh
