import CdnwSh.Library.NameTree

/-! The subtree below a directory: which directories stand at which level below it, and the
listing of its entries in which every directory is directly followed by what is below it.
In a tree such a listing is unique and has every node below the directory exactly once. -/
namespace NameTree

variable {I E N : Type}

/-- A directory that stands this many levels below `i`. -/
inductive Below (S : Scheme I E N) (node : I → Option (Node I E)) (i : I) : Nat → I → Prop where
  | here : Below S node i 0 i
  | entry : Below S node i n j → Entry node j e → S.isDir e = true →
      Below S node i (n + 1) (S.target e)

/-- An entry in a listing: its level, its directory and itself. -/
abbrev Item (I E : Type) := Nat × I × E

/-- The listing of these entries of directory `i` at level `k`. -/
inductive Preorder (S : Scheme I E N) (node : I → Option (Node I E)) :
    Nat → I → List E → List (Item I E) → Prop where
  | nil : Preorder S node k i [] []
  | file : S.isDir e = false → Preorder S node k i es rest →
      Preorder S node k i (e :: es) ((k, i, e) :: rest)
  | dir : S.isDir e = true → node (S.target e) = some (.dir p fs) →
      Preorder S node (k + 1) (S.target e) fs below → Preorder S node k i es rest →
      Preorder S node k i (e :: es) ((k, i, e) :: (below ++ rest))

variable {S : Scheme I E N} {root : I} {node : I → Option (Node I E)}

theorem Below.prepend (below : Below S node (S.target e) n j) (entry : Entry node i e)
    (isDir : S.isDir e = true) : Below S node i (n + 1) j := by
  induction below with
  | here => exact .entry .here entry isDir
  | entry _ next kind ih => exact .entry ih next kind

theorem Below.first (below : Below S node i n j) : n = 0 ∧ j = i ∨
    ∃ e m, Entry node i e ∧ S.isDir e = true ∧ n = m + 1 ∧ Below S node (S.target e) m j := by
  induction below with
  | here => exact .inl ⟨rfl, rfl⟩
  | entry _ next kind ih =>
    right
    rcases ih with ⟨rfl, rfl⟩ | ⟨e, m, top, isDir, rfl, below⟩
    · exact ⟨_, 0, next, kind, rfl, .here⟩
    · exact ⟨e, m + 1, top, isDir, rfl, .entry below next kind⟩

/-- Ranks grow on the way down. -/
theorem Tree.below_rank (tree : Tree S root node) : ∃ rank : I → Nat,
    ∀ i n j, Below S node i n j → rank i + n ≤ rank j := by
  obtain ⟨rank, lower⟩ := tree.ranked
  refine ⟨rank, fun i n j below => ?_⟩
  induction below with
  | here => exact Nat.le_refl _
  | entry _ next kind ih =>
    obtain ⟨es, found⟩ := tree.subdir _ _ next kind
    have step := lower _ _ _ found (tree.proper _ _ next)
    omega

theorem Below.last (below : Below S node i n j) : n = 0 ∧ j = i ∨
    ∃ q g m, Below S node i m q ∧ Entry node q g ∧ n = m + 1 ∧ j = S.target g := by
  cases below with
  | here => exact .inl ⟨rfl, rfl⟩
  | entry above next isDir => exact .inr ⟨_, _, _, above, next, rfl, rfl⟩

theorem Tree.no_loop (tree : Tree S root node) (entry : Entry node i e) (isDir : S.isDir e = true) :
    ¬ Below S node (S.target e) n i := by
  intro loop
  obtain ⟨rank, grows⟩ := tree.below_rank
  have up := grows _ _ _ loop
  have down := grows _ _ _ (.entry .here entry isDir)
  omega

theorem Tree.below_apart (tree : Tree S root node) (one : Entry node i e) (two : Entry node i f)
    (isDir : S.isDir e = true) (isDir' : S.isDir f = true) (left : Below S node (S.target e) n j)
    (right : Below S node (S.target f) m j) : e = f ∧ n = m := by
  induction n generalizing m j with
  | zero =>
    cases left
    rcases right.last with ⟨rfl, same⟩ | ⟨q, g, m, above, next, rfl, same⟩
    · exact ⟨(tree.once _ _ _ _ one two same).2, rfl⟩
    · obtain ⟨rfl, -⟩ := tree.once _ _ _ _ one next same
      exact absurd above (tree.no_loop two isDir')
  | succ n ih =>
    obtain ⟨q, g, n, above, next, size, rfl⟩ := left.last.resolve_left fun none => by cases none.1
    cases size
    rcases right.last with ⟨rfl, same⟩ | ⟨q', g', m, above', next', rfl, same⟩
    · obtain ⟨rfl, -⟩ := tree.once _ _ _ _ next two same
      exact absurd above (tree.no_loop one isDir)
    · obtain ⟨rfl, -⟩ := tree.once _ _ _ _ next next' same
      obtain ⟨same, levels⟩ := ih above above'
      exact ⟨same, by rw [levels]⟩

theorem Tree.level_unique (tree : Tree S root node) (one : Below S node i n j)
    (two : Below S node i m j) : n = m := by
  rcases one.first with ⟨rfl, rfl⟩ | ⟨e, n, entry, isDir, rfl, below⟩
  · rcases two.first with ⟨rfl, -⟩ | ⟨f, m, entry, isDir, rfl, below⟩
    · rfl
    · exact absurd below (tree.no_loop entry isDir)
  · rcases two.first with ⟨rfl, rfl⟩ | ⟨f, m, entry', isDir', rfl, below'⟩
    · exact absurd below (tree.no_loop entry isDir)
    · rw [(tree.below_apart entry entry' isDir isDir' below below').2]

theorem Preorder.unique (one : Preorder S node k i es items) (two : Preorder S node k i es items') :
    items = items' := by
  induction one generalizing items' with
  | nil => cases two; rfl
  | file isFile _ ih =>
    cases two with
    | file _ rest => rw [ih rest]
    | dir isDir => rw [isFile] at isDir; cases isDir
  | dir isDir found _ _ inner outer =>
    cases two with
    | file isFile => rw [isDir] at isFile; cases isFile
    | dir _ found' below rest =>
      rw [found] at found'
      cases found'
      rw [inner below, outer rest]

/-- What stands in the listing of some entries of a directory. -/
theorem Preorder.mem_rest (lists : Preorder S node k i es items) : (n, j, e) ∈ items ↔
    n = k ∧ j = i ∧ e ∈ es ∨
    ∃ f ∈ es, S.isDir f = true ∧ ∃ m, n = k + 1 + m ∧ Below S node (S.target f) m j ∧ Entry node j e := by
  induction lists with
  | nil => simp
  | file isFile _ ih =>
    rw [List.mem_cons, ih]
    simp only [Prod.mk.injEq, List.mem_cons, exists_eq_or_imp, isFile]
    grind
  | @dir f p fs k below i es rest isDir found _ _ inner outer =>
    have under : (n, j, e) ∈ below ↔
        ∃ m, n = k + 1 + m ∧ Below S node (S.target f) m j ∧ Entry node j e := by
      rw [inner]
      constructor
      · rintro (⟨rfl, rfl, member⟩ | ⟨g, member, kind, m, rfl, down, entry⟩)
        · exact ⟨0, rfl, .here, .of found member⟩
        · exact ⟨m + 1, by omega, down.prepend (.of found member) kind, entry⟩
      · rintro ⟨m, rfl, down, entry⟩
        rcases down.first with ⟨rfl, rfl⟩ | ⟨g, m, first, kind, rfl, rest⟩
        · exact .inl ⟨rfl, rfl, entry.mem found⟩
        · exact .inr ⟨g, first.mem found, kind, m, by omega, rest, entry⟩
    rw [List.mem_cons, List.mem_append, under, outer]
    simp only [Prod.mk.injEq, List.mem_cons, exists_eq_or_imp, isDir, true_and]
    grind

/-- The listing of a directory has the entries of all directories below it. -/
theorem Preorder.mem_iff (lists : Preorder S node k i es items) (found : node i = some (.dir p es)) :
    (n, j, e) ∈ items ↔ ∃ m, n = k + m ∧ Below S node i m j ∧ Entry node j e := by
  rw [lists.mem_rest]
  constructor
  · rintro (⟨rfl, rfl, member⟩ | ⟨f, member, isDir, m, rfl, below, entry⟩)
    · exact ⟨0, rfl, .here, .of found member⟩
    · exact ⟨m + 1, by omega, below.prepend (.of found member) isDir, entry⟩
  · rintro ⟨m, rfl, below, entry⟩
    rcases below.first with ⟨rfl, rfl⟩ | ⟨f, m, first, isDir, rfl, rest⟩
    · exact .inl ⟨rfl, rfl, entry.mem found⟩
    · exact .inr ⟨f, first.mem found, isDir, m, by omega, rest, entry⟩

theorem Preorder.nodup_rest (lists : Preorder S node k i es items) (tree : Tree S root node)
    (nodup : es.Nodup) (inside : ∀ e ∈ es, Entry node i e) : items.Nodup := by
  induction lists with
  | nil => exact .nil
  | @file f k i es rest isFile lists ih =>
    obtain ⟨fresh, nodup⟩ := List.nodup_cons.mp nodup
    rw [List.forall_mem_cons] at inside
    refine List.nodup_cons.mpr ⟨fun again => ?_, ih nodup inside.2⟩
    rcases lists.mem_rest.mp again with ⟨_, _, member⟩ | ⟨g, _, _, m, level, _⟩
    · exact fresh member
    · omega
  | @dir f p fs k below i es rest isDir found inner outer ihInner ihOuter =>
    obtain ⟨fresh, nodup⟩ := List.nodup_cons.mp nodup
    rw [List.forall_mem_cons] at inside
    obtain ⟨entry, inside⟩ := inside
    have deep : ∀ item ∈ below, ∃ m, item.1 = k + 1 + m ∧ Below S node (S.target f) m item.2.1 := by
      rintro ⟨n, j, g⟩ member
      obtain ⟨m, level, down, _⟩ := (inner.mem_iff found).mp member
      exact ⟨m, level, down⟩
    have names : fs.Nodup := .of_map _ (tree.names _ _ _ found)
    refine List.nodup_cons.mpr ⟨fun again => ?_, List.nodup_append.mpr
      ⟨ihInner names fun g member => .of found member, ihOuter nodup inside, ?_⟩⟩
    · rcases List.mem_append.mp again with under | later
      · obtain ⟨m, level, _⟩ := deep _ under
        exact absurd level (by dsimp only; omega)
      · rcases outer.mem_rest.mp later with ⟨_, _, member⟩ | ⟨g, _, _, m, level, _⟩
        · exact fresh member
        · omega
    · rintro ⟨n, j, g⟩ under _ later rfl
      obtain ⟨m, level, down⟩ := deep _ under
      rcases outer.mem_rest.mp later with ⟨rfl, rfl, _⟩ | ⟨h, member, isDir', m', _, down', _⟩
      · exact absurd level (by dsimp only; omega)
      · obtain ⟨rfl, -⟩ := tree.below_apart entry (inside h member) isDir isDir' down down'
        exact fresh member

theorem Preorder.targets_nodup (lists : Preorder S node k i es items) (tree : Tree S root node)
    (found : node i = some (.dir p es)) : (items.map fun item => S.target item.2.2).Nodup := by
  have names : es.Nodup := .of_map _ (tree.names _ _ _ found)
  refine (lists.nodup_rest tree names fun e member => .of found member).map_on ?_
  rintro ⟨n, j, e⟩ one ⟨n', j', e'⟩ two same
  obtain ⟨m, rfl, below, entry⟩ := (lists.mem_iff found).mp one
  obtain ⟨m', rfl, below', entry'⟩ := (lists.mem_iff found).mp two
  obtain ⟨rfl, rfl⟩ := tree.once _ _ _ _ entry entry' same
  rw [tree.level_unique below below']

end NameTree
