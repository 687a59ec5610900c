import Mathlib.Logic.Function.Basic
import Mathlib.Data.List.Basic
import Mathlib.Tactic

/-! Hierarchical name spaces: nodes are files or directories, a directory knows its
parent and lists entries with distinct names. `Tree` says that the entries form one
tree below a root; adding a fresh node and removing an empty directory keep it. -/
namespace NameTree

variable {I E N : Type}

inductive Node (I E : Type) where
  | dir (parent : I) (entries : List E)
  | file

/-- How entries are read. -/
structure Scheme (I E N : Type) where
  target : E → I
  name : E → N
  isDir : E → Bool

/-- `e` is an entry of directory `i`. -/
def Entry (node : I → Option (Node I E)) (i : I) (e : E) : Prop :=
  ∃ p es, node i = some (.dir p es) ∧ e ∈ es

structure Tree (S : Scheme I E N) (root : I) (node : I → Option (Node I E)) : Prop where
  root_dir : ∃ es, node root = some (.dir root es)
  names : ∀ i p es, node i = some (.dir p es) → (es.map S.name).Nodup
  proper : ∀ i e, Entry node i e → S.target e ≠ root
  subdir : ∀ i e, Entry node i e → S.isDir e = true →
    ∃ es, node (S.target e) = some (.dir i es)
  leaf : ∀ i e, Entry node i e → S.isDir e = false → node (S.target e) = some .file
  once : ∀ i e j f, Entry node i e → Entry node j f → S.target e = S.target f → i = j ∧ e = f
  entered : ∀ i, node i ≠ none → i ≠ root → ∃ j e, Entry node j e ∧ S.target e = i
  ranked : ∃ rank : I → Nat, ∀ i p es, node i = some (.dir p es) → i ≠ root → rank p < rank i

/-- The nodes below the root. -/
inductive Reach (S : Scheme I E N) (root : I) (node : I → Option (Node I E)) : I → Prop where
  | root : Reach S root node root
  | entry : Reach S root node i → Entry node i e → Reach S root node (S.target e)

variable {S : Scheme I E N} {root : I} {node : I → Option (Node I E)}

theorem Entry.of (found : node i = some (.dir p es)) (member : e ∈ es) : Entry node i e :=
  ⟨p, es, found, member⟩

theorem Entry.mem (entry : Entry node i e) (found : node i = some (.dir p es)) : e ∈ es := by
  obtain ⟨q, fs, same, member⟩ := entry
  rw [found] at same
  cases same
  exact member

/-- A directory is entered in the one it calls its parent. -/
theorem Tree.parent (tree : Tree S root node) (found : node i = some (.dir p es))
    (top : i ≠ root) : ∃ e, Entry node p e ∧ S.target e = i ∧ S.isDir e = true := by
  obtain ⟨j, e, entry, target⟩ := tree.entered i (by rw [found]; simp) top
  have kind : S.isDir e = true := by
    by_contra file
    have sub := tree.leaf j e entry (by simpa using file)
    rw [target, found] at sub
    cases sub
  obtain ⟨fs, sub⟩ := tree.subdir j e entry kind
  rw [target, found] at sub
  cases sub
  exact ⟨e, entry, target, kind⟩

theorem Entry.live (entry : Entry node i e) : node i ≠ none := by
  obtain ⟨p, es, found, _⟩ := entry
  rw [found]
  simp

/-- Every node is reached from the root. -/
theorem Tree.reach (tree : Tree S root node) (live : node i ≠ none) : Reach S root node i := by
  obtain ⟨rank, lower⟩ := tree.ranked
  have dirs (n : Nat) : ∀ i p es, rank i = n → node i = some (.dir p es) → Reach S root node i := by
    induction n using Nat.strongRecOn with
    | _ n ih =>
      intro i p es height found
      by_cases top : i = root
      · exact top ▸ .root
      · obtain ⟨e, entry, target, _⟩ := tree.parent found top
        obtain ⟨q, gs, parent, member⟩ := entry
        have below := lower i p es found top
        rw [← target]
        exact .entry (ih (rank p) (by omega) p q gs rfl parent) (.of parent member)
  by_cases top : i = root
  · exact top ▸ .root
  · obtain ⟨j, e, entry, target⟩ := tree.entered i live top
    obtain ⟨p, es, parent, member⟩ := entry
    exact target ▸ .entry (dirs (rank j) j p es rfl parent) (.of parent member)

theorem Tree.live (tree : Tree S root node) (reached : Reach S root node i) : node i ≠ none := by
  cases reached with
  | root => obtain ⟨es, found⟩ := tree.root_dir; rw [found]; simp
  | entry before entry =>
    rename_i e
    cases kind : S.isDir e with
    | true => obtain ⟨es, found⟩ := tree.subdir _ _ entry kind; rw [found]; simp
    | false => rw [tree.leaf _ _ entry kind]; simp

/-- Directories stay in their place with their entries, and may get more. -/
def Grown (node node' : I → Option (Node I E)) : Prop :=
  ∀ i p es, node i = some (.dir p es) → ∃ more, node' i = some (.dir p (es ++ more))

theorem Grown.refl : Grown node node := fun _ _ es found => ⟨[], by rw [List.append_nil, found]⟩

theorem Grown.entry (grown : Grown node node') (entry : Entry node i e) : Entry node' i e := by
  obtain ⟨p, es, found, member⟩ := entry
  obtain ⟨more, after⟩ := grown i p es found
  exact .of after (List.mem_append_left _ member)

theorem Tree.name_inj (tree : Tree S root node) (found : node i = some (.dir p es))
    (one : e ∈ es) (two : f ∈ es) (same : S.name e = S.name f) : e = f :=
  List.inj_on_of_nodup_map (tree.names i p es found) one two same

theorem Tree.target_ne (tree : Tree S root node) (entry : Entry node i e) : S.target e ≠ i := by
  intro same
  have top := tree.proper i e entry
  rw [same] at top
  cases kind : S.isDir e with
  | true =>
    obtain ⟨es, found⟩ := tree.subdir i e entry kind
    rw [same] at found
    obtain ⟨rank, lower⟩ := tree.ranked
    exact Nat.lt_irrefl _ (lower i i es found top)
  | false =>
    have file := tree.leaf i e entry kind
    obtain ⟨p, es, found, _⟩ := entry
    rw [same, found] at file
    cases file

/-- An entry splits its directory into the entries before and after it. -/
theorem filter_middle [DecidableEq N] (nodup : ((front ++ e :: back).map S.name).Nodup) :
    (front ++ e :: back).filter (fun f => S.name f ≠ S.name e) = front ++ back := by
  rw [List.map_append, List.map_cons, List.nodup_append] at nodup
  obtain ⟨_, later, apart⟩ := nodup
  have inFront : front.filter (fun f => S.name f ≠ S.name e) = front :=
    List.filter_eq_self.mpr fun f inside => decide_eq_true
      (apart (S.name f) (List.mem_map_of_mem inside) (S.name e) List.mem_cons_self)
  have inBack : back.filter (fun f => S.name f ≠ S.name e) = back :=
    List.filter_eq_self.mpr fun f inside => decide_eq_true fun same =>
      (List.nodup_cons.mp later).1 (by rw [← same]; exact List.mem_map_of_mem inside)
  rw [List.filter_append, List.filter_cons_of_neg (by simp), inFront, inBack]

theorem split_entry [DecidableEq N] (nodup : (es.map S.name).Nodup) (member : e ∈ es) :
    ∃ front back, es = front ++ e :: back ∧
      es.filter (fun f => S.name f ≠ S.name e) = front ++ back := by
  obtain ⟨front, back, rfl⟩ := List.append_of_mem member
  exact ⟨front, back, rfl, filter_middle nodup⟩

variable [DecidableEq I]

/-- `child` is entered as `e` at the end of directory `i`. -/
def insert (S : Scheme I E N) (node : I → Option (Node I E)) (i p : I) (es : List E) (e : E)
    (child : Node I E) : I → Option (Node I E) :=
  Function.update (Function.update node i (some (.dir p (es ++ [e])))) (S.target e) (some child)

theorem insert_target : insert S node i p es e child (S.target e) = some child :=
  Function.update_self _ _ _

theorem insert_parent (apart : i ≠ S.target e) :
    insert S node i p es e child i = some (.dir p (es ++ [e])) := by
  rw [insert, Function.update_of_ne apart, Function.update_self]

theorem insert_other (apart : j ≠ S.target e) (other : j ≠ i) :
    insert S node i p es e child j = node j := by
  rw [insert, Function.update_of_ne apart, Function.update_of_ne other]

/-- A node after an insertion is the new one, the parent with its new entry or an old one. -/
theorem insert_cases (same : insert S node i p es e child j = some n) :
    (j = S.target e ∧ n = child) ∨
      j ≠ S.target e ∧ (j = i ∧ n = .dir p (es ++ [e]) ∨ j ≠ i ∧ node j = some n) := by
  by_cases new : j = S.target e
  · subst new
    rw [insert_target, Option.some.injEq] at same
    exact .inl ⟨rfl, same.symm⟩
  · by_cases here : j = i
    · subst here
      rw [insert_parent new, Option.some.injEq] at same
      exact .inr ⟨new, .inl ⟨rfl, same.symm⟩⟩
    · rw [insert_other new here] at same
      exact .inr ⟨new, .inr ⟨here, same⟩⟩

theorem insert_live (found : node i = some (.dir p es)) :
    insert S node i p es e child j ≠ none ↔ j = S.target e ∨ node j ≠ none := by
  by_cases new : j = S.target e
  · rw [new, insert_target]
    simp
  · by_cases here : j = i
    · subst here
      rw [insert_parent new, found]
      simp
    · rw [insert_other new here]
      simp [new]

theorem insert_file (file : insert S node i p es e child j = some .file)
    (isDir : child ≠ .file) : node j = some .file := by
  rcases insert_cases file with ⟨_, same⟩ | ⟨_, ⟨_, same⟩ | ⟨_, before⟩⟩
  · exact absurd same.symm isDir
  · cases same
  · exact before

theorem insert_grown (found : node i = some (.dir p es)) (fresh : node (S.target e) = none) :
    Grown node (insert S node i p es e child) := by
  intro j q fs before
  have new : j ≠ S.target e := by
    rintro rfl
    rw [fresh] at before
    cases before
  by_cases here : j = i
  · subst here
    rw [found] at before
    cases before
    exact ⟨[e], insert_parent new⟩
  · exact ⟨[], by rw [List.append_nil, insert_other new here, before]⟩

/-- The entries after an insertion are the old ones and the new one. -/
theorem entry_insert (found : node i = some (.dir p es)) (fresh : node (S.target e) = none)
    (childless : ∀ q fs, child = .dir q fs → fs = []) :
    Entry (insert S node i p es e child) j f ↔ Entry node j f ∨ j = i ∧ f = e := by
  have apart : i ≠ S.target e := by rintro same; rw [same, fresh] at found; cases found
  by_cases new : j = S.target e
  · subst new
    constructor
    · rintro ⟨q, fs, same, member⟩
      rw [insert_target] at same
      cases same
      rw [childless q fs rfl] at member
      cases member
    · rintro (⟨q, fs, same, _⟩ | ⟨same, _⟩)
      · rw [fresh] at same; cases same
      · exact absurd same.symm apart
  · by_cases here : j = i
    · subst here
      constructor
      · rintro ⟨q, fs, same, member⟩
        rw [insert_parent apart] at same
        cases same
        rcases List.mem_append.mp member with old | last
        · exact .inl (.of found old)
        · exact .inr ⟨rfl, List.mem_singleton.mp last⟩
      · rintro (entry | ⟨_, rfl⟩)
        · exact .of (insert_parent apart) (List.mem_append_left _ (entry.mem found))
        · exact .of (insert_parent apart) (by simp)
    · rw [Entry, Entry, insert_other new here]
      simp [here]

theorem Tree.insert (tree : Tree S root node) (found : node i = some (.dir p es))
    (fresh : node (S.target e) = none) (unnamed : S.name e ∉ es.map S.name)
    (kind : child = if S.isDir e then .dir i [] else .file) :
    Tree S root (insert S node i p es e child) := by
  have apart : i ≠ S.target e := by rintro same; rw [same, fresh] at found; cases found
  have childless : ∀ q fs, child = .dir q fs → fs = [] := by
    intro q fs same
    rw [kind] at same
    split at same
    · cases same; rfl
    · cases same
  have entries (j f) : Entry (NameTree.insert S node i p es e child) j f ↔
      Entry node j f ∨ j = i ∧ f = e := entry_insert found fresh childless
  have unentered (j f) (entry : Entry node j f) : S.target f ≠ S.target e := by
    intro same
    have live := tree.live (.entry (tree.reach entry.live) entry)
    rw [same, fresh] at live
    exact live rfl
  have rootApart : root ≠ S.target e := by
    obtain ⟨fs, top⟩ := tree.root_dir
    rintro same
    rw [same, fresh] at top
    cases top
  constructor
  case root_dir =>
    obtain ⟨fs, top⟩ := tree.root_dir
    by_cases here : root = i
    · subst here
      rw [found] at top
      cases top
      exact ⟨_, insert_parent apart⟩
    · exact ⟨fs, by rw [insert_other rootApart here, top]⟩
  case names =>
    intro j q fs same
    rcases insert_cases same with ⟨_, new⟩ | ⟨_, ⟨_, parent⟩ | ⟨_, before⟩⟩
    · rw [childless q fs new.symm]
      exact List.nodup_nil
    · cases parent
      rw [List.map_append, List.map_singleton, List.nodup_append]
      refine ⟨tree.names i p es found, by simp, ?_⟩
      rintro a old b last rfl
      rw [List.mem_singleton] at last
      exact unnamed (last ▸ old)
    · exact tree.names j q fs before
  case proper =>
    intro j f entry
    rcases (entries j f).mp entry with old | ⟨_, rfl⟩
    · exact tree.proper j f old
    · exact Ne.symm rootApart
  case subdir =>
    intro j f entry isDir
    rcases (entries j f).mp entry with old | ⟨rfl, rfl⟩
    · obtain ⟨gs, sub⟩ := tree.subdir j f old isDir
      by_cases here : S.target f = i
      · rw [here] at sub ⊢
        rw [found] at sub
        cases sub
        exact ⟨_, insert_parent apart⟩
      · exact ⟨gs, by rw [insert_other (unentered j f old) here, sub]⟩
    · rw [insert_target, kind, if_pos isDir]
      exact ⟨[], rfl⟩
  case leaf =>
    intro j f entry isFile
    rcases (entries j f).mp entry with old | ⟨rfl, rfl⟩
    · have sub := tree.leaf j f old isFile
      have here : S.target f ≠ i := by rintro here; rw [here, found] at sub; cases sub
      rw [insert_other (unentered j f old) here, sub]
    · rw [insert_target, kind, isFile]
      rfl
  case once =>
    intro j f k g one two same
    rcases (entries j f).mp one with old | ⟨rfl, rfl⟩ <;>
      rcases (entries k g).mp two with old' | ⟨rfl, rfl⟩
    · exact tree.once j f k g old old' same
    · exact absurd same (unentered j f old)
    · exact absurd same.symm (unentered k g old')
    · exact ⟨rfl, rfl⟩
  case entered =>
    intro j live top
    rcases (insert_live found).mp live with new | before
    · exact ⟨i, e, (entries i e).mpr (.inr ⟨rfl, rfl⟩), new.symm⟩
    · obtain ⟨k, f, entry, target⟩ := tree.entered j before top
      exact ⟨k, f, (entries k f).mpr (.inl entry), target⟩
  case ranked =>
    obtain ⟨rank, lower⟩ := tree.ranked
    -- the new node gets the rank above its parent's
    refine ⟨Function.update rank (S.target e) (rank i + 1), ?_⟩
    have old (j q gs) (new : j ≠ S.target e) (top : j ≠ root) (before : node j = some (.dir q gs)) :
        Function.update rank (S.target e) (rank i + 1) q <
          Function.update rank (S.target e) (rank i + 1) j := by
      have parentApart : q ≠ S.target e := by
        rintro rfl
        obtain ⟨f, entry, _, _⟩ := tree.parent before top
        exact entry.live fresh
      rw [Function.update_of_ne new, Function.update_of_ne parentApart]
      exact lower j q gs before top
    intro j q fs same top
    rcases insert_cases same with ⟨rfl, child'⟩ | ⟨new, ⟨rfl, parent⟩ | ⟨_, before⟩⟩
    · have parent : q = i := by
        rw [kind] at child'
        split at child' <;> cases child'
        rfl
      rw [Function.update_self, parent, Function.update_of_ne apart]
      omega
    · cases parent
      exact old j p es new top found
    · exact old j q fs new top before

variable [DecidableEq N]

/-- Entry `e` and the directory it names are taken out of directory `i`. -/
def erase (S : Scheme I E N) (node : I → Option (Node I E)) (i p : I) (es : List E) (e : E) :
    I → Option (Node I E) :=
  Function.update (Function.update node i (some (.dir p (es.filter fun f => S.name f ≠ S.name e))))
    (S.target e) none

theorem erase_target : erase S node i p es e (S.target e) = none := Function.update_self _ _ _

theorem erase_parent (apart : i ≠ S.target e) :
    erase S node i p es e i = some (.dir p (es.filter fun f => S.name f ≠ S.name e)) := by
  rw [erase, Function.update_of_ne apart, Function.update_self]

theorem erase_other (apart : j ≠ S.target e) (other : j ≠ i) :
    erase S node i p es e j = node j := by
  rw [erase, Function.update_of_ne apart, Function.update_of_ne other]

/-- A node after a removal is the parent without the entry or an old one. -/
theorem erase_cases (same : erase S node i p es e j = some n) :
    j ≠ S.target e ∧ (j = i ∧ n = .dir p (es.filter fun f => S.name f ≠ S.name e) ∨
      j ≠ i ∧ node j = some n) := by
  have gone : j ≠ S.target e := by
    rintro rfl
    rw [erase_target] at same
    cases same
  refine ⟨gone, ?_⟩
  by_cases here : j = i
  · subst here
    rw [erase_parent gone, Option.some.injEq] at same
    exact .inl ⟨rfl, same.symm⟩
  · rw [erase_other gone here] at same
    exact .inr ⟨here, same⟩

theorem erase_live (found : node i = some (.dir p es)) :
    erase S node i p es e j ≠ none ↔ j ≠ S.target e ∧ node j ≠ none := by
  by_cases gone : j = S.target e
  · rw [gone, erase_target]
    simp
  · by_cases here : j = i
    · subst here
      rw [erase_parent gone, found]
      simp [gone]
    · rw [erase_other gone here]
      simp [gone]

theorem erase_file (file : erase S node i p es e j = some .file) : node j = some .file := by
  obtain ⟨_, ⟨_, same⟩ | ⟨_, before⟩⟩ := erase_cases file
  · cases same
  · exact before

/-- The entries after a removal are the old ones without the removed one. -/
theorem Tree.entry_erase (tree : Tree S root node) (found : node i = some (.dir p es))
    (member : e ∈ es) (empty : node (S.target e) = some (.dir i [])) (apart : i ≠ S.target e) :
    Entry (erase S node i p es e) j f ↔ Entry node j f ∧ ¬ (j = i ∧ f = e) := by
  by_cases gone : j = S.target e
  · subst gone
    constructor
    · rintro ⟨q, fs, same, _⟩
      rw [erase_target] at same
      cases same
    · rintro ⟨⟨q, fs, same, inside⟩, _⟩
      rw [empty] at same
      cases same
      cases inside
  · by_cases here : j = i
    · subst here
      constructor
      · rintro ⟨q, fs, same, inside⟩
        rw [erase_parent apart] at same
        cases same
        obtain ⟨inside, named⟩ := List.mem_filter.mp inside
        refine ⟨.of found inside, ?_⟩
        rintro ⟨_, rfl⟩
        simp at named
      · rintro ⟨entry, other⟩
        refine .of (erase_parent apart) (List.mem_filter.mpr ⟨entry.mem found, ?_⟩)
        simp only [ne_eq, decide_not, Bool.not_eq_eq_eq_not, Bool.not_true, decide_eq_false_iff_not]
        intro same
        exact other ⟨rfl, tree.name_inj found (entry.mem found) member same⟩
    · rw [Entry, Entry, erase_other gone here]
      simp [here]

theorem Tree.erase (tree : Tree S root node) (found : node i = some (.dir p es))
    (member : e ∈ es) (empty : node (S.target e) = some (.dir i [])) :
    Tree S root (erase S node i p es e) := by
  have entry : Entry node i e := .of found member
  have target := tree.proper i e entry
  have apart : i ≠ S.target e := by
    intro same
    rw [← same, found] at empty
    cases empty
    cases member
  have entries (j f) : Entry (NameTree.erase S node i p es e) j f ↔
      Entry node j f ∧ ¬ (j = i ∧ f = e) := tree.entry_erase found member empty apart
  have only (j f) (old : Entry node j f) (same : S.target f = S.target e) : j = i ∧ f = e :=
    tree.once j f i e old entry same
  constructor
  case root_dir =>
    obtain ⟨fs, top⟩ := tree.root_dir
    by_cases here : root = i
    · subst here
      rw [found] at top
      cases top
      exact ⟨_, erase_parent apart⟩
    · exact ⟨fs, by rw [erase_other (Ne.symm target) here, top]⟩
  case names =>
    intro j q fs same
    obtain ⟨_, ⟨_, parent⟩ | ⟨_, before⟩⟩ := erase_cases same
    · cases parent
      exact (tree.names i p es found).sublist (List.filter_sublist.map _)
    · exact tree.names j q fs before
  case proper => exact fun j f kept => tree.proper j f ((entries j f).mp kept).1
  case subdir =>
    intro j f kept isDir
    obtain ⟨old, other⟩ := (entries j f).mp kept
    have gone : S.target f ≠ S.target e := fun same => other (only j f old same)
    obtain ⟨gs, sub⟩ := tree.subdir j f old isDir
    by_cases here : S.target f = i
    · rw [here] at sub ⊢
      rw [found] at sub
      cases sub
      exact ⟨_, erase_parent apart⟩
    · exact ⟨gs, by rw [erase_other gone here, sub]⟩
  case leaf =>
    intro j f kept isFile
    obtain ⟨old, other⟩ := (entries j f).mp kept
    have gone : S.target f ≠ S.target e := fun same => other (only j f old same)
    have sub := tree.leaf j f old isFile
    have here : S.target f ≠ i := by rintro here; rw [here, found] at sub; cases sub
    rw [erase_other gone here, sub]
  case once =>
    intro j f k g one two same
    exact tree.once j f k g ((entries j f).mp one).1 ((entries k g).mp two).1 same
  case entered =>
    intro j live top
    obtain ⟨gone, before⟩ := (erase_live found).mp live
    obtain ⟨k, f, old, same⟩ := tree.entered j before top
    refine ⟨k, f, (entries k f).mpr ⟨old, ?_⟩, same⟩
    rintro ⟨_, rfl⟩
    exact gone same.symm
  case ranked =>
    obtain ⟨rank, lower⟩ := tree.ranked
    refine ⟨rank, fun j q fs same top => ?_⟩
    obtain ⟨_, ⟨rfl, parent⟩ | ⟨_, before⟩⟩ := erase_cases same
    · cases parent
      exact lower j p es found top
    · exact lower j q fs before top

end NameTree
