import Mathlib.Logic.Function.Basic
import Mathlib.Data.List.Basic
import Mathlib.Tactic

/-! Stores that are only looked at through what they show under each key. In a faithful store
a write shows its value under its own key and leaves what the other keys show; after a row of
writes every key then shows what was written to it last. -/
namespace KeyedStore

variable {S K V : Type} [DecidableEq K]

/-- What was written last under a key, and the initial value where nothing was written. -/
def lastWritten (initial : K → Option V) (writes : List (K × V)) : K → Option V :=
  writes.foldl (fun shown w => Function.update shown w.1 (some w.2)) initial

variable {initial : K → Option V} {writes : List (K × V)} {k : K} {value : V}

theorem lastWritten_cons : lastWritten initial ((k, value) :: writes) =
    lastWritten (Function.update initial k (some value)) writes := rfl

theorem lastWritten_congr {initial' : K → Option V} (same : initial k = initial' k) :
    lastWritten initial writes k = lastWritten initial' writes k := by
  induction writes generalizing initial initial' with
  | nil => exact same
  | cons w rest ih =>
    rw [lastWritten_cons, lastWritten_cons]
    refine ih ?_
    by_cases here : k = w.1
    · subst here
      rw [Function.update_self, Function.update_self]
    · rw [Function.update_of_ne here, Function.update_of_ne here, same]

/-- A store that keeps what it is given, as far as the keys in question are valid. -/
structure Faithful (valid : K → Prop) (shown : S → K → Option V)
    (write : S → K → V → Option S) : Prop where
  written : ∀ s s' k v, valid k → write s k v = some s' → shown s' k = some v
  frame : ∀ s s' k v j, valid k → valid j → j ≠ k → write s k v = some s' → shown s' j = shown s j

variable {valid : K → Prop} {shown : S → K → Option V} {write : S → K → V → Option S}

/-- After a row of writes every valid key shows what was written to it last. -/
theorem Faithful.run (faithful : Faithful valid shown write) (keys : ∀ w ∈ writes, valid w.1)
    (run : writes.foldlM (fun s w => write s w.1 w.2) s = some s') (key : valid k) :
    shown s' k = lastWritten (shown s) writes k := by
  induction writes generalizing s with
  | nil =>
    cases run
    rfl
  | cons w rest ih =>
    rw [List.foldlM_cons] at run
    obtain ⟨next, wrote, run⟩ := Option.bind_eq_some_iff.mp run
    have head := keys w List.mem_cons_self
    rw [ih (fun x member => keys x (List.mem_cons_of_mem _ member)) run, lastWritten_cons]
    apply lastWritten_congr
    by_cases here : k = w.1
    · subst here
      rw [Function.update_self, faithful.written _ _ _ _ head wrote]
    · rw [Function.update_of_ne here, faithful.frame _ _ _ _ _ head key here wrote]

omit [DecidableEq K] in
theorem run_defined {writes : List (K × V)}
    (each : ∀ w ∈ writes, ∀ s, (write s w.1 w.2).isSome) (s : S) :
    ∃ s', writes.foldlM (fun s w => write s w.1 w.2) s = some s' := by
  induction writes generalizing s with
  | nil => exact ⟨s, rfl⟩
  | cons w rest ih =>
    obtain ⟨next, wrote⟩ := Option.isSome_iff_exists.mp (each w List.mem_cons_self s)
    obtain ⟨final, run⟩ := ih (fun x member => each x (List.mem_cons_of_mem _ member)) next
    refine ⟨final, ?_⟩
    rw [List.foldlM_cons, wrote]
    exact run

end KeyedStore
