import Mathlib.Data.List.Basic
import Mathlib.Tactic

/-! Runs of a deterministic step function that may be undefined. `run` executes a
list of operations and is undefined as soon as one of them is; `Steps` is the
same run with a side condition on every state in which an operation is issued,
and records the result of each. -/
namespace PartialRun

variable {S O R : Type}

def run (step : S → O → Option (R × S)) : S → List O → Option (List R × S)
  | s, [] => some ([], s)
  | s, o :: rest => do
    let (r, s') ← step s o
    let (rs, final) ← run step s' rest
    return (r :: rs, final)

inductive Steps (step : S → O → Option (R × S)) (ok : S → O → Prop) : S → List (O × R) → S → Prop where
  | nil : Steps step ok s [] s
  | cons : ok s o → step s o = some (r, next) → Steps step ok next rest final →
      Steps step ok s ((o, r) :: rest) final

variable {step : S → O → Option (R × S)} {ok ok' : S → O → Prop}

theorem Steps.append (first : Steps step ok s xs middle) (second : Steps step ok middle ys final) :
    Steps step ok s (xs ++ ys) final := by
  induction first with
  | nil => exact second
  | cons guard moved _ ih => exact .cons guard moved (ih second)

theorem Steps.single (guard : ok s o) (moved : step s o = some (r, next)) :
    Steps step ok s [(o, r)] next := .cons guard moved .nil

/-- An execution is a run without a condition. -/
theorem Steps.of_run (runs : run step s ops = some (results, final)) :
    Steps step (fun _ _ => True) s (ops.zip results) final := by
  induction ops generalizing s results with
  | nil =>
    cases runs
    exact .nil
  | cons o rest ih =>
    obtain ⟨⟨r, s'⟩, moved, runs⟩ := Option.bind_eq_some_iff.mp runs
    obtain ⟨⟨rs, last⟩, later, runs⟩ := Option.bind_eq_some_iff.mp runs
    cases runs
    exact .cons trivial moved (ih later)

/-- The one induction behind every invariant of a run. -/
theorem Steps.invariant (property : S → Prop)
    (preserved : ∀ s o r next, property s → ok s o → step s o = some (r, next) → property next)
    (steps : Steps step ok s trace final) (initial : property s) : property final := by
  induction steps with
  | nil => exact initial
  | cons guard moved _ ih => exact ih (preserved _ _ _ _ initial guard moved)

theorem Steps.mono (weaker : ∀ s o, ok s o → ok' s o) (steps : Steps step ok s trace final) :
    Steps step ok' s trace final := by
  induction steps with
  | nil => exact .nil
  | cons guard moved _ ih => exact .cons (weaker _ _ guard) moved ih

/-- A run of operations that all have a property. -/
theorem Steps.restrict {p : O → Prop} (steps : Steps step ok s trace final)
    (all : ∀ x ∈ trace, p x.1) : Steps step (fun s o => ok s o ∧ p o) s trace final := by
  induction steps with
  | nil => exact .nil
  | cons guard moved _ ih =>
    exact .cons ⟨guard, all _ List.mem_cons_self⟩ moved
      (ih fun x member => all x (List.mem_cons_of_mem _ member))

/-- A run may be cut at any point of its trace. -/
theorem Steps.split (steps : Steps step ok s (xs ++ ys) final) :
    ∃ middle, Steps step ok s xs middle ∧ Steps step ok middle ys final := by
  induction xs generalizing s with
  | nil => exact ⟨s, .nil, steps⟩
  | cons x xs ih =>
    cases steps with
    | cons guard moved rest =>
      obtain ⟨middle, before, after⟩ := ih rest
      exact ⟨middle, .cons guard moved before, after⟩

end PartialRun
