import CdnwSh.Library.PartialRun

/-! Forward simulation of a partial step function by a step relation on other states: one
step at a time, and from it whole runs with the same operations and replies. -/
namespace Simulation

open PartialRun

variable {S A O R P Q : Type}

/-- Runs of a step relation, with the operations and replies. -/
inductive Runs (step : A → O → R → A → Prop) : A → List (O × R) → A → Prop where
  | nil : Runs step a [] a
  | cons : step a o r next → Runs step next trace final → Runs step a ((o, r) :: trace) final

variable {step : S → O → Option (R × S)} {ok : S → O → Prop} {spec : A → O → R → A → Prop}

theorem Runs.append (first : Runs spec a xs middle) (second : Runs spec middle ys final) :
    Runs spec a (xs ++ ys) final := by
  induction first with
  | nil => exact second
  | cons moved _ ih => exact .cons moved (ih second)

theorem Runs.invariant (property : A → Prop)
    (preserved : ∀ a o r next, property a → spec a o r next → property next)
    (runs : Runs spec a trace final) (initial : property a) : property final := by
  induction runs with
  | nil => exact initial
  | cons moved _ ih => exact ih (preserved _ _ _ _ initial moved)

/-- A step may be any number of steps of the other side. What a relation between the states
keeps over a step, it keeps over a run. -/
theorem Steps.simulated_view {spec : A → P → Q → A → Prop} (view : O × R → List (P × Q))
    (related : S → A → Prop)
    (simulates : ∀ s a o r next, related s a → ok s o → step s o = some (r, next) →
      ∃ a', Runs spec a (view (o, r)) a' ∧ related next a')
    (steps : Steps step ok s trace final) (start : related s a) :
    ∃ a', Runs spec a (trace.flatMap view) a' ∧ related final a' := by
  induction steps generalizing a with
  | nil => exact ⟨a, .nil, start⟩
  | cons guard moved _ ih =>
    obtain ⟨b, runs, here⟩ := simulates _ _ _ _ _ start guard moved
    obtain ⟨c, later, last⟩ := ih here
    rw [List.flatMap_cons]
    exact ⟨c, runs.append later, last⟩

theorem Steps.simulated (related : S → A → Prop)
    (simulates : ∀ s a o r next, related s a → ok s o → step s o = some (r, next) →
      ∃ a', spec a o r a' ∧ related next a')
    (steps : Steps step ok s trace final) (start : related s a) :
    ∃ a', Runs spec a trace a' ∧ related final a' := by
  have single : ∀ s a o r next, related s a → ok s o → step s o = some (r, next) →
      ∃ a', Runs spec a [(o, r)] a' ∧ related next a' := by
    intro s a o r next here guard moved
    obtain ⟨b, moved', after⟩ := simulates s a o r next here guard moved
    exact ⟨b, .cons moved' .nil, after⟩
  have whole := simulated_view (fun item => [item]) related single steps start
  rwa [List.flatMap_singleton'] at whole

/-- Two runs of a deterministic relation with the same operations have the same replies and
end in the same state. -/
theorem Runs.deterministic
    (deterministic : ∀ a o r b r' b', spec a o r b → spec a o r' b' → r = r' ∧ b = b')
    (one : Runs spec a xs b) (two : Runs spec a ys c) (same : xs.map Prod.fst = ys.map Prod.fst) :
    xs = ys ∧ b = c := by
  induction one generalizing ys with
  | nil =>
    cases two with
    | nil => exact ⟨rfl, rfl⟩
    | cons => cases same
  | cons moved _ ih =>
    cases two with
    | nil => cases same
    | cons moved' others =>
      rw [List.map_cons, List.map_cons, List.cons.injEq] at same
      obtain ⟨operation, same⟩ := same
      dsimp only at operation
      subst operation
      obtain ⟨rfl, rfl⟩ := deterministic _ _ _ _ _ _ moved moved'
      obtain ⟨rfl, rfl⟩ := ih others same
      exact ⟨rfl, rfl⟩

end Simulation
