import Chomsky.Name.Distinct

/-!
# Saturation

Everything that can be reached from some seeds by repeated steps, collected
layer by layer: a layer holds what the layer before it leads to and no earlier
layer holds. The number of layers is bounded by the size of any finite set that
contains all that is reachable, and callers pass such a bound.

## What this module delivers

- `saturate`, the collection.
- `ReachedFrom`, reachability by a finite chain of steps.
-/

set_option autoImplicit false

namespace Chomsky

variable {α : Type}

/-- The element is a seed or is reached from one by a finite chain of steps. -/
inductive ReachedFrom (step : α → List α) (seeds : List α) : α → Prop where
  | seed {x : α} : x ∈ seeds → ReachedFrom step seeds x
  | step {x y : α} : ReachedFrom step seeds x → y ∈ step x → ReachedFrom step seeds y

/-- Adds to `seen` everything that `frontier` leads to, in at most `layers`
layers. The result lists each element once, in the order of discovery. -/
def saturate [DecidableEq α] (step : α → List α) :
    (layers : Nat) → (frontier seen : List α) → List α
  | 0, _, seen => seen
  | layers + 1, frontier, seen =>
      match distinct (frontier.filter fun x => !decide (x ∈ seen)) with
      | [] => seen
      | x :: xs => saturate step layers ((x :: xs).flatMap step) (seen ++ x :: xs)

end Chomsky
