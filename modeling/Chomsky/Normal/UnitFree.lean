import Chomsky.Analysis.UnitGraph
import Chomsky.Normal.Failure

/-!
# Removing unit alternatives

Every unit alternative is replaced by the alternatives of its target, in passes
over all rules at once. Each left side remembers the targets that it has
absorbed; a unit alternative to one of them is dropped, which is why cycles do
not keep the passes going.

## What this module delivers

- `Splicing`, a left side in the middle of the work, and `Splicing.next`.
- `spliceAll`, the passes, with their number.
- `Grammar.removeUnits`.
-/

set_option autoImplicit false

namespace Chomsky

/-- What to do when unit alternatives form a cycle. -/
inductive CyclePolicy where
  /-- Give every member the alternatives of all members. -/
  | collapse
  /-- Stop with the cycle that was found. -/
  | refuse
deriving DecidableEq

/-- The alternatives of a left side and the targets it has absorbed so far. -/
structure Splicing where
  /-- The present alternatives. -/
  alternatives : List Phrase
  /-- The left side itself and every target absorbed. -/
  absorbed : List String

namespace Splicing

/-- Takes one alternative over into the next pass: a unit alternative gives way
to the alternatives of its target, or to nothing if its target was absorbed
before. -/
def take (lookup : String → List Phrase) (s : Splicing) (p : Phrase) : Splicing :=
  match p.unitTarget? with
  | none => { s with alternatives := pushUnique s.alternatives p }
  | some target =>
      if target ∈ s.absorbed then s
      else ⟨pushAll s.alternatives (lookup target), s.absorbed ++ [target]⟩

/-- The left side after one more pass, with the alternatives of all names as
they were before it. -/
def next (lookup : String → List Phrase) (s : Splicing) : Splicing :=
  s.alternatives.foldl (take lookup) ⟨[], s.absorbed⟩

end Splicing

/-- The alternatives of a name in the middle of the work. -/
def splicedAlternatives (m : NameMap Splicing) (name : String) : List Phrase :=
  ((m.get? name).map Splicing.alternatives).getD []

/-- One pass over all left sides. -/
def splicePass (m : NameMap Splicing) : NameMap Splicing :=
  m.mapEntries fun _ s => s.next (splicedAlternatives m)

/-- Whether a unit alternative is left. -/
def hasUnits (m : NameMap Splicing) : Bool :=
  m.values.any fun s => s.alternatives.any fun p => p.unitTarget?.isSome

/-- The work before the first pass. A unit alternative from a name to itself
derives nothing new and is dropped at once. -/
def Rules.toSplice (r : Rules) : NameMap Splicing :=
  r.mapEntries fun lhs alternatives =>
    ⟨alternatives.filter fun p => decide (p.unitTarget? ≠ some lhs), [lhs]⟩

/-- Repeats the pass until one finds no unit alternative. The result comes with
the number of passes, the last one included. -/
def splicePasses : (bound : Nat) → NameMap Splicing → NameMap Splicing × Nat
  | 0, m => (m, 0)
  | bound + 1, m =>
      if hasUnits m then
        let rest := splicePasses bound (splicePass m)
        (rest.1, rest.2 + 1)
      else (splicePass m, 1)

/-- All targets of unit alternatives. -/
def Rules.allUnitTargets (r : Rules) : List String :=
  distinct (r.phrases.filterMap Phrase.unitTarget?)

/-- The passes over given rules. Every pass that leaves units behind absorbs a
target somewhere, or drops all units, so their number is bounded by the number
of left sides times that of targets, and two more. -/
def spliceAll (r : Rules) : NameMap Splicing × Nat :=
  splicePasses (r.size * r.allUnitTargets.length + 2) r.toSplice

namespace Grammar

/-- The grammar after all passes. -/
def splice (g : Grammar) : Grammar :=
  { g with rules := (spliceAll g.rules).1.mapEntries fun _ s => s.alternatives }

/-- The grammar without unit alternatives. -/
def removeUnits (g : Grammar) (policy : CyclePolicy) : Except NormalizationError Grammar :=
  match policy, g.rules.unitCycle? with
  | .refuse, some cycle => .error (.unitCycle cycle)
  | _, _ => .ok g.splice

end Grammar

end Chomsky
