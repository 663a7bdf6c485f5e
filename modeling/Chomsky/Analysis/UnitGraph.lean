import Chomsky.Grammar.Basic

/-!
# The graph of unit alternatives

An alternative that is a single nonterminal is a unit alternative. Unit
alternatives make a directed graph on the names of nonterminals; the loops from
a name to itself play no role in it.

## What this module delivers

- `Phrase.unitTarget?` and `Rules.unitTargets`.
- `Rules.unitCycle?`, which finds a cycle of unit alternatives through at least
  two nonterminals.
-/

set_option autoImplicit false

namespace Chomsky

/-- The nonterminal that a unit alternative consists of. -/
def Phrase.unitTarget? : Phrase → Option String
  | [.nonterminal name] => some name
  | _ => none

namespace Rules

/-- The names, other than the name itself, that its unit alternatives lead to. -/
def unitTargets (r : Rules) (name : String) : List String :=
  ((r.alternatives name).filterMap Phrase.unitTarget?).filter (· != name)

/-- Walks depth first from a name. `path` holds the names on the way to it and
`finished` those from which no cycle was found. The walk fails with the first
cycle that it closes, and returns the names finished otherwise. The path never
repeats a name, so its length is bounded by the number of rules. -/
def walk (next : String → List String) :
    (depth : Nat) → (path finished : List String) → (name : String) →
      Except (List String) (List String)
  | 0, _, finished, _ => .ok finished
  | depth + 1, path, finished, name =>
      if name ∈ path then .error (path.dropWhile (· != name))
      else if name ∈ finished then .ok finished
      else
        match (next name).foldlM (walk next depth (path ++ [name])) finished with
        | .error cycle => .error cycle
        | .ok finished => .ok (finished ++ [name])

/-- A cycle of unit alternatives, its members in the order in which they lead to
each other. The search starts from the left sides in ascending order. -/
def unitCycle? (r : Rules) : Option (List String) :=
  match r.keys.toList.foldlM (walk r.unitTargets (r.size + 1) []) [] with
  | .error cycle => some cycle
  | .ok _ => none

end Rules

end Chomsky
