import Chomsky.Grammar.Basic

/-!
# Heights of derivations

The height of a name is the least height of a derivation tree below it. A tree
without nonterminals below its root has height one, and any other tree is one
higher than its highest subtree. A name that derives no word has no height.

## What this module delivers

- `Phrase.height?`, the height of a tree that begins with a given alternative.
- `Rules.heights`, the least heights of all names.
-/

set_option autoImplicit false

namespace Chomsky

/-- The least height of the trees below a symbol; a terminal has none below it. -/
def Symbol.height? (heights : NameMap Nat) : Symbol → Option Nat
  | .terminal _ => some 0
  | .nonterminal name => heights.get? name

namespace Phrase

/-- The greatest of the least heights of the symbols of a phrase. -/
def symbolHeight? (heights : NameMap Nat) : Phrase → Option Nat
  | [] => some 0
  | s :: rest =>
      match s.height? heights, symbolHeight? heights rest with
      | some h, some k => some (max h k)
      | _, _ => none

/-- The least height of a tree whose root has the phrase below it. -/
def height? (heights : NameMap Nat) (p : Phrase) : Option Nat :=
  (p.symbolHeight? heights).map (· + 1)

end Phrase

namespace Rules

/-- The least height that the alternatives of a rule allow. -/
def leastHeight? (heights : NameMap Nat) (alternatives : List Phrase) : Option Nat :=
  (alternatives.filterMap (Phrase.height? heights)).min?

/-- The heights that follow from given heights of the names in alternatives. -/
def heightStep (r : Rules) (heights : NameMap Nat) : NameMap Nat :=
  NameMap.ofList (r.entries.filterMap fun e => (leastHeight? heights e.2).map fun h => (e.1, h))

/-- Repeats the step until nothing changes. -/
def heightsFrom (r : Rules) : (rounds : Nat) → NameMap Nat → NameMap Nat
  | 0, heights => heights
  | rounds + 1, heights =>
      let next := r.heightStep heights
      if next = heights then heights else r.heightsFrom rounds next

/-- The least heights of all names that derive a word. After `n` rounds the
names of height at most `n` are known, and a lowest tree repeats no name on a
path, so there are no more rounds than rules. -/
def heights (r : Rules) : NameMap Nat := r.heightsFrom r.size ∅

end Rules

end Chomsky
