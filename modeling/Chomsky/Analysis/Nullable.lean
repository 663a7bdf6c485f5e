import Chomsky.Grammar.Basic

/-!
# Nullable nonterminals

A nonterminal is nullable when one of its alternatives consists of nullable
nonterminals only; an empty alternative is the base of this recursion.
Terminals are never nullable, whatever their name.

## What this module delivers

- `Rules.nullable`, the set of nullable nonterminals.
- `Phrase.removals`: every way of leaving out some nullable occurrences.
-/

set_option autoImplicit false

namespace Chomsky

/-- Whether a symbol is a nonterminal of the given set. -/
def Symbol.isNullable (nullable : NameSet) : Symbol → Bool
  | .terminal _ => false
  | .nonterminal name => decide (name ∈ nullable)

/-- Whether a phrase consists of nonterminals of the given set only. -/
def Phrase.isNullable (nullable : NameSet) (p : Phrase) : Bool :=
  p.all (Symbol.isNullable nullable)

namespace Rules

/-- The left sides with an alternative that consists of nonterminals of the
given set only. -/
def nullableStep (r : Rules) (nullable : NameSet) : List String :=
  (r.entries.filter fun e => e.2.any (Phrase.isNullable nullable)).map Prod.fst

/-- Enlarges a set of nullable nonterminals until nothing is added. -/
def nullableFrom (r : Rules) : (rounds : Nat) → NameSet → NameSet
  | 0, nullable => nullable
  | rounds + 1, nullable =>
      let grown := nullable.insertMany (r.nullableStep nullable)
      if grown = nullable then nullable else r.nullableFrom rounds grown

/-- The nullable nonterminals. Every round but the last adds a left side, so
there are no more rounds than rules. -/
def nullable (r : Rules) : NameSet := r.nullableFrom r.size ∅

end Rules

/-! ## Leaving out nullable occurrences -/

/-- The ways of choosing `size` elements of a list, each in the order of the
list, ordered by their positions lexicographically. -/
def choices {α : Type} : (size : Nat) → List α → List (List α)
  | 0, _ => [[]]
  | _ + 1, [] => []
  | size + 1, x :: xs => (choices size xs).map (x :: ·) ++ choices (size + 1) xs

namespace Phrase

/-- The positions of nullable occurrences. -/
def nullablePositions (nullable : NameSet) (p : Phrase) : List Nat :=
  (p.zipIdx.filter fun e => e.1.isNullable nullable).map Prod.snd

/-- The phrase without the symbols at the given positions. -/
def withoutPositions (p : Phrase) (positions : List Nat) : Phrase :=
  (p.zipIdx.filter fun e => !positions.contains e.2).map Prod.fst

/-- Every way of leaving out a non-empty set of nullable occurrences, the
smaller sets first and sets of one size in lexicographic order of positions.
Different sets can leave the same phrase, which is then listed for each. -/
def removals (nullable : NameSet) (p : Phrase) : List Phrase :=
  let positions := p.nullablePositions nullable
  (List.range positions.length).flatMap fun k =>
    (choices (k + 1) positions).map p.withoutPositions

end Phrase

end Chomsky
