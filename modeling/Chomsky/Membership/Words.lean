import Chomsky.Membership.Earley
import Chomsky.Membership.SpanTable

/-!
# Words, languages and disagreements

All words over a set of terminals, by length and then lexicographically, and
the comparison of two grammars on them.

## What this module delivers

- `wordsOfLength` and `words`.
- `Grammar.derivedWords` and `Grammar.acceptedWords`, the two languages cut off
  at a length.
- `disagreement?`, the first word on which two grammars differ.
-/

set_option autoImplicit false

namespace Chomsky

/-- The words of one length, the leftmost token changing slowest. -/
def wordsOfLength (terminals : List String) : (length : Nat) → List (List String)
  | 0 => [[]]
  | length + 1 =>
      let shorter := wordsOfLength terminals length
      terminals.flatMap fun t => shorter.map (t :: ·)

/-- The words up to a length, the shorter ones first. -/
def words (terminals : NameSet) (maxLength : Nat) : List (List String) :=
  (List.range (maxLength + 1)).flatMap (wordsOfLength terminals.toList)

namespace Grammar

/-- The words over the terminals of a grammar, up to a length, that its start
symbol derives. -/
def derivedWords (g : Grammar) (maxLength : Nat) : List (List String) :=
  let nullable := g.rules.nullable
  (words g.terminals maxLength).filter (chartAccepts g.rules nullable g.start)

/-- The words over the terminals of a grammar, up to a length, that it accepts
by its alternatives in normal form. -/
def acceptedWords (g : Grammar) (maxLength : Nat) : List (List String) :=
  (words g.terminals maxLength).filter g.acceptsBySpans

end Grammar

/-- A word with the two verdicts on it. -/
structure Verdicts where
  /-- The word. -/
  word : List String
  /-- Whether the input grammar derives it. -/
  input : Bool
  /-- Whether the normal form accepts it. -/
  normalForm : Bool
deriving DecidableEq

/-- The verdicts of a grammar and of its normal form on a word. -/
def Verdicts.of (input normalForm : Grammar) (word : List String) : Verdicts :=
  ⟨word, input.derivesByItems word, normalForm.acceptsBySpans word⟩

/-- The verdicts on a word, if they differ. -/
def differing? (input normalForm : Grammar) (word : List String) : Option Verdicts :=
  let verdicts := Verdicts.of input normalForm word
  if verdicts.input = verdicts.normalForm then none else some verdicts

/-- Looks through the words of `count` consecutive lengths. -/
def firstDiffering? (input normalForm : Grammar) : (count length : Nat) → Option Verdicts
  | 0, _ => none
  | count + 1, length =>
      match (wordsOfLength input.terminals.toList length).findSome?
          (differing? input normalForm) with
      | some verdicts => some verdicts
      | none => firstDiffering? input normalForm count (length + 1)

/-- The first word over the terminals of the input grammar, up to a length, on
which it differs from the normal form. -/
def disagreement? (input normalForm : Grammar) (maxLength : Nat) : Option Verdicts :=
  firstDiffering? input normalForm (maxLength + 1) 0

end Chomsky
