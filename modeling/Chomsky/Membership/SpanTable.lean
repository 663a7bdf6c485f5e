import Chomsky.Grammar.Basic

/-!
# Membership by spans

The CYK recognizer works on alternatives that are one terminal or two
nonterminals; all others are passed over. It fills a table that says, for each
span of the word, which nonterminals derive it. Spans are filled in the order of
their lengths, so the parts of a span are always known.

## What this module delivers

- `NormalRules`, the alternatives that take part.
- `SpanTable.ofWord`, the filled table.
- `Grammar.acceptsBySpans`, the membership test.
-/

set_option autoImplicit false

namespace Chomsky

/-- The alternatives in normal form, beside their left sides. -/
structure NormalRules where
  /-- Left sides with a single terminal. -/
  single : List (String × String)
  /-- Left sides with two nonterminals. -/
  pairs : List (String × String × String)

namespace NormalRules

/-- A single terminal. -/
def single? : String × Phrase → Option (String × String)
  | (lhs, [.terminal t]) => some (lhs, t)
  | _ => none

/-- Two nonterminals. -/
def pair? : String × Phrase → Option (String × String × String)
  | (lhs, [.nonterminal left, .nonterminal right]) => some (lhs, left, right)
  | _ => none

/-- The alternatives of a grammar that are in normal form. -/
def ofRules (rules : Rules) : NormalRules :=
  ⟨rules.productions.filterMap single?, rules.productions.filterMap pair?⟩

/-- The nonterminals that have a token as an alternative. -/
def ofToken (r : NormalRules) (token : String) : List String :=
  distinct ((r.single.filter fun e => e.2 == token).map Prod.fst)

/-- The nonterminals that derive a span in two parts, given the nonterminals of
both parts for each way of splitting it. -/
def ofParts (r : NormalRules) (parts : List (List String × List String)) : List String :=
  distinct ((r.pairs.filter fun e =>
    parts.any fun part => decide (e.2.1 ∈ part.1) && decide (e.2.2 ∈ part.2)).map Prod.fst)

end NormalRules

/-- The nonterminals of all spans up to some length: the row at index `k` holds
the spans of length `k + 1`, by their first position. -/
structure SpanTable where
  /-- The rows. -/
  rows : List (List (List String))

namespace SpanTable

/-- The nonterminals of the span of a length from a position. -/
def cell (t : SpanTable) (length start : Nat) : List String :=
  ((t.rows[length - 1]?).bind fun row => row[start]?).getD []

/-- The two parts of a span, for each place at which it can be split. -/
def parts (t : SpanTable) (length start : Nat) : List (List String × List String) :=
  (List.range (length - 1)).map fun k =>
    (t.cell (k + 1) start, t.cell (length - (k + 1)) (start + (k + 1)))

/-- The row of the spans of a length in a word of `n` tokens. -/
def row (r : NormalRules) (n : Nat) (t : SpanTable) (length : Nat) : List (List String) :=
  (List.range (n + 1 - length)).map fun start => r.ofParts (t.parts length start)

/-- Adds the rows of `count` further lengths. -/
def extend (r : NormalRules) (n : Nat) : (count : Nat) → SpanTable → SpanTable
  | 0, t => t
  | count + 1, t => extend r n count ⟨t.rows ++ [row r n t (t.rows.length + 1)]⟩

/-- The table of a word. -/
def ofWord (r : NormalRules) (word : List String) : SpanTable :=
  extend r word.length (word.length - 1) ⟨[word.map r.ofToken]⟩

/-- Whether a nonterminal derives the whole word. -/
def accepts (r : NormalRules) (start : String) (word : List String) : Bool :=
  decide (start ∈ (ofWord r word).cell word.length 0)

end SpanTable

/-- Whether the grammar accepts the word, going by its alternatives in normal
form. The empty word is accepted when the grammar says so. -/
def Grammar.acceptsBySpans (g : Grammar) (word : List String) : Bool :=
  if word.isEmpty then g.acceptsEmpty
  else SpanTable.accepts (NormalRules.ofRules g.rules) g.start word

end Chomsky
