import Chomsky.Grammar.Symbol
import Chomsky.Name.Set

/-!
# Phrases and their written form

A phrase is a string of symbols: an alternative of a rule, or a part of one.
The empty phrase is written as the epsilon sign. In a literal every character
is a symbol of its own, and only the epsilon sign on its own stands for the
empty phrase; inside a longer text it is an ordinary symbol.

## What this module delivers

- `Phrase.format`, the written form.
- `Phrase.ofLiteral`, the phrase that a literal text stands for.
- `Phrase.nonterminals`, `Phrase.terminals` and `Phrase.sort`.
-/

set_option autoImplicit false

namespace Chomsky

/-- A string of symbols. -/
abbrev Phrase := List Symbol

/-- The sign for the empty phrase and the empty word. -/
def epsilonSign : String := "ε"

namespace Phrase

/-- The written form of a phrase: names are run together when each of them is a
single character, and are spaced otherwise. -/
def format (p : Phrase) : String :=
  if p.isEmpty then epsilonSign
  else if p.all (fun s => s.name.length == 1) then String.join (p.map Symbol.name)
  else " ".intercalate (p.map Symbol.name)

/-- The symbol that one character of a literal stands for: a nonterminal if the
character is declared as one, a terminal otherwise. -/
def symbolOfChar (declared : NameSet) (c : Char) : Symbol :=
  if String.singleton c ∈ declared then .nonterminal (String.singleton c)
  else .terminal (String.singleton c)

/-- The phrase of a literal text, given the names declared as nonterminals. -/
def ofLiteral (declared : NameSet) (text : String) : Phrase :=
  if text = epsilonSign then [] else text.toList.map (symbolOfChar declared)

/-- The names of the nonterminals of a phrase, from left to right. -/
def nonterminals (p : Phrase) : List String := p.filterMap Symbol.nonterminal?

/-- The names of the terminals of a phrase, from left to right. -/
def terminals (p : Phrase) : List String := p.filterMap Symbol.terminal?

/-- Whether a nonterminal occurs in a phrase. -/
def mentions (p : Phrase) (name : String) : Bool := p.any (· == .nonterminal name)

/-- The symbols of a phrase in the order of symbols. -/
def sort (p : Phrase) : Phrase := p.mergeSort Symbol.le

end Phrase

end Chomsky
