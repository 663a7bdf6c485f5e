/-!
# Grammar symbols

A symbol is a terminal or a nonterminal, each with a name. The same name may
occur as a symbol of either kind, and the two are different symbols.
-/

set_option autoImplicit false

namespace Chomsky

/-- A symbol of a grammar. -/
inductive Symbol where
  /-- A token of the words that the grammar derives. -/
  | terminal (name : String)
  /-- A name that rules give alternatives to. -/
  | nonterminal (name : String)
deriving DecidableEq

namespace Symbol

/-- The name, whatever the kind of symbol. -/
def name : Symbol → String
  | terminal n => n
  | nonterminal n => n

/-- The name of a nonterminal. -/
def nonterminal? : Symbol → Option String
  | terminal _ => none
  | nonterminal n => some n

/-- The name of a terminal. -/
def terminal? : Symbol → Option String
  | terminal n => some n
  | nonterminal _ => none

/-- Whether the symbol is a terminal. -/
def isTerminal : Symbol → Bool
  | terminal _ => true
  | nonterminal _ => false

/-- The order of symbols: terminals come before nonterminals, and symbols of
one kind are ordered by name. -/
def le : Symbol → Symbol → Bool
  | terminal m, terminal n => decide (m ≤ n)
  | terminal _, nonterminal _ => true
  | nonterminal _, terminal _ => false
  | nonterminal m, nonterminal n => decide (m ≤ n)

end Symbol

end Chomsky
