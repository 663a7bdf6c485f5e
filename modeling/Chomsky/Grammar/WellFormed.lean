import Chomsky.Grammar.Basic

/-!
# Grammars that hold together

A grammar holds together when its start symbol is declared, no name is declared
twice, rules are given to nonterminals only, and alternatives use declared
symbols of the right kind.

## What this module delivers

- `Malformation`, one constructor for each way to fall short, and its text.
- `Grammar.malformations`, the complete list of faults in a fixed order.
- `Grammar.WellFormed`: the list is empty.
-/

set_option autoImplicit false

namespace Chomsky

/-- A way in which a grammar does not hold together. -/
inductive Malformation where
  /-- The start symbol is not declared as a nonterminal. -/
  | undefinedStart (name : String)
  /-- A name is declared both as a terminal and as a nonterminal. -/
  | ambiguous (name : String)
  /-- A rule is given to a name that is not a nonterminal. -/
  | undefinedLeftSide (lhs : String)
  /-- An alternative uses a symbol that is not declared as one of its kind. -/
  | undefinedSymbol (lhs name : String)
deriving DecidableEq

/-- The text of a fault. -/
def Malformation.message : Malformation → String
  | undefinedStart name => "Start symbol `" ++ name ++ "` is not a nonterminal"
  | ambiguous name => "`" ++ name ++ "` is declared as both a terminal and a nonterminal"
  | undefinedLeftSide lhs => "Rule for `" ++ lhs ++ "`, which is not a nonterminal"
  | undefinedSymbol lhs name => "Rule for `" ++ lhs ++ "` uses undeclared symbol `" ++ name ++ "`"

namespace Grammar

/-- Whether a symbol is declared as one of its kind. -/
def declares (g : Grammar) : Symbol → Bool
  | .terminal name => decide (name ∈ g.terminals)
  | .nonterminal name => decide (name ∈ g.nonterminals)

/-- The fault of the start symbol. -/
def startFaults (g : Grammar) : List Malformation :=
  if g.start ∈ g.nonterminals then [] else [.undefinedStart g.start]

/-- The names of both kinds, in ascending order. -/
def ambiguityFaults (g : Grammar) : List Malformation :=
  (g.nonterminals.inter g.terminals).toList.map .ambiguous

/-- The left sides that are not nonterminals, in ascending order. -/
def leftSideFaults (g : Grammar) : List Malformation :=
  (g.rules.keys.filter fun lhs => !decide (lhs ∈ g.nonterminals)).toList.map .undefinedLeftSide

/-- The undeclared symbols of all alternatives, in the order of the rules; a
symbol is reported at each of its occurrences. -/
def symbolFaults (g : Grammar) : List Malformation :=
  g.rules.productions.flatMap fun e =>
    (e.2.filter fun s => !g.declares s).map fun s => .undefinedSymbol e.1 s.name

/-- Every fault of a grammar: the start symbol, ambiguous names, left sides,
and then symbols. -/
def malformations (g : Grammar) : List Malformation :=
  g.startFaults ++ g.ambiguityFaults ++ g.leftSideFaults ++ g.symbolFaults

/-- The grammar holds together. -/
def WellFormed (g : Grammar) : Prop := g.malformations = []

instance (g : Grammar) : Decidable g.WellFormed :=
  inferInstanceAs (Decidable (g.malformations = []))

end Grammar

end Chomsky
