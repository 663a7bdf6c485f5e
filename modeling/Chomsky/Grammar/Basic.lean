import Chomsky.Grammar.Phrase
import Chomsky.Name.Distinct
import Chomsky.Name.Map

/-!
# Context-free grammars

A grammar declares two sets of names and gives, for some names, the ordered
list of their alternatives. Nothing in the type requires that the names used in
rules are declared; `Chomsky.Grammar.WellFormed` says what a grammar that holds
together satisfies.

## What this module delivers

- `Rules` and `Grammar`.
- `Rules.alternatives`, `Rules.productions` and the counts taken from them.
- The edits of a grammar: declaring and retracting names, pushing an
  alternative, removing a rule and choosing the start symbol.
-/

set_option autoImplicit false

namespace Chomsky

/-- Left sides with their alternatives. -/
abbrev Rules := NameMap (List Phrase)

namespace Rules

/-- The alternatives of a name; a name without a rule has none. -/
def alternatives (r : Rules) (name : String) : List Phrase := (r.get? name).getD []

/-- Every alternative beside its left side, in the order of the rules. -/
def productions (r : Rules) : List (String × Phrase) :=
  r.entries.flatMap fun e => e.2.map fun p => (e.1, p)

/-- Every alternative, in the order of the rules. -/
def phrases (r : Rules) : List Phrase := r.values.flatten

/-- The number of alternatives of all rules together. -/
def productionCount (r : Rules) : Nat := r.phrases.length

/-- Whether a nonterminal occurs in an alternative. -/
def mentions (r : Rules) (name : String) : Bool := r.phrases.any (Phrase.mentions · name)

end Rules

/-- A context-free grammar. -/
structure Grammar where
  /-- The names declared as nonterminals. -/
  nonterminals : NameSet
  /-- The names declared as terminals. -/
  terminals : NameSet
  /-- The alternatives of each left side. -/
  rules : Rules
  /-- The symbol that derivations start from. -/
  start : String
  /-- Whether the empty word belongs to the language beside what the start
  symbol derives. Set when the empty alternatives are removed. -/
  acceptsEmpty : Bool
deriving DecidableEq

namespace Grammar

/-- The names that a grammar declares, of both kinds. -/
def declared (g : Grammar) : NameSet := g.nonterminals.union g.terminals

/-! ## Edits -/

/-- Declares a nonterminal. -/
def addNonterminal (g : Grammar) (name : String) : Grammar :=
  { g with nonterminals := g.nonterminals.insert name }

/-- Retracts the declaration of a nonterminal, leaving rules as they are. -/
def removeNonterminal (g : Grammar) (name : String) : Grammar :=
  { g with nonterminals := g.nonterminals.erase name }

/-- Declares a terminal. -/
def addTerminal (g : Grammar) (name : String) : Grammar :=
  { g with terminals := g.terminals.insert name }

/-- Retracts the declaration of a terminal, leaving rules as they are. -/
def removeTerminal (g : Grammar) (name : String) : Grammar :=
  { g with terminals := g.terminals.erase name }

/-- Pushes an alternative onto the rule of `lhs`, which is made when there is
none. An alternative that the rule has already is not added again. -/
def push (g : Grammar) (lhs : String) (p : Phrase) : Grammar :=
  { g with rules := g.rules.insert lhs (pushUnique (g.rules.alternatives lhs) p) }

/-- Removes the rule of a name. -/
def removeRule (g : Grammar) (lhs : String) : Grammar :=
  { g with rules := g.rules.erase lhs }

/-- Chooses the start symbol. -/
def withStart (g : Grammar) (name : String) : Grammar := { g with start := name }

/-! ## Literals -/

/-- The grammar of a literal: each production is a text whose characters are
symbols, and a left side given more than once collects all its productions. -/
def ofLiteral (nonterminals terminals : List String) (rules : List (String × List String))
    (start : String) : Grammar :=
  let declared := NameSet.ofList nonterminals
  { nonterminals := declared
    terminals := NameSet.ofList terminals
    rules := rules.foldl
      (fun acc rule =>
        acc.insert rule.1 (Rules.alternatives acc rule.1 ++ rule.2.map (Phrase.ofLiteral declared)))
      ∅
    start := start
    acceptsEmpty := false }

/-! ## Dump -/

/-- One line for a rule. -/
def dumpRule (lhs : String) (alternatives : List Phrase) : String :=
  "  " ++ lhs ++ " -> " ++ " | ".intercalate (alternatives.map Phrase.format) ++ "\n"

/-- The text that shows a whole grammar. -/
def dump (g : Grammar) : String :=
  "Vn: [" ++ ", ".intercalate g.nonterminals.toList ++ "]\n"
    ++ "Vt: [" ++ ", ".intercalate g.terminals.toList ++ "]\n"
    ++ "Start: " ++ g.start ++ "\n"
    ++ (if g.acceptsEmpty then "Accepts empty string\n" else "")
    ++ "Productions:\n"
    ++ String.join (g.rules.entries.map fun e => dumpRule e.1 e.2)

end Grammar

end Chomsky
