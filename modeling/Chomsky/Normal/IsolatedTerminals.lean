import Chomsky.Normal.Naming

/-!
# Isolating terminals

In alternatives of two or more symbols every terminal gives way to a fresh
nonterminal, one for each distinct terminal, whose only alternative is the
terminal. Shorter alternatives are left as they are.

The fresh names are learned first, in one walk over all alternatives; the
alternatives are then replaced by look-up. When a name is missing, no rule
changes.

## What this module delivers

- `Rules.terminalsToIsolate`, the occurrences that have to go.
- `Phrase.isolate?`, the alternative that takes the place of another.
- `Grammar.isolateTerminals`.
-/

set_option autoImplicit false

namespace Chomsky

/-- The terminals of the alternatives of two or more symbols, at each of their
occurrences. -/
def Rules.terminalsToIsolate (r : Rules) : List String :=
  (r.phrases.filter fun p => decide (2 ≤ p.length)).flatMap Phrase.terminals

/-- The nonterminal that stands for a symbol inside a longer alternative. -/
def Symbol.isolate? (table : NameTable String) : Symbol → Option Symbol
  | .terminal name => (table.find? name).map .nonterminal
  | .nonterminal name => some (.nonterminal name)

/-- The alternative with its terminals isolated, if all of them have a name. -/
def Phrase.isolate? (table : NameTable String) (p : Phrase) : Option Phrase :=
  if 2 ≤ p.length then p.mapM (Symbol.isolate? table) else some p

/-- The table of the fresh names for terminals. -/
def Rules.terminalTable (r : Rules) (pool : NamePool) : NameTable String :=
  (NameTable.ofPool pool).learnAll r.terminalsToIsolate

/-- Sees to it that terminals occur only as alternatives of their own. -/
def Grammar.isolateTerminals (g : Grammar) (pool : NamePool) :
    Except NormalizationError Grammar × NamePool :=
  let table := g.rules.terminalTable pool
  match g.rules.replace? (Phrase.isolate? table) with
  | some rules => (.ok (g.withNamed rules table fun name => [.terminal name]), table.pool)
  | none => (.error (.namesExhausted pool.scheme.capacity), table.pool)

end Chomsky
