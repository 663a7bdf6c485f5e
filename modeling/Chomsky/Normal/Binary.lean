import Chomsky.Normal.Naming

/-!
# Splitting long alternatives

An alternative of more than two symbols is folded from its end: its last two
symbols give way to a nonterminal for this pair, until two symbols are left. A pair
has the same nonterminal wherever it is met, in all rules.

## What this module delivers

- `foldTail?`, the one symbol that stands for a string of symbols.
- `learnTail`, which names the pairs met on the way.
- `Grammar.binarize`.
-/

set_option autoImplicit false

namespace Chomsky

/-- The table of the nonterminals that stand for pairs. -/
abbrev PairTable := NameTable (Symbol × Symbol)

/-- The symbol that stands for `first :: rest`, folded from the end. -/
def foldTail? (table : PairTable) : (first : Symbol) → (rest : Phrase) → Option Symbol
  | first, [] => some first
  | first, second :: rest =>
      match foldTail? table second rest with
      | some tail => (table.find? (first, tail)).map .nonterminal
      | none => none

/-- Names every pair that is met when `first :: rest` is folded, the last pair
first. -/
def learnTail (table : PairTable) : (first : Symbol) → (rest : Phrase) → PairTable
  | _, [] => table
  | first, second :: rest =>
      let table := learnTail table second rest
      match foldTail? table second rest with
      | some tail => table.learn (first, tail)
      | none => table

/-- Names the pairs of one alternative. The first symbol stays outside of the
fold, so two symbols are left at the end. -/
def PairTable.learnPhrase (table : PairTable) : Phrase → PairTable
  | _ :: second :: rest => learnTail table second rest
  | _ => table

/-- The alternative with all symbols after its first one folded, if all pairs
have a name. -/
def Phrase.binarize? (table : PairTable) : Phrase → Option Phrase
  | first :: second :: rest => (foldTail? table second rest).map fun tail => [first, tail]
  | p => some p

/-- The table of the fresh names for pairs. -/
def Rules.pairTable (r : Rules) (pool : NamePool) : PairTable :=
  r.phrases.foldl PairTable.learnPhrase (NameTable.ofPool pool)

/-- Sees to it that no alternative has more than two symbols. -/
def Grammar.binarize (g : Grammar) (pool : NamePool) :
    Except NormalizationError Grammar × NamePool :=
  let table := g.rules.pairTable pool
  match g.rules.replace? (Phrase.binarize? table) with
  | some rules => (.ok (g.withNamed rules table fun pair => [pair.1, pair.2]), table.pool)
  | none => (.error (.namesExhausted pool.scheme.capacity), table.pool)

end Chomsky
