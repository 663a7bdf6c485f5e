import Chomsky.Grammar.Basic

/-!
# Sample grammars

Seven small grammars that the command line offers by name, each built to show
one difficulty of normalization.
-/

set_option autoImplicit false

namespace Chomsky

/-- The names of the built-in grammars. -/
inductive Sample where
  | variant
  | unitChain
  | unitCycle
  | nullableMiddle
  | arithmetic
  | longProduction
  | nullableStart
deriving DecidableEq

namespace Sample

/-- All built-in grammars. -/
def all : List Sample :=
  [variant, unitChain, unitCycle, nullableMiddle, arithmetic, longProduction, nullableStart]

/-- The grammar of a name. -/
def grammar : Sample → Grammar
  -- empty alternatives, unit alternatives, an unreachable nonterminal, and the
  -- start symbol on right sides
  | variant =>
      Grammar.ofLiteral ["S", "A", "B", "C", "D"] ["a", "b"]
        [("S", ["aB", "bA", "A"]), ("A", ["B", "AS", "bBAB", "b"]),
         ("B", ["b", "bS", "aD", "ε"]), ("C", ["Ba"]), ("D", ["AA"])]
        "S"
  -- a chain of unit alternatives that ends in a terminal
  | unitChain =>
      Grammar.ofLiteral ["A", "B", "C"] ["d"] [("A", ["B"]), ("B", ["C"]), ("C", ["d"])] "A"
  -- two nonterminals that lead to each other
  | unitCycle =>
      Grammar.ofLiteral ["S", "A", "B"] ["a", "b", "c"]
        [("S", ["A", "a"]), ("A", ["B", "b"]), ("B", ["A", "c"])] "S"
  -- a nonterminal in the middle of an alternative derives the empty word
  | nullableMiddle =>
      Grammar.ofLiteral ["A", "B"] ["a", "b", "c"] [("A", ["aBc"]), ("B", ["b", "ε"])] "A"
  -- left-recursive expressions
  | arithmetic =>
      Grammar.ofLiteral ["E", "T", "F"] ["+", "*", "(", ")", "x"]
        [("E", ["E+T", "T"]), ("T", ["T*F", "F"]), ("F", ["(E)", "x"])] "E"
  -- one alternative of four nonterminals
  | longProduction =>
      Grammar.ofLiteral ["A", "W", "X", "Y", "Z"] ["w", "x", "y", "z"]
        [("A", ["WXYZ"]), ("W", ["w"]), ("X", ["x"]), ("Y", ["y"]), ("Z", ["z"])] "A"
  -- the start symbol derives the empty word
  | nullableStart =>
      Grammar.ofLiteral ["S", "A"] ["a", "b"] [("S", ["AbA", "A"]), ("A", ["aA", "ε"])] "S"

end Sample

end Chomsky
