import Chomsky.Analysis.Reachable

/-!
# Violations of Chomsky normal form

A grammar is in Chomsky normal form when its start symbol occurs in no
alternative, every alternative is one terminal or two nonterminals, and every
declared nonterminal is reachable. `Grammar.violations` lists each alternative
and each nonterminal that breaks this.
-/

set_option autoImplicit false

namespace Chomsky

/-- A way in which a grammar falls short of Chomsky normal form. -/
inductive Violation where
  /-- The start symbol occurs in an alternative. -/
  | startOnRightSide (lhs : String)
  /-- An alternative is empty. -/
  | nullProduction (lhs : String)
  /-- An alternative is a single nonterminal. -/
  | unitProduction (lhs target : String)
  /-- A declared nonterminal is not reachable. -/
  | unreachable (name : String)
  /-- An alternative has neither of the two shapes. -/
  | badShape (lhs : String) (p : Phrase)
deriving DecidableEq

/-- The text of a violation. -/
def Violation.message : Violation → String
  | startOnRightSide lhs => "Start symbol appears in a production of `" ++ lhs ++ "`"
  | nullProduction lhs => "`" ++ lhs ++ "` has an ε production"
  | unitProduction lhs target => "Unit production `" ++ lhs ++ " -> " ++ target ++ "`"
  | unreachable name => "`" ++ name ++ "` is not reachable from the start symbol"
  | badShape lhs p =>
      "`" ++ lhs ++ " -> " ++ p.format ++ "` is neither a terminal nor two nonterminals"

/-- The violation of one alternative, if any. That the start symbol occurs is
reported before anything about the shape. -/
def Phrase.violation? (start lhs : String) (p : Phrase) : Option Violation :=
  if p.mentions start then some (.startOnRightSide lhs)
  else
    match p with
    | [] => some (.nullProduction lhs)
    | [.terminal _] => none
    | [.nonterminal target] => some (.unitProduction lhs target)
    | [.nonterminal _, .nonterminal _] => none
    | p => some (.badShape lhs p)

namespace Grammar

/-- The declared nonterminals that the start symbol does not reach. -/
def unreachable (g : Grammar) : NameSet :=
  let reachable := g.reachable
  g.nonterminals.filter fun name => !decide (name ∈ reachable)

/-- All violations: those of alternatives in the order of the rules, and then
the unreachable nonterminals in ascending order. -/
def violations (g : Grammar) : List Violation :=
  g.rules.productions.filterMap (fun e => e.2.violation? g.start e.1)
    ++ g.unreachable.toList.map .unreachable

end Grammar

end Chomsky
