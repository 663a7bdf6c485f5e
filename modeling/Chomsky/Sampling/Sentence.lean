import Chomsky.Analysis.Height
import Chomsky.Sampling.Choice

/-!
# Sampling sentences

A sentence is made from left to right by replacing nonterminals. Near the root
an alternative is chosen among those that can be finished; from a fixed depth
on, the first alternative of least height is taken without a choice, so every
branch ends.

## What this module delivers

- `SamplingError`, the two causes for which there is no sentence.
- `finishing` and `quickest?`, the alternatives that are eligible.
- `Rules.sample`, `Grammar.sampleFrom` and `Grammar.sampleMany`.
-/

set_option autoImplicit false

namespace Chomsky

/-- The causes for which no sentence can be made from a nonterminal. -/
inductive SamplingError where
  /-- The name has no rule. -/
  | undefinedNonterminal (name : String)
  /-- No derivation from the name ends in terminals only. -/
  | nonTerminating (name : String)
deriving DecidableEq

/-- The text of a cause. -/
def SamplingError.message : SamplingError → String
  | undefinedNonterminal name => "No definition for nonterminal `" ++ name ++ "`"
  | nonTerminating name => "Nonterminal `" ++ name ++ "` never derives a sentence"

/-- The depth from which on the quickest alternative is taken. -/
def depthLimit : Nat := 8

/-- The alternatives that can be finished. -/
def finishing (heights : NameMap Nat) (alternatives : List Phrase) : List Phrase :=
  alternatives.filter fun p => (p.height? heights).isSome

/-- The first alternative of least height. -/
def quickest? (heights : NameMap Nat) (alternatives : List Phrase) : Option Phrase :=
  alternatives.find? fun p =>
    (p.height? heights).isSome && p.height? heights == Rules.leastHeight? heights alternatives

/-- The sentence of a phrase, given how to make one of a nonterminal. -/
def samplePhrase {σ : Type}
    (ofName : String → σ → Except SamplingError (List String) × σ) :
    Phrase → σ → Except SamplingError (List String) × σ
  | [], s => (.ok [], s)
  | .terminal t :: rest, s =>
      match samplePhrase ofName rest s with
      | (.ok w, s) => (.ok (t :: w), s)
      | (.error cause, s) => (.error cause, s)
  | .nonterminal name :: rest, s =>
      match ofName name s with
      | (.error cause, s) => (.error cause, s)
      | (.ok u, s) =>
        match samplePhrase ofName rest s with
        | (.ok w, s) => (.ok (u ++ w), s)
        | (.error cause, s) => (.error cause, s)

namespace Rules

/-- The alternative to go on with at a depth. -/
def pick {σ : Type} (chooser : Chooser σ) (heights : NameMap Nat) (depth : Nat)
    (alternatives : List Phrase) (s : σ) : Option Phrase × σ :=
  if depth < depthLimit then
    let eligible := finishing heights alternatives
    if h : 0 < eligible.length then
      let choice := chooser.choose eligible.length h s
      (some eligible[choice.1], choice.2)
    else (none, s)
  else (quickest? heights alternatives, s)

/-- Makes a sentence of a nonterminal at a depth, going down at most `levels`
levels. -/
def sample {σ : Type} (rules : Rules) (chooser : Chooser σ) (heights : NameMap Nat) :
    (levels depth : Nat) → (name : String) → σ → Except SamplingError (List String) × σ
  | 0, _, name, s => (.error (.nonTerminating name), s)
  | levels + 1, depth, name, s =>
      match rules.get? name with
      | none => (.error (.undefinedNonterminal name), s)
      | some alternatives =>
        match pick chooser heights depth alternatives s with
        | (none, s) => (.error (.nonTerminating name), s)
        | (some p, s) => samplePhrase (sample rules chooser heights levels (depth + 1)) p s

/-- The number of levels that a derivation can take: from the depth limit on
the heights decrease, and no height exceeds the number of rules. -/
def levelBound (rules : Rules) : Nat := depthLimit + rules.size

end Rules

namespace Grammar

/-- Makes a sentence of the given nonterminal. -/
def sampleFrom {σ : Type} (g : Grammar) (chooser : Chooser σ) (name : String) (s : σ) :
    Except SamplingError (List String) × σ :=
  g.rules.sample chooser g.rules.heights g.rules.levelBound 0 name s

/-- Makes a number of sentences of the given nonterminal, one after the other
from the same source of choices. -/
def sampleMany {σ : Type} (g : Grammar) (chooser : Chooser σ) (name : String) :
    (count : Nat) → σ → List (Except SamplingError (List String)) × σ
  | 0, s => ([], s)
  | count + 1, s =>
      let first := g.sampleFrom chooser name s
      let rest := g.sampleMany chooser name count first.2
      (first.1 :: rest.1, rest.2)

end Grammar

end Chomsky
