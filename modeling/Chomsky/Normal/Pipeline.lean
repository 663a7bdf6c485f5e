import Chomsky.Normal.Phase

/-!
# Normalization

A grammar that holds together is brought into Chomsky normal form by the six
phases, each run once: isolate the start symbol, remove empty alternatives,
remove unit alternatives, prune, isolate terminals, split long alternatives.
Removing empty alternatives can make unit alternatives, and removing these can
strand nonterminals, so each phase comes after those whose leftovers it clears.

## What this module delivers

- `Settings`, the scheme of fresh names and the policy on unit cycles.
- `normalize`, with all faults of a malformed grammar or the one located
  failure of a phase.
-/

set_option autoImplicit false

namespace Chomsky

/-- The choices that normalization leaves open. -/
structure Settings where
  /-- Where the names of fresh nonterminals come from. -/
  scheme : NameScheme
  /-- What to do about cycles of unit alternatives. -/
  unitCycles : CyclePolicy
deriving DecidableEq

/-- Capital letters with suffixes up to 9, and cycles collapsed. -/
def Settings.standard : Settings := ⟨NameScheme.standard, .collapse⟩

/-- The part of normalization after the start symbol is isolated: empty
alternatives, unit alternatives and unreachable nonterminals are removed. -/
def Grammar.reduced (g : Grammar) (policy : CyclePolicy) : Except NormalizationError Grammar :=
  (g.removeNull.removeUnits policy).map Grammar.prune

/-- Brings a grammar into Chomsky normal form. The result comes with the pool,
which has handed out the fresh names of this run. -/
def normalize (settings : Settings) (g : Grammar) :
    Except (List (Located NormalizationError)) Workbench :=
  if g.malformations = [] then
    match g.isolateStart (NamePool.ofReserved settings.scheme g.declared) with
    | (.error cause, _) => .error [⟨.startSymbol, cause⟩]
    | (.ok g, pool) =>
      match g.reduced settings.unitCycles with
      | .error cause => .error [⟨.unitProductions, cause⟩]
      | .ok g =>
        match g.isolateTerminals pool with
        | (.error cause, _) => .error [⟨.terminals, cause⟩]
        | (.ok g, pool) =>
          match g.binarize pool with
          | (.error cause, _) => .error [⟨.binarization, cause⟩]
          | (.ok g, pool) => .ok ⟨g, pool⟩
  else .error (g.malformations.map fun fault => ⟨.validation, .malformed fault⟩)

/-- The workbench with its grammar normalized. Normalization draws from a pool
of its own, so the pool of the workbench stays as it is. -/
def Workbench.normalize (w : Workbench) (settings : Settings) :
    Except (List (Located NormalizationError)) Workbench :=
  (Chomsky.normalize settings w.grammar).map fun result => w.withGrammar result.grammar

end Chomsky
