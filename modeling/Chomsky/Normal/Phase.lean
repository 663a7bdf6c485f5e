import Chomsky.Normal.Binary
import Chomsky.Normal.IsolatedStart
import Chomsky.Normal.IsolatedTerminals
import Chomsky.Normal.NullFree
import Chomsky.Normal.Pruned
import Chomsky.Normal.UnitFree

/-!
# The six phases as steps on a workbench

A workbench holds a grammar and the pool its fresh names come from. Any of the
six phases can be run on it at any time; one that fails leaves the grammar as
it was and keeps the pool, with the names it had drawn.
-/

set_option autoImplicit false

namespace Chomsky

/-- The steps that lead to normal form. -/
inductive Phase where
  | isolateStart
  | removeNull
  | removeUnits (policy : CyclePolicy)
  | prune
  | isolateTerminals
  | binarize
deriving DecidableEq

/-- A grammar and the pool of names for its fresh nonterminals. -/
structure Workbench where
  /-- The grammar as it is after the phases so far. -/
  grammar : Grammar
  /-- The pool of fresh names. -/
  pool : NamePool
deriving DecidableEq

namespace Phase

/-- What a phase makes of a grammar and a pool. -/
def apply (phase : Phase) (g : Grammar) (pool : NamePool) :
    Except NormalizationError Grammar × NamePool :=
  match phase with
  | isolateStart => g.isolateStart pool
  | removeNull => (.ok g.removeNull, pool)
  | removeUnits policy => (g.removeUnits policy, pool)
  | prune => (.ok g.prune, pool)
  | isolateTerminals => g.isolateTerminals pool
  | binarize => g.binarize pool

end Phase

namespace Workbench

/-- The workbench of a grammar whose declared names are all in use. -/
def ofGrammar (scheme : NameScheme) (g : Grammar) : Workbench :=
  ⟨g, NamePool.ofReserved scheme g.declared⟩

/-- Runs a phase. The cause is returned when it fails. -/
def run (w : Workbench) (phase : Phase) : Option NormalizationError × Workbench :=
  match phase.apply w.grammar w.pool with
  | (.ok g, pool) => (none, ⟨g, pool⟩)
  | (.error cause, pool) => (some cause, ⟨w.grammar, pool⟩)

/-- Runs phases one after the other, going on after failures. -/
def runAll (w : Workbench) (phases : List Phase) : Workbench :=
  phases.foldl (fun w phase => (w.run phase).2) w

/-- Draws a fresh name. -/
def drawName (w : Workbench) : Except NormalizationError String × Workbench :=
  (w.pool.draw.1, { w with pool := w.pool.draw.2 })

/-- The workbench with another grammar and the same pool. -/
def withGrammar (w : Workbench) (g : Grammar) : Workbench := { w with grammar := g }

end Workbench

end Chomsky
