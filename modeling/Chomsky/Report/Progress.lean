import Chomsky.Normal.Pipeline
import Chomsky.Normal.Violation
import Chomsky.Report.Record
import Chomsky.Text.Quoted

/-!
# What the phases report

The records of each phase and of a whole normalization, in the order of the
work they report. A phase that fails has reported what it did until then, and
so has a normalization.

## What this module delivers

- `Phase.report`, the records of one phase.
- `normalizationReport`, the records of a normalization.
-/

set_option autoImplicit false

namespace Chomsky

/-- The record of a fresh name. -/
def freshNameRecord (name : String) : Record :=
  ⟨.trace, .freshNames, "allocated fresh nonterminal " ++ name⟩

/-- The record of a draw from a pool; a draw that fails reports nothing. -/
def NamePool.freshReport (pool : NamePool) : List Record :=
  match pool.fresh with
  | some (name, _) => [freshNameRecord name]
  | none => []

/-- The records of the names that a table has learned: each name is drawn and
then given to its key. -/
def NameTable.report {κ : Type} (table : NameTable κ) (topic : Topic) (shown : κ → String) :
    List Record :=
  table.entries.flatMap fun e =>
    [freshNameRecord e.2, ⟨.debug, topic, e.2 ++ " -> " ++ shown e.1⟩]

namespace Grammar

/-- The records of isolating the start symbol. -/
def isolateStartReport (g : Grammar) (pool : NamePool) : List Record :=
  if g.startOccurs then
    match pool.fresh with
    | some (name, _) =>
        [freshNameRecord name,
         ⟨.debug, .startSymbol, "isolating start symbol " ++ g.start ++ " behind " ++ name⟩]
    | none => []
  else [⟨.debug, .startSymbol, "start symbol " ++ g.start ++ " is already isolated"⟩]

/-- The records of removing empty alternatives. -/
def removeNullReport (g : Grammar) : List Record :=
  let nullable := g.rules.nullable
  let ofRule (e : String × List Phrase) : Record :=
    ⟨.trace, .nullRemoval,
      e.1 ++ ": " ++ Nat.repr e.2.length ++ " alternatives became "
        ++ Nat.repr (alternativesWithoutNull nullable e.2).length⟩
  [⟨.debug, .nullRemoval, "nullable nonterminals: " ++ quotedSet nullable.toList⟩]
    ++ (if g.start ∈ nullable then
          [⟨.debug, .nullRemoval, "start symbol " ++ g.start ++ " derives the empty string"⟩]
        else [])
    ++ g.rules.entries.map ofRule

end Grammar

/-! ## Splicing -/

/-- The record of one alternative in a pass: a unit alternative is spliced, or
dropped when its target was absorbed before. -/
def Splicing.takeReport (lhs : String) (s : Splicing) (p : Phrase) : List Record :=
  match p.unitTarget? with
  | none => []
  | some target =>
      if target ∈ s.absorbed then
        [⟨.trace, .unitRemoval, "dropping " ++ lhs ++ " -> " ++ target ++ ", already spliced"⟩]
      else [⟨.trace, .unitRemoval, "splicing " ++ target ++ " into " ++ lhs⟩]

/-- The records of alternatives taken in turn. -/
def Splicing.takesReport (lookup : String → List Phrase) (lhs : String) :
    Splicing → List Phrase → List Record
  | _, [] => []
  | s, p :: rest => s.takeReport lhs p ++ takesReport lookup lhs (s.take lookup p) rest

/-- The records of one pass over all left sides. -/
def splicePassReport (m : NameMap Splicing) : List Record :=
  m.entries.flatMap fun e =>
    Splicing.takesReport (splicedAlternatives m) e.1 ⟨[], e.2.absorbed⟩ e.2.alternatives

/-- The records of a number of passes. -/
def splicePassesReport : (passes : Nat) → NameMap Splicing → List Record
  | 0, _ => []
  | passes + 1, m => splicePassReport m ++ splicePassesReport passes (splicePass m)

namespace Grammar

/-- The records of removing unit alternatives. -/
def removeUnitsReport (g : Grammar) (policy : CyclePolicy) : List Record :=
  let passes := (spliceAll g.rules).2
  let resolved : List Record :=
    splicePassesReport passes g.rules.toSplice
      ++ [⟨.debug, .unitRemoval,
            "unit productions resolved after " ++ Nat.repr passes ++ " passes"⟩]
  match policy, g.rules.unitCycle? with
  | .refuse, some _ => []
  | .collapse, some cycle =>
      ⟨.debug, .unitRemoval, "collapsing unit cycle " ++ " -> ".intercalate cycle⟩ :: resolved
  | _, none => resolved

/-- The record of pruning. -/
def pruneReport (g : Grammar) : List Record :=
  [⟨.debug, .reachability,
    "pruned " ++ Nat.repr g.unreachable.size ++ " unreachable nonterminals"⟩]

/-- The records of isolating terminals. -/
def isolateTerminalsReport (g : Grammar) (pool : NamePool) : List Record :=
  (g.rules.terminalTable pool).report .terminals id

/-- The records of splitting long alternatives. -/
def binarizeReport (g : Grammar) (pool : NamePool) : List Record :=
  (g.rules.pairTable pool).report .binarization fun pair => Phrase.format [pair.1, pair.2]

end Grammar

/-- The records of a phase. -/
def Phase.report (phase : Phase) (g : Grammar) (pool : NamePool) : List Record :=
  match phase with
  | isolateStart => g.isolateStartReport pool
  | removeNull => g.removeNullReport
  | removeUnits policy => g.removeUnitsReport policy
  | prune => g.pruneReport
  | isolateTerminals => g.isolateTerminalsReport pool
  | binarize => g.binarizeReport pool

/-! ## Normalization -/

/-- The last record of a normalization. -/
def normalizedRecord (w : Workbench) : Record :=
  ⟨.info, .normalization,
    "normalized into " ++ Nat.repr w.grammar.rules.productionCount ++ " productions using "
      ++ Nat.repr w.pool.allocated.length ++ " fresh nonterminals"⟩

/-- The record of how many alternatives are left after a removal. -/
def removalRecord (g : Grammar) (removed : String) : Record :=
  ⟨.debug, .normalization,
    Nat.repr g.rules.productionCount ++ " productions after " ++ removed ++ " removal"⟩

/-- The records from the pruned grammar on. -/
def namingReport (g : Grammar) (pool : NamePool) : List Record :=
  g.isolateTerminalsReport pool ++
    match g.isolateTerminals pool with
    | (.error _, _) => []
    | (.ok g, pool) =>
      g.binarizeReport pool ++
        match g.binarize pool with
        | (.error _, _) => []
        | (.ok g, pool) => [normalizedRecord ⟨g, pool⟩]

/-- The records from the grammar with an isolated start symbol on. -/
def removalsReport (settings : Settings) (g : Grammar) (pool : NamePool) : List Record :=
  let nullFree := g.removeNull
  g.removeNullReport
    ++ [removalRecord nullFree "null"]
    ++ nullFree.removeUnitsReport settings.unitCycles
    ++ match nullFree.removeUnits settings.unitCycles with
      | .error _ => []
      | .ok g => removalRecord g "unit" :: g.pruneReport ++ namingReport g.prune pool

/-- The records of a normalization. A grammar that does not hold together is
refused before anything is reported. -/
def normalizationReport (settings : Settings) (g : Grammar) : List Record :=
  if g.malformations = [] then
    let pool := NamePool.ofReserved settings.scheme g.declared
    let begun : Record :=
      ⟨.info, .normalization,
        "normalizing grammar with " ++ Nat.repr g.rules.productionCount ++ " productions"⟩
    begun :: g.isolateStartReport pool ++
      match g.isolateStart pool with
      | (.error _, _) => []
      | (.ok g, pool) => removalsReport settings g pool
  else []

end Chomsky
