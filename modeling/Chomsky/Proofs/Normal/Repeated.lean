import Chomsky.Normal.Phase
import Chomsky.Proofs.Normal.FixedPoint
import Chomsky.Proofs.Normal.Invertible

/-!
# A phase run twice

Each phase leaves behind a grammar in which it has nothing to do, whatever the grammar was
before. The other phases need not have been run, and the grammar need not hold together. All
that is asked is that the names it knows are in use, so that a name drawn by the first run
does not occur where the second run would have to act on it.

## What this module delivers

- One lemma for each phase, from `Grammar.isolateStart_isolateStart` to
  `Grammar.binarize_binarize`.
- `Workbench.run_idempotent`: on a workbench the second run changes nothing at all.
-/

set_option autoImplicit false

namespace Chomsky

namespace Grammar

variable {g g' : Grammar} {pool pool' : NamePool}

/-- A new start symbol that the grammar did not know stands in no alternative, so it is not
put behind another one. -/
theorem isolateStart_isolateStart (hpool : pool.Reserves g)
    (h : g.isolateStart pool = (.ok g', pool')) : g'.isolateStart pool' = (.ok g', pool') := by
  apply isolateStart_eq_self
  rcases Nat.lt_or_ge pool.free.length g.startDemand with hlt | hle
  · simp [isolateStart_eq_error hlt] at h
  · simp only [isolateStart_eq_ok hle, Prod.mk.injEq, Except.ok.injEq] at h
    obtain ⟨rfl, -⟩ := h
    intro lhs p hp hmem
    rcases withStartIsolated_cases hle with ⟨hoccurs, -, heq⟩ | ⟨name, rest, hfree, hone, heq⟩
    · rw [heq] at hp hmem
      exact Bool.eq_false_iff.1 hoccurs (startOccurs_iff.2 ⟨lhs, p, hp, hmem⟩)
    · rw [heq] at hp hmem
      have hname : name ∈ pool.free := hfree ▸ List.mem_cons_self
      rcases mem_alternatives_behind.1 hp with ⟨-, rfl⟩ | ⟨-, hp⟩
      · -- the old start symbol occurs in an alternative, so its name was not free
        obtain ⟨lhs', q, hq, hstart⟩ : ∃ lhs, ∃ q ∈ g.rules.alternatives lhs,
            .nonterminal g.start ∈ q := by
          apply startOccurs_iff.1
          by_contra hnone
          rw [startDemand, if_neg hnone] at hone
          exact Nat.zero_ne_one hone
        obtain rfl : name = g.start := by simpa using hmem
        exact hpool.avoids hq _ hname hstart
      · exact hpool.avoids hp name hname hmem

theorem removeNull_removeNull (g : Grammar) : g.removeNull.removeNull = g.removeNull :=
  removeNull_eq_self g.nil_notMem_alternatives_removeNull g.nodup_alternatives_removeNull

/-- The second run may follow another policy, since no unit alternative is left. -/
theorem removeUnits_removeUnits {policy : CyclePolicy} (h : g.removeUnits policy = .ok g')
    (policy' : CyclePolicy) : g'.removeUnits policy' = .ok g' := by
  obtain rfl := eq_splice_of_removeUnits h
  exact removeUnits_eq_self policy' g.unit_notMem_alternatives_splice g.nodup_alternatives_splice

theorem prune_prune (g : Grammar) : g.prune.prune = g.prune := by
  apply prune_eq_self
  · intro name hname
    exact reaches_prune_iff.2 (mem_nonterminals_prune.1 hname).2
  · intro lhs hlhs
    exact reaches_prune_iff.2 (mem_keys_prune.1 hlhs).2

theorem isolateTerminals_isolateTerminals (hpool : pool.Reserves g)
    (h : g.isolateTerminals pool = (.ok g', pool')) :
    g'.isolateTerminals pool' = (.ok g', pool') := by
  obtain ⟨hle, rfl, -⟩ := eq_of_isolateTerminals h
  apply isolateTerminals_eq_self
  · intro lhs p hp hlen
    exact terminal_notMem_of_two_le hpool hle hp hlen
  · intro lhs
    exact nodup_alternatives_withNamed (newTo_terminalTable hpool.guards).nodup
      (Rules.nodup_alternatives_replaced _ _ lhs)

theorem binarize_binarize (hpool : pool.Reserves g) (h : g.binarize pool = (.ok g', pool')) :
    g'.binarize pool' = (.ok g', pool') := by
  obtain ⟨-, rfl, -⟩ := eq_of_binarize hpool h
  apply binarize_eq_self
  · intro lhs p hp
    exact length_le_two_of_mem_binarized hpool hp
  · intro lhs
    exact nodup_alternatives_withNamed (newTo_pairTable hpool).nodup
      (Rules.nodup_alternatives_replaced _ _ lhs)

end Grammar

/-! ## Any phase -/

/-- The same phase, with another policy where it has one. -/
def Phase.withPolicy (policy : CyclePolicy) : Phase → Phase
  | removeUnits _ => removeUnits policy
  | phase => phase

/-- What a phase makes of a grammar it makes of the result again, and draws no name. -/
theorem Phase.apply_apply {phase : Phase} {g g' : Grammar} {pool pool' : NamePool}
    (hpool : pool.Reserves g) (h : phase.apply g pool = (.ok g', pool')) (policy : CyclePolicy) :
    (phase.withPolicy policy).apply g' pool' = (.ok g', pool') := by
  cases phase with
  | isolateStart => exact Grammar.isolateStart_isolateStart hpool h
  | removeNull =>
    obtain ⟨rfl, rfl⟩ : g.removeNull = g' ∧ pool = pool' := by simpa [apply] using h
    show (Except.ok g.removeNull.removeNull, pool) = _
    rw [g.removeNull_removeNull]
  | removeUnits before =>
    obtain ⟨hunits, rfl⟩ : g.removeUnits before = .ok g' ∧ pool = pool' := by
      simpa [apply] using h
    show (g'.removeUnits policy, pool) = _
    rw [Grammar.removeUnits_removeUnits hunits policy]
  | prune =>
    obtain ⟨rfl, rfl⟩ : g.prune = g' ∧ pool = pool' := by simpa [apply] using h
    show (Except.ok g.prune.prune, pool) = _
    rw [g.prune_prune]
  | isolateTerminals => exact Grammar.isolateTerminals_isolateTerminals hpool h
  | binarize => exact Grammar.binarize_binarize hpool h

namespace Workbench

/-- A phase runs without failure exactly if it makes a grammar, which is then the one on the
workbench. -/
theorem run_eq_none_iff {w : Workbench} {phase : Phase} : (w.run phase).1 = none ↔
    ∃ g pool, phase.apply w.grammar w.pool = (.ok g, pool) ∧ w.run phase = (none, ⟨g, pool⟩) := by
  unfold run
  generalize phase.apply w.grammar w.pool = answer
  match answer with
  | (.ok g, pool) => simp
  | (.error cause, pool) => simp

/-- Each phase is idempotent. Let all names that the grammar knows be in use, and let the
phase succeed. Then the same phase, run again at once and under any policy, succeeds as well.
It leaves the whole grammar as it is, to the order of alternatives, and hands out no name. -/
theorem run_idempotent {w : Workbench} {phase : Phase} (hpool : w.pool.Reserves w.grammar)
    (h : (w.run phase).1 = none) (policy : CyclePolicy) :
    (w.run phase).2.run (phase.withPolicy policy) = (none, (w.run phase).2) := by
  obtain ⟨g', pool', happly, hrun⟩ := run_eq_none_iff.1 h
  rw [hrun, run, Phase.apply_apply hpool happly policy]

/-- The sample with a cycle of unit alternatives: collapsed at first, it is not refused by the
second run. -/
theorem run_idempotent_unitCycle :
    ∃ w : Workbench, w = .ofGrammar .standard Sample.unitCycle.grammar ∧
      (w.run (.removeUnits .collapse)).1 = none ∧
      (w.run (.removeUnits .refuse)).1 = some (.unitCycle ["A", "B"]) ∧
      (w.run (.removeUnits .collapse)).2.run (.removeUnits .refuse)
        = (none, (w.run (.removeUnits .collapse)).2) := by
  refine ⟨_, rfl, rfl, by decide, ?_⟩
  exact run_idempotent (NamePool.reserves_ofReserved _ (by decide)) rfl .refuse

end Workbench

end Chomsky
