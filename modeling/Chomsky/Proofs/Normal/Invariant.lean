import Chomsky.Grammar.Samples
import Chomsky.Normal.Phase
import Chomsky.Proofs.Normal.Binary
import Chomsky.Proofs.Normal.IsolatedTerminals
import Chomsky.Proofs.Normal.NullFree
import Chomsky.Proofs.Normal.Pruned
import Chomsky.Proofs.Normal.UnitFree

/-!
# What every sequence of phases keeps

The phases can be run in any order, again and again, and a phase that fails leaves
behind the names it had drawn. Through all of this the grammar holds together, its
terminals stay, and the pool guards it: what is declared is in use. So a name that is
drawn is one that the grammar does not know, and its rule comes beside the rules that
are there.

The pool and the grammar have to be looked at together. A pruned name is declared no
longer, but it stays in use, and a name drawn by a phase that failed is in use without
being declared.

## What this module delivers

- `PhaseOutcome` and `phaseOutcome_apply`: all that a phase can do.
- `Workbench.Sound`, the invariant, with `Workbench.Sound.run` for one phase and
  `Workbench.Sound.runAll` for any number of them.
- `Workbench.runAll_keeps`: the invariant after any phases, and what the next one
  draws.
-/

set_option autoImplicit false

namespace Chomsky

variable {g : Grammar} {pool : NamePool}

/-- The names handed out stay pairwise different. -/
theorem NamePool.nodup_allocated_drawn (h : pool.allocated.Nodup) (count : Nat) :
    (pool.drawn count).allocated.Nodup := by
  rw [NamePool.drawn_allocated]
  apply List.nodup_append.2 ⟨h, pool.nodup_free.sublist (List.take_sublist _ _), ?_⟩
  rintro old hold new hnew rfl
  -- what was handed out is in use, so it is not free
  exact NamePool.notMem_free_of_inUse (NamePool.inUse_iff.2 (Or.inr hold))
    (List.mem_of_mem_take hnew)

/-! ## One phase -/

/-- What a phase that succeeds makes of a grammar, after it has drawn a number of
names. -/
structure Phase.Keeps (phase : Phase) (g : Grammar) (pool : NamePool) (count : Nat)
    (g' : Grammar) : Prop where
  /-- The grammar still holds together. -/
  selfContained : g'.SelfContained
  /-- The terminals are those of before. -/
  terminals_eq : g'.terminals = g.terminals
  /-- The pool that is left guards the new grammar. -/
  guards : (pool.drawn count).Guards g'
  /-- Unless rules are pruned, those of before stay and each name drawn has one. -/
  mem_keys : phase ≠ .prune → ∀ lhs,
    lhs ∈ g'.rules.keys ↔ lhs ∈ g.rules.keys ∨ lhs ∈ pool.free.take count

/-- The ways in which a phase can end. -/
inductive PhaseOutcome (phase : Phase) (g : Grammar) (pool : NamePool) :
    Except NormalizationError Grammar × NamePool → Prop where
  /-- The phase fails; the names it has drawn are in use from now on. -/
  | failed (cause : NormalizationError) (count : Nat) :
      PhaseOutcome phase g pool (.error cause, pool.drawn count)
  /-- The phase makes a new grammar with the names it has drawn. -/
  | done {g' : Grammar} (count : Nat) : phase.Keeps g pool count g' →
      PhaseOutcome phase g pool (.ok g', pool.drawn count)

/-- A phase that fails before it draws a name. -/
theorem PhaseOutcome.failed_at_once (phase : Phase) (cause : NormalizationError) :
    PhaseOutcome phase g pool (.error cause, pool) := by
  have hfailed : PhaseOutcome phase g pool (.error cause, pool.drawn 0) := .failed cause 0
  rwa [NamePool.drawn_zero] at hfailed

/-- A phase that draws no name and, unless it is pruning, keeps all left sides. -/
theorem PhaseOutcome.of_drawn_zero {phase : Phase} {g' : Grammar} (hself : g'.SelfContained)
    (hterminals : g'.terminals = g.terminals) (hguards : pool.Guards g')
    (hkeys : phase ≠ .prune → ∀ lhs, lhs ∈ g'.rules.keys ↔ lhs ∈ g.rules.keys) :
    PhaseOutcome phase g pool (.ok g', pool) := by
  have hdone : PhaseOutcome phase g pool (.ok g', pool.drawn 0) := by
    apply PhaseOutcome.done
    refine ⟨hself, hterminals, by rwa [NamePool.drawn_zero], fun hphase lhs => ?_⟩
    rw [List.take_zero, or_iff_left List.not_mem_nil]
    exact hkeys hphase lhs
  rwa [NamePool.drawn_zero] at hdone

/-- A phase on a grammar that holds together and is guarded ends in one of these ways. -/
theorem phaseOutcome_apply (phase : Phase) (hg : g.SelfContained) (hpool : pool.Guards g) :
    PhaseOutcome phase g pool (phase.apply g pool) := by
  have hreserves := hpool.reserves hg
  cases phase with
  | isolateStart =>
    show PhaseOutcome _ g pool (g.isolateStart pool)
    rcases Nat.lt_or_ge pool.free.length g.startDemand with hlt | hle
    · rw [Grammar.isolateStart_eq_error hlt]
      exact .failed_at_once _ _
    · rw [Grammar.isolateStart_eq_ok hle]
      apply PhaseOutcome.done
      exact ⟨hg.withStartIsolated hpool hle, Grammar.terminals_withStartIsolated hle,
        Grammar.guards_withStartIsolated hpool hle,
        fun _ => Grammar.mem_keys_withStartIsolated hle⟩
  | removeNull =>
    apply PhaseOutcome.of_drawn_zero hg.removeNull (Grammar.removeNull_terminals g) hpool
    intro _ lhs
    rw [Grammar.keys_removeNull]
  | removeUnits policy =>
    show PhaseOutcome _ g pool (g.removeUnits policy, pool)
    cases hunits : g.removeUnits policy with
    | error cause => exact .failed_at_once _ cause
    | ok g' =>
      obtain rfl := Grammar.eq_splice_of_removeUnits hunits
      apply PhaseOutcome.of_drawn_zero hg.splice (Grammar.splice_terminals g) hpool
      intro _ lhs
      rw [Grammar.keys_splice]
  | prune =>
    -- what pruning leaves was there before
    have hguards : pool.Guards g.prune := fun name hname =>
      hpool name (hname.imp_left fun h => (Grammar.mem_nonterminals_prune.1 h).1)
    apply PhaseOutcome.of_drawn_zero hg.prune (Grammar.prune_terminals g) hguards
    exact fun hne => absurd rfl hne
  | isolateTerminals =>
    show PhaseOutcome _ g pool (g.isolateTerminals pool)
    rcases Nat.lt_or_ge pool.free.length g.terminalDemand with hlt | hle
    · rw [Grammar.isolateTerminals_eq_error hlt]
      exact .failed _ _
    · rw [Grammar.isolateTerminals_eq_ok hle]
      apply PhaseOutcome.done
      exact ⟨hg.terminalsIsolated hpool hle, Grammar.withNamed_terminals _ _ _ _,
        Grammar.guards_terminalsIsolated hpool, fun _ => g.mem_keys_terminalsIsolated pool⟩
  | binarize =>
    show PhaseOutcome _ g pool (g.binarize pool)
    rcases Nat.lt_or_ge pool.free.length g.pairDemand with hlt | hle
    · rw [Grammar.binarize_eq_error hreserves hlt]
      exact .failed _ _
    · rw [Grammar.binarize_eq_ok hreserves hle]
      apply PhaseOutcome.done
      exact ⟨hg.binarized hreserves, Grammar.withNamed_terminals _ _ _ _,
        Grammar.guards_binarized hreserves, fun _ => Grammar.mem_keys_binarized hreserves⟩

/-! ## The invariant -/

namespace Workbench

/-- What holds of a grammar and its pool at all times, given the terminals that the
grammar had at first. -/
structure Sound (terminals : NameSet) (w : Workbench) : Prop where
  /-- The grammar holds together. -/
  selfContained : w.grammar.SelfContained
  /-- Its terminals are those of the first grammar. -/
  terminals_eq : w.grammar.terminals = terminals
  /-- What it declares is in use. -/
  guards : w.pool.Guards w.grammar
  /-- No name was handed out twice. -/
  nodup : w.pool.allocated.Nodup

variable {w : Workbench} {terminals : NameSet}

/-- Every phase keeps the invariant, whether it succeeds or not. -/
theorem Sound.run (h : w.Sound terminals) (phase : Phase) : (w.run phase).2.Sound terminals := by
  have houtcome := phaseOutcome_apply phase h.selfContained h.guards
  unfold Workbench.run
  generalize phase.apply w.grammar w.pool = answer at houtcome
  cases houtcome with
  | failed cause count =>
    -- the grammar stays, and the names drawn are in use in addition
    refine ⟨h.selfContained, h.terminals_eq, fun name hname => ?_,
      NamePool.nodup_allocated_drawn h.nodup count⟩
    exact NamePool.inUse_drawn.2 (Or.inl (h.guards name hname))
  | done count hkeeps =>
    exact ⟨hkeeps.selfContained, hkeeps.terminals_eq.trans h.terminals_eq, hkeeps.guards,
      NamePool.nodup_allocated_drawn h.nodup count⟩

/-- Any sequence of phases keeps the invariant. -/
theorem Sound.runAll (h : w.Sound terminals) (phases : List Phase) :
    (w.runAll phases).Sound terminals := by
  induction phases generalizing w with
  | nil => exact h
  | cons phase phases ih => exact ih (h.run phase)

/-- A phase hands out names that the grammar did not know. If it succeeds, and is not
the one that takes rules away, it has one rule more for each of them. -/
theorem Sound.exists_drawn (h : w.Sound terminals) (phase : Phase) :
    ∃ drawn, (w.run phase).2.pool.allocated = w.pool.allocated ++ drawn ∧
      (∀ name ∈ drawn, ¬ w.grammar.Knows name) ∧
      ((w.run phase).1 = none → phase ≠ .prune →
        (w.run phase).2.grammar.rules.size = w.grammar.rules.size + drawn.length) := by
  have houtcome := phaseOutcome_apply phase h.selfContained h.guards
  have hunknown : ∀ count, ∀ name ∈ w.pool.free.take count, ¬ w.grammar.Knows name :=
    fun count name hname =>
      (h.guards.reserves h.selfContained).not_knows (List.mem_of_mem_take hname)
  unfold Workbench.run
  generalize phase.apply w.grammar w.pool = answer at houtcome
  cases houtcome with
  | failed cause count =>
    refine ⟨w.pool.free.take count, NamePool.drawn_allocated _ _, hunknown count, fun hnone => ?_⟩
    exact absurd hnone (Option.some_ne_none cause)
  | @done g' count hkeeps =>
    refine ⟨w.pool.free.take count, NamePool.drawn_allocated _ _, hunknown count, ?_⟩
    intro _ hphase
    -- the left sides afterwards are those of before and, apart from them, the names drawn
    have hnodup : (w.grammar.rules.keys.toList ++ w.pool.free.take count).Nodup := by
      apply List.nodup_append.2
      refine ⟨NameSet.nodup_toList _, w.pool.nodup_free.sublist (List.take_sublist _ _), ?_⟩
      rintro lhs hlhs name hname rfl
      exact hunknown count lhs hname (Or.inr (Or.inr (Or.inl hlhs)))
    have hperm : g'.rules.keys.toList.Perm
        (w.grammar.rules.keys.toList ++ w.pool.free.take count) := by
      apply (List.perm_ext_iff_of_nodup (NameSet.nodup_toList _) hnodup).2
      intro lhs
      rw [List.mem_append]
      exact hkeeps.mem_keys hphase lhs
    show g'.rules.size = _
    rw [NameMap.size_eq_length_keys, NameMap.size_eq_length_keys, hperm.length_eq, List.length_append]

/-- From a grammar that holds together, and a pool that has handed out nothing and has
all declared names in use, any phases in any order lead to such a grammar again, with
the terminals of the first. All names handed out are different, and those handed out
by the next phase are unknown to the grammar, so no rule gives way to a new one. -/
theorem runAll_keeps (hwell : w.grammar.WellFormed) (hnew : w.pool.allocated = [])
    (hguards : w.pool.Guards w.grammar) (phases : List Phase) :
    (w.runAll phases).grammar.WellFormed ∧
      (w.runAll phases).grammar.terminals = w.grammar.terminals ∧
      (w.runAll phases).pool.Guards (w.runAll phases).grammar ∧
      (w.runAll phases).pool.allocated.Nodup ∧
      ∀ phase, ∃ drawn,
        ((w.runAll phases).run phase).2.pool.allocated
          = (w.runAll phases).pool.allocated ++ drawn ∧
        (∀ name ∈ drawn, ¬ (w.runAll phases).grammar.Knows name) ∧
        (((w.runAll phases).run phase).1 = none → phase ≠ .prune →
          ((w.runAll phases).run phase).2.grammar.rules.size
            = (w.runAll phases).grammar.rules.size + drawn.length) := by
  have hfirst : w.Sound w.grammar.terminals :=
    ⟨Grammar.wellFormed_iff.1 hwell, rfl, hguards, by rw [hnew]; exact List.nodup_nil⟩
  have hsound := hfirst.runAll phases
  exact ⟨Grammar.wellFormed_iff.2 hsound.selfContained, hsound.terminals_eq, hsound.guards,
    hsound.nodup, hsound.exists_drawn⟩

/-- Three names are too few for the four terminals of the sample of expressions. They
are in use all the same, and what comes after the failure keeps to the invariant. -/
theorem runAll_keeps_arithmetic :
    ∃ w : Workbench, w = .ofGrammar ⟨"ABC".toList, 0⟩ Sample.arithmetic.grammar ∧
      (w.run .isolateTerminals).1 = some (.namesExhausted 3) ∧
      (w.runAll [.isolateTerminals, .prune, .binarize]).grammar.WellFormed ∧
      (w.runAll [.isolateTerminals, .prune, .binarize]).pool.allocated = ["A", "B", "C"] ∧
      (w.runAll [.isolateTerminals, .prune, .binarize]).pool.allocated.Nodup := by
  refine ⟨_, rfl, by decide, ?_⟩
  obtain ⟨hwell, -, -, hnodup, -⟩ :=
    runAll_keeps (w := .ofGrammar ⟨"ABC".toList, 0⟩ Sample.arithmetic.grammar) (by decide) rfl
      (NamePool.guards_ofReserved _ _) [.isolateTerminals, .prune, .binarize]
  exact ⟨hwell, by decide, hnodup⟩

end Workbench

end Chomsky
