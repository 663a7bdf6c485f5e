import Chomsky.Grammar.Samples
import Chomsky.Proofs.Normal.InPlace
import Chomsky.Proofs.Normal.IsolatedStart

/-!
# Phases that fail

A phase fails when it refuses a unit cycle or when the names run out. The names can run out
anywhere, in the middle of an alternative, when some names have been drawn for the alternatives
before it. The grammar is as it was then. The pool is not: what was drawn stays in use.

Nothing is asked of the grammar or of the pool. A grammar may use symbols that it does not
declare, and a pool may hand out names that the grammar uses.

## What this module delivers

- `Phase.pool_apply` and `Phase.fresh_eq_none_of_apply`: what a phase takes from the pool, and
  that it is exhausted when a phase runs out of names.
- `Workbench.Later`, all that can be done with a workbench, and `Workbench.Later.eq_pool`: an
  exhausted pool stays as it is.
- `Phase.failure_inPlace`: what a phase that fails leaves behind.
-/

set_option autoImplicit false

namespace Chomsky

variable {g : Grammar} {pool pool' : NamePool} {cause : NormalizationError}

/-! ## What a phase takes from the pool -/

namespace Grammar

theorem pool_isolateStart (g : Grammar) (pool : NamePool) :
    ∃ count, (g.isolateStart pool).2 = pool.drawn count := by
  rcases Nat.lt_or_ge pool.free.length g.startDemand with hlt | hle
  · exact ⟨0, by rw [isolateStart_eq_error hlt, NamePool.drawn_zero]⟩
  · exact ⟨g.startDemand, by rw [isolateStart_eq_ok hle]⟩

theorem fresh_eq_none_of_isolateStart (h : g.isolateStart pool = (.error cause, pool')) :
    cause = .namesExhausted pool.scheme.capacity ∧ pool'.fresh = none := by
  rcases Nat.lt_or_ge pool.free.length g.startDemand with hlt | hle
  · have hone : g.startDemand ≤ 1 := by
      unfold startDemand
      split <;> decide
    have hfree : pool.free = [] := List.length_eq_zero_iff.1 (by omega)
    rw [isolateStart_eq_error hlt] at h
    cases h
    exact ⟨rfl, NamePool.fresh_of_free_nil hfree⟩
  · rw [isolateStart_eq_ok hle] at h
    cases h

variable {κ : Type} [DecidableEq κ] {f : Phrase → Inquiry κ Phrase} {alternative : κ → Phrase}

theorem pool_namedBy (g : Grammar) (f : Phrase → Inquiry κ Phrase) (alternative : κ → Phrase)
    (pool : NamePool) : ∃ count, (g.namedBy f alternative pool).2 = pool.drawn count := by
  obtain ⟨count, hcount⟩ := (g.rules.replacing f).pool_run (.ofPool pool)
  refine ⟨count, ?_⟩
  rw [namedBy]
  cases ((g.rules.replacing f).run (.ofPool pool)).1 <;> exact hcount

theorem fresh_eq_none_of_namedBy (h : g.namedBy f alternative pool = (.error cause, pool')) :
    cause = .namesExhausted pool.scheme.capacity ∧ pool'.fresh = none := by
  rw [namedBy] at h
  cases hresult : ((g.rules.replacing f).run (.ofPool pool)).1 with
  | some rules =>
    rw [hresult] at h
    cases h
  | none =>
    rw [hresult] at h
    cases h
    exact ⟨rfl, Inquiry.fresh_eq_none_of_run hresult⟩

end Grammar

namespace Phase

/-- Whether it fails or not, a phase draws the next few names. -/
theorem pool_apply (phase : Phase) (g : Grammar) (pool : NamePool) :
    ∃ count, (phase.apply g pool).2 = pool.drawn count := by
  cases phase with
  | isolateStart => exact g.pool_isolateStart pool
  | removeNull => exact ⟨0, pool.drawn_zero.symm⟩
  | removeUnits policy => exact ⟨0, pool.drawn_zero.symm⟩
  | prune => exact ⟨0, pool.drawn_zero.symm⟩
  | isolateTerminals =>
    rw [apply, Grammar.isolateTerminals_eq_namedBy]
    exact g.pool_namedBy _ _ pool
  | binarize =>
    rw [apply, Grammar.binarize_eq_namedBy]
    exact g.pool_namedBy _ _ pool

/-- A phase that runs out of names leaves a pool that is exhausted. -/
theorem fresh_eq_none_of_apply {phase : Phase} {capacity : Nat}
    (h : phase.apply g pool = (.error (.namesExhausted capacity), pool')) :
    capacity = pool.scheme.capacity ∧ pool'.fresh = none := by
  rw [← NormalizationError.namesExhausted.injEq]
  cases phase with
  | isolateStart => exact Grammar.fresh_eq_none_of_isolateStart h
  | removeNull => cases h
  | prune => cases h
  | removeUnits policy =>
    -- the only cause is a cycle
    rw [apply] at h
    unfold Grammar.removeUnits at h
    split at h <;> cases h
  | isolateTerminals =>
    rw [apply, Grammar.isolateTerminals_eq_namedBy] at h
    exact Grammar.fresh_eq_none_of_namedBy h
  | binarize =>
    rw [apply, Grammar.binarize_eq_namedBy] at h
    exact Grammar.fresh_eq_none_of_namedBy h

end Phase

/-! ## What can be done with a workbench -/

namespace Workbench

/-- All that a workbench can become: phases are run, names are drawn and the grammar is
exchanged, any number of times and in any order. -/
inductive Later (w : Workbench) : Workbench → Prop where
  /-- Nothing is done. -/
  | now : Later w w
  /-- A phase is run, and may fail. -/
  | run {v : Workbench} (phase : Phase) : Later w v → Later w (v.run phase).2
  /-- A name is drawn, or none is left. -/
  | drawName {v : Workbench} : Later w v → Later w v.drawName.2
  /-- The grammar is exchanged. -/
  | withGrammar {v : Workbench} (g : Grammar) : Later w v → Later w (v.withGrammar g)

variable {w v : Workbench}

theorem run_of_ok {phase : Phase} (h : phase.apply w.grammar w.pool = (.ok g, pool)) :
    w.run phase = (none, ⟨g, pool⟩) := by
  rw [run, h]

theorem run_of_error {phase : Phase} (h : phase.apply w.grammar w.pool = (.error cause, pool)) :
    w.run phase = (some cause, ⟨w.grammar, pool⟩) := by
  rw [run, h]

theorem pool_run (w : Workbench) (phase : Phase) :
    (w.run phase).2.pool = (phase.apply w.grammar w.pool).2 := by
  rw [run]
  cases phase.apply w.grammar w.pool with
  | mk result pool => cases result <;> rfl

theorem drawName_of_fresh_eq_none (h : w.pool.fresh = none) :
    w.drawName = (.error (.namesExhausted w.pool.scheme.capacity), w) := by
  rw [drawName, NamePool.draw, h]

/-- Once the pool is exhausted, it stays as it is. -/
theorem Later.eq_pool (hv : w.Later v) (h : w.pool.fresh = none) : v.pool = w.pool := by
  induction hv with
  | now => rfl
  | run phase _ ih =>
    obtain ⟨count, hcount⟩ := phase.pool_apply _ _
    rw [pool_run, hcount, ih, NamePool.drawn_of_free_nil (NamePool.free_eq_nil_of_fresh h)]
  | drawName _ ih => rw [drawName_of_fresh_eq_none (ih ▸ h), ih]
  | withGrammar g _ ih => exact ih

end Workbench

/-! ## What a failure leaves behind -/

/-- A phase that fails in place leaves the grammar as it was, whatever it had done before. The
names it had drawn come behind those of before; they are pairwise different and were not in use.
If it ran out of names, then all names are in use, and whatever is done next, every later draw
fails in the same way. -/
theorem Phase.failure_inPlace {phase : Phase} {w w' : Workbench} {cause : NormalizationError}
    (h : phase.inPlace.run.run w = (.error cause, w')) :
    w.run phase = (some cause, w') ∧
      w'.grammar = w.grammar ∧
      w'.pool.scheme = w.pool.scheme ∧
      w'.pool.reserved = w.pool.reserved ∧
      (∃ drawn, w'.pool.allocated = w.pool.allocated ++ drawn ∧ drawn.Nodup ∧
        ∀ name ∈ drawn, name ∈ w.pool.scheme.names ∧ w.pool.inUse name = false) ∧
      ∀ capacity, cause = .namesExhausted capacity →
        capacity = w.pool.scheme.capacity ∧
          (∀ name ∈ w.pool.scheme.names, w'.pool.inUse name = true) ∧
          ∀ v, w'.Later v → v.drawName = (.error cause, v) := by
  rw [run_inPlace] at h
  cases happly : phase.apply w.grammar w.pool with
  | mk result pool =>
    cases result with
    | ok g =>
      rw [Workbench.run_of_ok happly] at h
      cases h
    | error failure =>
      have hrun := Workbench.run_of_error happly
      rw [hrun] at h
      cases h
      obtain ⟨count, hcount⟩ := phase.pool_apply w.grammar w.pool
      rw [happly] at hcount
      obtain rfl : pool = w.pool.drawn count := hcount
      refine ⟨hrun, rfl, rfl, rfl, ⟨w.pool.free.take count, rfl,
        w.pool.nodup_free.sublist (List.take_sublist _ _),
        fun name hname => NamePool.mem_free.1 (List.mem_of_mem_take hname)⟩, ?_⟩
      rintro capacity rfl
      obtain ⟨hcapacity, hfresh⟩ := Phase.fresh_eq_none_of_apply happly
      refine ⟨hcapacity, NamePool.fresh_eq_none.1 hfresh, fun v hv => ?_⟩
      have hpool : v.pool = w.pool.drawn count := hv.eq_pool hfresh
      rw [Workbench.drawName_of_fresh_eq_none (hpool ▸ hfresh), hpool, hcapacity]
      rfl

/-- The alternative `aABcd` is folded from its end, and only two of its three pairs can be
named. The grammar declares nothing, and the names are those of its own nonterminals. -/
theorem Phase.failure_inPlace_undeclared :
    let w : Workbench :=
      ⟨⟨∅, ∅, .ofList [("S", [[.terminal "a", .nonterminal "A", .nonterminal "B", .terminal "c",
        .terminal "d"]])], "S", false⟩, .ofReserved ⟨"AB".toList, 0⟩ ∅⟩
    let w' : Workbench := { w with pool := ⟨⟨"AB".toList, 0⟩, ∅, ["A", "B"]⟩ }
    binarize.inPlace.run.run w = (.error (.namesExhausted 2), w') ∧
      ¬ w.grammar.WellFormed ∧
      w'.grammar = w.grammar ∧
      ∀ phase, (w'.run phase).2.drawName = (.error (.namesExhausted 2), (w'.run phase).2) := by
  intro w w'
  have hrun : binarize.inPlace.run.run w = (.error (.namesExhausted 2), w') := rfl
  obtain ⟨-, hgrammar, -, -, -, hexhausted⟩ := failure_inPlace hrun
  obtain ⟨-, -, hlater⟩ := hexhausted 2 rfl
  exact ⟨hrun, by decide, hgrammar, fun phase => hlater _ (.run phase .now)⟩

end Chomsky
