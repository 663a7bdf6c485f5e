import Chomsky.Grammar.Samples
import Chomsky.Proofs.Normal.UnitFree

/-!
# The closure under unit alternatives

Removing units gives every name the alternatives of all names that its unit alternatives
lead to, and takes the unit alternatives away. The passes are made until one of them
finds no unit alternative; the bound on their number that the computation is given cuts
nothing off, so the loop without a bound ends, and ends with the same rules.

The policy on cycles decides only whether there is a result, never which.

## What this module delivers

- `Splices`, the loop of passes without a bound, and `Rules.splices_iff`: it ends exactly
  with what is computed.
- `Grammar.removeUnits_eq_ok_iff` and `Grammar.removeUnits_eq_error_iff`: when there is a
  result, and which one.
- `removeUnits_closure`: what the alternatives and the words are afterwards.
-/

set_option autoImplicit false

namespace Chomsky

open Relation (ReflTransGen)

/-! ## The loop of passes -/

/-- The passes from some work on, with no bound on their number: another one is made as
long as the last one has found a unit alternative. -/
inductive Splices : (before after : NameMap Splicing) → (passes : Nat) → Prop where
  /-- A pass that finds no unit alternative is the last. -/
  | last {m : NameMap Splicing} : hasUnits m = false → Splices m (splicePass m) 1
  /-- After any other pass there is one more. -/
  | again {m after : NameMap Splicing} {passes : Nat} : hasUnits m = true →
      Splices (splicePass m) after passes → Splices m after (passes + 1)

/-- There is one way for the loop to end. -/
theorem Splices.unique {m after after' : NameMap Splicing} {passes passes' : Nat}
    (h : Splices m after passes) (h' : Splices m after' passes') :
    after = after' ∧ passes = passes' := by
  induction h generalizing passes' with
  | last hnone =>
    cases h' with
    | last _ => exact ⟨rfl, rfl⟩
    | again hunits _ => exact absurd (hnone.symm.trans hunits) Bool.noConfusion
  | again hunits _ ih =>
    cases h' with
    | last hnone => exact absurd (hnone.symm.trans hunits) Bool.noConfusion
    | again _ hrest =>
      obtain ⟨rfl, rfl⟩ := ih hrest
      exact ⟨rfl, rfl⟩

/-- If no unit alternative is left after fewer passes than the bound, the bound is not
met. -/
theorem splices_splicePasses {m : NameMap Splicing} {bound passes : Nat}
    (hdone : UnitFree (afterPasses m passes)) (hlt : passes < bound) :
    Splices m (splicePasses bound m).1 (splicePasses bound m).2 := by
  induction bound generalizing m passes with
  | zero => exact absurd hlt (Nat.not_lt_zero passes)
  | succ bound ih =>
    rw [splicePasses]
    cases hunits : hasUnits m with
    | false => exact .last hunits
    | true =>
      cases passes with
      | zero =>
        have hnone : hasUnits m = false := hasUnits_eq_false_iff.2 hdone
        exact absurd (hunits.symm.trans hnone) Bool.noConfusion
      | succ passes =>
        rw [← afterPasses_splicePass] at hdone
        exact .again hunits (ih hdone (Nat.lt_of_succ_lt_succ hlt))

namespace Rules

/-- There are targets only if there are rules. -/
theorem length_allUnitTargets_le (r : Rules) :
    r.allUnitTargets.length ≤ r.size * r.allUnitTargets.length := by
  rcases Nat.eq_zero_or_pos r.allUnitTargets.length with hzero | hpos
  · rw [hzero]
    exact Nat.zero_le _
  · obtain ⟨target, htarget⟩ := List.exists_mem_of_length_pos hpos
    obtain ⟨name, hstep⟩ := mem_allUnitTargets.1 htarget
    have hname : name ∈ r.keys.toList := mem_keys_of_mem_alternatives hstep
    apply Nat.le_mul_of_pos_left
    rw [NameMap.size_eq_length_keys]
    exact List.length_pos_of_mem hname

/-- The loop ends, and it ends with the rules and after the passes that are computed. -/
theorem splices_iff (r : Rules) (after : NameMap Splicing) (passes : Nat) :
    Splices r.toSplice after passes ↔ spliceAll r = (after, passes) := by
  have hbound : r.allUnitTargets.length + 1 < r.size * r.allUnitTargets.length + 2 :=
    Nat.succ_lt_succ (Nat.lt_succ_of_le r.length_allUnitTargets_le)
  have hends := splices_splicePasses r.unitFree_afterPasses hbound
  constructor
  · intro h
    obtain ⟨rfl, rfl⟩ := hends.unique h
    rfl
  · intro h
    rw [← spliceAll, h] at hends
    exact hends

end Rules

/-! ## The result and the policy -/

namespace Grammar

variable {g g' : Grammar} {policy : CyclePolicy}

/-- The only cause of a failure is a cycle that was found. -/
theorem removeUnits_eq_error_iff {cause : NormalizationError} :
    g.removeUnits policy = .error cause ↔
      policy = .refuse ∧ ∃ cycle, g.rules.unitCycle? = some cycle ∧ cause = .unitCycle cycle := by
  unfold removeUnits
  split
  · next cycle hcycle =>
    rw [Except.error.injEq, hcycle]
    constructor
    · rintro rfl
      exact ⟨rfl, cycle, rfl, rfl⟩
    · rintro ⟨-, found, hfound, rfl⟩
      rw [Option.some.inj hfound]
  · next hother =>
    refine iff_of_false nofun ?_
    rintro ⟨rfl, cycle, hcycle, -⟩
    exact hother cycle rfl hcycle

/-- There is a result unless cycles are refused and one is found. -/
theorem removeUnits_eq_ok_iff : g.removeUnits policy = .ok g' ↔
    g' = g.splice ∧ (policy = .refuse → g.rules.unitCycle? = none) := by
  constructor
  · intro h
    refine ⟨eq_splice_of_removeUnits h, fun hpolicy => ?_⟩
    cases hcycle : g.rules.unitCycle? with
    | none => rfl
    | some cycle =>
      have herror := removeUnits_eq_error_iff.2 ⟨hpolicy, cycle, hcycle, rfl⟩
      exact nomatch h.symm.trans herror
  · rintro ⟨rfl, hnone⟩
    cases hcase : g.removeUnits policy with
    | ok g' => rw [eq_splice_of_removeUnits hcase]
    | error cause =>
      obtain ⟨hpolicy, cycle, hcycle, -⟩ := removeUnits_eq_error_iff.1 hcase
      exact absurd (hcycle.symm.trans (hnone hpolicy)) (Option.some_ne_none cycle)

end Grammar

theorem Phrase.unitTarget?_eq_none_iff {p : Phrase} :
    p.unitTarget? = none ↔ ∀ name, p ≠ [.nonterminal name] := by
  simp only [Option.eq_none_iff_forall_ne_some, ne_eq, Phrase.unitTarget?_eq_some_iff]

/-- Whatever the grammar, the loop of passes ends. If there is a result, each left side
has in it, without repetition, exactly the alternatives that are not single nonterminals
of all names that its unit alternatives lead to. So no unit alternative is left, and every
name derives the words that it did. There is always a result if cycles are collapsed; if
they are refused, it is the same one, unless the search has found a cycle. -/
theorem removeUnits_closure (g : Grammar) :
    (∀ after passes, Splices g.rules.toSplice after passes ↔
      spliceAll g.rules = (after, passes)) ∧
    (∀ policy g', g.removeUnits policy = .ok g' →
      g' = { g with rules := g'.rules } ∧
      g'.rules.keys = g.rules.keys ∧
      (∀ lhs, (g'.rules.alternatives lhs).Nodup ∧ ∀ p, p ∈ g'.rules.alternatives lhs ↔
        (∀ name, p ≠ [.nonterminal name]) ∧
          ∃ source, ReflTransGen g.rules.UnitStep lhs source ∧
            p ∈ g.rules.alternatives source) ∧
      (∀ lhs name, [.nonterminal name] ∉ g'.rules.alternatives lhs) ∧
      ∀ lhs w, g'.rules.Derives lhs w ↔ g.rules.Derives lhs w) ∧
    (∃ g', g.removeUnits .collapse = .ok g') ∧
    (∀ cause, g.removeUnits .refuse = .error cause ↔
      ∃ cycle, g.rules.unitCycle? = some cycle ∧ cause = .unitCycle cycle) ∧
    ∀ g', g.removeUnits .refuse = .ok g' → g.removeUnits .collapse = .ok g' := by
  refine ⟨g.rules.splices_iff, ?_, ?_, ?_, ?_⟩
  · intro policy g' h
    obtain ⟨rfl, -⟩ := Grammar.removeUnits_eq_ok_iff.1 h
    refine ⟨rfl, g.keys_splice, fun lhs => ⟨g.nodup_alternatives_splice lhs, fun p => ?_⟩,
      g.unit_notMem_alternatives_splice, fun lhs w => Grammar.derives_splice_iff⟩
    rw [Grammar.mem_alternatives_splice, Phrase.unitTarget?_eq_none_iff]
  · exact ⟨g.splice, Grammar.removeUnits_eq_ok_iff.2 ⟨rfl, nofun⟩⟩
  · intro cause
    rw [Grammar.removeUnits_eq_error_iff, and_iff_right rfl]
  · intro g' h
    exact Grammar.removeUnits_eq_ok_iff.2 ⟨(Grammar.removeUnits_eq_ok_iff.1 h).1, nofun⟩

/-- In the sample with a cycle, `S` leads to `A` and `A` to `B`, whose alternative `"c"`
all three have in the end. The sample with a chain passes under either policy. -/
theorem removeUnits_closure_samples :
    (∃ g', Sample.unitCycle.grammar.removeUnits .collapse = .ok g' ∧
      ([.terminal "c"] ∈ g'.rules.alternatives "S" ↔
        (∀ name, [Symbol.terminal "c"] ≠ [.nonterminal name]) ∧
          ∃ source, ReflTransGen Sample.unitCycle.grammar.rules.UnitStep "S" source ∧
            [.terminal "c"] ∈ Sample.unitCycle.grammar.rules.alternatives source)) ∧
    ∃ g', Sample.unitChain.grammar.removeUnits .refuse = .ok g' ∧
      Sample.unitChain.grammar.removeUnits .collapse = .ok g' := by
  constructor
  · obtain ⟨-, hclosure, ⟨g', h⟩, -, -⟩ := removeUnits_closure Sample.unitCycle.grammar
    obtain ⟨-, -, halternatives, -, -⟩ := hclosure .collapse g' h
    exact ⟨g', h, (halternatives "S").2 _⟩
  · obtain ⟨-, -, -, -, hsame⟩ := removeUnits_closure Sample.unitChain.grammar
    obtain ⟨g', h⟩ : ∃ g', Sample.unitChain.grammar.removeUnits .refuse = .ok g' := ⟨_, rfl⟩
    exact ⟨g', h, hsame g' h⟩

end Chomsky
