import Chomsky.Normal.UnitFree
import Chomsky.Proofs.Analysis.UnitGraph
import Chomsky.Proofs.Grammar.Simulation
import Chomsky.Proofs.Grammar.WellFormed
import Mathlib.Data.Nat.Find

/-!
# Without unit alternatives

After all passes the alternatives of a name are exactly those, unit alternatives
apart, of the names that it leads to by unit alternatives. That nothing is lost
when a unit alternative is dropped rests on an invariant over the distances at
which an alternative is found: a name that does not have it yet has a unit
alternative to a name from which it is nearer than from any that was absorbed.

Each pass that leaves a name with a unit alternative has absorbed a new target
into it, so the passes end before there are more of them than targets, and two.

## What this module delivers

- `Splicing.mem_next`, `Splicing.mem_absorbed_next`: one pass on one left side.
- `Rules.approaches`, the invariant, and `Rules.exists_spliceAll_eq`, the end.
- `Grammar.mem_alternatives_splice`: the alternatives after all passes.
- `Grammar.yields_splice_iff`: the derived words are the same.
-/

set_option autoImplicit false

namespace Chomsky

open Relation (ReflTransGen)

/-! ## One pass on one left side -/

namespace Splicing

variable {lookup : String → List Phrase} {s : Splicing} {p q : Phrase} {target : String}

theorem take_of_none (h : p.unitTarget? = none) :
    s.take lookup p = { s with alternatives := pushUnique s.alternatives p } := by
  rw [take, h]

theorem take_of_mem (h : p.unitTarget? = some target) (hmem : target ∈ s.absorbed) :
    s.take lookup p = s := by
  rw [take, h]
  exact if_pos hmem

theorem take_of_notMem (h : p.unitTarget? = some target) (hmem : target ∉ s.absorbed) :
    s.take lookup p = ⟨pushAll s.alternatives (lookup target), s.absorbed ++ [target]⟩ := by
  rw [take, h]
  exact if_neg hmem

/-- What an alternative contributes to the next pass. -/
def Contributes (lookup : String → List Phrase) (absorbed : List String) (p q : Phrase) : Prop :=
  (p.unitTarget? = none ∧ q = p) ∨
    ∃ target, p.unitTarget? = some target ∧ target ∉ absorbed ∧ q ∈ lookup target

/-- Beside the alternatives of a target it makes no difference whether an alternative
comes before the target was absorbed or after it. -/
theorem exists_contributes_concat {absorbed : List String} {ps : List Phrase} :
    (q ∈ lookup target ∨ ∃ p ∈ ps, Contributes lookup (absorbed ++ [target]) p q) ↔
      q ∈ lookup target ∨ ∃ p ∈ ps, Contributes lookup absorbed p q := by
  by_cases hq : q ∈ lookup target
  · exact iff_of_true (Or.inl hq) (Or.inl hq)
  · have hsame : ∀ p, Contributes lookup (absorbed ++ [target]) p q ↔
        Contributes lookup absorbed p q := by
      intro p
      apply or_congr_right
      refine exists_congr fun t => and_congr_right fun _ => and_congr_left fun ht => ?_
      have hne : t ≠ target := fun heq => hq (heq ▸ ht)
      rw [List.mem_append, List.mem_singleton, or_iff_left hne]
    simp only [hsame]

theorem mem_foldl_take {ps : List Phrase} :
    q ∈ (ps.foldl (take lookup) s).alternatives ↔
      q ∈ s.alternatives ∨ ∃ p ∈ ps, Contributes lookup s.absorbed p q := by
  induction ps generalizing s with
  | nil => simp
  | cons p ps ih =>
    rw [List.foldl_cons, ih]
    simp only [List.exists_mem_cons_iff]
    cases htarget : p.unitTarget? with
    | none =>
      have hp : Contributes lookup s.absorbed p q ↔ q = p := by
        simp [Contributes, htarget]
      rw [take_of_none htarget, mem_pushUnique, hp, or_assoc]
    | some target =>
      by_cases hmem : target ∈ s.absorbed
      · have hp : ¬ Contributes lookup s.absorbed p q := by
          simp [Contributes, htarget, hmem]
        rw [take_of_mem htarget hmem, or_iff_right hp]
      · have hp : Contributes lookup s.absorbed p q ↔ q ∈ lookup target := by
          simp [Contributes, htarget, hmem]
        rw [take_of_notMem htarget hmem, mem_pushAll, hp, or_assoc]
        -- a later alternative with the same target contributes the same again
        exact or_congr_right exists_contributes_concat

theorem mem_absorbed_foldl_take {ps : List Phrase} {name : String} :
    name ∈ (ps.foldl (take lookup) s).absorbed ↔
      name ∈ s.absorbed ∨ ∃ p ∈ ps, p.unitTarget? = some name := by
  induction ps generalizing s with
  | nil => simp
  | cons p ps ih =>
    rw [List.foldl_cons, ih]
    simp only [List.exists_mem_cons_iff]
    cases htarget : p.unitTarget? with
    | none => simp [take_of_none htarget]
    | some target =>
      by_cases hmem : target ∈ s.absorbed
      · rw [take_of_mem htarget hmem, Option.some.injEq]
        constructor
        · rintro (h | h)
          · exact Or.inl h
          · exact Or.inr (Or.inr h)
        · rintro (h | rfl | h)
          · exact Or.inl h
          · exact Or.inl hmem
          · exact Or.inr h
      · rw [take_of_notMem htarget hmem, List.mem_append, List.mem_singleton, or_assoc,
          Option.some.injEq, eq_comm (a := name)]

theorem nodup_foldl_take {ps : List Phrase} (h : s.alternatives.Nodup) (habs : s.absorbed.Nodup) :
    (ps.foldl (take lookup) s).alternatives.Nodup ∧ (ps.foldl (take lookup) s).absorbed.Nodup := by
  induction ps generalizing s with
  | nil => exact ⟨h, habs⟩
  | cons p ps ih =>
    rw [List.foldl_cons]
    cases htarget : p.unitTarget? with
    | none =>
      rw [take_of_none htarget]
      exact ih (nodup_pushUnique h) habs
    | some target =>
      by_cases hmem : target ∈ s.absorbed
      · rw [take_of_mem htarget hmem]
        exact ih h habs
      · rw [take_of_notMem htarget hmem]
        refine ih (nodup_pushAll h) (List.nodup_append.2 ⟨habs, by simp, fun x hx y hy heq => ?_⟩)
        rw [List.mem_singleton] at hy
        exact hmem (hy ▸ heq ▸ hx)

/-- An alternative is there after a pass if it was there and is no unit, or if it
belongs to a target that is absorbed in this pass. -/
theorem mem_next :
    q ∈ (s.next lookup).alternatives ↔
      (q ∈ s.alternatives ∧ q.unitTarget? = none) ∨
        ∃ target, [.nonterminal target] ∈ s.alternatives ∧ target ∉ s.absorbed ∧
          q ∈ lookup target := by
  rw [next, mem_foldl_take, or_iff_right List.not_mem_nil]
  constructor
  · rintro ⟨p, hp, (⟨hnone, rfl⟩ | ⟨target, htarget, habs, hq⟩)⟩
    · exact Or.inl ⟨hp, hnone⟩
    · exact Or.inr ⟨target, Phrase.unitTarget?_eq_some_iff.1 htarget ▸ hp, habs, hq⟩
  · rintro (⟨hp, hnone⟩ | ⟨target, hp, habs, hq⟩)
    · exact ⟨q, hp, Or.inl ⟨hnone, rfl⟩⟩
    · exact ⟨_, hp, Or.inr ⟨target, rfl, habs, hq⟩⟩

/-- A pass absorbs all targets. -/
theorem mem_absorbed_next {name : String} :
    name ∈ (s.next lookup).absorbed ↔
      name ∈ s.absorbed ∨ [.nonterminal name] ∈ s.alternatives := by
  rw [next, mem_absorbed_foldl_take]
  simp only [Phrase.unitTarget?_eq_some_iff, exists_eq_right]

theorem nodup_next (lookup : String → List Phrase) (habs : s.absorbed.Nodup) :
    (s.next lookup).alternatives.Nodup ∧ (s.next lookup).absorbed.Nodup :=
  nodup_foldl_take List.nodup_nil habs

/-- A pass that leaves a unit alternative behind has absorbed a new target. -/
theorem length_absorbed_lt_next (habs : s.absorbed.Nodup)
    (hunit : [.nonterminal target] ∈ (s.next lookup).alternatives) :
    s.absorbed.length < (s.next lookup).absorbed.length := by
  rcases mem_next.1 hunit with ⟨-, hnone⟩ | ⟨fresh, hmem, hnew, -⟩
  · exact absurd hnone (Option.some_ne_none target)
  · apply length_le_of_nodup_of_subset (List.nodup_cons.2 ⟨hnew, habs⟩)
    -- the new target and all earlier ones are absorbed now
    intro x hx
    rw [mem_absorbed_next]
    rcases List.mem_cons.1 hx with rfl | hx
    · exact Or.inr hmem
    · exact Or.inl hx

end Splicing

/-! ## All left sides at once -/

/-- The work at a name; a name without a rule has nothing to do. -/
def workAt (m : NameMap Splicing) (name : String) : Splicing := (m.get? name).getD ⟨[], [name]⟩

theorem splicedAlternatives_eq (m : NameMap Splicing) (name : String) :
    splicedAlternatives m name = (workAt m name).alternatives := by
  rw [splicedAlternatives, workAt]
  cases m.get? name <;> rfl

theorem workAt_splicePass (m : NameMap Splicing) (name : String) :
    workAt (splicePass m) name = (workAt m name).next (splicedAlternatives m) := by
  rw [workAt, workAt, splicePass, NameMap.get?_mapEntries]
  cases m.get? name <;> rfl

theorem workAt_toSplice (r : Rules) (name : String) :
    workAt r.toSplice name =
      ⟨(r.alternatives name).filter fun p => decide (p.unitTarget? ≠ some name), [name]⟩ := by
  rw [workAt, Rules.toSplice, NameMap.get?_mapEntries, Rules.alternatives]
  cases r.get? name <;> rfl

/-- No name has a unit alternative. -/
def UnitFree (m : NameMap Splicing) : Prop :=
  ∀ name target, [.nonterminal target] ∉ (workAt m name).alternatives

theorem hasUnits_eq_false_iff {m : NameMap Splicing} : hasUnits m = false ↔ UnitFree m := by
  have hunits : hasUnits m = true ↔
      ∃ name target, [.nonterminal target] ∈ (workAt m name).alternatives := by
    simp only [hasUnits, NameMap.values, List.any_eq_true, List.mem_map, Option.isSome_iff_exists]
    constructor
    · rintro ⟨s, ⟨⟨name, s'⟩, hentry, rfl⟩, p, hp, target, htarget⟩
      refine ⟨name, target, ?_⟩
      rw [workAt, NameMap.mem_entries_iff.1 hentry]
      exact Phrase.unitTarget?_eq_some_iff.1 htarget ▸ hp
    · rintro ⟨name, target, hmem⟩
      rw [workAt] at hmem
      cases hget : m.get? name with
      | none =>
        rw [hget] at hmem
        exact absurd hmem List.not_mem_nil
      | some s =>
        rw [hget] at hmem
        exact ⟨s, ⟨(name, s), NameMap.mem_entries_iff.2 hget, rfl⟩, _, hmem, target, rfl⟩
  rw [← Bool.not_eq_true, hunits]
  simp only [UnitFree, not_exists]

/-- The work after a number of passes. -/
def afterPasses (m : NameMap Splicing) : Nat → NameMap Splicing
  | 0 => m
  | passes + 1 => splicePass (afterPasses m passes)

theorem afterPasses_splicePass (m : NameMap Splicing) (passes : Nat) :
    afterPasses (splicePass m) passes = afterPasses m (passes + 1) := by
  induction passes with
  | zero => rfl
  | succ passes ih => exact congrArg splicePass ih

/-- The passes end after the first one that finds no unit alternative. -/
theorem exists_splicePasses_eq {m : NameMap Splicing} {bound : Nat} (passes : Nat)
    (hdone : UnitFree (afterPasses m passes)) (hlt : passes < bound) :
    ∃ k ≤ passes, UnitFree (afterPasses m k) ∧
      splicePasses bound m = (afterPasses m (k + 1), k + 1) := by
  induction bound generalizing m passes with
  | zero => exact absurd hlt (Nat.not_lt_zero passes)
  | succ bound ih =>
    rw [splicePasses]
    cases hunits : hasUnits m with
    -- this pass is the last
    | false => exact ⟨0, Nat.zero_le _, hasUnits_eq_false_iff.1 hunits, rfl⟩
    | true =>
      cases passes with
      | zero =>
        have hnone : hasUnits m = false := hasUnits_eq_false_iff.2 hdone
        exact absurd (hunits.symm.trans hnone) Bool.noConfusion
      | succ passes =>
        -- the passes that are left start from the work after this one
        rw [← afterPasses_splicePass] at hdone
        obtain ⟨k, hk, hfree, heq⟩ := ih _ hdone (Nat.lt_of_succ_lt_succ hlt)
        rw [afterPasses_splicePass] at hfree
        refine ⟨k + 1, Nat.succ_le_succ hk, hfree, ?_⟩
        rw [if_pos rfl, heq, afterPasses_splicePass]

namespace Rules

variable {r : Rules}

/-- The work on the rules after a number of passes, at a name. -/
def splicing (r : Rules) (passes : Nat) (name : String) : Splicing :=
  workAt (afterPasses r.toSplice passes) name

theorem splicing_zero (r : Rules) (name : String) :
    r.splicing 0 name =
      ⟨(r.alternatives name).filter fun p => decide (p.unitTarget? ≠ some name), [name]⟩ :=
  workAt_toSplice r name

theorem splicing_succ (r : Rules) (passes : Nat) (name : String) :
    r.splicing (passes + 1) name =
      (r.splicing passes name).next fun target => (r.splicing passes target).alternatives := by
  have hlookup : splicedAlternatives (afterPasses r.toSplice passes)
      = fun target => (r.splicing passes target).alternatives :=
    funext fun target => splicedAlternatives_eq _ target
  rw [splicing, afterPasses, workAt_splicePass, hlookup, splicing]

theorem mem_splicing_zero {name : String} {q : Phrase} :
    q ∈ (r.splicing 0 name).alternatives ↔ q ∈ r.alternatives name ∧ q ≠ [.nonterminal name] := by
  rw [splicing_zero, List.mem_filter, decide_eq_true_eq, ne_eq, Phrase.unitTarget?_eq_some_iff]

theorem mem_splicing_succ {passes : Nat} {name : String} {q : Phrase} :
    q ∈ (r.splicing (passes + 1) name).alternatives ↔
      (q ∈ (r.splicing passes name).alternatives ∧ q.unitTarget? = none) ∨
        ∃ target, [.nonterminal target] ∈ (r.splicing passes name).alternatives ∧
          target ∉ (r.splicing passes name).absorbed ∧
          q ∈ (r.splicing passes target).alternatives := by
  rw [splicing_succ, Splicing.mem_next]

theorem mem_absorbed_splicing_succ {passes : Nat} {name target : String} :
    target ∈ (r.splicing (passes + 1) name).absorbed ↔
      target ∈ (r.splicing passes name).absorbed ∨
        [.nonterminal target] ∈ (r.splicing passes name).alternatives := by
  rw [splicing_succ, Splicing.mem_absorbed_next]

theorem nodup_absorbed_splicing (r : Rules) (passes : Nat) (name : String) :
    (r.splicing passes name).absorbed.Nodup := by
  induction passes with
  | zero =>
    rw [splicing_zero]
    exact List.nodup_singleton name
  | succ passes ih =>
    rw [splicing_succ]
    exact (Splicing.nodup_next _ ih).2

theorem self_mem_absorbed_splicing (r : Rules) (passes : Nat) (name : String) :
    name ∈ (r.splicing passes name).absorbed := by
  induction passes with
  | zero =>
    rw [splicing_zero]
    exact List.mem_cons_self
  | succ passes ih => exact mem_absorbed_splicing_succ.2 (Or.inl ih)

/-! ## Nothing is invented -/

/-- Every alternative in the work belongs to a name that unit alternatives lead
to. -/
theorem exists_of_mem_splicing {passes : Nat} {name : String} {q : Phrase}
    (h : q ∈ (r.splicing passes name).alternatives) :
    ∃ source, ReflTransGen r.UnitStep name source ∧ q ∈ r.alternatives source := by
  induction passes generalizing name q with
  | zero => exact ⟨name, .refl, (mem_splicing_zero.1 h).1⟩
  | succ passes ih =>
    rcases mem_splicing_succ.1 h with ⟨hq, -⟩ | ⟨target, hunit, -, hq⟩
    · exact ih hq
    · -- what was absorbed came from a name further on
      obtain ⟨via, hvia, hstep⟩ := ih hunit
      obtain ⟨source, hsource, hmem⟩ := ih hq
      exact ⟨source, (hvia.tail hstep).trans hsource, hmem⟩

/-! ## Nothing is lost -/

/-- Unit alternatives lead in `distance` steps from the name to one that has the
alternative. -/
inductive FoundAt (r : Rules) (q : Phrase) : (distance : Nat) → (name : String) → Prop where
  | here {name : String} : q ∈ r.alternatives name → FoundAt r q 0 name
  | there {distance : Nat} {name target : String} :
      r.UnitStep name target → FoundAt r q distance target → FoundAt r q (distance + 1) name

theorem exists_foundAt {name source : String} {q : Phrase}
    (hreach : ReflTransGen r.UnitStep name source) (hq : q ∈ r.alternatives source) :
    ∃ distance, FoundAt r q distance name := by
  induction hreach using ReflTransGen.head_induction_on with
  | refl => exact ⟨0, .here hq⟩
  | head hstep _ ih =>
    obtain ⟨distance, h⟩ := ih
    exact ⟨distance + 1, .there hstep h⟩

/-- The invariant of the passes: a name that can find the alternative has it, or
has a unit alternative to a name that is nearer to it than all that were
absorbed. -/
def Approaches (r : Rules) (q : Phrase) (passes : Nat) (name : String) : Prop :=
  q ∈ (r.splicing passes name).alternatives ∨
    ∃ target distance, [.nonterminal target] ∈ (r.splicing passes name).alternatives ∧
      FoundAt r q distance target ∧
      ∀ other ∈ (r.splicing passes name).absorbed, ∀ d, FoundAt r q d other → distance < d

theorem approaches_zero {q : Phrase} (hq : q.unitTarget? = none) {distance : Nat} {name : String}
    (h : FoundAt r q distance name) : r.Approaches q 0 name := by
  classical
  -- the first step of a shortest way leads away from the name itself
  have hexists : ∃ d, FoundAt r q d name := ⟨distance, h⟩
  have hleast : ∀ d, FoundAt r q d name → Nat.find hexists ≤ d :=
    fun d hd => Nat.find_min' hexists hd
  have hfound := Nat.find_spec hexists
  generalize Nat.find hexists = least at hleast hfound
  cases hfound with
  | here hmem =>
    refine Or.inl (mem_splicing_zero.2 ⟨hmem, ?_⟩)
    rintro rfl
    exact absurd hq (Option.some_ne_none name)
  | @there d _ target hstep hrest =>
    refine Or.inr ⟨target, d, mem_splicing_zero.2 ⟨hstep, ?_⟩, hrest, ?_⟩
    · intro heq
      obtain rfl : target = name := by simpa using heq
      exact Nat.not_succ_le_self d (hleast d hrest)
    · intro other hother d' hd'
      rw [splicing_zero, List.mem_singleton] at hother
      exact hleast d' (hother ▸ hd')

theorem Approaches.succ {q : Phrase} (hq : q.unitTarget? = none) {passes : Nat}
    (hall : ∀ name distance, FoundAt r q distance name → r.Approaches q passes name)
    {name : String} {distance : Nat} (h : FoundAt r q distance name) :
    r.Approaches q (passes + 1) name := by
  classical
  rcases hall name distance h with hmem | ⟨target, d, hunit, hfound, hnearer⟩
  · exact Or.inl (mem_splicing_succ.2 (Or.inl ⟨hmem, hq⟩))
  -- among the targets of this pass take one that is nearest to the alternative
  have hexists : ∃ d target, [.nonterminal target] ∈ (r.splicing passes name).alternatives ∧
      FoundAt r q d target := ⟨d, target, hunit, hfound⟩
  have hleast : ∀ d' target', [.nonterminal target'] ∈ (r.splicing passes name).alternatives →
      FoundAt r q d' target' → Nat.find hexists ≤ d' := fun d' target' hunit' hfound' =>
    Nat.find_min' hexists ⟨target', hunit', hfound'⟩
  have hle := hleast d target hunit hfound
  obtain ⟨near, hnear, hnearFound⟩ := Nat.find_spec hexists
  generalize Nat.find hexists = least at hleast hle hnearFound
  have hnew : near ∉ (r.splicing passes name).absorbed := fun habs =>
    absurd (hnearer near habs least hnearFound) (by omega)
  rcases hall near least hnearFound with hmem | ⟨next, e, hnextUnit, hnextFound, hnextNearer⟩
  · exact Or.inl (mem_splicing_succ.2 (Or.inr ⟨near, hnear, hnew, hmem⟩))
  · -- what that target leads to is nearer than the target, so than all absorbed so far
    have hlt : e < least :=
      hnextNearer near (self_mem_absorbed_splicing r passes near) least hnearFound
    have hunit : [.nonterminal next] ∈ (r.splicing (passes + 1) name).alternatives :=
      mem_splicing_succ.2 (Or.inr ⟨near, hnear, hnew, hnextUnit⟩)
    refine Or.inr ⟨next, e, hunit, hnextFound, ?_⟩
    intro other hother d' hd'
    rcases mem_absorbed_splicing_succ.1 hother with habs | hunit'
    · have := hnearer other habs d' hd'
      omega
    · have := hleast d' other hunit' hd'
      omega

theorem approaches {q : Phrase} (hq : q.unitTarget? = none) (passes : Nat) {name : String}
    {distance : Nat} (h : FoundAt r q distance name) : r.Approaches q passes name := by
  induction passes generalizing name distance with
  | zero => exact approaches_zero hq h
  | succ passes ih => exact Approaches.succ hq (fun _ _ => ih) h

/-! ## The passes end -/

/-- A name that still has a unit alternative has absorbed a target in each pass. -/
theorem lt_length_absorbed {passes : Nat} {name target : String}
    (h : [.nonterminal target] ∈ (r.splicing passes name).alternatives) :
    passes < (r.splicing passes name).absorbed.length := by
  induction passes generalizing target with
  | zero =>
    rw [splicing_zero]
    exact Nat.zero_lt_one
  | succ passes ih =>
    -- this pass has absorbed one target more
    have hlt : (r.splicing passes name).absorbed.length
        < (r.splicing (passes + 1) name).absorbed.length := by
      rw [splicing_succ] at h ⊢
      exact Splicing.length_absorbed_lt_next (nodup_absorbed_splicing r passes name) h
    rcases mem_splicing_succ.1 h with ⟨-, hnone⟩ | ⟨via, hvia, -, -⟩
    · exact absurd hnone (Option.some_ne_none target)
    · have := ih hvia
      omega

theorem mem_allUnitTargets {target : String} :
    target ∈ r.allUnitTargets ↔ ∃ name, r.UnitStep name target := by
  simp only [allUnitTargets, mem_distinct, List.mem_filterMap, Phrase.unitTarget?_eq_some_iff,
    exists_eq_right, mem_phrases_iff, UnitStep]

theorem mem_allUnitTargets_of_absorbed {passes : Nat} {name target : String}
    (h : target ∈ (r.splicing passes name).absorbed) :
    target = name ∨ target ∈ r.allUnitTargets := by
  induction passes with
  | zero =>
    rw [splicing_zero] at h
    exact Or.inl (List.mem_singleton.1 h)
  | succ passes ih =>
    rcases mem_absorbed_splicing_succ.1 h with h | h
    · exact ih h
    · obtain ⟨source, -, hmem⟩ := exists_of_mem_splicing h
      exact Or.inr (mem_allUnitTargets.2 ⟨source, hmem⟩)

/-- After one pass more than there are targets no unit alternative is left. -/
theorem unitFree_afterPasses (r : Rules) :
    UnitFree (afterPasses r.toSplice (r.allUnitTargets.length + 1)) := by
  intro name target h
  -- more targets would have been absorbed than there are
  have hlt := lt_length_absorbed (r := r) h
  have hle := length_le_of_nodup_of_subset
    (nodup_absorbed_splicing r (r.allUnitTargets.length + 1) name)
    (m := name :: r.allUnitTargets)
    fun x hx => List.mem_cons.2 (mem_allUnitTargets_of_absorbed hx)
  rw [List.length_cons] at hle
  omega

/-- The passes end within their bound, with a pass that found no unit. -/
theorem exists_spliceAll_eq (r : Rules) :
    ∃ passes ≤ r.allUnitTargets.length + 1, UnitFree (afterPasses r.toSplice passes) ∧
      spliceAll r = (afterPasses r.toSplice (passes + 1), passes + 1) := by
  by_cases hsize : r.size = 0
  · -- without rules there is nothing to do
    refine (exists_splicePasses_eq 0 ?_ (Nat.succ_pos _)).imp fun k hk =>
      ⟨Nat.le_trans hk.1 (Nat.zero_le _), hk.2⟩
    intro name target h
    have hmem := (mem_splicing_zero.1 (show _ ∈ (r.splicing 0 name).alternatives from h)).1
    have hkey : name ∈ r.keys.toList := mem_keys_of_mem_alternatives hmem
    have hpos := List.length_pos_of_mem hkey
    rw [NameMap.keys, List.length_map] at hpos
    exact absurd hsize (Nat.ne_of_gt hpos)
  · apply exists_splicePasses_eq _ r.unitFree_afterPasses
    have := Nat.le_mul_of_pos_left r.allUnitTargets.length (Nat.pos_of_ne_zero hsize)
    omega

end Rules

namespace Grammar

variable {g : Grammar} {lhs : String} {q : Phrase}

@[simp] theorem splice_nonterminals (g : Grammar) : g.splice.nonterminals = g.nonterminals := rfl

@[simp] theorem splice_terminals (g : Grammar) : g.splice.terminals = g.terminals := rfl

@[simp] theorem splice_start (g : Grammar) : g.splice.start = g.start := rfl

@[simp] theorem splice_acceptsEmpty (g : Grammar) : g.splice.acceptsEmpty = g.acceptsEmpty := rfl

theorem alternatives_splice_eq (g : Grammar) (lhs : String) :
    g.splice.rules.alternatives lhs = splicedAlternatives (spliceAll g.rules).1 lhs := by
  rw [splice, Rules.alternatives, NameMap.get?_mapEntries, splicedAlternatives]

/-- Whatever the policy, there is one grammar that removing units can end with. -/
theorem eq_splice_of_removeUnits {policy : CyclePolicy} {g' : Grammar}
    (h : g.removeUnits policy = .ok g') : g' = g.splice := by
  unfold removeUnits at h
  split at h
  · cases h
  · exact (Except.ok.inj h).symm

/-- The alternatives of a name after the last pass, which is the one after a pass
without units. -/
theorem exists_alternatives_splice (g : Grammar) :
    ∃ passes, UnitFree (afterPasses g.rules.toSplice passes) ∧
      ∀ lhs, g.splice.rules.alternatives lhs =
        (g.rules.splicing (passes + 1) lhs).alternatives := by
  obtain ⟨passes, -, hfree, heq⟩ := g.rules.exists_spliceAll_eq
  refine ⟨passes, hfree, fun lhs => ?_⟩
  rw [alternatives_splice_eq, heq, splicedAlternatives_eq, Rules.splicing]

/-- The alternatives of a name are those of all names that it leads to by unit
alternatives, except for the unit alternatives. -/
theorem mem_alternatives_splice :
    q ∈ g.splice.rules.alternatives lhs ↔
      q.unitTarget? = none ∧
        ∃ source, ReflTransGen g.rules.UnitStep lhs source ∧ q ∈ g.rules.alternatives source := by
  obtain ⟨passes, hfree, heq⟩ := g.exists_alternatives_splice
  rw [heq]
  constructor
  · intro h
    refine ⟨?_, Rules.exists_of_mem_splicing h⟩
    rcases Rules.mem_splicing_succ.1 h with ⟨-, hnone⟩ | ⟨target, hunit, -, -⟩
    · exact hnone
    · exact absurd hunit (hfree lhs target)
  · rintro ⟨hnone, source, hreach, hmem⟩
    -- after the last pass no unit alternative is left to approach by
    obtain ⟨distance, hfound⟩ := Rules.exists_foundAt hreach hmem
    rcases Rules.approaches hnone passes hfound with h | ⟨target, -, hunit, -, -⟩
    · exact Rules.mem_splicing_succ.2 (Or.inl ⟨h, hnone⟩)
    · exact absurd hunit (hfree lhs target)

theorem nodup_alternatives_splice (g : Grammar) (lhs : String) :
    (g.splice.rules.alternatives lhs).Nodup := by
  obtain ⟨passes, -, heq⟩ := g.exists_alternatives_splice
  rw [heq, Rules.splicing_succ]
  exact (Splicing.nodup_next _ (Rules.nodup_absorbed_splicing _ _ _)).1

theorem unit_notMem_alternatives_splice (g : Grammar) (lhs target : String) :
    [.nonterminal target] ∉ g.splice.rules.alternatives lhs := fun h =>
  Option.some_ne_none target (mem_alternatives_splice.1 h).1

theorem keys_splicePass (m : NameMap Splicing) : (splicePass m).keys = m.keys :=
  NameMap.keys_mapEntries _ _

theorem keys_afterPasses (m : NameMap Splicing) (passes : Nat) :
    (afterPasses m passes).keys = m.keys := by
  induction passes with
  | zero => rfl
  | succ passes ih => rw [afterPasses, keys_splicePass, ih]

@[simp] theorem keys_splice (g : Grammar) : g.splice.rules.keys = g.rules.keys := by
  obtain ⟨passes, -, -, heq⟩ := g.rules.exists_spliceAll_eq
  rw [splice, NameMap.keys_mapEntries, heq, keys_afterPasses, Rules.toSplice,
    NameMap.keys_mapEntries]

/-! ## Derived words -/

/-- A name derives what the names derive that it leads to. -/
theorem derives_of_reach {source : String} {w : List String}
    (hreach : ReflTransGen g.rules.UnitStep lhs source) (h : g.rules.Derives source w) :
    g.rules.Derives lhs w := by
  induction hreach using ReflTransGen.head_induction_on with
  | refl => exact h
  | head hstep _ ih => exact ⟨_, hstep, yields_nonterminal_iff.2 ih⟩

/-- Splicing keeps the words of every phrase. -/
theorem yields_splice_iff {p : Phrase} {w : List String} :
    Yields g.splice.rules p w ↔ Yields g.rules p w := by
  constructor
  · intro h
    apply h.transfer
    intro lhs q hq u hu
    obtain ⟨-, source, hreach, hmem⟩ := mem_alternatives_splice.1 hq
    exact derives_of_reach hreach ⟨q, hmem, hu⟩
  · intro h
    apply h.transfer
    intro lhs q hq u hu
    cases htarget : q.unitTarget? with
    | none => exact ⟨q, mem_alternatives_splice.2 ⟨htarget, lhs, .refl, hq⟩, hu⟩
    | some target =>
      obtain rfl := Phrase.unitTarget?_eq_some_iff.1 htarget
      -- the alternative that the target uses belongs to the left side as well
      obtain ⟨p, hp, hpu⟩ := yields_nonterminal_iff.1 hu
      obtain ⟨hnone, source, hreach, hmem⟩ := mem_alternatives_splice.1 hp
      exact ⟨p, mem_alternatives_splice.2 ⟨hnone, source, .head hq hreach, hmem⟩, hpu⟩

theorem derives_splice_iff {w : List String} :
    g.splice.rules.Derives lhs w ↔ g.rules.Derives lhs w := by
  rw [← yields_nonterminal_iff, yields_splice_iff, yields_nonterminal_iff]

theorem accepts_splice_iff {w : List String} : g.splice.Accepts w ↔ g.Accepts w := by
  rw [Accepts, Accepts, splice_start, splice_acceptsEmpty, derives_splice_iff]

/-! ## Well-formedness -/

theorem SelfContained.splice (h : g.SelfContained) : g.splice.SelfContained where
  start_mem := h.start_mem
  notMem_terminals := h.notMem_terminals
  lhs_mem lhs hlhs := h.lhs_mem lhs (keys_splice g ▸ hlhs)
  declares lhs q hq s hs := by
    obtain ⟨-, source, -, hmem⟩ := mem_alternatives_splice.1 hq
    exact h.declares source q hmem s hs

end Grammar

end Chomsky
