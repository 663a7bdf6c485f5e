import Chomsky.Grammar.Samples
import Chomsky.Proofs.Normal.UnitClosure

/-!
# Scans for unit alternatives

The passes that remove unit alternatives can keep the rules apart from what was absorbed.
A scan then goes through the rules in their order, and through the alternatives of each,
enters what a left side has absorbed into a map that later scans go on with, and notes
whether it has met any unit alternative. It has no bound, and the first scan that notes
nothing is the last.

Left sides do not meet in a scan, since the alternatives that are spliced in are those
from before it. So a scan does to each left side what a pass does to it, and what it notes
is that a unit alternative was there. The scans end when the passes do: there is one for
each target at most, one more that only drops, and one that finds nothing left.

## What this module delivers

- `RuleScan`, `Scan` and `Rules.scan`, one scan, and `Scans`, the scans without a bound.
- `RuleScan.Agrees` and `Mirrors`, what the scans have in common with the passes.
- `scans_iff_splices`: scans and passes end at the same time, and with the same rules.
- `scans_within_targets`: how many scans there are.
-/

set_option autoImplicit false

namespace Chomsky

/-! ## One scan -/

/-- A left side in the middle of a scan. -/
structure RuleScan where
  /-- The new alternatives so far. -/
  alternatives : List Phrase
  /-- The left side itself and every target absorbed. -/
  absorbed : NameSet
  /-- Whether this scan has met a unit alternative, here or before. -/
  changed : Bool

/-- Meets an alternative of the left side. -/
def RuleScan.meet (rules : Rules) (s : RuleScan) (p : Phrase) : RuleScan :=
  match p.unitTarget? with
  | none => { s with alternatives := pushUnique s.alternatives p }
  | some target =>
      if target ∈ s.absorbed then { s with changed := true }
      else ⟨pushAll s.alternatives (rules.alternatives target), s.absorbed.insert target, true⟩

/-- A scan on its way through the rules. -/
structure Scan where
  /-- The left sides that were passed, with their new alternatives. -/
  next : Rules
  /-- What each left side has absorbed, in this scan and those before it. -/
  absorbed : NameMap NameSet
  /-- Whether a unit alternative was met. -/
  changed : Bool

/-- What a left side has absorbed; before its first scan, this is the left side itself. -/
def absorbedBy (absorbed : NameMap NameSet) (lhs : String) : NameSet :=
  (absorbed.get? lhs).getD (NameSet.ofList [lhs])

/-- Passes a rule. -/
def Scan.pass (rules : Rules) (s : Scan) (rule : String × List Phrase) : Scan :=
  let done := rule.2.foldl (RuleScan.meet rules) ⟨[], absorbedBy s.absorbed rule.1, s.changed⟩
  ⟨s.next.insert rule.1 done.alternatives, s.absorbed.insert rule.1 done.absorbed, done.changed⟩

/-- One scan through all rules. -/
def Rules.scan (rules : Rules) (absorbed : NameMap NameSet) : Scan :=
  rules.entries.foldl (Scan.pass rules) ⟨∅, absorbed, false⟩

/-- The scans from some rules on, with no bound on their number. -/
inductive Scans :
    (rules : Rules) → (absorbed : NameMap NameSet) → (after : Rules) → (scans : Nat) → Prop where
  /-- A scan that meets no unit alternative is the last. -/
  | last {rules : Rules} {absorbed : NameMap NameSet} : (rules.scan absorbed).changed = false →
      Scans rules absorbed (rules.scan absorbed).next 1
  /-- After any other scan there is one more. -/
  | again {rules after : Rules} {absorbed : NameMap NameSet} {scans : Nat} :
      (rules.scan absorbed).changed = true →
      Scans (rules.scan absorbed).next (rules.scan absorbed).absorbed after scans →
      Scans rules absorbed after (scans + 1)

/-! ## One left side -/

section LeftSide

variable {rules : Rules} {s : RuleScan} {t : Splicing}

/-- The left side in a scan is as it is in a pass. -/
structure RuleScan.Agrees (s : RuleScan) (t : Splicing) : Prop where
  /-- The alternatives are the same. -/
  alternatives_eq : s.alternatives = t.alternatives
  /-- The same targets were absorbed. -/
  mem_absorbed_iff : ∀ name, name ∈ s.absorbed ↔ name ∈ t.absorbed

theorem RuleScan.Agrees.meet (h : s.Agrees t) (rules : Rules) (p : Phrase) :
    (s.meet rules p).Agrees (t.take rules.alternatives p) := by
  unfold RuleScan.meet
  cases htarget : p.unitTarget? with
  | none =>
    rw [Splicing.take_of_none htarget]
    exact ⟨congrArg (pushUnique · p) h.alternatives_eq, h.mem_absorbed_iff⟩
  | some target =>
    dsimp only
    by_cases hmem : target ∈ s.absorbed
    · rw [if_pos hmem, Splicing.take_of_mem htarget ((h.mem_absorbed_iff target).1 hmem)]
      exact ⟨h.alternatives_eq, h.mem_absorbed_iff⟩
    · rw [if_neg hmem, Splicing.take_of_notMem htarget (mt (h.mem_absorbed_iff target).2 hmem)]
      refine ⟨congrArg (pushAll · _) h.alternatives_eq, fun name => ?_⟩
      rw [NameSet.mem_insert, List.mem_append, List.mem_singleton, h.mem_absorbed_iff, or_comm]

theorem RuleScan.Agrees.foldl_meet (h : s.Agrees t) (rules : Rules) (ps : List Phrase) :
    (ps.foldl (RuleScan.meet rules) s).Agrees (ps.foldl (Splicing.take rules.alternatives) t) := by
  induction ps generalizing s t with
  | nil => exact h
  | cons p ps ih => exact ih (h.meet rules p)

/-- The unit alternatives that are met are noted. -/
theorem changed_foldl_meet (ps : List Phrase) (s : RuleScan) :
    (ps.foldl (RuleScan.meet rules) s).changed =
      (s.changed || ps.any fun p => p.unitTarget?.isSome) := by
  induction ps generalizing s with
  | nil => simp
  | cons p ps ih =>
    have hstep : (s.meet rules p).changed = (s.changed || p.unitTarget?.isSome) := by
      unfold RuleScan.meet
      cases p.unitTarget? with
      | none => simp
      | some target =>
        dsimp only
        split <;> simp
    rw [List.foldl_cons, ih, hstep, List.any_cons, Bool.or_assoc]

end LeftSide

/-! ## All left sides -/

section AllLeftSides

variable {rules : Rules} {es : List (String × List Phrase)} {lhs : String} {s : Scan}

theorem changed_foldl_pass (es : List (String × List Phrase)) (s : Scan) :
    (es.foldl (Scan.pass rules) s).changed =
      (s.changed || es.any fun e => e.2.any fun p => p.unitTarget?.isSome) := by
  induction es generalizing s with
  | nil => simp
  | cons e es ih =>
    rw [List.foldl_cons, ih, Scan.pass, changed_foldl_meet, List.any_cons, Bool.or_assoc]

/-- A scan leaves what it does not come by as it is. -/
theorem foldl_pass_of_notMem (rules : Rules) (s : Scan) (h : lhs ∉ es.map Prod.fst) :
    (es.foldl (Scan.pass rules) s).next.get? lhs = s.next.get? lhs ∧
      (es.foldl (Scan.pass rules) s).absorbed.get? lhs = s.absorbed.get? lhs := by
  induction es generalizing s with
  | nil => exact ⟨rfl, rfl⟩
  | cons e es ih =>
    rw [List.map_cons, List.mem_cons, not_or] at h
    rw [List.foldl_cons, (ih _ h.2).1, (ih _ h.2).2]
    exact ⟨(NameMap.get?_insert _ _ _ _).trans (if_neg h.1),
      (NameMap.get?_insert _ _ _ _).trans (if_neg h.1)⟩

/-- A scan does to each left side what a pass does to it. -/
theorem foldl_pass_of_mem {t : Splicing} (hnodup : (es.map Prod.fst).Nodup)
    (hmem : (lhs, t.alternatives) ∈ es)
    (habsorbed : ∀ name, name ∈ absorbedBy s.absorbed lhs ↔ name ∈ t.absorbed) :
    (es.foldl (Scan.pass rules) s).next.get? lhs
        = some (t.next rules.alternatives).alternatives ∧
      ∀ name, name ∈ absorbedBy (es.foldl (Scan.pass rules) s).absorbed lhs ↔
        name ∈ (t.next rules.alternatives).absorbed := by
  induction es generalizing s with
  | nil => exact absurd hmem List.not_mem_nil
  | cons e es ih =>
    rw [List.map_cons, List.nodup_cons] at hnodup
    rw [List.foldl_cons]
    rcases List.mem_cons.1 hmem with rfl | hmem
    · -- the rules behind it have other left sides
      obtain ⟨hnext, habs⟩ :=
        foldl_pass_of_notMem rules (s.pass rules (lhs, t.alternatives)) hnodup.1
      have hagrees : RuleScan.Agrees ⟨[], absorbedBy s.absorbed lhs, s.changed⟩
          ⟨[], t.absorbed⟩ := ⟨rfl, habsorbed⟩
      have hdone := hagrees.foldl_meet rules t.alternatives
      rw [hnext, absorbedBy, habs, Scan.pass, NameMap.get?_insert, if_pos rfl,
        NameMap.get?_insert, if_pos rfl]
      exact ⟨congrArg some hdone.alternatives_eq, hdone.mem_absorbed_iff⟩
    · have hne : lhs ≠ e.1 := by
        rintro rfl
        exact hnodup.1 (List.mem_map.2 ⟨_, hmem, rfl⟩)
      refine ih hnodup.2 hmem ?_
      rw [absorbedBy, Scan.pass, NameMap.get?_insert, if_neg hne]
      exact habsorbed

end AllLeftSides

/-! ## Scans and passes -/

/-- The alternatives of all left sides in the middle of the work. -/
def rulesOf (m : NameMap Splicing) : Rules := m.mapEntries fun _ s => s.alternatives

/-- The rules and what was absorbed are those of the work. -/
structure Mirrors (rules : Rules) (absorbed : NameMap NameSet) (m : NameMap Splicing) : Prop where
  /-- The alternatives are the same. -/
  rules_eq : rules = rulesOf m
  /-- The same targets were absorbed. -/
  mem_absorbed_iff : ∀ lhs s, m.get? lhs = some s →
    ∀ name, name ∈ absorbedBy absorbed lhs ↔ name ∈ s.absorbed

namespace Mirrors

variable {rules after : Rules} {absorbed : NameMap NameSet} {m m' : NameMap Splicing}
  {passes : Nat}

theorem alternatives_eq (h : Mirrors rules absorbed m) :
    rules.alternatives = splicedAlternatives m := by
  funext lhs
  rw [h.rules_eq, rulesOf, Rules.alternatives, NameMap.get?_mapEntries, splicedAlternatives]

/-- A scan notes that a unit alternative was there. -/
theorem changed_scan (h : Mirrors rules absorbed m) :
    (rules.scan absorbed).changed = hasUnits m := by
  have hentries : rules.entries = m.entries.map fun e => (e.1, e.2.alternatives) :=
    congrArg NameMap.entries h.rules_eq
  rw [Rules.scan, changed_foldl_pass, Bool.false_or, hentries, hasUnits, NameMap.values,
    List.any_map, List.any_map]
  rfl

/-- After a scan everything is as it is after a pass. -/
theorem scan (h : Mirrors rules absorbed m) :
    Mirrors (rules.scan absorbed).next (rules.scan absorbed).absorbed (splicePass m) := by
  have hnodup : (rules.entries.map Prod.fst).Nodup := rules.keys.nodup_toList
  have hdone : ∀ lhs t, m.get? lhs = some t →
      (rules.scan absorbed).next.get? lhs
          = some (t.next (splicedAlternatives m)).alternatives ∧
        ∀ name, name ∈ absorbedBy (rules.scan absorbed).absorbed lhs ↔
          name ∈ (t.next (splicedAlternatives m)).absorbed := by
    intro lhs t hget
    have hrule : rules.get? lhs = some t.alternatives := by
      rw [h.rules_eq, rulesOf, NameMap.get?_mapEntries, hget]
      rfl
    rw [← h.alternatives_eq]
    exact foldl_pass_of_mem hnodup (NameMap.mem_entries_iff.2 hrule)
      (h.mem_absorbed_iff lhs t hget)
  constructor
  · apply NameMap.ext
    intro lhs
    rw [rulesOf, NameMap.get?_mapEntries, splicePass, NameMap.get?_mapEntries]
    cases hget : m.get? lhs with
    | some t => exact (hdone lhs t hget).1
    | none =>
      -- a name without a rule is never come by
      have hnone : rules.get? lhs = none := by
        rw [h.rules_eq, rulesOf, NameMap.get?_mapEntries, hget]
        rfl
      exact (foldl_pass_of_notMem rules _ (NameMap.get?_eq_none_iff.1 hnone)).1
  · intro lhs s hget
    rw [splicePass, NameMap.get?_mapEntries] at hget
    obtain ⟨t, ht, rfl⟩ := Option.map_eq_some_iff.1 hget
    exact (hdone lhs t ht).2

theorem splices (h : Mirrors rules absorbed m) (hscans : Scans rules absorbed after passes) :
    ∃ m', Splices m m' passes ∧ after = rulesOf m' := by
  induction hscans generalizing m with
  | last hquiet =>
    rw [h.changed_scan] at hquiet
    exact ⟨_, .last hquiet, h.scan.rules_eq⟩
  | again hchanged _ ih =>
    obtain ⟨m', hrest, rfl⟩ := ih h.scan
    rw [h.changed_scan] at hchanged
    exact ⟨m', .again hchanged hrest, rfl⟩

theorem scans (h : Mirrors rules absorbed m) (hsplices : Splices m m' passes) :
    Scans rules absorbed (rulesOf m') passes := by
  induction hsplices generalizing rules absorbed with
  | last hnone =>
    rw [← h.changed_scan] at hnone
    rw [← h.scan.rules_eq]
    exact .last hnone
  | again hunits _ ih =>
    rw [← h.changed_scan] at hunits
    exact .again hunits (ih h.scan)

/-- Scans and passes end at the same time, and with the same rules. -/
theorem scans_iff_splices (h : Mirrors rules absorbed m) :
    Scans rules absorbed after passes ↔ ∃ m', Splices m m' passes ∧ after = rulesOf m' := by
  constructor
  · exact h.splices
  · rintro ⟨m', hsplices, rfl⟩
    exact h.scans hsplices

end Mirrors

namespace Rules

variable {r : Rules}

/-- The rules without the unit alternatives from a name to itself. -/
def withoutLoops (r : Rules) : Rules :=
  r.mapEntries fun lhs ps => ps.filter fun p => decide (p.unitTarget? ≠ some lhs)

theorem withoutLoops_eq_self (h : ∀ lhs, [.nonterminal lhs] ∉ r.alternatives lhs) :
    r.withoutLoops = r := by
  apply NameMap.ext
  intro lhs
  rw [withoutLoops, NameMap.get?_mapEntries]
  cases hget : r.get? lhs with
  | none => rfl
  | some ps =>
    refine congrArg some (List.filter_eq_self.2 fun p hp => decide_eq_true fun htarget => ?_)
    obtain rfl := Phrase.unitTarget?_eq_some_iff.1 htarget
    exact h lhs (mem_alternatives_iff.2 ⟨ps, hget, hp⟩)

theorem mirrors_toSplice (r : Rules) : Mirrors r.withoutLoops ∅ r.toSplice := by
  constructor
  · apply NameMap.ext
    intro lhs
    simp only [withoutLoops, rulesOf, toSplice, NameMap.get?_mapEntries, Option.map_map,
      Function.comp_def]
  · intro lhs s hget name
    rw [toSplice, NameMap.get?_mapEntries] at hget
    obtain ⟨ps, -, rfl⟩ := Option.map_eq_some_iff.1 hget
    rw [absorbedBy, NameMap.get?_empty, Option.getD_none, NameSet.mem_ofList]

/-- The scans end, with the rules and after the passes that are computed. -/
theorem scans_iff (r after : Rules) (scans : Nat) : Scans r.withoutLoops ∅ after scans ↔
    after = rulesOf (spliceAll r).1 ∧ scans = (spliceAll r).2 := by
  rw [r.mirrors_toSplice.scans_iff_splices]
  constructor
  · rintro ⟨m', hsplices, rfl⟩
    rw [(r.splices_iff m' scans).1 hsplices]
    exact ⟨rfl, rfl⟩
  · rintro ⟨rfl, rfl⟩
    exact ⟨_, (r.splices_iff _ _).2 rfl, rfl⟩

theorem spliceAll_le (r : Rules) : (spliceAll r).2 ≤ r.allUnitTargets.length + 2 := by
  obtain ⟨passes, hle, -, heq⟩ := r.exists_spliceAll_eq
  rw [heq]
  exact Nat.succ_le_succ hle

end Rules

/-- From rules without unit alternatives from a name to itself, the scans end whatever
cycles the unit alternatives form. They end in one way only, with the rules and after the
number of passes that are computed, and there are two more of them than there are targets
of unit alternatives at most, the scan that meets none included. -/
theorem scans_within_targets (r : Rules)
    (hloops : ∀ lhs, [.nonterminal lhs] ∉ r.alternatives lhs) :
    (∀ after scans, Scans r ∅ after scans ↔
      after = rulesOf (spliceAll r).1 ∧ scans = (spliceAll r).2) ∧
    (spliceAll r).2 ≤
      {target | ∃ lhs, [.nonterminal target] ∈ r.alternatives lhs}.ncard + 2 := by
  constructor
  · intro after scans
    have hscans := r.scans_iff after scans
    rwa [Rules.withoutLoops_eq_self hloops] at hscans
  · have hcard : {target | ∃ lhs, [.nonterminal target] ∈ r.alternatives lhs}.ncard
        = r.allUnitTargets.length := by
      apply ncard_eq_length_distinct
      intro target
      rw [← mem_distinct, ← Rules.allUnitTargets, Rules.mem_allUnitTargets]
      exact Iff.rfl
    rw [hcard]
    exact r.spliceAll_le

/-- In the sample with a cycle there are two targets, `A` and `B`, and the bound is met:
`S` takes over what they have in turn, the third scan only drops, and the fourth one meets
nothing. -/
theorem scans_within_targets_unitCycle :
    (∀ lhs, [.nonterminal lhs] ∉ Sample.unitCycle.grammar.rules.alternatives lhs) ∧
    (∃ after, Scans Sample.unitCycle.grammar.rules ∅ after 4) ∧
    4 ≤ {target | ∃ lhs, [.nonterminal target] ∈
      Sample.unitCycle.grammar.rules.alternatives lhs}.ncard + 2 := by
  have hproductions : ∀ e ∈ Sample.unitCycle.grammar.rules.productions,
      e.2 ≠ [.nonterminal e.1] := by decide
  have hloops : ∀ lhs, [.nonterminal lhs] ∉ Sample.unitCycle.grammar.rules.alternatives lhs :=
    fun lhs h => hproductions (lhs, _) (Rules.mem_productions_iff.2 h) rfl
  have hfour : (spliceAll Sample.unitCycle.grammar.rules).2 = 4 := by decide
  obtain ⟨hscans, hle⟩ := scans_within_targets Sample.unitCycle.grammar.rules hloops
  rw [hfour] at hle
  exact ⟨hloops, ⟨_, (hscans _ _).2 ⟨rfl, hfour.symm⟩⟩, hle⟩

end Chomsky
