import Chomsky.Normal.Violation
import Chomsky.Proofs.Analysis.Worklist
import Chomsky.Proofs.Membership.SpanTable
import Chomsky.Proofs.Normal.NormalForm

/-!
# What the violations say

The list of violations is empty exactly if the start symbol occurs in no alternative,
every alternative is one terminal or two nonterminals, and every declared nonterminal is
reachable. A grammar in normal form has these properties. Nothing is dropped from its
rules when it is recognized, so the recognizer decides its language.

An alternative can break several conditions at once, and only one of them is reported.
But it is never passed over for that: the report has one violation for each alternative
that breaks a condition, in the order of the rules, and one for each nonterminal that is
not reached.

## What this module delivers

- `Phrase.violation?_eq_none_iff` and `Grammar.violations_eq_nil_iff`: when there is
  nothing to report.
- `Violation.Reports` and `Phrase.violation?_eq_some_iff`: which violation is reported
  for an alternative.
- `Grammar.violations_exact`: when there is nothing to report, and what is reported
  otherwise.
- `Grammar.InNormalForm.violations_eq_nil` and
  `Grammar.InNormalForm.acceptsBySpans_eq_true_iff`: the two tests of a normal form.
-/

set_option autoImplicit false

namespace Chomsky

/-! ## One alternative -/

namespace Phrase

variable {p : Phrase} {start lhs : String}

/-- Nothing is reported for an alternative exactly if it is in normal form and the start
symbol does not occur in it. -/
theorem violation?_eq_none_iff :
    p.violation? start lhs = none ↔ .nonterminal start ∉ p ∧ p.isNormal = true := by
  unfold violation?
  by_cases hstart : p.mentions start = true
  · rw [if_pos hstart]
    exact iff_of_false (Option.some_ne_none _) fun h => h.1 (mentions_iff.1 hstart)
  · rw [if_neg hstart, and_iff_right (mt mentions_iff.2 hstart)]
    -- the shapes that the report tells apart
    split
    · exact iff_of_false (Option.some_ne_none _) Bool.false_ne_true
    · exact iff_of_true rfl rfl
    · exact iff_of_false (Option.some_ne_none _) Bool.false_ne_true
    · exact iff_of_true rfl rfl
    · rename_i hterminal _ hpair
      refine iff_of_false (Option.some_ne_none _) fun hnormal => ?_
      rcases isNormal_iff.1 hnormal with ⟨t, rfl⟩ | ⟨a, b, rfl⟩
      · exact hterminal t rfl
      · exact hpair a b rfl

/-- The alternative breaks a condition of the normal form: the start symbol occurs in it,
or it is neither one terminal nor two nonterminals. -/
def Breaks (start : String) (p : Phrase) : Prop :=
  .nonterminal start ∈ p ∨
    ¬ ((∃ t, p = [.terminal t]) ∨ ∃ a b, p = [.nonterminal a, .nonterminal b])

/-- A violation is reported exactly for the alternatives that break a condition. -/
theorem breaks_iff : p.Breaks start ↔ p.violation? start lhs ≠ none := by
  rw [ne_eq, violation?_eq_none_iff, isNormal_iff, not_and_or, not_not, Breaks]

instance (start : String) (p : Phrase) : Decidable (p.Breaks start) :=
  decidable_of_iff (p.violation? start "" ≠ none) breaks_iff.symm

end Phrase

/-- The violation that stands for an alternative of a left side. That the start symbol
occurs comes before anything about the shape. -/
inductive Violation.Reports (start lhs : String) (p : Phrase) : Violation → Prop where
  | startOnRightSide : .nonterminal start ∈ p → Reports start lhs p (.startOnRightSide lhs)
  | nullProduction : p = [] → Reports start lhs p (.nullProduction lhs)
  | unitProduction {target : String} : target ≠ start → p = [.nonterminal target] →
      Reports start lhs p (.unitProduction lhs target)
  /-- No condition but that on the two shapes can be named. -/
  | badShape : .nonterminal start ∉ p → p ≠ [] → (∀ target, p ≠ [.nonterminal target]) →
      (∀ t, p ≠ [.terminal t]) → (∀ a b, p ≠ [.nonterminal a, .nonterminal b]) →
      Reports start lhs p (.badShape lhs p)

theorem Phrase.violation?_eq_some_iff {p : Phrase} {start lhs : String} {v : Violation} :
    p.violation? start lhs = some v ↔ v.Reports start lhs p := by
  unfold violation?
  by_cases hstart : p.mentions start = true
  · have hmem := mentions_iff.1 hstart
    rw [if_pos hstart, Option.some.injEq]
    constructor
    · rintro rfl
      exact .startOnRightSide hmem
    · intro h
      cases h with
      | startOnRightSide => rfl
      | nullProduction hp => exact absurd (hp ▸ hmem) List.not_mem_nil
      | unitProduction hne hp =>
        subst hp
        exact absurd (Symbol.nonterminal.inj (List.mem_singleton.1 hmem)).symm hne
      | badShape hout => exact absurd hmem hout
  · have hout := mt mentions_iff.2 hstart
    rw [if_neg hstart]
    constructor
    · intro h
      split at h
      · obtain rfl := Option.some.inj h
        exact .nullProduction rfl
      · exact absurd h.symm (Option.some_ne_none v)
      · next target =>
        obtain rfl := Option.some.inj h
        refine .unitProduction ?_ rfl
        rintro rfl
        exact hout List.mem_cons_self
      · exact absurd h.symm (Option.some_ne_none v)
      · next hnil hterminal hunit hpair =>
        obtain rfl := Option.some.inj h
        exact .badShape hout hnil hunit hterminal hpair
    · intro h
      cases h with
      | startOnRightSide hmem => exact absurd hmem hout
      | nullProduction hp =>
        subst hp
        rfl
      | unitProduction _ hp =>
        subst hp
        rfl
      | badShape _ hnil hunit hterminal hpair =>
        -- no other shape is told apart
        split
        · exact absurd rfl hnil
        · exact absurd rfl (hterminal _)
        · exact absurd rfl (hunit _)
        · exact absurd rfl (hpair _ _)
        · rfl

/-! ## A grammar -/

/-- The results of a partial function on a list stand for the elements that have one. -/
theorem forall₂_filterMap {α β : Type} {f : α → Option β} {keep : α → Bool}
    (hkeep : ∀ a, keep a = (f a).isSome) (l : List α) :
    List.Forall₂ (fun a b => f a = some b) (l.filter keep) (l.filterMap f) := by
  induction l with
  | nil => exact .nil
  | cons a l ih =>
    have ha := hkeep a
    cases hf : f a with
    | none =>
      rw [hf, Option.isSome_none] at ha
      rwa [List.filter_cons_of_neg (by rw [ha]; exact Bool.false_ne_true),
        List.filterMap_cons_none hf]
    | some b =>
      rw [hf, Option.isSome_some] at ha
      rw [List.filter_cons_of_pos ha, List.filterMap_cons_some hf]
      exact .cons hf ih

namespace Grammar

variable {g : Grammar} {w : List String}

theorem unreachable_eq_nil_iff :
    g.unreachable.toList = [] ↔ ∀ name ∈ g.nonterminals, g.Reaches name := by
  simp only [List.eq_nil_iff_forall_not_mem, NameSet.mem_toList, unreachable, NameSet.mem_filter,
    Bool.not_eq_true', decide_eq_false_iff_not, mem_reachable_iff, not_and, not_not]

/-- There is nothing to report exactly if all alternatives are in normal form, the start
symbol occurs in none of them, and all nonterminals are reachable. -/
theorem violations_eq_nil_iff : g.violations = [] ↔
    (∀ lhs, ∀ p ∈ g.rules.alternatives lhs, .nonterminal g.start ∉ p ∧ p.isNormal = true) ∧
      ∀ name ∈ g.nonterminals, g.Reaches name := by
  rw [violations, List.append_eq_nil_iff, List.map_eq_nil_iff, unreachable_eq_nil_iff,
    List.filterMap_eq_nil_iff]
  refine and_congr_left fun _ => ?_
  simp only [Prod.forall, Rules.mem_productions_iff, Phrase.violation?_eq_none_iff]

/-- The list of violations is empty exactly for a grammar in normal form: the start
symbol occurs in no alternative, no alternative is empty or a single nonterminal, every
alternative is one terminal or two nonterminals, and a chain of occurrences links each
nonterminal to the start symbol. In any grammar, the list has one violation for each
alternative that breaks a condition, which names its left side, and one for each
nonterminal that no chain links to the start symbol. -/
theorem violations_exact (g : Grammar) :
    (g.violations = [] ↔
      (∀ lhs, ∀ p ∈ g.rules.alternatives lhs, .nonterminal g.start ∉ p) ∧
      (∀ lhs, ∀ p ∈ g.rules.alternatives lhs, p ≠ [] ∧ ∀ name, p ≠ [.nonterminal name]) ∧
      (∀ lhs, ∀ p ∈ g.rules.alternatives lhs,
        (∃ t, p = [.terminal t]) ∨ ∃ a b, p = [.nonterminal a, .nonterminal b]) ∧
      ∀ name ∈ g.nonterminals, Relation.ReflTransGen g.rules.LeadsTo g.start name) ∧
    ∃ (broken : List Violation) (unreachable : List String),
      g.violations = broken ++ unreachable.map .unreachable ∧
      List.Forall₂ (fun e v => Violation.Reports g.start e.1 e.2 v)
        (g.rules.productions.filter fun e => decide (e.2.Breaks g.start)) broken ∧
      unreachable.Nodup ∧
      ∀ name, name ∈ unreachable ↔
        name ∈ g.nonterminals ∧ ¬ Relation.ReflTransGen g.rules.LeadsTo g.start name := by
  constructor
  · rw [violations_eq_nil_iff]
    simp only [reaches_iff]
    constructor
    · rintro ⟨hnormal, hreach⟩
      have hshape := fun lhs p hp => Phrase.isNormal_iff.1 (hnormal lhs p hp).2
      refine ⟨fun lhs p hp => (hnormal lhs p hp).1, fun lhs p hp => ?_, hshape, hreach⟩
      rcases hshape lhs p hp with ⟨t, rfl⟩ | ⟨a, b, rfl⟩ <;> simp
    · rintro ⟨hstart, -, hshape, hreach⟩
      exact ⟨fun lhs p hp => ⟨hstart lhs p hp, Phrase.isNormal_iff.2 (hshape lhs p hp)⟩, hreach⟩
  · refine ⟨_, g.unreachable.toList, rfl, ?_, g.unreachable.nodup_toList, fun name => ?_⟩
    · -- an alternative breaks a condition exactly if a violation is reported for it
      have hbreaks : ∀ e : String × Phrase,
          decide (e.2.Breaks g.start) = (e.2.violation? g.start e.1).isSome := by
        intro e
        rw [Bool.eq_iff_iff, decide_eq_true_eq, Phrase.breaks_iff, Option.isSome_iff_ne_none]
      have hreports := forall₂_filterMap hbreaks g.rules.productions
      simpa only [Phrase.violation?_eq_some_iff] using hreports
    · rw [NameSet.mem_toList, unreachable, NameSet.mem_filter, Bool.not_eq_true',
        decide_eq_false_iff_not, mem_reachable_iff, reaches_iff]

namespace InNormalForm

variable (h : g.InNormalForm)

include h

theorem isNormal {lhs : String} {p : Phrase} (hp : p ∈ g.rules.alternatives lhs) :
    p.isNormal = true :=
  Phrase.isNormal_iff.2 (h.shape lhs p hp)

/-- A grammar in normal form has no violations. -/
theorem violations_eq_nil : g.violations = [] :=
  violations_eq_nil_iff.2 ⟨fun lhs p hp => ⟨h.start_notMem lhs p hp, h.isNormal hp⟩, h.reaches⟩

/-- The recognizer decides the language of a grammar in normal form. -/
theorem acceptsBySpans_eq_true_iff : g.acceptsBySpans w = true ↔ g.Accepts w :=
  acceptsBySpans_iff_accepts fun _ _ hp => h.isNormal hp

end InNormalForm

end Grammar

end Chomsky
