import Chomsky.Proofs.Analysis.Nullable
import Mathlib.Data.Finset.Sort
import Mathlib.Data.List.Shortlex
import Mathlib.Data.List.Sublists

/-!
# The removals of a phrase, one by one

Every non-empty set of nullable positions is left out once. The sets are gone through by
size, and those of one size in the lexicographic order of their positions, so the place in
the list of removals tells which set was left out, even where two sets leave the same
phrase. Hence a phrase with `m` nullable occurrences has `2 ^ m - 1` removals.

The choices are made from the list of nullable positions and not from the phrase itself.
That list is ascending, which makes the order of the choices an order of position sets.

## What this module delivers

- `pairwise_choices` and `pairwise_nonemptyChoices`: the order of the choices.
- `length_nonemptyChoices`: their number.
- `Phrase.mem_nullablePositions` and `Phrase.forall₂_withoutPositions`: which positions
  there are to choose from, and what is left without the chosen ones.
- `Phrase.removedSets`, the sets that are left out, and `Phrase.removals_each_subset_once`:
  the removals beside these sets.
-/

set_option autoImplicit false

namespace Chomsky

/-! ## The order and the number of the choices -/

section Choices

variable {α : Type} {lt : α → α → Prop} {l : List α}

/-- From an ascending list, the choices of a size come in lexicographic order. -/
theorem pairwise_choices (h : l.Pairwise lt) (size : Nat) :
    (choices size l).Pairwise (List.Lex lt) := by
  induction l generalizing size with
  | nil =>
    cases size with
    | zero => exact List.pairwise_singleton _ _
    | succ size => exact List.Pairwise.nil
  | cons x l ih =>
    obtain ⟨hx, hl⟩ := List.pairwise_cons.1 h
    cases size with
    | zero => exact List.pairwise_singleton _ _
    | succ size =>
      rw [choices, List.pairwise_append, List.pairwise_map]
      refine ⟨(ih hl size).imp fun hlex => .cons hlex, ih hl (size + 1), ?_⟩
      -- a choice without the first element begins with a later one
      intro c hc d hd
      obtain ⟨c, -, rfl⟩ := List.mem_map.1 hc
      obtain ⟨hsub, hlength⟩ := mem_choices.1 hd
      cases d with
      | nil => exact absurd hlength (Nat.succ_ne_zero size).symm
      | cons y d => exact .rel (hx y (hsub.subset List.mem_cons_self))

theorem pairwise_nonemptyChoices (h : l.Pairwise lt) :
    (nonemptyChoices l).Pairwise (List.Shortlex lt) := by
  rw [nonemptyChoices, List.pairwise_flatMap]
  constructor
  · intro k _
    refine (pairwise_choices h (k + 1)).imp_of_mem fun {c d} hc hd hlex => ?_
    exact .of_lex ((mem_choices.1 hc).2.trans (mem_choices.1 hd).2.symm) hlex
  · refine List.pairwise_lt_range.imp fun {j k} hlt c hc d hd => ?_
    have hlength : c.length < d.length := by
      rw [(mem_choices.1 hc).2, (mem_choices.1 hd).2]
      exact Nat.succ_lt_succ hlt
    exact .of_length_lt hlength

theorem nodup_nonemptyChoices [Std.Asymm lt] (h : l.Pairwise lt) :
    (nonemptyChoices l).Nodup := by
  apply (pairwise_nonemptyChoices h).imp
  rintro c d hlt rfl
  exact irrefl c hlt

/-- With the empty choice, there are as many as there are sublists. -/
theorem length_nonemptyChoices [Std.Asymm lt] (h : l.Pairwise lt) :
    (nonemptyChoices l).length = 2 ^ l.length - 1 := by
  have hnodup : l.Nodup := by
    apply h.imp
    rintro a b hlt rfl
    exact irrefl a hlt
  have hnil : [] ∉ nonemptyChoices l := fun hmem => (mem_nonemptyChoices.1 hmem).1 rfl
  have hperm : ([] :: nonemptyChoices l).Perm l.sublists' := by
    rw [List.perm_ext_iff_of_nodup (List.nodup_cons.2 ⟨hnil, nodup_nonemptyChoices h⟩)
      (List.nodup_sublists'.2 hnodup)]
    intro c
    rw [List.mem_cons, mem_nonemptyChoices, List.mem_sublists']
    by_cases hc : c = []
    · simp [hc]
    · simp [hc]
  have hlength := hperm.length_eq
  rw [List.length_cons, List.length_sublists'] at hlength
  exact Nat.eq_sub_of_add_eq hlength

end Choices

namespace Phrase

variable {nullable : NameSet} {p : Phrase}

/-! ## Positions of a phrase -/

theorem mem_nullablePositions {i : Nat} :
    i ∈ p.nullablePositions nullable ↔ ∃ name ∈ nullable, p[i]? = some (.nonterminal name) := by
  simp only [nullablePositions, List.mem_map, List.mem_filter, Symbol.isNullable_iff]
  constructor
  · rintro ⟨⟨s, i⟩, ⟨hmem, name, hname, rfl⟩, rfl⟩
    exact ⟨name, hname, List.mk_mem_zipIdx_iff_getElem?.1 hmem⟩
  · rintro ⟨name, hname, hget⟩
    exact ⟨_, ⟨List.mk_mem_zipIdx_iff_getElem?.2 hget, name, hname, rfl⟩, rfl⟩

theorem pairwise_nullablePositions (nullable : NameSet) (p : Phrase) :
    (p.nullablePositions nullable).Pairwise (· < ·) := by
  have hsub : (p.nullablePositions nullable).Sublist (p.zipIdx.map Prod.snd) :=
    List.filter_sublist.map Prod.snd
  rw [List.zipIdx_map_snd] at hsub
  exact (List.pairwise_lt_range' 1).sublist hsub

/-- What is left has the symbols at all other positions, in their order. -/
theorem forall₂_withoutPositions (p : Phrase) (positions : List Nat) :
    List.Forall₂ (fun s i => p[i]? = some s) (p.withoutPositions positions)
      ((List.range p.length).filter fun i => i ∉ positions) := by
  have hkept : ((List.range p.length).filter fun i => i ∉ positions) =
      (p.zipIdx.filter fun e => !positions.contains e.2).map Prod.snd := by
    rw [List.range_eq_range', ← List.zipIdx_map_snd 0 p, List.filter_map]
    simp [Function.comp_def]
  rw [hkept, withoutPositions, List.forall₂_map_left_iff, List.forall₂_map_right_iff,
    List.forall₂_same]
  intro e he
  exact List.mem_zipIdx_iff_getElem?.1 (List.mem_filter.1 he).1

/-! ## The sets that are left out -/

/-- The sets of positions that are left out, in the order of the removals. -/
def removedSets (nullable : NameSet) (p : Phrase) : List (Finset Nat) :=
  (nonemptyChoices (p.nullablePositions nullable)).map List.toFinset

theorem mem_removedSets {s : Finset Nat} : s ∈ p.removedSets nullable ↔
    s.Nonempty ∧ s ⊆ (p.nullablePositions nullable).toFinset := by
  rw [removedSets, List.mem_map]
  constructor
  · rintro ⟨c, hc, rfl⟩
    obtain ⟨hne, hsub⟩ := mem_nonemptyChoices.1 hc
    refine ⟨(List.toFinset_nonempty_iff c).2 hne, fun i hi => ?_⟩
    exact List.mem_toFinset.2 (hsub.subset (List.mem_toFinset.1 hi))
  · rintro ⟨hne, hsub⟩
    -- the positions of the set, as far as there are any to choose from
    have heq : ((p.nullablePositions nullable).filter fun i => i ∈ s).toFinset = s := by
      ext i
      rw [List.mem_toFinset, List.mem_filter, decide_eq_true_eq]
      exact and_iff_right_of_imp fun hi => List.mem_toFinset.1 (hsub hi)
    refine ⟨_, mem_nonemptyChoices.2 ⟨?_, List.filter_sublist⟩, heq⟩
    intro hnil
    rw [hnil, List.toFinset_nil] at heq
    exact hne.ne_empty heq.symm

/-- The sets come by size, and those of one size in the order of their positions. -/
theorem pairwise_removedSets (nullable : NameSet) (p : Phrase) :
    (p.removedSets nullable).Pairwise
      fun s t => List.Shortlex (· < ·) (s.sort (· ≤ ·)) (t.sort (· ≤ ·)) := by
  have hascending := pairwise_nullablePositions nullable p
  have hsort : ∀ c ∈ nonemptyChoices (p.nullablePositions nullable),
      c.toFinset.sort (· ≤ ·) = c := by
    intro c hc
    have hc := hascending.sublist (mem_nonemptyChoices.1 hc).2
    exact (List.toFinset_sort _ hc.nodup).2 (hc.imp Nat.le_of_lt)
  rw [removedSets, List.pairwise_map]
  refine (pairwise_nonemptyChoices hascending).imp_of_mem fun hc hd hlt => ?_
  rwa [hsort _ hc, hsort _ hd]

theorem nodup_removedSets (nullable : NameSet) (p : Phrase) : (p.removedSets nullable).Nodup := by
  apply (pairwise_removedSets nullable p).imp
  rintro s t hlt rfl
  exact irrefl _ hlt

/-- The removals of a phrase stand beside the non-empty sets of positions that hold a
nullable nonterminal, each of them once, the smaller sets first and sets of one size in
the lexicographic order of their positions. Beside a set stands the phrase that has the
symbols at all other positions, in their order. So there are `2 ^ m - 1` removals if there
are `m` such positions. -/
theorem removals_each_subset_once (nullable : NameSet) (p : Phrase) :
    ∃ (places : Finset Nat) (subsets : List (Finset Nat)),
      (∀ i, i ∈ places ↔ ∃ name ∈ nullable, p[i]? = some (.nonterminal name)) ∧
      (p.removals nullable).length = 2 ^ places.card - 1 ∧
      subsets.Nodup ∧ (∀ s, s ∈ subsets ↔ s.Nonempty ∧ s ⊆ places) ∧
      subsets.Pairwise
        (fun s t => List.Shortlex (· < ·) (s.sort (· ≤ ·)) (t.sort (· ≤ ·))) ∧
      List.Forall₂ (fun q s => List.Forall₂ (fun a i => p[i]? = some a) q
        ((List.range p.length).filter fun i => i ∉ s)) (p.removals nullable) subsets := by
  refine ⟨(p.nullablePositions nullable).toFinset, p.removedSets nullable, fun i => ?_, ?_,
    nodup_removedSets nullable p, fun s => mem_removedSets, pairwise_removedSets nullable p, ?_⟩
  · rw [List.mem_toFinset, mem_nullablePositions]
  · have hascending := pairwise_nullablePositions nullable p
    rw [removals_eq_map, List.length_map, length_nonemptyChoices hascending,
      List.toFinset_card_of_nodup hascending.nodup]
  · rw [removals_eq_map, removedSets, List.forall₂_map_left_iff, List.forall₂_map_right_iff,
      List.forall₂_same]
    intro c _
    simpa using forall₂_withoutPositions p c

/-- Two sets can leave the same phrase, which then stands beside each of them. -/
example : Phrase.removals (NameSet.ofList ["A"]) [.nonterminal "A", .nonterminal "A"] =
    [[.nonterminal "A"], [.nonterminal "A"], []] := by
  decide

end Phrase

end Chomsky
