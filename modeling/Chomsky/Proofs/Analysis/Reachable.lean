import Chomsky.Analysis.Reachable
import Chomsky.Proofs.Grammar.Lookup
import Chomsky.Proofs.Name.Distinct

/-!
# Reachability, exactly

The layers of a saturation find everything that a finite chain of steps leads
to, as long as there are as many layers as elements that could be found. For the
nonterminals of a grammar the bound is the number of its occurrences.

## What this module delivers

- `Layered`, what holds before each layer, and `Layered.next`.
- `mem_saturate_iff`: the collection is exact.
- `Grammar.mem_reachable_iff`: a name is reachable exactly if a chain of
  occurrences leads to it from the start symbol.
-/

set_option autoImplicit false

namespace Chomsky

section Saturation

variable {α : Type} {step : α → List α} {seeds : List α}

/-- What holds before each layer: everything met so far is reached, all seeds are
met, and a step from an element that was seen leads to one that is met. -/
structure Layered (step : α → List α) (seeds frontier seen : List α) : Prop where
  /-- No element was seen twice. -/
  nodup : seen.Nodup
  /-- Whatever is met is reached from the seeds. -/
  reached : ∀ x, x ∈ frontier ∨ x ∈ seen → ReachedFrom step seeds x
  /-- The seeds are met. -/
  seed : ∀ x ∈ seeds, x ∈ frontier ∨ x ∈ seen
  /-- What a step leads to from an element that was seen is met. -/
  closed : ∀ x ∈ seen, ∀ y ∈ step x, y ∈ frontier ∨ y ∈ seen

theorem Layered.init (step : α → List α) (seeds : List α) : Layered step seeds seeds [] where
  nodup := List.nodup_nil
  reached := by
    rintro x (h | h)
    · exact .seed h
    · exact absurd h List.not_mem_nil
  seed x hx := Or.inl hx
  closed x hx := absurd hx List.not_mem_nil

variable [DecidableEq α]

/-- The elements of a frontier that were not seen before. -/
def unseen (frontier seen : List α) : List α :=
  distinct (frontier.filter fun x => !decide (x ∈ seen))

theorem mem_unseen {frontier seen : List α} {x : α} :
    x ∈ unseen frontier seen ↔ x ∈ frontier ∧ x ∉ seen := by
  rw [unseen, mem_distinct, List.mem_filter, Bool.not_eq_true', decide_eq_false_iff_not]

/-- One layer more: the new elements are seen, and what they lead to is the next
frontier. -/
theorem Layered.next {frontier seen : List α} (h : Layered step seeds frontier seen) :
    Layered step seeds ((unseen frontier seen).flatMap step) (seen ++ unseen frontier seen) where
  nodup := by
    refine List.nodup_append.2 ⟨h.nodup, nodup_distinct _, fun x hx y hy heq => ?_⟩
    exact (mem_unseen.1 hy).2 (heq ▸ hx)
  reached := by
    have hmet : ∀ x ∈ unseen frontier seen, ReachedFrom step seeds x := fun x hx =>
      h.reached x (Or.inl (mem_unseen.1 hx).1)
    rintro x (hx | hx)
    · obtain ⟨y, hy, hstep⟩ := List.mem_flatMap.1 hx
      exact .step (hmet y hy) hstep
    · rcases List.mem_append.1 hx with hx | hx
      · exact h.reached x (Or.inr hx)
      · exact hmet x hx
  seed x hx := by
    right
    rw [List.mem_append, mem_unseen]
    rcases h.seed x hx with hmem | hmem
    · by_cases hseen : x ∈ seen
      · exact Or.inl hseen
      · exact Or.inr ⟨hmem, hseen⟩
    · exact Or.inl hmem
  closed x hx y hy := by
    rcases List.mem_append.1 hx with hx | hx
    · right
      rw [List.mem_append, mem_unseen]
      rcases h.closed x hx y hy with hmem | hmem
      · by_cases hseen : y ∈ seen
        · exact Or.inl hseen
        · exact Or.inr ⟨hmem, hseen⟩
      · exact Or.inl hmem
    · exact Or.inl (List.mem_flatMap.2 ⟨x, hx, hy⟩)

omit [DecidableEq α] in
/-- When a frontier brings nothing new, what was seen is all there is. -/
theorem Layered.mem_iff {frontier seen : List α} (h : Layered step seeds frontier seen)
    (hdone : ∀ x ∈ frontier, x ∈ seen) {x : α} : x ∈ seen ↔ ReachedFrom step seeds x := by
  have hmet {y : α} : y ∈ frontier ∨ y ∈ seen → y ∈ seen := fun hy => hy.elim (hdone y) id
  constructor
  · exact fun hx => h.reached x (Or.inr hx)
  · intro hx
    induction hx with
    | seed hseed => exact hmet (h.seed _ hseed)
    | step _ hstep ih => exact hmet (h.closed _ ih _ hstep)

theorem mem_saturate_of_layered {finite : List α}
    (hfinite : ∀ x, ReachedFrom step seeds x → x ∈ finite) {layers : Nat}
    {frontier seen : List α} (h : Layered step seeds frontier seen)
    (hbound : finite.length ≤ layers + seen.length) {x : α} :
    x ∈ saturate step layers frontier seen ↔ ReachedFrom step seeds x := by
  induction layers generalizing frontier seen with
  | zero =>
    -- as many elements were seen as there can be, so the frontier has no other
    refine h.mem_iff fun y hy => Classical.byContradiction fun hnew => ?_
    have hsub : ∀ z ∈ y :: seen, z ∈ finite := by
      intro z hz
      rcases List.mem_cons.1 hz with rfl | hz
      · exact hfinite z (h.reached z (Or.inl hy))
      · exact hfinite z (h.reached z (Or.inr hz))
    have hlt := length_le_of_nodup_of_subset (List.nodup_cons.2 ⟨hnew, h.nodup⟩) hsub
    rw [List.length_cons] at hlt
    omega
  | succ layers ih =>
    rw [saturate, ← unseen]
    have hnext := h.next
    cases hcase : unseen frontier seen with
    | nil =>
      -- a layer without new elements is the last
      refine h.mem_iff fun y hy => Classical.byContradiction fun hnew => ?_
      exact List.not_mem_nil (hcase ▸ mem_unseen.2 ⟨hy, hnew⟩)
    | cons y ys =>
      rw [hcase] at hnext
      apply ih hnext
      rw [List.length_append, List.length_cons]
      omega

/-- A saturation collects exactly what is reached from the seeds, provided that
it has a layer for each element that could be. -/
theorem mem_saturate_iff {finite : List α} (hfinite : ∀ x, ReachedFrom step seeds x → x ∈ finite)
    {layers : Nat} (hbound : finite.length ≤ layers) {x : α} :
    x ∈ saturate step layers seeds [] ↔ ReachedFrom step seeds x :=
  mem_saturate_of_layered hfinite (Layered.init step seeds) (by simpa using hbound)

end Saturation

/-! ## Nonterminals of a grammar -/

theorem Phrase.mem_nonterminals {p : Phrase} {name : String} :
    name ∈ p.nonterminals ↔ .nonterminal name ∈ p := by
  rw [Phrase.nonterminals, List.mem_filterMap]
  constructor
  · rintro ⟨s, hs, heq⟩
    cases s with
    | terminal t => exact absurd heq (by simp [Symbol.nonterminal?])
    | nonterminal n =>
      obtain rfl := Option.some.inj heq
      exact hs
  · exact fun h => ⟨_, h, rfl⟩

theorem Rules.mem_successors {r : Rules} {lhs name : String} :
    name ∈ r.successors lhs ↔ ∃ p ∈ r.alternatives lhs, .nonterminal name ∈ p := by
  simp only [Rules.successors, List.mem_flatMap, Phrase.mem_nonterminals]

theorem Rules.mem_mentioned {r : Rules} {name : String} :
    name ∈ r.mentioned ↔ ∃ lhs, name ∈ r.successors lhs := by
  simp only [Rules.mentioned, List.mem_flatMap, Phrase.mem_nonterminals, Rules.mem_phrases_iff,
    Rules.mem_successors]
  constructor
  · rintro ⟨p, ⟨lhs, hp⟩, hmem⟩
    exact ⟨lhs, p, hp, hmem⟩
  · rintro ⟨lhs, p, hp, hmem⟩
    exact ⟨p, ⟨lhs, hp⟩, hmem⟩

namespace Grammar

/-- A chain of occurrences in alternatives leads from the start symbol to the
name. -/
abbrev Reaches (g : Grammar) (name : String) : Prop :=
  ReachedFrom g.rules.successors [g.start] name

variable {g : Grammar}

theorem reaches_start (g : Grammar) : g.Reaches g.start := .seed List.mem_cons_self

theorem Reaches.step {lhs name : String} {p : Phrase} (h : g.Reaches lhs)
    (hp : p ∈ g.rules.alternatives lhs) (hmem : .nonterminal name ∈ p) : g.Reaches name :=
  ReachedFrom.step h (Rules.mem_successors.2 ⟨p, hp, hmem⟩)

/-- The search for reachable nonterminals is exact, in every grammar. -/
theorem mem_reachable_iff {name : String} : name ∈ g.reachable ↔ g.Reaches name := by
  -- what is reached is the start symbol or occurs in some alternative
  have hfinite : ∀ x, g.Reaches x → x ∈ g.start :: g.rules.mentioned := by
    intro x hx
    cases hx with
    | seed h => exact List.mem_cons.2 (Or.inl (List.mem_singleton.1 h))
    | step _ h => exact List.mem_cons_of_mem _ (Rules.mem_mentioned.2 ⟨_, h⟩)
  rw [reachable, NameSet.mem_ofList]
  exact mem_saturate_iff hfinite (Nat.le_refl _)

end Grammar

end Chomsky
