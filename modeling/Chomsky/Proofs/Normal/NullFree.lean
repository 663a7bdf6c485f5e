import Chomsky.Normal.NullFree
import Chomsky.Proofs.Analysis.Nullable
import Chomsky.Proofs.Grammar.WellFormed

/-!
# Without empty alternatives

Removing the empty alternatives takes the empty word from every nonterminal and
keeps all its other words. A derivation of a non-empty word is cut where it
derives the empty word, and the alternative that remains at each place is one of
those that leave out nullable occurrences.

## What this module delivers

- `Grammar.mem_alternatives_removeNull`: the new alternatives of a name.
- `Grammar.derives_removeNull_iff` and `Grammar.accepts_removeNull_iff`: the words
  of a name, and those of the grammar.
- `SelfContained.removeNull`: the grammar still holds together.
- `removeNull_removes_empty_word`: what the alternatives, the words and the flag are
  afterwards.
-/

set_option autoImplicit false

namespace Chomsky

open Phrase (Removes)

variable {nullable : NameSet} {alternatives : List Phrase} {q : Phrase}

/-- Only the empty phrase is left of the empty phrase. -/
theorem Phrase.Removes.ne_nil {p : Phrase} (h : Removes nullable p q) (hq : q ≠ []) : p ≠ [] := by
  rintro rfl
  cases h
  exact hq rfl

theorem mem_alternativesWithoutNull :
    q ∈ alternativesWithoutNull nullable alternatives ↔
      q ≠ [] ∧ ∃ p ∈ alternatives, Removes nullable p q := by
  simp only [alternativesWithoutNull, mem_pushAll, mem_distinct, List.mem_filter, List.mem_flatMap,
    Bool.not_eq_true', List.isEmpty_eq_false_iff]
  constructor
  · rintro (⟨hq, hne⟩ | ⟨⟨p, ⟨hp, -⟩, hremoval⟩, hne⟩)
    · exact ⟨hne, q, hq, .refl nullable q⟩
    · exact ⟨hne, p, hp, Phrase.removes_iff_mem_removals.2 (Or.inr hremoval)⟩
  · rintro ⟨hne, p, hp, hremoves⟩
    rcases Phrase.removes_iff_mem_removals.1 hremoves with rfl | hremoval
    · exact Or.inl ⟨hp, hne⟩
    · exact Or.inr ⟨⟨p, ⟨hp, hremoves.ne_nil hne⟩, hremoval⟩, hne⟩

theorem nodup_alternativesWithoutNull (nullable : NameSet) (alternatives : List Phrase) :
    (alternativesWithoutNull nullable alternatives).Nodup := nodup_pushAll (nodup_distinct _)

/-- What a phrase derives after some nullable occurrences were left out, it
derives with them as well. -/
theorem Yields.of_removes {r : Rules} {p : Phrase} {w : List String}
    (h : Removes r.nullable p q) (hq : Yields r q w) : Yields r p w := by
  induction h generalizing w with
  | nil => exact hq
  | keep s _ ih =>
    obtain ⟨u, v, rfl, hu, hv⟩ := Yields.cons_iff.1 hq
    exact Yields.cons_iff.2 ⟨u, v, rfl, hu, ih hv⟩
  | drop hs _ ih =>
    obtain ⟨name, hname, rfl⟩ := Symbol.isNullable_iff.1 hs
    exact Yields.nonterminal_cons_iff.2
      ⟨[], w, rfl, Rules.mem_nullable_iff.1 hname, ih hq⟩

namespace Grammar

variable {g : Grammar} {lhs : String} {w : List String}

@[simp] theorem removeNull_nonterminals (g : Grammar) :
    g.removeNull.nonterminals = g.nonterminals := rfl

@[simp] theorem removeNull_terminals (g : Grammar) : g.removeNull.terminals = g.terminals := rfl

@[simp] theorem removeNull_start (g : Grammar) : g.removeNull.start = g.start := rfl

@[simp] theorem keys_removeNull (g : Grammar) : g.removeNull.rules.keys = g.rules.keys :=
  NameMap.keys_mapEntries _ _

theorem alternatives_removeNull (g : Grammar) (lhs : String) :
    g.removeNull.rules.alternatives lhs
      = alternativesWithoutNull g.rules.nullable (g.rules.alternatives lhs) :=
  Rules.alternatives_mapEntries rfl

theorem mem_alternatives_removeNull :
    q ∈ g.removeNull.rules.alternatives lhs ↔
      q ≠ [] ∧ ∃ p ∈ g.rules.alternatives lhs, Removes g.rules.nullable p q := by
  rw [alternatives_removeNull, mem_alternativesWithoutNull]

theorem nodup_alternatives_removeNull (g : Grammar) (lhs : String) :
    (g.removeNull.rules.alternatives lhs).Nodup := by
  rw [alternatives_removeNull]
  exact nodup_alternativesWithoutNull _ _

theorem nil_notMem_alternatives_removeNull (g : Grammar) (lhs : String) :
    [] ∉ g.removeNull.rules.alternatives lhs := fun h => (mem_alternatives_removeNull.1 h).1 rfl

/-! ## Derived words -/

/-- A derivation in the new rules is one in the old rules. -/
theorem yields_of_removeNull {p : Phrase} (h : Yields g.removeNull.rules p w) :
    Yields g.rules p w := by
  apply h.transfer
  intro lhs q hq u hu
  obtain ⟨-, p, hp, hremoves⟩ := mem_alternatives_removeNull.1 hq
  exact ⟨p, hp, .of_removes hremoves hu⟩

/-- A derivation in the old rules becomes one in the new rules when the nullable
occurrences that it takes to the empty word are left out. -/
theorem exists_removes_yields {p : Phrase} (h : Yields g.rules p w) :
    ∃ q, Removes g.rules.nullable p q ∧ Yields g.removeNull.rules q w := by
  induction h with
  | nil => exact ⟨[], .nil, .nil⟩
  | terminal t _ ih =>
    obtain ⟨q, hq, hyields⟩ := ih
    exact ⟨.terminal t :: q, .keep _ hq, .terminal t hyields⟩
  | @nonterminal name p rest u v hmem hu _ ihu ihv =>
    obtain ⟨q, hq, hqu⟩ := ihu
    obtain ⟨q', hq', hqv⟩ := ihv
    by_cases hnil : u = []
    · -- the occurrence derives the empty word here, so it can be left out
      subst hnil
      have hname : name ∈ g.rules.nullable := Rules.mem_nullable_iff.2 ⟨p, hmem, hu⟩
      exact ⟨q', .drop (decide_eq_true hname) hq', hqv⟩
    · -- the rest of the alternative is not empty, so it is an alternative itself
      have hne : q ≠ [] := by
        rintro rfl
        exact hnil (Yields.nil_iff.1 hqu)
      have hmem' := mem_alternatives_removeNull.2 ⟨hne, p, hmem, hq⟩
      exact ⟨.nonterminal name :: q', .keep _ hq', .nonterminal hmem' hqu hqv⟩

/-- Removing empty alternatives takes away the empty word and no other. -/
theorem derives_removeNull_iff :
    g.removeNull.rules.Derives lhs w ↔ g.rules.Derives lhs w ∧ w ≠ [] := by
  constructor
  · rintro ⟨q, hq, hyields⟩
    obtain ⟨hne, p, hp, hremoves⟩ := mem_alternatives_removeNull.1 hq
    exact ⟨⟨p, hp, .of_removes hremoves (yields_of_removeNull hyields)⟩,
      hyields.ne_nil (nil_notMem_alternatives_removeNull g) hne⟩
  · rintro ⟨⟨p, hp, hyields⟩, hw⟩
    obtain ⟨q, hremoves, hq⟩ := exists_removes_yields hyields
    have hne : q ≠ [] := by
      rintro rfl
      exact hw (Yields.nil_iff.1 hq)
    exact ⟨q, mem_alternatives_removeNull.2 ⟨hne, p, hp, hremoves⟩, hq⟩

theorem acceptsEmpty_removeNull_iff : g.removeNull.acceptsEmpty = true ↔
    g.acceptsEmpty = true ∨ g.rules.Derives g.start [] := by
  rw [← Rules.mem_nullable_iff]
  simp [removeNull]

/-- What the start symbol no longer derives is noted in the grammar. -/
theorem accepts_removeNull_iff : g.removeNull.Accepts w ↔ g.Accepts w := by
  rw [Accepts, Accepts, removeNull_start, derives_removeNull_iff, acceptsEmpty_removeNull_iff]
  by_cases hw : w = []
  · subst hw
    simp [or_comm]
  · simp [hw]

/-! ## Well-formedness -/

theorem SelfContained.removeNull (h : g.SelfContained) : g.removeNull.SelfContained where
  start_mem := h.start_mem
  notMem_terminals := h.notMem_terminals
  lhs_mem lhs hlhs := h.lhs_mem lhs (keys_removeNull g ▸ hlhs)
  declares lhs q hq s hs := by
    obtain ⟨-, p, hp, hremoves⟩ := mem_alternatives_removeNull.1 hq
    exact h.declares lhs p hp s (hremoves.mem hs)

end Grammar

/-! ## What is removed -/

/-- Removing empty alternatives gives each left side, without repetition, the non-empty
phrases that its non-empty alternatives become when some occurrences of nonterminals that
derive the empty word are left out. Every name keeps its words except for the empty one,
and the flag is set in addition if the start symbol derived it. -/
theorem removeNull_removes_empty_word (g : Grammar) :
    (∀ name, name ∈ g.rules.nullable ↔ g.rules.Derives name []) ∧
    (∀ lhs, (g.removeNull.rules.alternatives lhs).Nodup ∧
      ∀ q, q ∈ g.removeNull.rules.alternatives lhs ↔
        q ≠ [] ∧ ∃ p ∈ g.rules.alternatives lhs, p ≠ [] ∧ Removes g.rules.nullable p q) ∧
    (∀ lhs w, g.removeNull.rules.Derives lhs w ↔ g.rules.Derives lhs w ∧ w ≠ []) ∧
    (g.removeNull.acceptsEmpty = true ↔ g.acceptsEmpty = true ∨ g.rules.Derives g.start []) ∧
    g.removeNull = { g with
      rules := g.removeNull.rules
      acceptsEmpty := g.removeNull.acceptsEmpty } ∧
    g.removeNull.rules.keys = g.rules.keys := by
  refine ⟨fun name => Rules.mem_nullable_iff,
    fun lhs => ⟨g.nodup_alternatives_removeNull lhs, fun q => ?_⟩,
    fun lhs w => Grammar.derives_removeNull_iff, Grammar.acceptsEmpty_removeNull_iff, rfl,
    g.keys_removeNull⟩
  rw [Grammar.mem_alternatives_removeNull]
  constructor
  · rintro ⟨hq, p, hp, hremoves⟩
    exact ⟨hq, p, hp, hremoves.ne_nil hq, hremoves⟩
  · rintro ⟨hq, p, hp, -, hremoves⟩
    exact ⟨hq, p, hp, hremoves⟩

end Chomsky
