import Chomsky.Grammar.Basic

/-!
# Derivations

The words that a phrase derives, as a relation: a terminal derives itself, a
nonterminal derives what one of its alternatives derives, and a phrase derives
the concatenations of what its symbols derive. A name without a rule derives
nothing.

## What this module delivers

- `Yields rules phrase word`, the derivability relation.
- `Rules.Derives name word`, derivability from one nonterminal.
- `Grammar.Accepts word`, membership in the language of a grammar.
- `Yields.append` and `Yields.of_append`: a concatenation of phrases derives
  the concatenations of their words, and nothing else.
-/

set_option autoImplicit false

namespace Chomsky

/-- The phrase derives the word. -/
inductive Yields (rules : Rules) : Phrase → List String → Prop where
  | nil : Yields rules [] []
  | terminal (t : String) {rest : Phrase} {w : List String} :
      Yields rules rest w → Yields rules (.terminal t :: rest) (t :: w)
  | nonterminal {name : String} {p rest : Phrase} {u w : List String} :
      p ∈ rules.alternatives name → Yields rules p u → Yields rules rest w →
        Yields rules (.nonterminal name :: rest) (u ++ w)

namespace Yields

variable {rules : Rules}

/-- Derivations of two phrases, side by side. -/
theorem append {p q : Phrase} {u w : List String} (hp : Yields rules p u)
    (hq : Yields rules q w) : Yields rules (p ++ q) (u ++ w) := by
  induction hp with
  | nil => exact hq
  | terminal t _ ih => exact .terminal t ih
  | nonterminal hmem hu _ _ ih =>
    rw [List.append_assoc]
    exact .nonterminal hmem hu ih

/-- A derivation of a concatenation splits into derivations of its parts. -/
theorem of_append {p q : Phrase} {w : List String} (h : Yields rules (p ++ q) w) :
    ∃ u v, w = u ++ v ∧ Yields rules p u ∧ Yields rules q v := by
  induction p generalizing w with
  | nil => exact ⟨[], w, rfl, .nil, h⟩
  | cons s p ih =>
    cases h with
    | terminal t h =>
      obtain ⟨u, v, rfl, hu, hv⟩ := ih h
      exact ⟨t :: u, v, rfl, .terminal t hu, hv⟩
    | @nonterminal _ _ _ x _ hmem hx h =>
      obtain ⟨u, v, rfl, hu, hv⟩ := ih h
      exact ⟨x ++ u, v, (List.append_assoc x u v).symm, .nonterminal hmem hx hu, hv⟩

end Yields

/-- The nonterminal derives the word. -/
def Rules.Derives (rules : Rules) (name : String) (w : List String) : Prop :=
  ∃ p ∈ rules.alternatives name, Yields rules p w

theorem yields_nonterminal_iff {rules : Rules} {name : String} {w : List String} :
    Yields rules [.nonterminal name] w ↔ Rules.Derives rules name w := by
  constructor
  · intro h
    cases h with
    | nonterminal hmem hu hnil =>
      cases hnil
      rw [List.append_nil]
      exact ⟨_, hmem, hu⟩
  · rintro ⟨p, hmem, hp⟩
    have := Yields.nonterminal hmem hp .nil
    rwa [List.append_nil] at this

/-- The word belongs to the language of the grammar: the start symbol derives
it, or it is empty and the grammar accepts the empty word. -/
def Grammar.Accepts (g : Grammar) (w : List String) : Prop :=
  Rules.Derives g.rules g.start w ∨ (w = [] ∧ g.acceptsEmpty = true)

end Chomsky
