import Chomsky.Grammar.Derivation
import Chomsky.Proofs.Grammar.Lookup

/-!
# Comparing the derivations of two rule maps

Every rewriting of a grammar is shown to keep the derived words by one of two
arguments, both by induction on a derivation.

- *Transfer.* If each alternative of the first rules, read in the second rules,
  gives a word that its left side derives there, then every derivation of the
  first rules is one of the second (`Yields.transfer`).
- *Unfolding.* A symbol of the new rules stands for a phrase of the old ones. If
  each alternative of a symbol stands for what the symbol stands for, or for an
  alternative that it had, then what a phrase derives is derived by the phrase it
  stands for (`Yields.unfold`).

## What this module delivers

- `Yields.transfer`, `Unfolds` and `Yields.unfold`.
- `Yields.ne_nil`: without empty alternatives only the empty phrase derives the
  empty word.
-/

set_option autoImplicit false

namespace Chomsky

namespace Yields

variable {r r' : Rules}

theorem nil_iff {w : List String} : Yields r [] w ↔ w = [] := by
  constructor
  · intro h
    cases h
    rfl
  · rintro rfl
    exact .nil

theorem nonterminal_cons_iff {name : String} {rest : Phrase} {w : List String} :
    Yields r (.nonterminal name :: rest) w ↔
      ∃ u v, w = u ++ v ∧ r.Derives name u ∧ Yields r rest v := by
  constructor
  · intro h
    cases h with
    | nonterminal hmem hu hv => exact ⟨_, _, rfl, ⟨_, hmem, hu⟩, hv⟩
  · rintro ⟨u, v, rfl, ⟨p, hmem, hu⟩, hv⟩
    exact .nonterminal hmem hu hv

/-- A phrase with one symbol in front derives a word in two parts. -/
theorem cons_iff {s : Symbol} {rest : Phrase} {w : List String} :
    Yields r (s :: rest) w ↔ ∃ u v, w = u ++ v ∧ Yields r [s] u ∧ Yields r rest v := by
  constructor
  · intro h
    exact of_append (p := [s]) h
  · rintro ⟨u, v, rfl, hu, hv⟩
    exact append hu hv

/-! ## Transfer -/

/-- Derivations carry over to rules in which each alternative gives words that
its left side derives. -/
theorem transfer {p : Phrase} {w : List String} (h : Yields r p w)
    (hstep : ∀ lhs, ∀ q ∈ r.alternatives lhs, ∀ u, Yields r' q u → r'.Derives lhs u) :
    Yields r' p w := by
  induction h with
  | nil => exact .nil
  | terminal t _ ih => exact .terminal t ih
  | nonterminal hmem _ _ ihu ihw =>
    obtain ⟨q, hq, hu⟩ := hstep _ _ hmem _ ihu
    exact .nonterminal hq hu ihw

/-- More alternatives derive more words. -/
theorem mono {p : Phrase} {w : List String} (h : Yields r p w)
    (hsub : ∀ lhs, ∀ q ∈ r.alternatives lhs, q ∈ r'.alternatives lhs) : Yields r' p w :=
  h.transfer fun lhs q hq _ hu => ⟨q, hsub lhs q hq, hu⟩

/-- A replacement of symbols, each by one that derives at least as much. -/
theorem map {f : Symbol → Symbol} {p : Phrase} {w : List String}
    (hf : ∀ s ∈ p, ∀ u, Yields r [s] u → Yields r [f s] u) (h : Yields r p w) :
    Yields r (p.map f) w := by
  induction p generalizing w with
  | nil => exact h
  | cons s p ih =>
    -- the word is divided between the first symbol and the others
    obtain ⟨u, v, rfl, hu, hv⟩ := cons_iff.1 h
    exact cons_iff.2 ⟨u, v, rfl, hf s List.mem_cons_self u hu,
      ih (fun x hx => hf x (List.mem_cons_of_mem s hx)) hv⟩

/-! ## The empty word -/

/-- Without empty alternatives, a phrase with symbols derives no empty word. -/
theorem ne_nil {p : Phrase} {w : List String} (h : Yields r p w)
    (hr : ∀ lhs, [] ∉ r.alternatives lhs) (hp : p ≠ []) : w ≠ [] := by
  induction h with
  | nil => exact absurd rfl hp
  | terminal t _ _ => exact List.cons_ne_nil _ _
  | @nonterminal name q _ _ _ hmem _ _ ihu _ =>
    have hq : q ≠ [] := by
      rintro rfl
      exact hr name hmem
    intro hnil
    exact ihu hq (List.append_eq_nil_iff.1 hnil).1

end Yields

/-! ## Unfolding -/

/-- The second phrase consists of what the symbols of the first stand for. -/
inductive Unfolds (stands : Symbol → Phrase → Prop) : Phrase → Phrase → Prop where
  | nil : Unfolds stands [] []
  | cons {s : Symbol} {p q rest : Phrase} :
      stands s p → Unfolds stands q rest → Unfolds stands (s :: q) (p ++ rest)

theorem Unfolds.single {stands : Symbol → Phrase → Prop} {s : Symbol} {p : Phrase}
    (h : stands s p) : Unfolds stands [s] p := by
  have := Unfolds.cons h .nil
  rwa [List.append_nil] at this

/-- A symbol-wise replacement unfolds to what it replaces. -/
theorem Unfolds.map {stands : Symbol → Phrase → Prop} {f : Symbol → Symbol} {p : Phrase}
    (h : ∀ s ∈ p, stands (f s) [s]) : Unfolds stands (p.map f) p := by
  induction p with
  | nil => exact .nil
  | cons s p ih =>
    exact .cons (p := [s]) (h s List.mem_cons_self)
      (ih fun x hx => h x (List.mem_cons_of_mem s hx))

/-- A phrase whose symbols stand for themselves unfolds to itself. -/
theorem Unfolds.refl {stands : Symbol → Phrase → Prop} {p : Phrase}
    (h : ∀ s ∈ p, stands s [s]) : Unfolds stands p p := by
  have := Unfolds.map (f := id) h
  rwa [List.map_id] at this

/-- What a phrase of the rules `r'` derives is derived in `r` by the phrase that
it stands for. -/
theorem Yields.unfold {r r' : Rules} {stands : Symbol → Phrase → Prop} {q : Phrase}
    {w : List String} (h : Yields r' q w)
    (hterminal : ∀ t p, stands (.terminal t) p → p = [.terminal t])
    (hnonterminal : ∀ name p, stands (.nonterminal name) p → ∀ q ∈ r'.alternatives name,
      Unfolds stands q p ∨
        (p = [.nonterminal name] ∧ ∃ p' ∈ r.alternatives name, Unfolds stands q p'))
    {p : Phrase} (hp : Unfolds stands q p) : Yields r p w := by
  induction h generalizing p with
  | nil =>
    cases hp
    exact .nil
  -- a terminal stands for itself
  | terminal t _ ih =>
    cases hp with
    | cons hs hrest =>
      rw [hterminal t _ hs]
      exact .terminal t (ih hrest)
  | @nonterminal name q _ u _ hmem _ _ ihu ihw =>
    cases hp with
    | cons hs hrest =>
      -- the alternative unfolds to what the name stands for, or to an alternative of it
      refine Yields.append ?_ (ihw hrest)
      rcases hnonterminal name _ hs q hmem with hq | ⟨rfl, p', hp', hq⟩
      · exact ihu hq
      · exact yields_nonterminal_iff.2 ⟨p', hp', ihu hq⟩

/-- Derivations stay inside a set of names that is closed in the rules `r'` and
on which `r` has the same alternatives. -/
theorem Yields.restrict {r r' : Rules} (inside : String → Prop) {p : Phrase} {w : List String}
    (h : Yields r' p w)
    (hclosed : ∀ lhs, inside lhs → ∀ q ∈ r'.alternatives lhs, q ∈ r.alternatives lhs ∧
      ∀ name, .nonterminal name ∈ q → inside name)
    (hp : ∀ name, .nonterminal name ∈ p → inside name) : Yields r p w := by
  induction h with
  | nil => exact .nil
  | terminal t _ ih =>
    exact .terminal t (ih fun name hname => hp name (List.mem_cons_of_mem _ hname))
  | nonterminal hmem _ _ ihu ihw =>
    obtain ⟨hmem', hq⟩ := hclosed _ (hp _ List.mem_cons_self) _ hmem
    exact .nonterminal hmem' (ihu hq)
      (ihw fun name hname => hp name (List.mem_cons_of_mem _ hname))

end Chomsky
