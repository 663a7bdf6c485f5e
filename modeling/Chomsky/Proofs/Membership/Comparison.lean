import Chomsky.Proofs.Grammar.Simulation
import Chomsky.Proofs.Grammar.WellFormed
import Chomsky.Proofs.Membership.Earley
import Chomsky.Proofs.Membership.SpanTable
import Chomsky.Proofs.Membership.Words
import Chomsky.Proofs.Normal.Language
import Chomsky.Proofs.Normal.NormalForm

/-!
# The comparison decides equality of languages in the limit

The comparison looks at words over the terminals of the input grammar only. A grammar
that holds together derives no other words: each token of a derived word stands in some
alternative, and so it is declared.

So if two grammars hold together and have the same terminals, any word on which their
languages differ is found at its own length. The test on items is exact for the one
grammar, and the test on spans for the other, provided that its alternatives are in
normal form.

## What this module delivers

- `Grammar.SelfContained.mem_terminals_of_derives`: derived words consist of terminals.
- `forall_disagreement?_eq_none_iff`: when no length brings a disagreement.
- `disagreement?_exhaustive`: the comparison as a whole.
-/

set_option autoImplicit false

namespace Chomsky

/-! ## Words consist of terminals -/

namespace Grammar

variable {g : Grammar} {w : List String}

namespace SelfContained

variable (hg : g.SelfContained)

include hg

/-- The words of a phrase of declared symbols consist of terminals. The induction runs
over the derivation, since an alternative is again a phrase of declared symbols. -/
theorem mem_terminals_of_yields {p : Phrase} (h : Yields g.rules p w)
    (hp : ∀ s ∈ p, g.declares s = true) : ∀ t ∈ w, t ∈ g.terminals := by
  induction h with
  | nil => simp
  | terminal t _ ih =>
    obtain ⟨ht, hrest⟩ := List.forall_mem_cons.1 hp
    exact List.forall_mem_cons.2 ⟨declares_terminal.1 ht, ih hrest⟩
  | nonterminal hmem _ _ ihu ihw =>
    obtain ⟨-, hrest⟩ := List.forall_mem_cons.1 hp
    exact List.forall_mem_append.2 ⟨ihu (hg.declares _ _ hmem), ihw hrest⟩

theorem mem_terminals_of_derives {name : String} (h : g.rules.Derives name w) :
    ∀ t ∈ w, t ∈ g.terminals := by
  obtain ⟨p, hp, hyields⟩ := h
  exact hg.mem_terminals_of_yields hyields (hg.declares name p hp)

theorem mem_terminals_of_accepts (h : g.Accepts w) : ∀ t ∈ w, t ∈ g.terminals := by
  rcases h with hderives | ⟨rfl, -⟩
  · exact hg.mem_terminals_of_derives hderives
  · simp

end SelfContained

end Grammar

/-! ## All lengths together -/

/-- No length brings a disagreement exactly if the normal form accepts what the start
symbol of the input grammar derives, and nothing else. -/
theorem forall_disagreement?_eq_none_iff {input normalForm : Grammar}
    (hinput : input.SelfContained) (hself : normalForm.SelfContained)
    (hterminals : normalForm.terminals = input.terminals)
    (hnormal : ∀ lhs, ∀ p ∈ normalForm.rules.alternatives lhs, p.isNormal = true) :
    (∀ maxLength, disagreement? input normalForm maxLength = none) ↔
      ∀ w, input.rules.Derives input.start w ↔ normalForm.Accepts w := by
  have hagree : ∀ w, input.derivesByItems w = normalForm.acceptsBySpans w ↔
      (input.rules.Derives input.start w ↔ normalForm.Accepts w) := by
    intro w
    rw [Bool.eq_iff_iff, Grammar.derivesByItems, chartAccepts_iff_derives,
      Grammar.acceptsBySpans_iff_accepts hnormal]
  simp only [disagreement?_eq_none_iff, hagree]
  constructor
  · intro hnone w
    by_cases hw : ∀ t ∈ w, t ∈ input.terminals
    · exact hnone w.length w (Nat.le_refl _) hw
    · -- neither grammar has a word with an undeclared token
      refine iff_of_false (fun hderives => hw (hinput.mem_terminals_of_derives hderives))
        fun haccepts => hw ?_
      rw [← hterminals]
      exact hself.mem_terminals_of_accepts haccepts
  · intro hlanguage maxLength w _ _
    exact hlanguage w

/-- The comparison goes through all words over the terminals of the input grammar up to
the length, once each, by length and then lexicographically. It finds nothing exactly if
the two tests agree on all of them; what it finds otherwise is the first word on which
they differ, with their verdicts. For two grammars that hold together and have the same
terminals, the second one with alternatives in normal form only, it finds nothing at any
length exactly if the second accepts what the start symbol of the first derives. -/
theorem disagreement?_exhaustive :
    (∀ (terminals : NameSet) (maxLength : Nat),
      (∀ w, w ∈ words terminals maxLength ↔ w.length ≤ maxLength ∧ ∀ t ∈ w, t ∈ terminals) ∧
        (words terminals maxLength).Nodup ∧
          (words terminals maxLength).Pairwise (List.Shortlex (· < ·))) ∧
    (∀ maxLength, words ∅ maxLength = [[]]) ∧
    (∀ (input normalForm : Grammar) (maxLength : Nat),
      (disagreement? input normalForm maxLength = none ↔
        ∀ w : List String, w.length ≤ maxLength → (∀ t ∈ w, t ∈ input.terminals) →
          input.derivesByItems w = normalForm.acceptsBySpans w) ∧
      ∀ v, disagreement? input normalForm maxLength = some v ↔
        v = Verdicts.of input normalForm v.word ∧ v.input ≠ v.normalForm ∧
          v.word.length ≤ maxLength ∧ (∀ t ∈ v.word, t ∈ input.terminals) ∧
            ∀ w : List String, (∀ t ∈ w, t ∈ input.terminals) →
              List.Shortlex (· < ·) w v.word →
                input.derivesByItems w = normalForm.acceptsBySpans w) ∧
    ∀ input normalForm : Grammar, input.WellFormed → normalForm.WellFormed →
      normalForm.terminals = input.terminals →
        (∀ lhs, ∀ p ∈ normalForm.rules.alternatives lhs,
          (∃ t, p = [.terminal t]) ∨ ∃ a b, p = [.nonterminal a, .nonterminal b]) →
          ((∀ maxLength, disagreement? input normalForm maxLength = none) ↔
            ∀ w, input.rules.Derives input.start w ↔ normalForm.Accepts w) := by
  refine ⟨fun terminals maxLength => ⟨fun w => mem_words, nodup_words _ _, pairwise_words _ _⟩,
    words_empty, fun input normalForm maxLength => ⟨disagreement?_eq_none_iff, fun v =>
      disagreement?_eq_some_iff⟩, ?_⟩
  intro input normalForm hinput hself hterminals hshape
  apply forall_disagreement?_eq_none_iff (Grammar.wellFormed_iff.1 hinput)
    (Grammar.wellFormed_iff.1 hself) hterminals
  intro lhs p hp
  exact Phrase.isNormal_iff.2 (hshape lhs p hp)

/-- Compared with itself, the sample differs on `"ac"` first. Compared with its normal
form, it differs on no word. -/
theorem disagreement?_exhaustive_nullableMiddle :
    (∀ w : List String, (∀ t ∈ w, t ∈ Sample.nullableMiddle.grammar.terminals) →
      List.Shortlex (· < ·) w ["a", "c"] →
        Sample.nullableMiddle.grammar.derivesByItems w
          = Sample.nullableMiddle.grammar.acceptsBySpans w) ∧
    ∃ result, normalize .standard Sample.nullableMiddle.grammar = .ok result ∧
      ∀ maxLength,
        disagreement? Sample.nullableMiddle.grammar result.grammar maxLength = none := by
  obtain ⟨-, -, hfirst, hlimit⟩ := disagreement?_exhaustive
  constructor
  · have hfound : disagreement? Sample.nullableMiddle.grammar Sample.nullableMiddle.grammar 3
        = some ⟨["a", "c"], true, false⟩ := by decide
    obtain ⟨-, -, -, -, hbefore⟩ := ((hfirst _ _ 3).2 _).1 hfound
    exact hbefore
  · obtain ⟨result, h⟩ : ∃ result,
        normalize .standard Sample.nullableMiddle.grammar = .ok result := ⟨_, rfl⟩
    obtain ⟨hg, hdemand, rfl⟩ := normalize_eq_ok h
    have hform := Grammar.inNormalForm_normal hg hdemand
    refine ⟨_, h, (hlimit _ _ (Grammar.wellFormed_iff.2 hg)
      (Grammar.wellFormed_iff.2 (Grammar.selfContained_normal hg hdemand)) ?_ hform.shape).2
      fun w => ?_⟩
    · exact Grammar.terminals_normal (by omega)
    · rw [Grammar.accepts_normal_iff hg hdemand]
      exact (or_iff_left fun hempty => Bool.false_ne_true hempty.2).symm

end Chomsky
