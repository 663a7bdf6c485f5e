import Chomsky.Grammar.Samples
import Chomsky.Proofs.Normal.Stages

/-!
# The language of the normal form

Two of the six phases change what a nonterminal derives: removing empty
alternatives takes the empty word away, and pruning takes all words away from a
nonterminal that is not reachable. The others leave the words of every name that
was there before as they were. So the words of a name are followed from the first
grammar to the last, and the language with them.

## What this module delivers

- `Grammar.derives_stripped_iff` and `Grammar.derives_normal_iff`: the words of a
  name after pruning and at the end.
- `normalize_preserves_words`: the language, and the words of every nonterminal
  that is left.
-/

set_option autoImplicit false

namespace Chomsky

namespace Grammar

variable {g : Grammar} {scheme : NameScheme} {lhs : String} {w : List String}

/-- After pruning, a name that is left derives its words of before, except for the
empty word. -/
theorem derives_stripped_iff (hg : g.SelfContained)
    (hstart : g.startDemand ≤ (g.pool scheme).free.length) (hold : lhs ∈ g.nonterminals)
    (hlhs : lhs ∈ (g.stripped scheme).nonterminals) :
    (g.stripped scheme).rules.Derives lhs w ↔ g.rules.Derives lhs w ∧ w ≠ [] := by
  have hreach := (mem_nonterminals_prune.1 hlhs).2
  calc (g.stripped scheme).rules.Derives lhs w
      ↔ (g.started scheme).removeNull.splice.rules.Derives lhs w := derives_prune_iff hreach
    _ ↔ (g.started scheme).removeNull.rules.Derives lhs w := derives_splice_iff
    _ ↔ (g.started scheme).rules.Derives lhs w ∧ w ≠ [] := derives_removeNull_iff
    _ ↔ g.rules.Derives lhs w ∧ w ≠ [] :=
      and_congr_left' (derives_withStartIsolated_iff hg guards_pool hstart hold)

theorem accepts_stripped_iff (hg : g.SelfContained)
    (hstart : g.startDemand ≤ (g.pool scheme).free.length) :
    (g.stripped scheme).Accepts w ↔ g.Accepts w := by
  rw [stripped, accepts_prune_iff, accepts_splice_iff, accepts_removeNull_iff]
  exact accepts_withStartIsolated_iff hg guards_pool hstart

section Named

variable (hg : g.SelfContained)
  (h : g.startDemand + (g.stripped scheme).terminalDemand + (g.stripped scheme).pairDemand
    ≤ (g.pool scheme).free.length)

include hg h

/-- The two phases after pruning add names and keep the words of the others. -/
theorem derives_normal_iff (hlhs : lhs ∈ (g.stripped scheme).nonterminals) :
    (g.normal scheme).rules.Derives lhs w ↔ (g.stripped scheme).rules.Derives lhs w := by
  have hterminals := Nat.le_trans (Nat.le_add_right _ _) h
  have hstart := Nat.le_trans (Nat.le_add_right _ _) hterminals
  calc (g.normal scheme).rules.Derives lhs w
      ↔ (g.isolated scheme).rules.Derives lhs w :=
        derives_binarized_iff (reserves_isolated hg hterminals) (pairDemand_le hg hterminals h)
          (mem_nonterminals_isolated.2 (Or.inl hlhs))
    _ ↔ (g.stripped scheme).rules.Derives lhs w :=
        derives_terminalsIsolated_iff (selfContained_stripped hg hstart) (guards_stripped hstart)
          (terminalDemand_le hterminals) hlhs

theorem accepts_normal_iff : (g.normal scheme).Accepts w ↔ g.Accepts w := by
  have hterminals := Nat.le_trans (Nat.le_add_right _ _) h
  have hstart := Nat.le_trans (Nat.le_add_right _ _) hterminals
  calc (g.normal scheme).Accepts w
      ↔ (g.isolated scheme).Accepts w :=
        accepts_binarized_iff (reserves_isolated hg hterminals)
          (selfContained_isolated hg hterminals) (pairDemand_le hg hterminals h)
    _ ↔ (g.stripped scheme).Accepts w :=
        accepts_terminalsIsolated_iff (selfContained_stripped hg hstart) (guards_stripped hstart)
          (terminalDemand_le hterminals)
    _ ↔ g.Accepts w := accepts_stripped_iff hg hstart

/-- A name of the first grammar that is left at the end was left after pruning. -/
theorem mem_stripped_of_mem_normal (hold : lhs ∈ g.nonterminals)
    (hlhs : lhs ∈ (g.normal scheme).nonterminals) : lhs ∈ (g.stripped scheme).nonterminals := by
  have hterminals := Nat.le_trans (Nat.le_add_right _ _) h
  -- the names drawn in this run are not those of the grammar
  have hfresh : ∀ count, lhs ∉ ((g.pool scheme).drawn count).free := by
    intro count hmem
    rw [NamePool.free_drawn] at hmem
    exact (guards_pool.notMem (List.mem_of_mem_drop hmem)).1 hold
  rcases (mem_nonterminals_normal hg hterminals).1 hlhs with hlhs | hlhs
  · rcases mem_nonterminals_isolated.1 hlhs with hlhs | hlhs
    · exact hlhs
    · exact absurd (List.mem_of_mem_take hlhs) (hfresh _)
  · exact absurd (List.mem_of_mem_take hlhs) (hfresh _)

end Named

end Grammar

/-- A run without failure keeps the language, and a nonterminal of the grammar that
is left derives exactly the words that it did, except for the empty word. -/
theorem normalize_preserves_words {settings : Settings} {g : Grammar} {result : Workbench}
    (h : normalize settings g = .ok result) (w : List String) :
    (result.grammar.Accepts w ↔ g.Accepts w) ∧
      ∀ lhs ∈ g.nonterminals, lhs ∈ result.grammar.nonterminals →
        (result.grammar.rules.Derives lhs w ↔ g.rules.Derives lhs w ∧ w ≠ []) := by
  obtain ⟨hg, hdemand, rfl⟩ := normalize_eq_ok h
  refine ⟨Grammar.accepts_normal_iff hg hdemand, fun lhs hold hlhs => ?_⟩
  have hstart : g.startDemand ≤ (g.pool settings.scheme).free.length := by omega
  -- what is left at the end was left after pruning already
  have hkept := Grammar.mem_stripped_of_mem_normal hg hdemand hold hlhs
  rw [Grammar.derives_normal_iff hg hdemand hkept]
  exact Grammar.derives_stripped_iff hg hstart hold hkept

/-- In the sample, `B` derives the empty word and `"b"`, and it is left with `"b"`. -/
theorem normalize_preserves_words_nullableMiddle :
    ∃ result, normalize .standard Sample.nullableMiddle.grammar = .ok result ∧
      (result.grammar.Accepts ["b"] ↔ Sample.nullableMiddle.grammar.Accepts ["b"]) ∧
        (result.grammar.rules.Derives "B" ["b"] ↔
          Sample.nullableMiddle.grammar.rules.Derives "B" ["b"] ∧ ["b"] ≠ []) := by
  obtain ⟨result, h, hleft⟩ : ∃ result,
      normalize .standard Sample.nullableMiddle.grammar = .ok result ∧
        "B" ∈ result.grammar.nonterminals := ⟨_, rfl, by decide⟩
  obtain ⟨haccepts, hderives⟩ := normalize_preserves_words h ["b"]
  exact ⟨result, h, haccepts, hderives "B" (by decide) hleft⟩

end Chomsky
