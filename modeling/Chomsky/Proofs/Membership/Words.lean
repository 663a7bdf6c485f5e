import Chomsky.Membership.Words
import Mathlib.Data.List.Shortlex

/-!
# The comparison of two grammars on all short words

The words of one length are enumerated without a gap and in ascending order, and the
comparison goes through the lengths one after the other. So all words up to a length are
listed once each, the shorter ones first and words of one length in the order of a
dictionary.

The comparison finds nothing exactly if both tests give the same verdict on every word
over the terminals up to the length. What it finds otherwise is the first word of the
list with different verdicts: the tests agree on all words before it.

## What this module delivers

- `mem_words` and `pairwise_words`: which words are enumerated, and in which order.
- `disagreement?_eq_none_iff`: when the comparison finds nothing.
- `disagreement?_eq_some_iff`: what it finds.
-/

set_option autoImplicit false

namespace Chomsky

/-! ## The enumeration -/

/-- The words of a length are all words of this length over the terminals. -/
theorem mem_wordsOfLength {terminals : List String} {length : Nat} {w : List String} :
    w ∈ wordsOfLength terminals length ↔ w.length = length ∧ ∀ t ∈ w, t ∈ terminals := by
  induction length generalizing w with
  | zero =>
    rw [wordsOfLength, List.mem_singleton, List.length_eq_zero_iff]
    exact ⟨fun h => ⟨h, h ▸ fun t ht => absurd ht List.not_mem_nil⟩, And.left⟩
  | succ length ih =>
    rw [wordsOfLength, List.mem_flatMap]
    simp only [List.mem_map, ih]
    constructor
    · rintro ⟨t, ht, u, ⟨hlength, hu⟩, rfl⟩
      exact ⟨congrArg (· + 1) hlength, List.forall_mem_cons.2 ⟨ht, hu⟩⟩
    · rintro ⟨hlength, hw⟩
      cases w with
      | nil => exact absurd hlength (Nat.succ_ne_zero length).symm
      | cons t u =>
        obtain ⟨ht, hu⟩ := List.forall_mem_cons.1 hw
        exact ⟨t, ht, u, ⟨Nat.succ.inj hlength, hu⟩, rfl⟩

/-- From ascending terminals, the words of a length come in lexicographic order. -/
theorem pairwise_wordsOfLength {terminals : List String} (h : terminals.Pairwise (· < ·))
    (length : Nat) : (wordsOfLength terminals length).Pairwise (List.Lex (· < ·)) := by
  induction length with
  | zero => exact List.pairwise_singleton _ _
  | succ length ih =>
    rw [wordsOfLength, List.pairwise_flatMap]
    constructor
    · intro t _
      rw [List.pairwise_map]
      apply ih.imp
      intro u v huv
      exact .cons huv
    · -- the first tokens decide between words that begin differently
      refine h.imp fun {s t} hlt u hu v hv => ?_
      obtain ⟨u, -, rfl⟩ := List.mem_map.1 hu
      obtain ⟨v, -, rfl⟩ := List.mem_map.1 hv
      exact .rel hlt

theorem mem_words {terminals : NameSet} {maxLength : Nat} {w : List String} :
    w ∈ words terminals maxLength ↔ w.length ≤ maxLength ∧ ∀ t ∈ w, t ∈ terminals := by
  simp only [words, List.mem_flatMap, List.mem_range, mem_wordsOfLength, Nat.lt_succ_iff,
    NameSet.mem_toList]
  constructor
  · rintro ⟨length, hle, rfl, hw⟩
    exact ⟨hle, hw⟩
  · rintro ⟨hle, hw⟩
    exact ⟨w.length, hle, rfl, hw⟩

/-- The words up to a length come by length, and those of one length in lexicographic
order. -/
theorem pairwise_words (terminals : NameSet) (maxLength : Nat) :
    (words terminals maxLength).Pairwise (List.Shortlex (· < ·)) := by
  rw [words, List.pairwise_flatMap]
  constructor
  · intro length _
    refine (pairwise_wordsOfLength terminals.sorted length).imp_of_mem fun {u v} hu hv hlex => ?_
    have hlength : u.length = v.length :=
      (mem_wordsOfLength.1 hu).1.trans (mem_wordsOfLength.1 hv).1.symm
    exact .of_lex hlength hlex
  · refine List.pairwise_lt_range.imp fun {m n} hlt u hu v hv => ?_
    rw [← (mem_wordsOfLength.1 hu).1, ← (mem_wordsOfLength.1 hv).1] at hlt
    exact .of_length_lt hlt

/-- No word is listed twice. -/
theorem nodup_words (terminals : NameSet) (maxLength : Nat) :
    (words terminals maxLength).Nodup := by
  apply (pairwise_words terminals maxLength).imp
  rintro u v hlt rfl
  exact irrefl u hlt

/-- Without terminals there is the empty word only. -/
theorem words_empty (maxLength : Nat) : words ∅ maxLength = [[]] := by
  have hempty : (∅ : NameSet).toList = [] := rfl
  rw [words, List.range_succ_eq_map, List.flatMap_cons, hempty, List.flatMap_map]
  simp [wordsOfLength]

theorem length_le_of_shortlex {α : Type} {lt : α → α → Prop} {u v : List α}
    (h : List.Shortlex lt u v) : u.length ≤ v.length := by
  rcases List.shortlex_def.1 h with hlt | ⟨heq, -⟩
  · exact Nat.le_of_lt hlt
  · exact Nat.le_of_eq heq

/-- What a search through an ordered list finds first: all that is below it in the list
gives nothing. -/
theorem findSome?_eq_some_iff_of_pairwise {α β : Type} {lt : α → α → Prop} [Std.Asymm lt]
    {l : List α} (h : l.Pairwise lt) {f : α → Option β} {b : β} :
    l.findSome? f = some b ↔ ∃ a ∈ l, f a = some b ∧ ∀ a' ∈ l, lt a' a → f a' = none := by
  rw [List.findSome?_eq_some_iff]
  constructor
  · rintro ⟨before, a, after, rfl, hfound, hnone⟩
    refine ⟨a, by simp, hfound, fun a' hmem hlt => ?_⟩
    obtain ⟨-, hafter, -⟩ := List.pairwise_append.1 h
    rcases List.mem_append.1 hmem with hbefore | hmem
    · exact hnone a' hbefore
    · rcases List.mem_cons.1 hmem with rfl | hmem
      · exact absurd hlt (irrefl a')
      · exact absurd hlt (asymm (List.rel_of_pairwise_cons hafter hmem))
  · rintro ⟨a, hmem, hfound, hnone⟩
    obtain ⟨before, after, rfl⟩ := List.append_of_mem hmem
    obtain ⟨-, -, hbefore⟩ := List.pairwise_append.1 h
    refine ⟨before, a, after, rfl, hfound, fun x hx => ?_⟩
    exact hnone x (List.mem_append_left _ hx) (hbefore x hx a List.mem_cons_self)

/-! ## The comparison -/

section Comparison

variable {input normalForm : Grammar} {w : List String} {maxLength : Nat} {v : Verdicts}

theorem differing?_eq_none_iff : differing? input normalForm w = none ↔
    input.derivesByItems w = normalForm.acceptsBySpans w := by
  unfold differing?
  dsimp only [Verdicts.of]
  split
  · exact iff_of_true rfl ‹_›
  · exact iff_of_false (Option.some_ne_none _) ‹_›

theorem differing?_eq_some_iff : differing? input normalForm w = some v ↔
    v = Verdicts.of input normalForm w ∧ v.input ≠ v.normalForm := by
  unfold differing?
  dsimp only
  split
  · next heq =>
    refine iff_of_false (Option.some_ne_none v).symm ?_
    rintro ⟨rfl, hne⟩
    exact hne heq
  · next hne =>
    constructor
    · intro h
      obtain rfl := Option.some.inj h
      exact ⟨rfl, hne⟩
    · rintro ⟨rfl, -⟩
      rfl

theorem firstDiffering?_eq_findSome? (input normalForm : Grammar) (count length : Nat) :
    firstDiffering? input normalForm count length =
      ((List.range' length count).flatMap (wordsOfLength input.terminals.toList)).findSome?
        (differing? input normalForm) := by
  induction count generalizing length with
  | zero => rfl
  | succ count ih =>
    rw [firstDiffering?, List.range'_succ, List.flatMap_cons, List.findSome?_append, ih]
    cases (wordsOfLength input.terminals.toList length).findSome? (differing? input normalForm) with
    | none => rfl
    | some verdicts => rfl

/-- The comparison is a search through the words up to the length. -/
theorem disagreement?_eq_findSome? (input normalForm : Grammar) (maxLength : Nat) :
    disagreement? input normalForm maxLength =
      (words input.terminals maxLength).findSome? (differing? input normalForm) := by
  rw [disagreement?, firstDiffering?_eq_findSome?, words, List.range_eq_range']

/-- The comparison finds nothing exactly if both tests agree on all words over the
terminals up to the length. -/
theorem disagreement?_eq_none_iff : disagreement? input normalForm maxLength = none ↔
    ∀ w : List String, w.length ≤ maxLength → (∀ t ∈ w, t ∈ input.terminals) →
      input.derivesByItems w = normalForm.acceptsBySpans w := by
  rw [disagreement?_eq_findSome?]
  simp only [List.findSome?_eq_none_iff, mem_words, differing?_eq_none_iff, and_imp]

/-- The comparison finds two different verdicts on a word, exactly if they are the
verdicts of the tests, and the tests agree on all words before it. -/
theorem disagreement?_eq_some_iff : disagreement? input normalForm maxLength = some v ↔
    v = Verdicts.of input normalForm v.word ∧ v.input ≠ v.normalForm ∧
      v.word.length ≤ maxLength ∧ (∀ t ∈ v.word, t ∈ input.terminals) ∧
        ∀ w : List String, (∀ t ∈ w, t ∈ input.terminals) → List.Shortlex (· < ·) w v.word →
          input.derivesByItems w = normalForm.acceptsBySpans w := by
  rw [disagreement?_eq_findSome?,
    findSome?_eq_some_iff_of_pairwise (pairwise_words input.terminals maxLength)]
  simp only [mem_words, differing?_eq_none_iff, differing?_eq_some_iff]
  constructor
  · rintro ⟨w, ⟨hlength, hw⟩, ⟨rfl, hne⟩, hbefore⟩
    refine ⟨rfl, hne, hlength, hw, fun u hu hlt => hbefore u ⟨?_, hu⟩ hlt⟩
    -- a word before another one is not longer
    exact (length_le_of_shortlex hlt).trans hlength
  · rintro ⟨heq, hne, hlength, hw, hbefore⟩
    exact ⟨v.word, ⟨hlength, hw⟩, ⟨heq, hne⟩, fun u hu hlt => hbefore u hu.2 hlt⟩

end Comparison

end Chomsky
