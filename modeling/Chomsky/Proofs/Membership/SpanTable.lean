import Chomsky.Membership.SpanTable
import Chomsky.Proofs.Membership.Items

/-!
# The span table is exact

The recognizer passes over every alternative that is not one terminal or two
nonterminals. What is left when these are dropped are the rules whose words it decides:
in them a name derives a single token by a terminal, and a longer word by a pair, in two
parts that are both shorter than the word.

So the cells of one length depend on cells of smaller lengths only. A row that is added
to an exact table is exact, and the table of a word begins with an exact row.

## What this module delivers

- `Rules.normalPart`, the rules with the alternatives in normal form only, and
  `Rules.derives_normalPart_iff`, how a name derives a word in them.
- `SpanTable.Exact`, the invariant of the table, with `Exact.addRow` for one more row and
  `SpanTable.exact_ofWord` for all of them.
- `acceptsBySpans_iff`: the test decides the words of the normal part.
- `Grammar.acceptsBySpans_iff_accepts`: it decides the language of a grammar with all
  alternatives in normal form.
-/

set_option autoImplicit false

namespace Chomsky

/-! ## The normal part of rules -/

/-- Whether a phrase is one terminal or two nonterminals. -/
def Phrase.isNormal : Phrase → Bool
  | [.terminal _] => true
  | [.nonterminal _, .nonterminal _] => true
  | _ => false

theorem Phrase.isNormal_iff {p : Phrase} : p.isNormal = true ↔
    (∃ t, p = [.terminal t]) ∨ ∃ a b, p = [.nonterminal a, .nonterminal b] := by
  constructor
  · intro h
    match p, h with
    | [.terminal t], _ => exact Or.inl ⟨t, rfl⟩
    | [.nonterminal a, .nonterminal b], _ => exact Or.inr ⟨a, b, rfl⟩
  · rintro (⟨t, rfl⟩ | ⟨a, b, rfl⟩) <;> rfl

namespace Rules

variable {r : Rules} {name : String} {p : Phrase} {w : List String}

/-- The rules with those alternatives only that are one terminal or two nonterminals. -/
def normalPart (r : Rules) : Rules :=
  r.mapEntries fun _ alternatives => alternatives.filter Phrase.isNormal

theorem mem_alternatives_normalPart :
    p ∈ r.normalPart.alternatives name ↔ p ∈ r.alternatives name ∧ p.isNormal = true := by
  rw [normalPart, alternatives_mapEntries rfl, List.mem_filter]

/-- Nothing is dropped from rules in normal form. -/
theorem yields_normalPart_iff (h : ∀ lhs, ∀ q ∈ r.alternatives lhs, q.isNormal = true) :
    Yields r.normalPart p w ↔ Yields r p w := by
  constructor
  · intro hyields
    exact hyields.mono fun lhs q hq => (mem_alternatives_normalPart.1 hq).1
  · intro hyields
    exact hyields.mono fun lhs q hq => mem_alternatives_normalPart.2 ⟨hq, h lhs q hq⟩

theorem ne_nil_of_derives_normalPart (h : r.normalPart.Derives name w) : w ≠ [] := by
  have hnormal : ∀ lhs, [] ∉ r.normalPart.alternatives lhs := fun lhs hnil =>
    Bool.noConfusion (mem_alternatives_normalPart.1 hnil).2
  obtain ⟨p, hp, hyields⟩ := h
  refine hyields.ne_nil hnormal ?_
  rintro rfl
  exact hnormal name hp

/-- In normal form a name derives a token by a terminal, or two words by a pair. -/
theorem derives_normalPart_iff : r.normalPart.Derives name w ↔
    (∃ t, [.terminal t] ∈ r.alternatives name ∧ w = [t]) ∨
      ∃ a b, [.nonterminal a, .nonterminal b] ∈ r.alternatives name ∧
        ∃ u v, w = u ++ v ∧ r.normalPart.Derives a u ∧ r.normalPart.Derives b v := by
  constructor
  · rintro ⟨p, hp, hyields⟩
    obtain ⟨hmem, hnormal⟩ := mem_alternatives_normalPart.1 hp
    rcases Phrase.isNormal_iff.1 hnormal with ⟨t, rfl⟩ | ⟨a, b, rfl⟩
    · cases hyields with
      | terminal _ hnil =>
        obtain rfl := Yields.nil_iff.1 hnil
        exact Or.inl ⟨t, hmem, rfl⟩
    · obtain ⟨u, v, rfl, hu, hv⟩ := Yields.nonterminal_cons_iff.1 hyields
      exact Or.inr ⟨a, b, hmem, u, v, rfl, hu, yields_nonterminal_iff.1 hv⟩
  · rintro (⟨t, hmem, rfl⟩ | ⟨a, b, hmem, u, v, rfl, hu, hv⟩)
    · exact ⟨_, mem_alternatives_normalPart.2 ⟨hmem, rfl⟩, .terminal t .nil⟩
    · exact ⟨_, mem_alternatives_normalPart.2 ⟨hmem, rfl⟩,
        Yields.nonterminal_cons_iff.2 ⟨u, v, rfl, hu, yields_nonterminal_iff.2 hv⟩⟩

end Rules

/-! ## The alternatives that take part -/

namespace NormalRules

variable {r : Rules} {name token : String}

theorem single?_eq_some_iff {e : String × Phrase} {lhs t : String} :
    single? e = some (lhs, t) ↔ e = (lhs, [.terminal t]) := by
  constructor
  · intro h
    match e, h with
    | (_, [.terminal _]), h =>
      obtain ⟨rfl, rfl⟩ := Prod.mk.inj (Option.some.inj h)
      rfl
  · rintro rfl
    rfl

theorem pair?_eq_some_iff {e : String × Phrase} {lhs a b : String} :
    pair? e = some (lhs, a, b) ↔ e = (lhs, [.nonterminal a, .nonterminal b]) := by
  constructor
  · intro h
    match e, h with
    | (_, [.nonterminal _, .nonterminal _]), h =>
      obtain ⟨rfl, hpair⟩ := Prod.mk.inj (Option.some.inj h)
      obtain ⟨rfl, rfl⟩ := Prod.mk.inj hpair
      rfl
  · rintro rfl
    rfl

theorem mem_single_iff {lhs t : String} :
    (lhs, t) ∈ (ofRules r).single ↔ [.terminal t] ∈ r.alternatives lhs := by
  simp only [ofRules, List.mem_filterMap, single?_eq_some_iff, exists_eq_right,
    Rules.mem_productions_iff]

theorem mem_pairs_iff {lhs a b : String} : (lhs, a, b) ∈ (ofRules r).pairs ↔
    [.nonterminal a, .nonterminal b] ∈ r.alternatives lhs := by
  simp only [ofRules, List.mem_filterMap, pair?_eq_some_iff, exists_eq_right,
    Rules.mem_productions_iff]

theorem mem_ofToken_iff :
    name ∈ (ofRules r).ofToken token ↔ [.terminal token] ∈ r.alternatives name := by
  rw [ofToken, mem_distinct, List.mem_map, ← mem_single_iff]
  constructor
  · rintro ⟨⟨lhs, t⟩, he, rfl⟩
    obtain ⟨hmem, heq⟩ := List.mem_filter.1 he
    obtain rfl : t = token := beq_iff_eq.1 heq
    exact hmem
  · intro h
    exact ⟨(name, token), List.mem_filter.2 ⟨h, beq_self_eq_true token⟩, rfl⟩

theorem mem_ofParts_iff {parts : List (List String × List String)} :
    name ∈ (ofRules r).ofParts parts ↔
      ∃ a b, [.nonterminal a, .nonterminal b] ∈ r.alternatives name ∧
        ∃ part ∈ parts, a ∈ part.1 ∧ b ∈ part.2 := by
  rw [ofParts, mem_distinct, List.mem_map]
  simp only [List.mem_filter, List.any_eq_true, Bool.and_eq_true, decide_eq_true_eq]
  constructor
  · rintro ⟨⟨lhs, a, b⟩, ⟨hmem, hparts⟩, rfl⟩
    exact ⟨a, b, mem_pairs_iff.1 hmem, hparts⟩
  · rintro ⟨a, b, hmem, hparts⟩
    exact ⟨(name, a, b), ⟨mem_pairs_iff.2 hmem, hparts⟩, rfl⟩

end NormalRules

/-! ## Slices in two parts -/

theorem length_slice {word : List String} {first last : Nat} (hlast : last ≤ word.length) :
    (slice word first last).length = last - first := by
  rw [slice, List.length_take, List.length_drop]
  omega

/-- The parts of a slice are the slices before and after some place within it. -/
theorem slice_eq_append_iff {word u v : List String} {first last : Nat} (hle : first ≤ last)
    (hlast : last ≤ word.length) :
    slice word first last = u ++ v ↔ ∃ middle, first ≤ middle ∧ middle ≤ last ∧
      u = slice word first middle ∧ v = slice word middle last := by
  constructor
  · intro h
    have hlength := congrArg List.length h
    rw [length_slice hlast, List.length_append] at hlength
    have hmiddle : first + u.length ≤ last := by omega
    refine ⟨first + u.length, Nat.le_add_right _ _, hmiddle, ?_⟩
    -- both ways of writing the slice have their first part of the same length
    rw [← slice_append (Nat.le_add_right first u.length) hmiddle] at h
    obtain ⟨hu, hv⟩ := List.append_inj h (by rw [length_slice (by omega)]; omega)
    exact ⟨hu.symm, hv.symm⟩
  · rintro ⟨middle, hfirst, hmiddle, rfl, rfl⟩
    exact (slice_append hfirst hmiddle).symm

/-! ## The table -/

namespace SpanTable

variable {r : Rules} {word : List String} {t : SpanTable}

/-- The rows that are there are right: a cell of them holds exactly the names that derive
the tokens of its span. -/
def Exact (r : Rules) (word : List String) (t : SpanTable) : Prop :=
  ∀ length start, 0 < length → length ≤ t.rows.length → start + length ≤ word.length →
    ∀ name, name ∈ t.cell length start ↔
      r.normalPart.Derives name (slice word start (start + length))

/-- The table with one more row. -/
def addRow (t : SpanTable) (row : List (List String)) : SpanTable := ⟨t.rows ++ [row]⟩

theorem length_rows_addRow (t : SpanTable) (row : List (List String)) :
    (t.addRow row).rows.length = t.rows.length + 1 := by
  rw [addRow, List.length_append, List.length_singleton]

theorem cell_addRow_of_le {row : List (List String)} {length start : Nat} (hpos : 0 < length)
    (hle : length ≤ t.rows.length) : (t.addRow row).cell length start = t.cell length start := by
  rw [cell, addRow, List.getElem?_append_left (by omega), cell]

theorem cell_addRow_last (t : SpanTable) (row : List (List String)) (start : Nat) :
    (t.addRow row).cell (t.rows.length + 1) start = row[start]?.getD [] := by
  rw [cell, addRow, Nat.add_sub_cancel, List.getElem?_concat_length]
  rfl

/-- The cell of a longer span, from exact cells of both its parts. -/
theorem Exact.mem_ofParts_iff (h : t.Exact r word) {length start : Nat} (htwo : 2 ≤ length)
    (hrows : length ≤ t.rows.length + 1) (hspan : start + length ≤ word.length) {name : String} :
    name ∈ (NormalRules.ofRules r).ofParts (t.parts length start) ↔
      r.normalPart.Derives name (slice word start (start + length)) := by
  rw [NormalRules.mem_ofParts_iff, Rules.derives_normalPart_iff]
  have hlength : (slice word start (start + length)).length = length := by
    rw [length_slice hspan, Nat.add_sub_cancel_left]
  -- both parts of a split are shorter than the span, so their cells are exact
  have hparts : ∀ k, k + 1 < length → ∀ a b,
      (a ∈ t.cell (k + 1) start ∧ b ∈ t.cell (length - (k + 1)) (start + (k + 1))) ↔
        r.normalPart.Derives a (slice word start (start + (k + 1))) ∧
          r.normalPart.Derives b (slice word (start + (k + 1)) (start + length)) := by
    intro k hk a b
    have hend : start + (k + 1) + (length - (k + 1)) = start + length := by omega
    rw [h (k + 1) start (by omega) (by omega) (by omega),
      h (length - (k + 1)) (start + (k + 1)) (by omega) (by omega) (by omega), hend]
  constructor
  · rintro ⟨a, b, hmem, part, hpart, ha, hb⟩
    obtain ⟨k, hk, rfl⟩ := List.mem_map.1 hpart
    rw [List.mem_range] at hk
    obtain ⟨hu, hv⟩ := (hparts k (by omega) a b).1 ⟨ha, hb⟩
    exact Or.inr ⟨a, b, hmem, _, _, (slice_append (by omega) (by omega)).symm, hu, hv⟩
  · rintro (⟨token, -, htoken⟩ | ⟨a, b, hmem, u, v, happend, hu, hv⟩)
    · -- a single token is too short
      rw [htoken, List.length_singleton] at hlength
      omega
    · have hune := List.length_pos_iff.2 (Rules.ne_nil_of_derives_normalPart hu)
      have hvne := List.length_pos_iff.2 (Rules.ne_nil_of_derives_normalPart hv)
      obtain ⟨middle, hfirst, hlast, rfl, rfl⟩ :=
        (slice_eq_append_iff (Nat.le_add_right start length) hspan).1 happend
      rw [length_slice (by omega)] at hune hvne
      obtain ⟨k, rfl⟩ : ∃ k, middle = start + (k + 1) := ⟨middle - start - 1, by omega⟩
      have hk : k < length - 1 := by omega
      exact ⟨a, b, hmem, _, List.mem_map.2 ⟨k, List.mem_range.2 hk, rfl⟩,
        (hparts k (by omega) a b).2 ⟨hu, hv⟩⟩

/-- One more row of an exact table is exact. -/
theorem Exact.addRow (h : t.Exact r word) (hpos : 0 < t.rows.length) :
    (t.addRow (row (NormalRules.ofRules r) word.length t (t.rows.length + 1))).Exact r word := by
  intro length start hlength hle hspan name
  rw [length_rows_addRow] at hle
  rcases Nat.lt_or_ge t.rows.length length with hlast | hearly
  · obtain rfl : length = t.rows.length + 1 := by omega
    have hstart : start < word.length + 1 - (t.rows.length + 1) := by omega
    rw [cell_addRow_last, row, List.getElem?_map, List.getElem?_range hstart]
    exact h.mem_ofParts_iff (by omega) (Nat.le_refl _) hspan
  · rw [cell_addRow_of_le hlength hearly]
    exact h length start hlength hearly hspan name

/-- The row of the single tokens is exact. -/
theorem exact_tokens (r : Rules) (word : List String) :
    Exact r word ⟨[word.map (NormalRules.ofRules r).ofToken]⟩ := by
  intro length start hpos hle hspan name
  obtain rfl : length = 1 := Nat.le_antisymm hle hpos
  have hlt : start < word.length := hspan
  rw [slice_succ (List.drop_eq_getElem_cons hlt), Rules.derives_normalPart_iff]
  have hcell : cell ⟨[word.map (NormalRules.ofRules r).ofToken]⟩ 1 start
      = (NormalRules.ofRules r).ofToken word[start] := by
    rw [cell]
    simp [hlt]
  rw [hcell, NormalRules.mem_ofToken_iff]
  constructor
  · intro hmem
    exact Or.inl ⟨_, hmem, rfl⟩
  · rintro (⟨token, hmem, htoken⟩ | ⟨a, b, -, u, v, happend, hu, hv⟩)
    · rw [(List.cons.inj htoken).1]
      exact hmem
    · -- a single token has no two non-empty parts
      have hune := List.length_pos_iff.2 (Rules.ne_nil_of_derives_normalPart hu)
      have hvne := List.length_pos_iff.2 (Rules.ne_nil_of_derives_normalPart hv)
      have hlength := congrArg List.length happend
      rw [List.length_append, List.length_singleton] at hlength
      omega

theorem extend_succ (rules : NormalRules) (n count : Nat) (t : SpanTable) :
    extend rules n (count + 1) t
      = extend rules n count (t.addRow (row rules n t (t.rows.length + 1))) := rfl

/-- Every row that is added is exact, and the rows are counted by their lengths. -/
theorem Exact.extend {count : Nat} (h : t.Exact r word) (hpos : 0 < t.rows.length) :
    (extend (NormalRules.ofRules r) word.length count t).Exact r word ∧
      (extend (NormalRules.ofRules r) word.length count t).rows.length
        = t.rows.length + count := by
  induction count generalizing t with
  | zero => exact ⟨h, rfl⟩
  | succ count ih =>
    rw [extend_succ]
    obtain ⟨hexact, hrows⟩ := ih (h.addRow hpos) (by rw [length_rows_addRow]; omega)
    rw [length_rows_addRow] at hrows
    exact ⟨hexact, by omega⟩

/-- The table of a word is exact, and has a row for each length up to its own. -/
theorem exact_ofWord (r : Rules) {word : List String} (hword : word ≠ []) :
    (ofWord (NormalRules.ofRules r) word).Exact r word ∧
      (ofWord (NormalRules.ofRules r) word).rows.length = word.length := by
  have hextend : (ofWord (NormalRules.ofRules r) word).Exact r word ∧
      (ofWord (NormalRules.ofRules r) word).rows.length = 1 + (word.length - 1) :=
    (exact_tokens r word).extend Nat.zero_lt_one
  have hpos := List.length_pos_iff.2 hword
  exact ⟨hextend.1, hextend.2.trans (by omega)⟩

theorem accepts_iff {start : String} (hword : word ≠ []) :
    accepts (NormalRules.ofRules r) start word = true ↔ r.normalPart.Derives start word := by
  obtain ⟨hexact, hrows⟩ := exact_ofWord r hword
  have hspan : 0 + word.length ≤ word.length := Nat.le_of_eq (Nat.zero_add _)
  have hcell := hexact word.length 0 (List.length_pos_iff.2 hword) (Nat.le_of_eq hrows.symm)
    hspan start
  rw [Nat.zero_add, slice_whole] at hcell
  rw [accepts, decide_eq_true_iff, hcell]

end SpanTable

/-! ## The test for membership -/

namespace Grammar

variable {g : Grammar} {w : List String}

theorem acceptsBySpans_nil (g : Grammar) : g.acceptsBySpans [] = g.acceptsEmpty := rfl

theorem acceptsBySpans_of_ne_nil (hw : w ≠ []) :
    g.acceptsBySpans w = true ↔ g.rules.normalPart.Derives g.start w := by
  rw [acceptsBySpans, if_neg (by rwa [List.isEmpty_iff])]
  exact SpanTable.accepts_iff hw

/-- Nothing is dropped from a grammar with all alternatives in normal form, so the test
decides its language. -/
theorem acceptsBySpans_iff_accepts
    (h : ∀ lhs, ∀ p ∈ g.rules.alternatives lhs, p.isNormal = true) :
    g.acceptsBySpans w = true ↔ g.Accepts w := by
  have hderives : g.rules.normalPart.Derives g.start w ↔ g.rules.Derives g.start w := by
    rw [← yields_nonterminal_iff, ← yields_nonterminal_iff]
    exact Rules.yields_normalPart_iff h
  rcases eq_or_ne w [] with rfl | hw
  · -- no name derives the empty word
    have hnil : ¬ g.rules.Derives g.start [] := by
      intro hnil
      exact Rules.ne_nil_of_derives_normalPart (hderives.2 hnil) rfl
    rw [acceptsBySpans_nil, Accepts, or_iff_right hnil, and_iff_right rfl]
  · rw [acceptsBySpans_of_ne_nil hw, hderives, Accepts, or_iff_left fun hempty => hw hempty.1]

end Grammar

/-- The empty word is accepted if the grammar says so. Any other word is accepted if and
only if the start symbol derives it by alternatives that are one terminal or two
nonterminals, whatever other alternatives there are. -/
theorem acceptsBySpans_iff (g : Grammar) : g.acceptsBySpans [] = g.acceptsEmpty ∧
    ∀ (token : String) (rest : List String), g.acceptsBySpans (token :: rest) = true ↔
      g.rules.normalPart.Derives g.start (token :: rest) :=
  ⟨g.acceptsBySpans_nil, fun _ _ => Grammar.acceptsBySpans_of_ne_nil (List.cons_ne_nil _ _)⟩

end Chomsky
