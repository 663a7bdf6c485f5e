import Chomsky.Proofs.Membership.SpanTable

/-!
# Spans in a square table

The spans of a word of `n` tokens can be kept in a table of `n` by `n` cells, with a row
for each first position and a column for each length. The table is filled in place, by
loops over lengths, first positions, places to split a span, and alternatives.

A word has fewer spans than the table has cells, and the places of the cells come from
sums and differences of three loop variables. So all accesses are checked here: a cell
outside of the table, and a difference below zero, leave no result at all.

The loops of one length only add names to the column of that length. What they read are
the columns of smaller lengths, and these hold what the rows of the span table hold. So
no access is ever refused, and the square is filled just as the span table is.

## What this module delivers

- `SpanGrid` with `cell?` and `insert?`, the square and its checked accesses.
- `Split.Within`, the places that are computed for one split of a span, and
  `exists_within_of_mem_lengths`: the loops never leave them.
- `SpanGrid.ofWord?`, the loops, and `Grammar.acceptsByGrid?`, the test that uses them.
- `SpanGrid.Shows`, what the square has in common with a span table, and
  `SpanGrid.Shows.exists_enterLength?` for one more length.
- `Grammar.acceptsByGrid?_eq_some`: the test is never refused an access, and gives the
  answer of the test on spans.
-/

set_option autoImplicit false

namespace Chomsky

/-! ## Checked accesses -/

/-- The difference of two numbers; there is none below zero. -/
def difference? (a b : Nat) : Option Nat := if b ≤ a then some (a - b) else none

theorem difference?_eq_some {a b : Nat} (h : b ≤ a) : difference? a b = some (a - b) := if_pos h

/-- The nonterminals of all spans of a word of `n` tokens, by first position and length. -/
structure SpanGrid (n : Nat) where
  /-- A row for each first position. The cell at index `k` of a row is for the span of
  length `k + 1`. -/
  cells : Vector (Vector NameSet n) n

namespace SpanGrid

variable {n : Nat}

/-- The table without any names. -/
def blank (n : Nat) : SpanGrid n := ⟨Vector.replicate n (Vector.replicate n ∅)⟩

/-- Reads a cell, if the table has it. -/
def cell? (t : SpanGrid n) (row column : Nat) : Option NameSet :=
  if _h : row < n ∧ column < n then some t.cells[row][column] else none

/-- Adds a name to a cell, if the table has it. -/
def insert? (t : SpanGrid n) (row column : Nat) (name : String) : Option (SpanGrid n) :=
  if _h : row < n ∧ column < n then
    some ⟨t.cells.set row (t.cells[row].set column (t.cells[row][column].insert name))⟩
  else none

/-! ## The loops -/

/-- The lengths of the spans in two parts. -/
def lengths (n : Nat) : List Nat := List.range' 2 (n - 1)

/-- The first positions, up to the last one. -/
def positions (last : Nat) : List Nat := List.range (last + 1)

/-- The lengths that the first part of a span can have. -/
def splits (length : Nat) : List Nat := List.range' 1 (length - 1)

/-- Enters a left side for a token, if the token is an alternative of it. -/
def enterToken? (token : String) (position : Nat) (t : SpanGrid n)
    (rule : String × List Phrase) : Option (SpanGrid n) :=
  if [.terminal token] ∈ rule.2 then t.insert? position 0 rule.1 else some t

/-- Enters the left sides of all tokens of a word. -/
def enterTokens? (rules : Rules) (word : List String) (t : SpanGrid n) : Option (SpanGrid n) :=
  word.zipIdx.foldlM (fun t e => rules.entries.foldlM (enterToken? e.1 e.2) t) t

/-- Enters a left side for a span that is split after `split` tokens, if its alternative
is of two nonterminals, and these are there for the two parts. The cell of the second part
is read only if the first nonterminal is there. -/
def enterPair? (length start split : Nat) (t : SpanGrid n) (e : String × Phrase) :
    Option (SpanGrid n) :=
  match e.2 with
  | [.nonterminal left, .nonterminal right] => do
      let first ← t.cell? start (← difference? split 1)
      if left ∈ first then
        let second ← t.cell? (start + split) (← difference? (← difference? length split) 1)
        if right ∈ second then
          t.insert? start (← difference? length 1) e.1
        else return t
      else return t
  | _ => some t

/-- Goes through all places to split a span, and through all alternatives for each. -/
def enterSpan? (rules : Rules) (length : Nat) (t : SpanGrid n) (start : Nat) :
    Option (SpanGrid n) :=
  (splits length).foldlM
    (fun t split => rules.productions.foldlM (enterPair? length start split) t) t

/-- Goes through all spans of a length. -/
def enterLength? (rules : Rules) (t : SpanGrid n) (length : Nat) : Option (SpanGrid n) := do
  let last ← difference? n length
  (positions last).foldlM (enterSpan? rules length) t

/-- The filled table of a word. -/
def ofWord? (rules : Rules) (word : List String) : Option (SpanGrid word.length) := do
  let tokens ← enterTokens? rules word (blank word.length)
  (lengths word.length).foldlM (enterLength? rules) tokens

end SpanGrid

/-- Whether the grammar accepts the word, by the square table of its spans; there is no
answer if an access is refused. -/
def Grammar.acceptsByGrid? (g : Grammar) (word : List String) : Option Bool :=
  if word.isEmpty then some g.acceptsEmpty
  else do
    let t ← SpanGrid.ofWord? g.rules word
    let names ← t.cell? 0 (← difference? word.length 1)
    return decide (g.start ∈ names)

/-! ## The places of the cells -/

/-- The places for a span that is split after `split` tokens: two rows and three columns
of the table, none of them from a difference below zero. -/
structure Split.Within (n length start split : Nat) : Prop where
  /-- The row of the span and of its first part. -/
  row_lt : start < n
  /-- The row of the second part. -/
  secondRow_lt : start + split < n
  /-- The column of the span. -/
  column : ∃ column, difference? length 1 = some column ∧ column < n
  /-- The column of the first part. -/
  firstColumn : ∃ column, difference? split 1 = some column ∧ column < n
  /-- The column of the second part. -/
  secondColumn : ∃ rest column, difference? length split = some rest ∧
    difference? rest 1 = some column ∧ column < n

namespace SpanGrid

variable {n length start split : Nat}

theorem mem_lengths : length ∈ lengths n ↔ 2 ≤ length ∧ length ≤ n := by
  rw [lengths, List.mem_range'_1]
  omega

theorem mem_positions {last : Nat} : start ∈ positions last ↔ start ≤ last :=
  List.mem_range.trans Nat.lt_succ_iff

theorem mem_splits : split ∈ splits length ↔ 0 < split ∧ split < length := by
  rw [splits, List.mem_range'_1]
  omega

theorem within_of_mem_splits (hspan : start + length ≤ n) (hsplit : split ∈ splits length) :
    Split.Within n length start split := by
  obtain ⟨hpos, hlt⟩ := mem_splits.1 hsplit
  exact
    { row_lt := by omega
      secondRow_lt := by omega
      column := ⟨length - 1, difference?_eq_some (by omega), by omega⟩
      firstColumn := ⟨split - 1, difference?_eq_some hpos, by omega⟩
      secondColumn := ⟨length - split, length - split - 1, difference?_eq_some (Nat.le_of_lt hlt),
        difference?_eq_some (by omega), by omega⟩ }

/-- Whatever the length, the first position and the split, the loops stay within the
table. -/
theorem exists_within_of_mem_lengths (hlength : length ∈ lengths n) :
    ∃ last, difference? n length = some last ∧
      ∀ start ∈ positions last, ∀ split ∈ splits length, Split.Within n length start split := by
  obtain ⟨-, hle⟩ := mem_lengths.1 hlength
  refine ⟨n - length, difference?_eq_some hle, fun start hstart split hsplit => ?_⟩
  have hlast := mem_positions.1 hstart
  exact within_of_mem_splits (by omega) hsplit

/-! ## What a table holds -/

variable {t t' : SpanGrid n} {row column : Nat} {name : String}

/-- Whether a name is in a cell of the table. -/
def Has (t : SpanGrid n) (row column : Nat) (name : String) : Prop :=
  ∃ names, t.cell? row column = some names ∧ name ∈ names

/-- The cells within the square can be read. -/
theorem exists_cell? (t : SpanGrid n) (row column : Nat) (hrow : row < n) (hcolumn : column < n) :
    ∃ names, t.cell? row column = some names ∧ ∀ name, name ∈ names ↔ t.Has row column name := by
  have hcell : t.cell? row column = some t.cells[row][column] := dif_pos ⟨hrow, hcolumn⟩
  refine ⟨_, hcell, fun name => ⟨fun h => ⟨_, hcell, h⟩, ?_⟩⟩
  rintro ⟨names, hnames, hmem⟩
  rw [hcell] at hnames
  exact Option.some.inj hnames ▸ hmem

theorem not_has_blank (row column : Nat) (name : String) :
    ¬ (blank n).Has row column name := by
  rintro ⟨names, hcell, hmem⟩
  rw [cell?] at hcell
  split at hcell
  · obtain rfl := Option.some.inj hcell
    simp [blank] at hmem
  · exact absurd hcell (Option.some_ne_none names).symm

/-- A table that holds what another one does, and the names that are added besides. -/
def Gains (t t' : SpanGrid n) (adds : Nat → Nat → String → Prop) : Prop :=
  ∀ row column name, t'.Has row column name ↔ t.Has row column name ∨ adds row column name

theorem Gains.refl {adds : Nat → Nat → String → Prop}
    (hnone : ∀ row column name, ¬ adds row column name) : t.Gains t adds := fun row column name =>
  (or_iff_left (hnone row column name)).symm

theorem Gains.congr {adds adds' : Nat → Nat → String → Prop} (h : t.Gains t' adds)
    (heq : ∀ row column name, adds row column name ↔ adds' row column name) :
    t.Gains t' adds' := fun row column name =>
  (h row column name).trans (or_congr_right (heq row column name))

/-- A name can be added to the cells within the square, and nothing else changes. -/
theorem exists_insert? (t : SpanGrid n) (row column : Nat) (name : String) (hrow : row < n)
    (hcolumn : column < n) :
    ∃ t', t.insert? row column name = some t' ∧
      t.Gains t' fun r c x => r = row ∧ c = column ∧ x = name := by
  refine ⟨_, dif_pos ⟨hrow, hcolumn⟩, fun r c x => ?_⟩
  by_cases hin : r < n ∧ c < n
  · by_cases hr : row = r
    · by_cases hc : column = c
      · subst hr hc
        simp [Has, cell?, hin, or_comm]
      · simp [Has, cell?, hin, hr, hc, Ne.symm hc]
    · simp [Has, cell?, hin, hr, Ne.symm hr]
  · have hplace : ¬ (r = row ∧ c = column ∧ x = name) := fun h => hin ⟨h.1 ▸ hrow, h.2.1 ▸ hcolumn⟩
    simp [Has, cell?, hin, hplace]

/-- A loop whose rounds are never refused an access is not refused one itself, and it adds
what its rounds add. -/
theorem exists_foldlM {α : Type} {P : SpanGrid n → Prop} {f : SpanGrid n → α → Option (SpanGrid n)}
    {adds : α → Nat → Nat → String → Prop} {l : List α}
    (hround : ∀ t, P t → ∀ a ∈ l, ∃ t', f t a = some t' ∧ P t' ∧ t.Gains t' (adds a))
    (ht : P t) :
    ∃ t', l.foldlM f t = some t' ∧ P t' ∧
      t.Gains t' fun row column name => ∃ a ∈ l, adds a row column name := by
  induction l generalizing t with
  | nil => exact ⟨t, rfl, ht, .refl (by simp)⟩
  | cons a l ih =>
    obtain ⟨next, hnext, hP, hgains⟩ := hround t ht a List.mem_cons_self
    obtain ⟨last, hlast, hPlast, hrest⟩ :=
      ih (fun t h b hb => hround t h b (List.mem_cons_of_mem a hb)) hP
    refine ⟨last, ?_, hPlast, fun row column name => ?_⟩
    · rw [List.foldlM_cons, hnext]
      exact hlast
    · rw [hrest, hgains]
      simp only [List.exists_mem_cons_iff, or_assoc]

/-! ## Tokens -/

theorem exists_enterToken? {token : String} (hrow : row < n) (t : SpanGrid n)
    (rule : String × List Phrase) :
    ∃ t', enterToken? token row t rule = some t' ∧
      t.Gains t' fun r c x => (r = row ∧ c = 0 ∧ x = rule.1) ∧ [.terminal token] ∈ rule.2 := by
  unfold enterToken?
  by_cases hmem : [.terminal token] ∈ rule.2
  · obtain ⟨t', ht', hgains⟩ := t.exists_insert? row 0 rule.1 hrow (Nat.zero_lt_of_lt hrow)
    rw [if_pos hmem]
    exact ⟨t', ht', hgains.congr fun _ _ _ => (and_iff_left hmem).symm⟩
  · rw [if_neg hmem]
    exact ⟨t, rfl, .refl fun _ _ _ h => hmem h.2⟩

/-- The cells of the tokens hold the left sides with the token as an alternative. -/
theorem exists_enterTokens? (rules : Rules) (word : List String) :
    ∃ t', enterTokens? rules word (blank word.length) = some t' ∧
      ∀ row column name, t'.Has row column name ↔
        column = 0 ∧ ∃ token, word[row]? = some token ∧
          [.terminal token] ∈ rules.alternatives name := by
  have htokens : ∀ t : SpanGrid word.length, True → ∀ e ∈ word.zipIdx,
      ∃ t', rules.entries.foldlM (enterToken? e.1 e.2) t = some t' ∧ True ∧
        t.Gains t' fun row column name => ∃ rule ∈ rules.entries,
          (row = e.2 ∧ column = 0 ∧ name = rule.1) ∧ [.terminal e.1] ∈ rule.2 := by
    rintro t - ⟨token, position⟩ he
    have hposition : position < word.length := (List.mem_zipIdx' he).1
    refine exists_foldlM (fun t _ rule _ => ?_) trivial
    obtain ⟨t', ht', hgains⟩ := exists_enterToken? hposition t rule
    exact ⟨t', ht', trivial, hgains⟩
  obtain ⟨t', ht', -, hgains⟩ := exists_foldlM htokens trivial
  refine ⟨t', ht', fun row column name => ?_⟩
  rw [hgains, or_iff_right (not_has_blank row column name)]
  constructor
  · rintro ⟨⟨token, position⟩, he, rule, hrule, ⟨rfl, rfl, rfl⟩, hmem⟩
    exact ⟨rfl, token, List.mem_zipIdx_iff_getElem?.1 he,
      Rules.mem_alternatives_iff.2 ⟨rule.2, NameMap.mem_entries_iff.1 hrule, hmem⟩⟩
  · rintro ⟨rfl, token, htoken, hmem⟩
    obtain ⟨ps, hps, hp⟩ := Rules.mem_alternatives_iff.1 hmem
    exact ⟨(token, row), List.mem_zipIdx_iff_getElem?.2 htoken, (name, ps),
      NameMap.mem_entries_iff.2 hps, ⟨rfl, rfl, rfl⟩, hp⟩

/-! ## The square and the span table -/

variable {st : SpanTable}

/-- The columns of the lengths that a span table has rows for hold the same names. -/
def Knows (st : SpanTable) (t : SpanGrid n) : Prop :=
  ∀ row column, column < st.rows.length → row + column < n →
    ∀ name, t.Has row column name ↔ name ∈ st.cell (column + 1) row

/-- So they do, and the columns of greater lengths hold no names yet. -/
structure Shows (st : SpanTable) (t : SpanGrid n) : Prop where
  /-- The known lengths. -/
  knows : Knows st t
  /-- The lengths to come. -/
  not_has : ∀ row column name, st.rows.length ≤ column → ¬ t.Has row column name

/-- What is added to the column of the next length does not change the known ones. -/
theorem Knows.gains {adds : Nat → Nat → String → Prop} (h : Knows st t) (hgains : t.Gains t' adds)
    (hcolumn : ∀ row column name, adds row column name → column = st.rows.length) :
    Knows st t' := by
  intro row column hlt hspan name
  have hnone : ¬ adds row column name := fun hadds => by
    have := hcolumn row column name hadds
    omega
  rw [hgains, or_iff_left hnone, h row column hlt hspan]

/-- Whether an alternative is of two nonterminals, for the two parts of a split span. -/
def Joins (st : SpanTable) (length start split : Nat) (p : Phrase) : Prop :=
  ∃ a b, p = [.nonterminal a, .nonterminal b] ∧ a ∈ st.cell split start ∧
    b ∈ st.cell (length - split) (start + split)

/-- The alternatives of a name join the parts of a span at some split, exactly if the name
is in the next row of the span table. -/
theorem exists_joins_iff {rules : Rules} :
    (∃ split ∈ splits length, ∃ e ∈ rules.productions,
        name = e.1 ∧ Joins st length start split e.2) ↔
      name ∈ (NormalRules.ofRules rules).ofParts (st.parts length start) := by
  rw [NormalRules.mem_ofParts_iff]
  constructor
  · rintro ⟨split, hsplit, e, he, rfl, a, b, hp, ha, hb⟩
    obtain ⟨hpos, hlt⟩ := mem_splits.1 hsplit
    obtain ⟨k, rfl⟩ : ∃ k, split = k + 1 := ⟨split - 1, by omega⟩
    have hmem := Rules.mem_productions_iff.1 he
    rw [hp] at hmem
    exact ⟨a, b, hmem, _, List.mem_map.2 ⟨k, List.mem_range.2 (by omega), rfl⟩, ha, hb⟩
  · rintro ⟨a, b, hmem, part, hpart, ha, hb⟩
    obtain ⟨k, hk, rfl⟩ := List.mem_map.1 hpart
    have hlt := List.mem_range.1 hk
    exact ⟨k + 1, mem_splits.2 ⟨Nat.succ_pos k, by omega⟩, (name, _),
      Rules.mem_productions_iff.2 hmem, rfl, a, b, rfl, ha, hb⟩

/-- Both parts of a split are known, since they are shorter. So an alternative that joins
them is entered, and no other one. -/
theorem Knows.enterPair?_eq (h : Knows st t) (hspan : start + (st.rows.length + 1) ≤ n)
    (hsplit : split ∈ splits (st.rows.length + 1)) (e : String × Phrase) :
    (Joins st (st.rows.length + 1) start split e.2 →
      enterPair? (st.rows.length + 1) start split t e = t.insert? start st.rows.length e.1) ∧
    (¬ Joins st (st.rows.length + 1) start split e.2 →
      enterPair? (st.rows.length + 1) start split t e = some t) := by
  obtain ⟨hpos, hlt⟩ := mem_splits.1 hsplit
  have hrest : 1 ≤ st.rows.length + 1 - split := by omega
  unfold enterPair?
  split
  · next left right hp =>
    obtain ⟨first, hfirst, hmemFirst⟩ :=
      t.exists_cell? start (split - 1) (by omega) (by omega)
    obtain ⟨second, hsecond, hmemSecond⟩ :=
      t.exists_cell? (start + split) (st.rows.length + 1 - split - 1) (by omega) (by omega)
    have hleft : left ∈ first ↔ left ∈ st.cell split start := by
      rw [hmemFirst, h _ _ (by omega) (by omega), Nat.sub_add_cancel hpos]
    have hright : right ∈ second ↔
        right ∈ st.cell (st.rows.length + 1 - split) (start + split) := by
      rw [hmemSecond, h _ _ (by omega) (by omega), Nat.sub_add_cancel hrest]
    have hjoins : Joins st (st.rows.length + 1) start split e.2 ↔
        left ∈ first ∧ right ∈ second := by
      rw [Joins, hp, hleft, hright]
      simp
    simp only [difference?_eq_some hpos, difference?_eq_some (Nat.le_of_lt hlt),
      difference?_eq_some hrest, difference?_eq_some (Nat.le_add_left 1 st.rows.length),
      Nat.add_sub_cancel, hfirst, hsecond, Option.bind_eq_bind, Option.bind_some, hjoins]
    constructor
    · rintro ⟨hl, hr⟩
      rw [if_pos hl, if_pos hr]
    · intro hnot
      by_cases hl : left ∈ first
      · rw [if_pos hl, if_neg fun hr => hnot ⟨hl, hr⟩]
        rfl
      · rw [if_neg hl]
        rfl
  · next hother =>
    exact ⟨fun ⟨a, b, hp, _⟩ => absurd hp (hother a b), fun _ => rfl⟩

theorem Knows.exists_enterPair? (h : Knows st t) (hspan : start + (st.rows.length + 1) ≤ n)
    (hsplit : split ∈ splits (st.rows.length + 1)) (e : String × Phrase) :
    ∃ t', enterPair? (st.rows.length + 1) start split t e = some t' ∧ Knows st t' ∧
      t.Gains t' fun row column name => (row = start ∧ column = st.rows.length ∧ name = e.1) ∧
        Joins st (st.rows.length + 1) start split e.2 := by
  obtain ⟨hpos, hlt⟩ := mem_splits.1 hsplit
  obtain ⟨henter, hpass⟩ := h.enterPair?_eq hspan hsplit e
  by_cases hjoins : Joins st (st.rows.length + 1) start split e.2
  · obtain ⟨t', ht', hgains⟩ :=
      t.exists_insert? start st.rows.length e.1 (by omega) (by omega)
    exact ⟨t', (henter hjoins).trans ht', h.gains hgains fun _ _ _ hadds => hadds.2.1,
      hgains.congr fun _ _ _ => (and_iff_left hjoins).symm⟩
  · exact ⟨t, hpass hjoins, h, .refl fun _ _ _ hadds => hjoins hadds.2⟩

/-- One span: the names of its cell in the next row of the span table are added. -/
theorem Knows.exists_enterSpan? (h : Knows st t) (hspan : start + (st.rows.length + 1) ≤ n)
    (rules : Rules) :
    ∃ t', enterSpan? rules (st.rows.length + 1) t start = some t' ∧ Knows st t' ∧
      t.Gains t' fun row column name => (row = start ∧ column = st.rows.length) ∧
        name ∈ (NormalRules.ofRules rules).ofParts (st.parts (st.rows.length + 1) start) := by
  have hround : ∀ t : SpanGrid n, Knows st t → ∀ split ∈ splits (st.rows.length + 1),
      ∃ t', rules.productions.foldlM (enterPair? (st.rows.length + 1) start split) t = some t' ∧
        Knows st t' ∧ t.Gains t' fun row column name => ∃ e ∈ rules.productions,
          (row = start ∧ column = st.rows.length ∧ name = e.1) ∧
            Joins st (st.rows.length + 1) start split e.2 :=
    fun t ht split hsplit =>
      exists_foldlM (fun t ht e _ => ht.exists_enterPair? hspan hsplit e) ht
  obtain ⟨t', ht', hknows, hgains⟩ := exists_foldlM hround h
  refine ⟨t', ht', hknows, hgains.congr fun row column name => ?_⟩
  rw [← exists_joins_iff]
  constructor
  · rintro ⟨split, hsplit, e, he, ⟨hrow, hcolumn, hname⟩, hjoins⟩
    exact ⟨⟨hrow, hcolumn⟩, split, hsplit, e, he, hname, hjoins⟩
  · rintro ⟨⟨hrow, hcolumn⟩, split, hsplit, e, he, hname, hjoins⟩
    exact ⟨split, hsplit, e, he, ⟨hrow, hcolumn, hname⟩, hjoins⟩

/-- One length: the table shows one row more. -/
theorem Shows.exists_enterLength? (h : Shows st t) (hle : st.rows.length + 1 ≤ n)
    (rules : Rules) :
    ∃ t', enterLength? rules t (st.rows.length + 1) = some t' ∧
      Shows (st.addRow
        (SpanTable.row (NormalRules.ofRules rules) n st (st.rows.length + 1))) t' := by
  have hround : ∀ t : SpanGrid n, Knows st t →
      ∀ start ∈ positions (n - (st.rows.length + 1)),
        ∃ t', enterSpan? rules (st.rows.length + 1) t start = some t' ∧ Knows st t' ∧
          t.Gains t' fun row column name => (row = start ∧ column = st.rows.length) ∧
            name ∈ (NormalRules.ofRules rules).ofParts (st.parts (st.rows.length + 1) start) := by
    intro t ht start hstart
    have hlast := mem_positions.1 hstart
    exact ht.exists_enterSpan? (by omega) rules
  obtain ⟨t', ht', hknows, hgains⟩ := exists_foldlM hround h.knows
  refine ⟨t', ?_, fun row column hcolumn hspan name => ?_, fun row column name hcolumn => ?_⟩
  · rw [enterLength?, difference?_eq_some hle]
    exact ht'
  · rw [SpanTable.length_rows_addRow] at hcolumn
    rcases Nat.eq_or_lt_of_le (Nat.le_of_lt_succ hcolumn) with rfl | hlt
    · -- the new column, with nothing in it before
      have hrow : row < n + 1 - (st.rows.length + 1) := by omega
      have hpositions : row ∈ positions (n - (st.rows.length + 1)) :=
        mem_positions.2 (by omega)
      rw [hgains, or_iff_right (h.not_has row _ name (Nat.le_refl _)),
        SpanTable.cell_addRow_last, SpanTable.row, List.getElem?_map, List.getElem?_range hrow]
      constructor
      · rintro ⟨start, -, ⟨rfl, -⟩, hname⟩
        exact hname
      · intro hname
        exact ⟨row, hpositions, ⟨rfl, rfl⟩, hname⟩
    · rw [SpanTable.cell_addRow_of_le (Nat.succ_pos column) hlt]
      exact hknows row column hlt hspan name
  · rw [SpanTable.length_rows_addRow] at hcolumn
    rw [hgains, or_iff_right (h.not_has row column name (by omega))]
    rintro ⟨start, -, ⟨-, heq⟩, -⟩
    omega

/-- All lengths: the table shows all rows of the span table. -/
theorem Shows.exists_enterLengths? (h : Shows st t) (rules : Rules) (count : Nat)
    (hle : st.rows.length + count ≤ n) :
    ∃ t', (List.range' (st.rows.length + 1) count).foldlM (enterLength? rules) t = some t' ∧
      Shows (SpanTable.extend (NormalRules.ofRules rules) n count st) t' := by
  induction count generalizing st t with
  | zero => exact ⟨t, rfl, h⟩
  | succ count ih =>
    obtain ⟨next, hnext, hshows⟩ := h.exists_enterLength? (by omega) rules
    have hlength : (st.addRow
        (SpanTable.row (NormalRules.ofRules rules) n st (st.rows.length + 1))).rows.length
          = st.rows.length + 1 := SpanTable.length_rows_addRow _ _
    obtain ⟨last, hlast, hall⟩ := ih hshows (by omega)
    rw [hlength] at hlast
    refine ⟨last, ?_, hall⟩
    rw [List.range'_succ, List.foldlM_cons, hnext]
    exact hlast

/-- The cells of the tokens are the first row of the span table. -/
theorem shows_tokens {rules : Rules} {word : List String} {t : SpanGrid word.length}
    (h : ∀ row column name, t.Has row column name ↔ column = 0 ∧
      ∃ token, word[row]? = some token ∧ [.terminal token] ∈ rules.alternatives name) :
    Shows ⟨[word.map (NormalRules.ofRules rules).ofToken]⟩ t := by
  refine ⟨fun row column hcolumn hspan name => ?_, fun row column name hcolumn hhas => ?_⟩
  · obtain rfl : column = 0 := Nat.lt_one_iff.1 hcolumn
    have hrow : row < word.length := hspan
    have hcell : SpanTable.cell ⟨[word.map (NormalRules.ofRules rules).ofToken]⟩ 1 row
        = (NormalRules.ofRules rules).ofToken word[row] := by
      rw [SpanTable.cell]
      simp [hrow]
    rw [hcell, NormalRules.mem_ofToken_iff, h, List.getElem?_eq_getElem hrow]
    simp
  · exact absurd hcolumn (Nat.not_le.2 (((h row column name).1 hhas).1 ▸ Nat.zero_lt_one))

/-- The table of a word is filled, and shows the span table of the word. -/
theorem exists_ofWord? (rules : Rules) {word : List String} (hword : word ≠ []) :
    ∃ t, ofWord? rules word = some t ∧
      Shows (SpanTable.ofWord (NormalRules.ofRules rules) word) t := by
  have hpos := List.length_pos_iff.2 hword
  obtain ⟨tokens, htokens, hhas⟩ := exists_enterTokens? rules word
  obtain ⟨t, ht, hshows⟩ := (shows_tokens hhas).exists_enterLengths? rules (word.length - 1)
    (by simp only [List.length_singleton]; omega)
  refine ⟨t, ?_, hshows⟩
  rw [ofWord?, htokens]
  exact ht

end SpanGrid

/-- The test with the square table is never refused an access, and it gives the answer of
the test on spans. -/
theorem Grammar.acceptsByGrid?_eq_some (g : Grammar) (word : List String) :
    g.acceptsByGrid? word = some (g.acceptsBySpans word) := by
  unfold acceptsByGrid? acceptsBySpans
  by_cases hempty : word.isEmpty = true
  · rw [if_pos hempty, if_pos hempty]
  · have hword : word ≠ [] := fun h => hempty (List.isEmpty_iff.2 h)
    have hpos := List.length_pos_iff.2 hword
    obtain ⟨t, ht, hshows⟩ := SpanGrid.exists_ofWord? g.rules hword
    obtain ⟨names, hnames, hmem⟩ :=
      t.exists_cell? 0 (word.length - 1) hpos (Nat.sub_lt hpos Nat.one_pos)
    have hrows := (SpanTable.exact_ofWord g.rules hword).2
    have hstart : g.start ∈ names ↔
        g.start ∈ (SpanTable.ofWord (NormalRules.ofRules g.rules) word).cell word.length 0 := by
      rw [hmem, hshows.knows 0 _ (by omega) (by omega), Nat.sub_add_cancel hpos]
    rw [if_neg hempty, if_neg hempty, ht, difference?_eq_some hpos]
    simp only [Option.bind_eq_bind, Option.bind_some, hnames, SpanTable.accepts, hstart]
    rfl

/-- As many `a`s as `b`s, in alternatives that are all in normal form. -/
example : (Grammar.ofLiteral ["S", "T", "A", "B"] ["a", "b"]
    [("S", ["AB", "AT"]), ("T", ["SB"]), ("A", ["a"]), ("B", ["b"])] "S").acceptsByGrid?
      ["a", "a", "b", "b"] = some true := by decide

end Chomsky
