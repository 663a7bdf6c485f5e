import Chomsky.Proofs.Membership.Items

/-!
# The item sets are exact

The test for membership is sound and complete, for every grammar. Soundness goes
from each set to the next one.

For completeness, a completion that began at the present position may come too early
and miss items that are pushed later. It is never needed: what it completes derives
the empty word, so its left side is nullable and is stepped over when it is predicted.
What is needed are the completions that began earlier, and these depend on sets that
no longer change.

## What this module delivers

- `ChartRun`, the way through all sets without a bound on its turns, and
  `ChartRun.sound`.
- `Closed`, what holds of the sets in the end, and `Closed.advances`: an item whose rest
  derives the next tokens is complete after them.
- `chartAccepts_iff_derives`: the sets accept the words that the start symbol derives.
- `derivesByItems_iff`: the test ends, and says whether the start symbol derives the
  word.
-/

set_option autoImplicit false

namespace Chomsky

/-! ## The way through all sets -/

/-- The way through the sets of a word, with no bound on the turns of each of them. -/
inductive ChartRun (rules : Rules) (nullable : NameSet) :
    (earlier : List (List Item)) → (first : List Item) → (word : List String) →
      (sets : List (List Item)) → Prop where
  /-- The set behind the last token. -/
  | last {earlier : List (List Item)} {first items : List Item} :
      Fills (Item.steps rules nullable earlier) 0 first items →
        ChartRun rules nullable earlier first [] (earlier ++ [items])
  /-- A set before a token, and what the token moves to the next one. -/
  | token {earlier sets : List (List Item)} {first items : List Item} {token : String}
      {word : List String} :
      Fills (Item.steps rules nullable earlier) 0 first items →
        ChartRun rules nullable (earlier ++ [items]) (scan token items) word sets →
        ChartRun rules nullable earlier first (token :: word) sets

namespace ChartRun

variable {rules : Rules} {nullable : NameSet} {earlier sets : List (List Item)}
  {first : List Item} {rest word : List String}

/-- The sets of earlier positions do not change any more. -/
theorem isPrefix (h : ChartRun rules nullable earlier first rest sets) : earlier <+: sets := by
  induction h with
  | last _ => exact List.prefix_append _ _
  | token _ _ ih => exact (List.prefix_append _ _).trans ih

theorem getElem?_of_lt (h : ChartRun rules nullable earlier first rest sets) {k : Nat}
    (hk : k < earlier.length) : sets[k]? = earlier[k]? := by
  obtain ⟨more, rfl⟩ := h.isPrefix
  exact List.getElem?_append_left hk

theorem take_length (h : ChartRun rules nullable earlier first rest sets) :
    sets.take earlier.length = earlier := (List.prefix_iff_eq_take.1 h.isPrefix).symm

/-- There is one set for each position that is left. -/
theorem length_eq (h : ChartRun rules nullable earlier first rest sets) :
    sets.length = earlier.length + rest.length + 1 := by
  induction h with
  | last _ => simp
  | token _ _ ih =>
    rw [ih, List.length_append, List.length_singleton, List.length_cons]
    omega

/-- The present set is filled from its first items. -/
theorem exists_fills (h : ChartRun rules nullable earlier first rest sets) :
    ∃ items, sets[earlier.length]? = some items ∧
      Fills (Item.steps rules nullable earlier) 0 first items := by
  cases h with
  | @last _ _ items hfills => exact ⟨items, List.getElem?_concat_length, hfills⟩
  | @token _ _ _ items _ _ hfills hrest =>
    refine ⟨items, ?_, hfills⟩
    rw [hrest.getElem?_of_lt (by simp)]
    exact List.getElem?_concat_length

/-- Every set of a run is filled, and hands what a token moves to the next one. -/
theorem fills_getElem (h : ChartRun rules nullable earlier first rest sets) {k n : Nat}
    (hk : k = earlier.length + n) {items : List Item} (hitems : sets[k]? = some items) :
    (∃ begun, Fills (Item.steps rules nullable (sets.take k)) 0 begun items) ∧
      ∀ token, rest[n]? = some token →
        ∃ next, sets[k + 1]? = some next ∧ scan token items ⊆ next := by
  induction h generalizing n with
  | @last earlier first present hfills =>
    rcases getElem?_concat_cases hitems with hearly | ⟨rfl, rfl⟩
    · -- no earlier set is meant
      rw [List.getElem?_eq_none (by omega)] at hearly
      exact absurd hearly (Option.some_ne_none items).symm
    · rw [List.take_left]
      exact ⟨⟨first, hfills⟩, fun token htoken => absurd htoken (by simp)⟩
  | @token earlier sets first present t word hfills hrest ih =>
    cases n with
    | zero =>
      obtain rfl : k = earlier.length := hk
      have hlength : (earlier ++ [present]).length = earlier.length + 1 := by simp
      rw [hrest.getElem?_of_lt (by omega), List.getElem?_concat_length] at hitems
      obtain rfl := Option.some.inj hitems
      rw [(ChartRun.token hfills hrest).take_length]
      refine ⟨⟨first, hfills⟩, fun token htoken => ?_⟩
      obtain rfl : t = token := Option.some.inj htoken
      obtain ⟨next, hnext, hfillsNext⟩ := hrest.exists_fills
      rw [hlength] at hnext
      exact ⟨next, hnext, hfillsNext.isPrefix.subset⟩
    | succ n =>
      have hk' : k = (earlier ++ [present]).length + n := by
        rw [List.length_append, List.length_singleton]
        omega
      exact ih hk' hitems

theorem unique {sets' : List (List Item)} (h : ChartRun rules nullable earlier first rest sets)
    (h' : ChartRun rules nullable earlier first rest sets') : sets = sets' := by
  induction h with
  | last hfills =>
    cases h' with
    | last hfills' => rw [hfills.unique hfills']
  | token hfills _ ih =>
    cases h' with
    | token hfills' hrest' =>
      obtain rfl := hfills.unique hfills'
      exact ih hrest'

/-- Every set of a run from sound items is sound. -/
theorem sound (h : ChartRun rules rules.nullable earlier first rest sets)
    (hearlier : SoundSets rules word earlier)
    (hfirst : ∀ i ∈ first, i.Sound rules word earlier.length)
    (hword : word.drop earlier.length = rest) : SoundSets rules word sets := by
  induction h with
  | last hfills => exact hearlier.concat (sound_of_fills hfills hearlier hfirst)
  | @token earlier _ _ present _ _ hfills _ ih =>
    have hlength : (earlier ++ [present]).length = earlier.length + 1 := by simp
    have hpresent := sound_of_fills hfills hearlier hfirst
    refine ih (hearlier.concat hpresent) ?_ ?_
    · rw [hlength]
      exact fun i hi => sound_of_mem_scan hpresent hword hi
    · rw [hlength, ← List.drop_drop, hword, List.drop_one, List.tail_cons]

end ChartRun

/-- The sets that are computed are those of the way with no bound on its turns. -/
theorem chartRun_chartFrom {rules : Rules} {word : List String} {earlier : List (List Item)}
    {first : List Item} {rest : List String} (hearlier : SoundSets rules word earlier)
    (hfirst : ∀ i ∈ first, i.Sound rules word earlier.length) (hnodup : first.Nodup)
    (hword : word.drop earlier.length = rest) :
    ChartRun rules rules.nullable earlier first rest
      (chartFrom rules rules.nullable earlier first rest) := by
  induction rest generalizing earlier first with
  | nil =>
    rw [chartFrom]
    exact .last (fills_itemSet hearlier hfirst hnodup)
  | cons token rest ih =>
    have hfills := fills_itemSet hearlier hfirst hnodup
    have hlength (items : List Item) : (earlier ++ [items]).length = earlier.length + 1 := by simp
    have hpresent := sound_of_fills hfills hearlier hfirst
    rw [chartFrom]
    have hscanned : (scan token (itemSet rules rules.nullable earlier first)).Nodup :=
      Item.nodup_scan (hfills.nodup hnodup)
    refine .token hfills (ih (hearlier.concat hpresent) ?_ hscanned ?_)
    · rw [hlength]
      exact fun i hi => sound_of_mem_scan hpresent hword hi
    · rw [hlength, ← List.drop_drop, hword, List.drop_one, List.tail_cons]

/-! ## Completeness -/

/-- The item with all its symbols matched. -/
def Item.complete (i : Item) : Item := { i with dot := i.phrase.length }

theorem Item.next?_complete {i : Item} : i.complete.next? = none :=
  Item.next?_eq_none.2 (Nat.le_refl _)

/-- Nothing is left to be done in any set: the steps of each item, taken at some time,
are in the set, and each token that can be read has been read. -/
structure Closed (rules : Rules) (nullable : NameSet) (word : List String)
    (sets : List (List Item)) : Prop where
  /-- Every item of a set has had its turn in it. -/
  steps : ∀ (k : Nat) (items : List Item), sets[k]? = some items → ∀ i ∈ items,
    ∃ present, i.steps rules nullable (sets.take k) present ⊆ items
  /-- What a token moves is in the next set. -/
  scans : ∀ (k : Nat) (items : List Item), sets[k]? = some items →
    ∀ token, word[k]? = some token → ∃ next, sets[k + 1]? = some next ∧ scan token items ⊆ next

theorem ChartRun.closed {rules : Rules} {nullable : NameSet} {first : List Item}
    {word : List String} {sets : List (List Item)}
    (h : ChartRun rules nullable [] first word sets) : Closed rules nullable word sets where
  steps k items hitems i hi := by
    obtain ⟨⟨begun, hfills⟩, -⟩ := h.fills_getElem (Nat.zero_add k).symm hitems
    exact hfills.exists_steps_subset hi
  scans k items hitems := (h.fills_getElem (Nat.zero_add k).symm hitems).2

namespace Closed

variable {rules : Rules} {nullable : NameSet} {word : List String} {sets : List (List Item)}
  {k : Nat} {items : List Item} {i : Item} {name : String} {p : Phrase}

/-- The alternatives of a nonterminal that is waited for are predicted. -/
theorem begin_mem (h : Closed rules nullable word sets) (hitems : sets[k]? = some items)
    (hi : i ∈ items) (hnext : i.next? = some (.nonterminal name))
    (hp : p ∈ rules.alternatives name) : (⟨k, 0, name, p⟩ : Item) ∈ items := by
  obtain ⟨present, hsteps⟩ := h.steps k items hitems i hi
  have hlength : (sets.take k).length = k :=
    List.length_take_of_le (Nat.le_of_lt (List.getElem?_eq_some_iff.1 hitems).1)
  apply hsteps
  apply Item.begin_subset_steps hnext
  rw [hlength]
  exact Item.mem_begin.2 ⟨p, hp, rfl⟩

/-- A nullable nonterminal is stepped over. -/
theorem advance_mem_of_nullable (h : Closed rules nullable word sets)
    (hitems : sets[k]? = some items) (hi : i ∈ items)
    (hnext : i.next? = some (.nonterminal name)) (hname : name ∈ nullable) :
    i.advance ∈ items := by
  obtain ⟨present, hsteps⟩ := h.steps k items hitems i hi
  exact hsteps (Item.advance_mem_steps hnext hname)

/-- An alternative that is complete at a later position advances what waited for it.
The set of its origin is final by then. -/
theorem advance_mem_of_complete (h : Closed rules nullable word sets)
    (hitems : sets[k]? = some items) (hi : i ∈ items)
    (hnext : i.next? = some (.nonterminal name)) {last : Nat} {later : List Item} (hlt : k < last)
    (hlater : sets[last]? = some later) (hcomplete : Item.complete ⟨k, 0, name, p⟩ ∈ later) :
    i.advance ∈ later := by
  obtain ⟨present, hsteps⟩ := h.steps last later hlater _ hcomplete
  have hlength : (sets.take last).length = last :=
    List.length_take_of_le (Nat.le_of_lt (List.getElem?_eq_some_iff.1 hlater).1)
  have horigin : (sets.take last ++ [present])[k]? = some items := by
    rw [List.getElem?_append_left (by omega), List.getElem?_take_of_lt hlt, hitems]
  exact hsteps (Item.advance_mem_steps_of_complete Item.next?_complete horigin hi hnext)

/-- A terminal that is the next token is read. -/
theorem advance_mem_of_token (h : Closed rules nullable word sets)
    (hitems : sets[k]? = some items) (hi : i ∈ items) {t : String}
    (hnext : i.next? = some (.terminal t)) (htoken : word[k]? = some t) :
    ∃ next, sets[k + 1]? = some next ∧ i.advance ∈ next := by
  obtain ⟨next, hnextSet, hscan⟩ := h.scans k items hitems t htoken
  exact ⟨next, hnextSet, hscan (Item.mem_scan.2 ⟨i, hi, hnext, rfl⟩)⟩

/-- An item whose rest derives the next tokens is complete after them. -/
theorem advances (h : Closed rules rules.nullable word sets) {q : Phrase} {u : List String}
    (hq : Yields rules q u) {rest : List String} (hitems : sets[k]? = some items) (hi : i ∈ items)
    (hdot : i.dot ≤ i.phrase.length) (hrest : i.phrase.drop i.dot = q)
    (hword : word.drop k = u ++ rest) :
    ∃ later, sets[k + u.length]? = some later ∧ i.complete ∈ later := by
  induction hq generalizing k items i rest with
  | nil =>
    have hlength : i.dot = i.phrase.length := Nat.le_antisymm hdot (List.drop_eq_nil_iff.1 hrest)
    have hcomplete : i.complete = i := by rw [Item.complete, ← hlength]
    exact ⟨items, hitems, hcomplete.symm ▸ hi⟩
  | @terminal t q w _ ih =>
    obtain ⟨hnext, hadvance⟩ := Item.next?_of_drop_eq_cons hrest
    have htoken : word[k]? = some t := by
      rw [← List.head?_drop, hword]
      rfl
    obtain ⟨next, hnextSet, hmem⟩ := h.advance_mem_of_token hitems hi hnext htoken
    have hword' : word.drop (k + 1) = w ++ rest := by
      rw [← List.drop_drop, hword, List.drop_one, List.cons_append, List.tail_cons]
    obtain ⟨later, hlater, hcomplete⟩ := ih hnextSet hmem (Item.dot_lt hnext) hadvance hword'
    rw [List.length_cons, ← Nat.add_assoc, Nat.add_right_comm]
    exact ⟨later, hlater, hcomplete⟩
  | @nonterminal name p q u w hp hu _ ihu ihw =>
    obtain ⟨hnext, hadvance⟩ := Item.next?_of_drop_eq_cons hrest
    rw [List.append_assoc] at hword
    -- the item advances in the set after the tokens of the nonterminal
    have hadvanced : ∃ middle, sets[k + u.length]? = some middle ∧ i.advance ∈ middle := by
      by_cases hnil : u = []
      · -- the completion may come too early, but the name is nullable
        subst hnil
        have hname : name ∈ rules.nullable := Rules.mem_nullable_iff.2 ⟨p, hp, hu⟩
        exact ⟨items, hitems, h.advance_mem_of_nullable hitems hi hnext hname⟩
      · have hbegin := h.begin_mem hitems hi hnext hp
        obtain ⟨middle, hmiddle, hcomplete⟩ := ihu hitems hbegin (Nat.zero_le _) rfl hword
        have hlt : k < k + u.length := Nat.lt_add_of_pos_right (List.length_pos_iff.2 hnil)
        exact ⟨middle, hmiddle, h.advance_mem_of_complete hitems hi hnext hlt hmiddle hcomplete⟩
    obtain ⟨middle, hmiddle, hmem⟩ := hadvanced
    have hword' : word.drop (k + u.length) = w ++ rest := by
      rw [← List.drop_drop, hword, List.drop_left]
    obtain ⟨later, hlater, hcomplete⟩ := ihw hmiddle hmem (Item.dot_lt hnext) hadvance hword'
    rw [List.length_append, ← Nat.add_assoc]
    exact ⟨later, hlater, hcomplete⟩

end Closed

/-! ## The test for membership -/

theorem chartRun_chart (rules : Rules) (start : String) (word : List String) :
    ChartRun rules rules.nullable [] (distinct (Item.begin rules 0 start)) word
      (chart rules rules.nullable start word) :=
  chartRun_chartFrom SoundSets.nil (fun _ hi => sound_of_mem_begin (mem_distinct.1 hi))
    (nodup_distinct _) rfl

theorem chartAccepts_iff {rules : Rules} {nullable : NameSet} {start : String}
    {word : List String} :
    chartAccepts rules nullable start word = true ↔
      ∃ items, (chart rules nullable start word)[word.length]? = some items ∧
        ∃ i ∈ items, i.origin = 0 ∧ i.next? = none ∧ i.lhs = start := by
  rw [chartAccepts]
  cases (chart rules nullable start word)[word.length]? with
  | none => simp
  | some items => simp [and_assoc]

/-- A complete alternative of the start symbol spans the word if and only if the start
symbol derives the word. -/
theorem chartAccepts_iff_derives {rules : Rules} {start : String} {word : List String} :
    chartAccepts rules rules.nullable start word = true ↔ rules.Derives start word := by
  have hrun := chartRun_chart rules start word
  have hfirst : ∀ i ∈ distinct (Item.begin rules 0 start), i.Sound rules word 0 :=
    fun i hi => sound_of_mem_begin (mem_distinct.1 hi)
  rw [chartAccepts_iff]
  constructor
  · rintro ⟨items, hlast, i, hi, horigin, hcomplete, hlhs⟩
    have hsound := hrun.sound SoundSets.nil hfirst rfl
    have hderives := (hsound word.length items hlast i hi).derives hcomplete
    rwa [hlhs, horigin, slice_whole] at hderives
  · rintro ⟨p, hp, hyields⟩
    obtain ⟨items, hitems, hfills⟩ := hrun.exists_fills
    have hbegin : (⟨0, 0, start, p⟩ : Item) ∈ items :=
      hfills.isPrefix.subset (mem_distinct.2 (Item.mem_begin.2 ⟨p, hp, rfl⟩))
    -- the alternative is there before the first token, so it is complete after the last
    obtain ⟨last, hlast, hcomplete⟩ := hrun.closed.advances hyields hitems hbegin
      (Nat.zero_le _) rfl (List.append_nil word).symm
    rw [List.length_nil, Nat.zero_add] at hlast
    exact ⟨last, hlast, _, hcomplete, rfl, Item.next?_complete, rfl⟩

/-- Whatever the grammar, the way through the sets of a word comes to its end, with the
sets that are computed, and the test says whether the start symbol derives the word. -/
theorem derivesByItems_iff (g : Grammar) (word : List String) :
    (∀ sets, ChartRun g.rules g.rules.nullable [] (distinct (Item.begin g.rules 0 g.start)) word
        sets ↔ sets = chart g.rules g.rules.nullable g.start word) ∧
      (g.derivesByItems word = true ↔ g.rules.Derives g.start word) := by
  have hrun := chartRun_chart g.rules g.start word
  refine ⟨fun sets => ?_, chartAccepts_iff_derives⟩
  constructor
  · intro h
    exact h.unique hrun
  · rintro rfl
    exact hrun

end Chomsky
