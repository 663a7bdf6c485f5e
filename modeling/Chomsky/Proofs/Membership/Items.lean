import Chomsky.Membership.Earley
import Chomsky.Proofs.Analysis.Nullable
import Chomsky.Proofs.Grammar.Simulation
import Chomsky.Proofs.Name.Distinct

/-!
# The items of a set

An item is sound when its alternative is one of its left side and the symbols before
its dot derive the tokens since its origin. Every step of an item keeps that, so a
set that begins with sound items is filled with sound items. There are only so many
of them, so the way through a set ends within the turns that it is given.

## What this module delivers

- `Fills`, the way through a set without a bound on its turns, and `fills_fill`.
- `Item.mem_steps_cases`: prediction, stepping over and completion.
- `Item.Sound` and `sound_of_mem_steps`: every step keeps soundness.
- `fills_itemSet`: the turns of a set suffice.
-/

set_option autoImplicit false

namespace Chomsky

/-! ## The way through a set -/

/-- The way through a set from an index on, with no bound on its turns. -/
inductive Fills (steps : List Item → Item → List Item) :
    (index : Nat) → (items result : List Item) → Prop where
  /-- Behind the last item the way ends. -/
  | stop {index : Nat} {items : List Item} : items.length ≤ index → Fills steps index items items
  /-- The item at the index has its turn. -/
  | turn {index : Nat} {items result : List Item} {i : Item} : items[index]? = some i →
      Fills steps (index + 1) (pushAll items (steps items i)) result →
      Fills steps index items result

namespace Fills

variable {steps : List Item → Item → List Item} {index : Nat} {items result : List Item}

/-- The items of a set stay where they are. -/
theorem isPrefix (h : Fills steps index items result) : items <+: result := by
  induction h with
  | stop _ => exact List.prefix_rfl
  | turn _ _ ih => exact (prefix_pushAll _ _).trans ih

/-- What every step keeps holds of all items in the end. -/
theorem forall_mem {P : Item → Prop} (h : Fills steps index items result)
    (hitems : ∀ i ∈ items, P i)
    (hsteps : ∀ present i, (∀ j ∈ present, P j) → i ∈ present → ∀ j ∈ steps present i, P j) :
    ∀ i ∈ result, P i := by
  induction h with
  | stop _ => exact hitems
  | @turn index items _ i hi _ ih =>
    apply ih
    intro j hj
    rcases mem_pushAll.1 hj with hj | hj
    · exact hitems j hj
    · exact hsteps items i hitems (List.mem_of_getElem? hi) j hj

/-- There is one way through a set. -/
theorem unique {result' : List Item} (h : Fills steps index items result)
    (h' : Fills steps index items result') : result = result' := by
  induction h with
  | stop hlen =>
    cases h' with
    | stop _ => rfl
    | turn hi _ => exact absurd (List.getElem?_eq_some_iff.1 hi).1 (Nat.not_lt.2 hlen)
  | turn hi _ ih =>
    cases h' with
    | stop hlen => exact absurd (List.getElem?_eq_some_iff.1 hi).1 (Nat.not_lt.2 hlen)
    | turn hi' hrest =>
      rw [hi] at hi'
      obtain rfl := Option.some.inj hi'
      exact ih hrest

theorem nodup (h : Fills steps index items result) (hnodup : items.Nodup) : result.Nodup := by
  induction h with
  | stop _ => exact hnodup
  | turn _ _ ih => exact ih (nodup_pushAll hnodup)

/-- Every item from the index on has had its turn. -/
theorem steps_subset (h : Fills steps index items result) {n : Nat} (hn : index ≤ n) {i : Item}
    (hi : result[n]? = some i) : ∃ present, steps present i ⊆ result := by
  induction h with
  | stop hlen =>
    rw [List.getElem?_eq_none (Nat.le_trans hlen hn)] at hi
    exact absurd hi (Option.some_ne_none i).symm
  | @turn index items result j hj hrest ih =>
    rcases Nat.eq_or_lt_of_le hn with rfl | hlt
    · -- the item has kept its place since its turn
      have hprefix : pushAll items (steps items j) <+: result := hrest.isPrefix
      obtain ⟨more, rfl⟩ := (prefix_pushAll items (steps items j)).trans hprefix
      rw [List.getElem?_append_left (List.getElem?_eq_some_iff.1 hj).1, hj] at hi
      obtain rfl := Option.some.inj hi
      exact ⟨items, fun x hx => hprefix.subset (mem_pushAll.2 (Or.inr hx))⟩
    · exact ih hlt hi

theorem exists_steps_subset (h : Fills steps 0 items result) {i : Item} (hi : i ∈ result) :
    ∃ present, steps present i ⊆ result := by
  obtain ⟨n, hn⟩ := List.mem_iff_getElem?.1 hi
  exact h.steps_subset (Nat.zero_le n) hn

end Fills

/-- As many turns as there are items at all are enough to come to the end. -/
theorem fills_fill {steps : List Item → Item → List Item} {P : Item → Prop} {all : List Item}
    (hall : ∀ i, P i → i ∈ all)
    (hsteps : ∀ present i, (∀ j ∈ present, P j) → i ∈ present → ∀ j ∈ steps present i, P j)
    {turns index : Nat} {items : List Item} (hturns : all.length ≤ turns + index)
    (hnodup : items.Nodup) (hitems : ∀ i ∈ items, P i) :
    Fills steps index items (fill steps turns index items) := by
  induction turns generalizing index items with
  | zero =>
    -- the turns are used up, and there are no more items than turns
    have hle := length_le_of_nodup_of_subset hnodup fun i hi => hall i (hitems i hi)
    rw [fill]
    exact .stop (by omega)
  | succ turns ih =>
    rw [fill]
    cases hi : items[index]? with
    | none => exact .stop (List.getElem?_eq_none_iff.1 hi)
    | some i =>
      refine .turn hi (ih (by omega) (nodup_pushAll hnodup) fun j hj => ?_)
      rcases mem_pushAll.1 hj with hj | hj
      · exact hitems j hj
      · exact hsteps items i hitems (List.mem_of_getElem? hi) j hj

/-! ## Items -/

namespace Item

variable {rules : Rules} {nullable : NameSet} {earlier : List (List Item)} {present : List Item}
  {i j : Item} {s : Symbol}

theorem awaits_iff : i.awaits s = true ↔ i.next? = some s := beq_iff_eq

theorem next?_eq_none : i.next? = none ↔ i.phrase.length ≤ i.dot := List.getElem?_eq_none_iff

theorem dot_lt (h : i.next? = some s) : i.dot < i.phrase.length :=
  (List.getElem?_eq_some_iff.1 h).1

/-- The symbol that an item waits for is the first of its rest. -/
theorem drop_eq_cons (h : i.next? = some s) :
    i.phrase.drop i.dot = s :: i.advance.phrase.drop i.advance.dot := by
  obtain ⟨hlt, hs⟩ := List.getElem?_eq_some_iff.1 h
  rw [List.drop_eq_getElem_cons hlt, hs]
  rfl

theorem next?_of_drop_eq_cons {rest : Phrase} (h : i.phrase.drop i.dot = s :: rest) :
    i.next? = some s ∧ i.advance.phrase.drop i.advance.dot = rest := by
  have hnext : i.next? = some s := by
    rw [next?, ← List.head?_drop, h]
    rfl
  rw [drop_eq_cons hnext] at h
  exact ⟨hnext, (List.cons.inj h).2⟩

theorem take_advance (h : i.next? = some s) :
    i.advance.phrase.take i.advance.dot = i.phrase.take i.dot ++ [s] := by
  have hget : i.phrase[i.dot]? = some s := h
  rw [advance, List.take_add_one, hget]
  rfl

theorem mem_begin {position : Nat} {name : String} :
    j ∈ begin rules position name ↔ ∃ p ∈ rules.alternatives name, j = ⟨position, 0, name, p⟩ := by
  rw [begin, List.mem_map]
  exact exists_congr fun p => and_congr_right fun _ => eq_comm

/-- A nonterminal is predicted. -/
theorem begin_subset_steps {name : String} (h : i.next? = some (.nonterminal name)) :
    begin rules earlier.length name ⊆ i.steps rules nullable earlier present := by
  intro j hj
  rw [steps, h]
  dsimp only
  by_cases hname : name ∈ nullable
  · rw [if_pos hname]
    exact List.mem_append_left _ hj
  · rwa [if_neg hname]

/-- A nullable nonterminal is stepped over. -/
theorem advance_mem_steps {name : String} (h : i.next? = some (.nonterminal name))
    (hname : name ∈ nullable) : i.advance ∈ i.steps rules nullable earlier present := by
  rw [steps, h]
  dsimp only
  rw [if_pos hname]
  exact List.mem_append_right _ List.mem_cons_self

/-- A complete item advances the items that wait for it. -/
theorem advance_mem_steps_of_complete {items : List Item} (h : i.next? = none)
    (hitems : (earlier ++ [present])[i.origin]? = some items) (hj : j ∈ items)
    (hnext : j.next? = some (.nonterminal i.lhs)) :
    j.advance ∈ i.steps rules nullable earlier present := by
  rw [steps, h]
  dsimp only
  rw [hitems, Option.getD_some, List.mem_map]
  exact ⟨j, List.mem_filter.2 ⟨hj, awaits_iff.2 hnext⟩, rfl⟩

/-- There are no other steps than prediction, stepping over, and completion. -/
theorem mem_steps_cases (hj : j ∈ i.steps rules nullable earlier present) :
    (∃ name, i.next? = some (.nonterminal name) ∧ j ∈ begin rules earlier.length name) ∨
    (∃ name, i.next? = some (.nonterminal name) ∧ name ∈ nullable ∧ j = i.advance) ∨
    (i.next? = none ∧ ∃ items, (earlier ++ [present])[i.origin]? = some items ∧
      ∃ k ∈ items, k.next? = some (.nonterminal i.lhs) ∧ j = k.advance) := by
  unfold steps at hj
  cases hnext : i.next? with
  | none =>
    rw [hnext] at hj
    dsimp only at hj
    obtain ⟨k, hk, rfl⟩ := List.mem_map.1 hj
    obtain ⟨hmem, hawaits⟩ := List.mem_filter.1 hk
    cases hitems : (earlier ++ [present])[i.origin]? with
    | none =>
      rw [hitems] at hmem
      exact absurd hmem List.not_mem_nil
    | some items =>
      rw [hitems] at hmem
      exact Or.inr (Or.inr ⟨rfl, items, rfl, k, hmem, awaits_iff.1 hawaits, rfl⟩)
  | some s =>
    rw [hnext] at hj
    cases s with
    | terminal t => exact absurd hj List.not_mem_nil
    | nonterminal name =>
      dsimp only at hj
      by_cases hname : name ∈ nullable
      · rw [if_pos hname, List.mem_append, List.mem_singleton] at hj
        rcases hj with hj | rfl
        · exact Or.inl ⟨name, rfl, hj⟩
        · exact Or.inr (Or.inl ⟨name, rfl, hname, rfl⟩)
      · rw [if_neg hname] at hj
        exact Or.inl ⟨name, rfl, hj⟩

theorem mem_scan {token : String} {items : List Item} :
    j ∈ scan token items ↔ ∃ i ∈ items, i.next? = some (.terminal token) ∧ j = i.advance := by
  rw [scan, List.mem_map]
  constructor
  · rintro ⟨i, hi, rfl⟩
    obtain ⟨hmem, hawaits⟩ := List.mem_filter.1 hi
    exact ⟨i, hmem, awaits_iff.1 hawaits, rfl⟩
  · rintro ⟨i, hmem, hnext, rfl⟩
    exact ⟨i, List.mem_filter.2 ⟨hmem, awaits_iff.2 hnext⟩, rfl⟩

theorem nodup_scan {token : String} {items : List Item} (h : items.Nodup) :
    (scan token items).Nodup := by
  apply (h.filter _).map
  intro i j hij
  -- an item is known from what it becomes
  obtain ⟨origin, dot, lhs, phrase⟩ := i
  obtain ⟨origin', dot', lhs', phrase'⟩ := j
  simp only [advance, mk.injEq, Nat.add_right_cancel_iff] at hij
  simpa only [mk.injEq] using hij

end Item

/-! ## Soundness -/

/-- The tokens between two positions of a word. -/
def slice (word : List String) (first last : Nat) : List String :=
  (word.drop first).take (last - first)

theorem slice_self (word : List String) (position : Nat) : slice word position position = [] := by
  rw [slice, Nat.sub_self, List.take_zero]

theorem slice_whole (word : List String) : slice word 0 word.length = word := by
  rw [slice, List.drop_zero, Nat.sub_zero, List.take_length]

theorem slice_append {word : List String} {first middle last : Nat} (hfirst : first ≤ middle)
    (hlast : middle ≤ last) :
    slice word first middle ++ slice word middle last = slice word first last := by
  have hlength : last - first = (middle - first) + (last - middle) := by omega
  have hmiddle : first + (middle - first) = middle := by omega
  simp only [slice]
  rw [hlength, List.take_add, List.drop_drop, hmiddle]

theorem slice_succ {word rest : List String} {position : Nat} {token : String}
    (h : word.drop position = token :: rest) : slice word position (position + 1) = [token] := by
  rw [slice, h, Nat.add_sub_cancel_left]
  rfl

/-- What an item of a position says is true: its alternative is one of its left side,
and the symbols before the dot derive the tokens since the origin. -/
structure Item.Sound (rules : Rules) (word : List String) (position : Nat) (i : Item) : Prop where
  /-- The alternative is one of the left side. -/
  mem_alternatives : i.phrase ∈ rules.alternatives i.lhs
  /-- The dot lies within the alternative. -/
  dot_le : i.dot ≤ i.phrase.length
  /-- The item began at no later position. -/
  origin_le : i.origin ≤ position
  /-- The symbols before the dot derive the tokens since then. -/
  matched : Yields rules (i.phrase.take i.dot) (slice word i.origin position)

/-- A place in a list with one element at its end is a place before, or the last. -/
theorem getElem?_concat_cases {α : Type} {l : List α} {a b : α} {k : Nat}
    (h : (l ++ [a])[k]? = some b) : l[k]? = some b ∨ (k = l.length ∧ b = a) := by
  rcases Nat.lt_or_ge k l.length with hlt | hge
  · rw [List.getElem?_append_left hlt] at h
    exact Or.inl h
  · rw [List.getElem?_append_right hge, List.getElem?_singleton] at h
    by_cases hk : k - l.length = 0
    · rw [if_pos hk] at h
      exact Or.inr ⟨by omega, (Option.some.inj h).symm⟩
    · rw [if_neg hk] at h
      exact absurd h (Option.some_ne_none b).symm

/-- All items of all sets are sound at their positions. -/
def SoundSets (rules : Rules) (word : List String) (sets : List (List Item)) : Prop :=
  ∀ (k : Nat) (items : List Item), sets[k]? = some items → ∀ i ∈ items, i.Sound rules word k

section Soundness

variable {rules : Rules} {word : List String} {position : Nat} {i j : Item}

theorem SoundSets.nil : SoundSets rules word [] := by
  intro k items h
  exact absurd h (by simp)

theorem SoundSets.concat {earlier : List (List Item)} {items : List Item}
    (h : SoundSets rules word earlier) (hitems : ∀ i ∈ items, i.Sound rules word earlier.length) :
    SoundSets rules word (earlier ++ [items]) := by
  intro k S hk
  rcases getElem?_concat_cases hk with hk | ⟨rfl, rfl⟩
  · exact h k S hk
  · exact hitems

theorem sound_of_mem_begin {name : String} (h : i ∈ Item.begin rules position name) :
    i.Sound rules word position := by
  obtain ⟨p, hp, rfl⟩ := Item.mem_begin.1 h
  refine ⟨hp, Nat.zero_le _, Nat.le_refl _, ?_⟩
  rw [slice_self]
  exact .nil

/-- An item advances over a symbol that derives the tokens up to a later position. -/
theorem Item.Sound.advance {s : Symbol} {last : Nat} (h : i.Sound rules word position)
    (hnext : i.next? = some s) (hle : position ≤ last)
    (hs : Yields rules [s] (slice word position last)) : i.advance.Sound rules word last where
  mem_alternatives := h.mem_alternatives
  dot_le := Item.dot_lt hnext
  origin_le := Nat.le_trans h.origin_le hle
  matched := by
    have horigin : i.advance.origin ≤ position := h.origin_le
    rw [Item.take_advance hnext, ← slice_append horigin hle]
    exact h.matched.append hs

/-- The left side of a complete item derives the tokens since its origin. -/
theorem Item.Sound.derives (h : i.Sound rules word position) (hnext : i.next? = none) :
    rules.Derives i.lhs (slice word i.origin position) := by
  refine ⟨i.phrase, h.mem_alternatives, ?_⟩
  have hdot : i.phrase.length ≤ i.dot := Item.next?_eq_none.1 hnext
  have hmatched := h.matched
  rwa [List.take_of_length_le hdot] at hmatched

/-- Every step keeps soundness. -/
theorem sound_of_mem_steps {earlier : List (List Item)} {present : List Item}
    (hearlier : SoundSets rules word earlier)
    (hpresent : ∀ i ∈ present, i.Sound rules word earlier.length) (hi : i ∈ present)
    (hj : j ∈ i.steps rules rules.nullable earlier present) :
    j.Sound rules word earlier.length := by
  have hsets : SoundSets rules word (earlier ++ [present]) := hearlier.concat hpresent
  rcases Item.mem_steps_cases hj with ⟨name, -, hbegin⟩ | ⟨name, hnext, hname, rfl⟩ |
    ⟨hcomplete, items, hitems, k, hk, hnext, rfl⟩
  · exact sound_of_mem_begin hbegin
  · apply (hpresent i hi).advance hnext (Nat.le_refl _)
    rw [slice_self]
    exact yields_nonterminal_iff.2 (Rules.mem_nullable_iff.1 hname)
  · -- the set of the origin is an earlier one or the present one, and both are sound
    have hle : i.origin ≤ earlier.length := (hpresent i hi).origin_le
    exact (hsets i.origin items hitems k hk).advance hnext hle
      (yields_nonterminal_iff.2 ((hpresent i hi).derives hcomplete))

/-- A set that begins with sound items is filled with sound items. -/
theorem sound_of_fills {earlier : List (List Item)} {first items : List Item}
    (hfills : Fills (Item.steps rules rules.nullable earlier) 0 first items)
    (hearlier : SoundSets rules word earlier)
    (hfirst : ∀ i ∈ first, i.Sound rules word earlier.length) :
    ∀ i ∈ items, i.Sound rules word earlier.length :=
  hfills.forall_mem hfirst fun _ _ hpresent hi _ hj => sound_of_mem_steps hearlier hpresent hi hj

/-- Reading a token keeps soundness. -/
theorem sound_of_mem_scan {token : String} {rest : List String} {items : List Item}
    (hitems : ∀ i ∈ items, i.Sound rules word position) (hword : word.drop position = token :: rest)
    (hj : j ∈ scan token items) : j.Sound rules word (position + 1) := by
  obtain ⟨i, hi, hnext, rfl⟩ := Item.mem_scan.1 hj
  apply (hitems i hi).advance hnext (Nat.le_succ position)
  rw [slice_succ hword]
  exact .terminal token .nil

end Soundness

/-! ## The way ends -/

/-- All items with an origin up to a position. -/
def Rules.items (rules : Rules) (position : Nat) : List Item :=
  (List.range (position + 1)).flatMap fun origin =>
    rules.productions.flatMap fun e =>
      (List.range (e.2.length + 1)).map fun dot => ⟨origin, dot, e.1, e.2⟩

theorem Rules.length_items (rules : Rules) (position : Nat) :
    (rules.items position).length = rules.itemBound position := by
  -- the dot of an alternative has one place more than there are symbols
  have hplaces : ∀ ps : List (String × Phrase),
      (ps.map fun e => e.2.length + 1).sum = (ps.map Prod.snd).flatten.length + ps.length := by
    intro ps
    induction ps with
    | nil => rfl
    | cons e ps ih =>
      rw [List.map_cons, List.sum_cons, ih, List.map_cons, List.flatten_cons, List.length_append,
        List.length_cons]
      omega
  simp only [items, itemBound, List.length_flatMap, List.length_map, List.length_range, hplaces,
    List.map_const', List.sum_replicate_nat, Rules.phrases_eq_map_productions]

theorem Item.Sound.mem_items {rules : Rules} {word : List String} {position : Nat} {i : Item}
    (h : i.Sound rules word position) : i ∈ rules.items position := by
  have horigin : i.origin ∈ List.range (position + 1) :=
    List.mem_range.2 (Nat.lt_succ_of_le h.origin_le)
  have hdot : i.dot ∈ List.range (i.phrase.length + 1) :=
    List.mem_range.2 (Nat.lt_succ_of_le h.dot_le)
  have hproduction : (i.lhs, i.phrase) ∈ rules.productions :=
    Rules.mem_productions_iff.2 h.mem_alternatives
  exact List.mem_flatMap.2 ⟨i.origin, horigin, List.mem_flatMap.2
    ⟨(i.lhs, i.phrase), hproduction, List.mem_map.2 ⟨i.dot, hdot, rfl⟩⟩⟩

/-- The turns of a set suffice, when it begins with sound items. -/
theorem fills_itemSet {rules : Rules} {word : List String} {earlier : List (List Item)}
    {first : List Item} (hearlier : SoundSets rules word earlier)
    (hfirst : ∀ i ∈ first, i.Sound rules word earlier.length) (hnodup : first.Nodup) :
    Fills (Item.steps rules rules.nullable earlier) 0 first
      (itemSet rules rules.nullable earlier first) := by
  refine fills_fill (fun i hi => Item.Sound.mem_items hi)
    (fun present i hpresent hi j hj => sound_of_mem_steps hearlier hpresent hi hj) ?_ hnodup hfirst
  exact Nat.le_of_eq (rules.length_items earlier.length)

end Chomsky
