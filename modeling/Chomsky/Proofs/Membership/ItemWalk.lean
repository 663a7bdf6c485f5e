import Chomsky.Grammar.Samples
import Chomsky.Proofs.Membership.Earley
import Chomsky.Proofs.Membership.SpanGrid
import Mathlib.Logic.Relation

/-!
# The item sets in place

The sets of all positions can be there from the beginning, with no items in them, and be
filled by single turns. An item then adds to the set of its own position, to the next set
when it reads a token, and it looks into the set of its origin. These are accesses by
position, and all of them are checked here: where a word has no such position, there is
no next state.

That none is ever refused rests on two facts about the items. An item is in no set before
its origin, so the set that it looks into is there. And it moves to the next set only by a
token, so there is a next set. Every turn keeps the first of them for all items.

A position is left when its set has no more items to go through. Up to then the next set
takes what the turns so far have read, and later sets are empty. So the turns for one
position fill its set as it is filled by itself, and the state in the end is the chart.

## What this module delivers

- `ItemWalk` with `begin?` and `step?`, the states and one step with checked accesses, and
  `ItemWalk.Reaches` for any number of steps.
- `SetsWithin`, the bounds of sets and items, with `SetsWithin.exists_step?` for one step
  and `ItemWalk.Reaches.within` for a run.
- `ItemWalk.reaches_of_fills` and `ItemWalk.reaches_of_chartRun`: the run through one set,
  and through all of them.
- `recognizers_within_range`: both tests for membership, the one on items and the one on
  spans, stay within range and give their answers.
-/

set_option autoImplicit false

namespace Chomsky

/-! ## States and steps -/

/-- Adds an item to the set of a position, if there is such a set. -/
def addItem? (position : Nat) (sets : List (List Item)) (i : Item) : Option (List (List Item)) :=
  sets[position]?.map fun items => sets.set position (pushUnique items i)

/-- Adds items in turn. -/
def addItems? (position : Nat) (sets : List (List Item)) (items : List Item) :
    Option (List (List Item)) :=
  items.foldlM (addItem? position) sets

/-- The turn of an item of a position: a complete item advances those of its origin that
wait for it, a nonterminal is predicted and stepped over if it is nullable, and a terminal
that is the next token moves the item to the next position. -/
def Item.turn? (rules : Rules) (nullable : NameSet) (word : List String) (position : Nat)
    (sets : List (List Item)) (i : Item) : Option (List (List Item)) :=
  match i.next? with
  | none => do
      let begun ← sets[i.origin]?
      addItems? position sets
        ((begun.filter fun j => j.awaits (.nonterminal i.lhs)).map Item.advance)
  | some (.nonterminal name) => do
      let predicted ← addItems? position sets (Item.begin rules position name)
      if name ∈ nullable then addItem? position predicted i.advance else return predicted
  | some (.terminal token) =>
      if word[position]? = some token then addItem? (position + 1) sets i.advance else some sets

/-- The state of a run: the sets of all positions, the position whose set is gone through,
and the index of the next item in it. -/
structure ItemWalk where
  /-- The sets. -/
  sets : List (List Item)
  /-- The position. -/
  position : Nat
  /-- The index. -/
  index : Nat

namespace ItemWalk

/-- The first state: the alternatives of the start symbol begin at the first position. -/
def begin? (g : Grammar) (word : List String) : Option ItemWalk := do
  let sets ← addItems? 0 (List.replicate (word.length + 1) []) (Item.begin g.rules 0 g.start)
  return ⟨sets, 0, 0⟩

/-- One step: the next item of the present set has its turn; behind the last one the next
position is the present one; behind the last position the answer is read off its set.
There is no result if an access is refused. -/
def step? (g : Grammar) (word : List String) (s : ItemWalk) : Option (ItemWalk ⊕ Bool) :=
  if s.position ≤ word.length then do
    let items ← s.sets[s.position]?
    if s.index < items.length then
      let i ← items[s.index]?
      let sets ← i.turn? g.rules g.rules.nullable word s.position s.sets
      return .inl ⟨sets, s.position, s.index + 1⟩
    else return .inl ⟨s.sets, s.position + 1, 0⟩
  else do
    let last ← s.sets[word.length]?
    return .inr (last.any fun i =>
      decide (i.origin = 0) && i.next?.isNone && decide (i.lhs = g.start))

/-- Some number of steps. -/
abbrev Reaches (g : Grammar) (word : List String) : ItemWalk → ItemWalk → Prop :=
  Relation.ReflTransGen fun s t => s.step? g word = some (.inl t)

end ItemWalk

/-! ## Bounds -/

/-- The bounds of an item in the set of a position. -/
structure Item.Within (position : Nat) (i : Item) : Prop where
  /-- The item began at no later position. -/
  origin_le : i.origin ≤ position
  /-- The dot lies within the alternative. -/
  dot_le : i.dot ≤ i.phrase.length

/-- There is a set for each position of a word, and its items keep their bounds. -/
structure SetsWithin (word : List String) (sets : List (List Item)) : Prop where
  /-- One set more than there are tokens. -/
  length_eq : sets.length = word.length + 1
  /-- The items of each set. -/
  items_within : ∀ (k : Nat) (items : List Item), sets[k]? = some items → ∀ i ∈ items, i.Within k

section Bounds

variable {g : Grammar} {rules : Rules} {nullable : NameSet} {word : List String}
  {sets : List (List Item)} {position : Nat} {items js : List Item} {i : Item}

theorem Item.Within.advance {s : Symbol} {last : Nat} (h : i.Within position)
    (hnext : i.next? = some s) (hle : position ≤ last) : i.advance.Within last :=
  ⟨Nat.le_trans h.origin_le hle, Item.dot_lt hnext⟩

theorem Item.within_of_mem_begin {name : String} (h : i ∈ Item.begin rules position name) :
    i.Within position := by
  obtain ⟨p, -, rfl⟩ := Item.mem_begin.1 h
  exact ⟨Nat.le_refl _, Nat.zero_le _⟩

/-- Adding to a set that is there is adding to that set alone. -/
theorem addItem?_eq_some (h : sets[position]? = some items) (i : Item) :
    addItem? position sets i = some (sets.set position (pushUnique items i)) := by
  rw [addItem?, h, Option.map_some]

theorem addItems?_eq_some (h : sets[position]? = some items) (js : List Item) :
    addItems? position sets js = some (sets.set position (pushAll items js)) := by
  obtain ⟨hlt, hget⟩ := List.getElem?_eq_some_iff.1 h
  induction js generalizing sets items with
  | nil =>
    rw [pushAll_nil, ← hget, List.set_getElem_self]
    rfl
  | cons j js ih =>
    have hset : (sets.set position (pushUnique items j))[position]?
        = some (pushUnique items j) := List.getElem?_set_self hlt
    have hrest := ih hset (by rwa [List.length_set]) (by rw [List.getElem_set_self])
    rw [List.set_set] at hrest
    rw [addItems?, List.foldlM_cons, addItem?_eq_some h, pushAll_cons]
    exact hrest

namespace SetsWithin

theorem exists_getElem? (h : SetsWithin word sets) (hle : position ≤ word.length) :
    ∃ items, sets[position]? = some items ∧ ∀ i ∈ items, i.Within position := by
  have hlt : position < sets.length := by
    rw [h.length_eq]
    exact Nat.lt_succ_of_le hle
  exact ⟨_, List.getElem?_eq_getElem hlt, h.items_within _ _ (List.getElem?_eq_getElem hlt)⟩

theorem set (h : SetsWithin word sets) (hitems : ∀ i ∈ items, i.Within position) :
    SetsWithin word (sets.set position items) := by
  refine ⟨List.length_set.trans h.length_eq, fun k present hpresent => ?_⟩
  rw [List.getElem?_set] at hpresent
  split at hpresent
  · next heq =>
    obtain rfl : items = present := by simpa using (Option.ite_none_right_eq_some.1 hpresent).2
    exact heq ▸ hitems
  · exact h.items_within k present hpresent

/-- Items within their bounds can be added to a set that is there. -/
theorem exists_addItems? (h : SetsWithin word sets) (hle : position ≤ word.length)
    (hjs : ∀ j ∈ js, j.Within position) :
    ∃ sets', addItems? position sets js = some sets' ∧ SetsWithin word sets' := by
  obtain ⟨items, hget, hitems⟩ := h.exists_getElem? hle
  refine ⟨_, addItems?_eq_some hget js, h.set fun i hi => ?_⟩
  rcases mem_pushAll.1 hi with hold | hnew
  · exact hitems i hold
  · exact hjs i hnew

theorem exists_addItem? (h : SetsWithin word sets) (hle : position ≤ word.length)
    (hi : i.Within position) :
    ∃ sets', addItem? position sets i = some sets' ∧ SetsWithin word sets' := by
  have hadd : addItems? position sets [i] = addItem? position sets i := bind_pure _
  rw [← hadd]
  exact h.exists_addItems? hle fun j hj => List.mem_singleton.1 hj ▸ hi

/-- No turn is refused an access, and all of them keep the bounds. -/
theorem exists_turn? (h : SetsWithin word sets) (hle : position ≤ word.length)
    (hi : i.Within position) (rules : Rules) (nullable : NameSet) :
    ∃ sets', i.turn? rules nullable word position sets = some sets' ∧ SetsWithin word sets' := by
  unfold Item.turn?
  cases hnext : i.next? with
  | none =>
    obtain ⟨begun, hget, hbegun⟩ := h.exists_getElem? (Nat.le_trans hi.origin_le hle)
    dsimp only
    rw [hget]
    refine h.exists_addItems? hle fun j hj => ?_
    obtain ⟨k, hk, rfl⟩ := List.mem_map.1 hj
    obtain ⟨hmem, hawaits⟩ := List.mem_filter.1 hk
    exact (hbegun k hmem).advance (Item.awaits_iff.1 hawaits) hi.origin_le
  | some s =>
    cases s with
    | nonterminal name =>
      have hbegin : ∀ j ∈ Item.begin rules position name, j.Within position :=
        fun j hj => Item.within_of_mem_begin hj
      obtain ⟨predicted, hpredicted, hwithin⟩ := h.exists_addItems? hle hbegin
      dsimp only
      rw [hpredicted]
      by_cases hname : name ∈ nullable
      · simp only [Option.bind_eq_bind, Option.bind_some, if_pos hname]
        exact hwithin.exists_addItem? hle (hi.advance hnext (Nat.le_refl _))
      · simp only [Option.bind_eq_bind, Option.bind_some, if_neg hname]
        exact ⟨predicted, rfl, hwithin⟩
    | terminal token =>
      dsimp only
      by_cases htoken : word[position]? = some token
      · -- there is a set behind the token
        have hlt : position < word.length := (List.getElem?_eq_some_iff.1 htoken).1
        rw [if_pos htoken]
        exact h.exists_addItem? hlt (hi.advance hnext (Nat.le_succ _))
      · rw [if_neg htoken]
        exact ⟨sets, rfl, h⟩

/-- The bound of an item is needed: with an origin behind the word, its turn is refused. -/
example : (⟨2, 1, "S", [.terminal "a"]⟩ : Item).turn? ∅ ∅ ["a"] 1 [[], []] = none := rfl

/-- No step is refused an access, and all of them keep the bounds. -/
theorem exists_step? {s : ItemWalk} (h : SetsWithin word s.sets) (g : Grammar) :
    ∃ r, s.step? g word = some r ∧ ∀ t, r = .inl t → SetsWithin word t.sets := by
  unfold ItemWalk.step?
  by_cases hle : s.position ≤ word.length
  · obtain ⟨items, hget, hitems⟩ := h.exists_getElem? hle
    rw [if_pos hle, hget]
    simp only [Option.bind_eq_bind, Option.bind_some]
    by_cases hindex : s.index < items.length
    · have hi := hitems items[s.index] (List.getElem_mem hindex)
      obtain ⟨sets, hsets, hwithin⟩ := h.exists_turn? hle hi g.rules g.rules.nullable
      rw [if_pos hindex, List.getElem?_eq_getElem hindex, Option.bind_some, hsets,
        Option.bind_some]
      refine ⟨_, rfl, ?_⟩
      rintro t ⟨⟩
      exact hwithin
    · rw [if_neg hindex]
      refine ⟨_, rfl, ?_⟩
      rintro t ⟨⟩
      exact h
  · obtain ⟨last, hget, -⟩ := h.exists_getElem? (Nat.le_refl word.length)
    rw [if_neg hle, hget]
    exact ⟨_, rfl, fun t ht => by cases ht⟩

end SetsWithin

/-- A run keeps the bounds. -/
theorem ItemWalk.Reaches.within {s t : ItemWalk} (h : ItemWalk.Reaches g word s t)
    (hs : SetsWithin word s.sets) : SetsWithin word t.sets := by
  induction h with
  | refl => exact hs
  | tail _ hstep ih =>
    obtain ⟨r, hr, hwithin⟩ := ih.exists_step? g
    exact hwithin _ (Option.some.inj (hr.symm.trans hstep))

end Bounds

namespace ItemWalk

/-! ## The run through one set -/

/-- The sets of the positions to come: the next one has what some items have moved to it by
its token, and the others are empty. -/
def ahead : (rest : List String) → (done : List Item) → List (List Item)
  | [], _ => []
  | token :: rest, done => scan token done :: List.replicate rest.length []

theorem ahead_nil (rest : List String) : ahead rest [] = List.replicate rest.length [] := by
  cases rest <;> rfl

section Turns

variable {rules : Rules} {nullable : NameSet} {word rest : List String}
  {earlier later : List (List Item)} {present : List Item} {index : Nat} {i : Item}

theorem getElem?_present : (earlier ++ present :: later)[earlier.length]? = some present := by
  rw [List.getElem?_append_right (Nat.le_refl _), Nat.sub_self, List.getElem?_cons_zero]

theorem set_present (items : List Item) :
    (earlier ++ present :: later).set earlier.length items = earlier ++ items :: later := by
  rw [List.set_append_right _ _ (Nat.le_refl _), Nat.sub_self, List.set_cons_zero]

theorem scan_take_succ {token : String} (hi : present[index]? = some i) :
    scan token (present.take (index + 1)) = scan token (present.take index) ++
      if i.awaits (.terminal token) then [i.advance] else [] := by
  rw [List.take_add_one, hi, scan, scan, List.filter_append, List.map_append, Option.toList_some,
    List.filter_singleton]
  split <;> simp_all

/-- An item that reads no token moves nothing. -/
theorem ahead_take_succ_of_not_awaits (hi : present[index]? = some i)
    (hnot : ∀ token, rest.head? = some token → i.next? ≠ some (.terminal token)) :
    ahead rest (present.take (index + 1)) = ahead rest (present.take index) := by
  cases rest with
  | nil => rfl
  | cons token rest =>
    have hawaits : ¬ i.awaits (.terminal token) = true := fun h =>
      hnot token rfl (Item.awaits_iff.1 h)
    rw [ahead, ahead, scan_take_succ hi, if_neg hawaits, List.append_nil]

/-- An item that reads the token is added to the next set. It is new there, since no other
item advances to it. -/
theorem addItem?_ahead {token : String} (hi : present[index]? = some i) (hnodup : present.Nodup)
    (hnext : i.next? = some (.terminal token)) :
    addItem? (earlier.length + 1)
        (earlier ++ present :: ahead (token :: rest) (present.take index)) i.advance =
      some (earlier ++ present :: ahead (token :: rest) (present.take (index + 1))) := by
  have hscan : scan token (present.take (index + 1)) =
      pushUnique (scan token (present.take index)) i.advance := by
    have hnew : (scan token (present.take (index + 1))).Nodup :=
      Item.nodup_scan (hnodup.sublist (List.take_sublist _ _))
    rw [scan_take_succ hi, if_pos (Item.awaits_iff.2 hnext)] at hnew ⊢
    exact (pushAll_eq_append hnew).symm
  have hsets : earlier ++ present :: ahead (token :: rest) (present.take index) =
      (earlier ++ [present]) ++ scan token (present.take index) ::
        List.replicate rest.length [] := by simp [ahead]
  have hlength : earlier.length + 1 = (earlier ++ [present]).length := by simp
  rw [hsets, hlength, addItem?_eq_some getElem?_present, set_present, ← hscan,
    List.append_assoc, List.singleton_append, ahead]

/-- A turn does to the present set what a step of the item does to it, and moves the item
to the next set if it reads the token. -/
theorem turn?_eq_some (hword : word.drop earlier.length = rest)
    (hi : present[index]? = some i) (hnodup : present.Nodup)
    (horigin : i.origin ≤ earlier.length) :
    i.turn? rules nullable word earlier.length
        (earlier ++ present :: ahead rest (present.take index)) =
      some (earlier ++ pushAll present (i.steps rules nullable earlier present) ::
        ahead rest (present.take (index + 1))) := by
  unfold Item.turn? Item.steps
  cases hnext : i.next? with
  | none =>
    -- the set of the origin is an earlier one or the present one
    obtain ⟨begun, hbegun⟩ : ∃ begun, (earlier ++ [present])[i.origin]? = some begun :=
      ⟨_, List.getElem?_eq_getElem (by simpa using Nat.lt_succ_of_le horigin)⟩
    have hsets : (earlier ++ present :: ahead rest (present.take index))[i.origin]?
        = some begun := by
      rcases getElem?_concat_cases hbegun with hearly | ⟨hlast, rfl⟩
      · rw [List.getElem?_append_left (List.getElem?_eq_some_iff.1 hearly).1, hearly]
      · rw [hlast, getElem?_present]
    rw [ahead_take_succ_of_not_awaits hi fun token _ => by simp [hnext]]
    simp only [hsets, hbegun, Option.bind_eq_bind, Option.bind_some, Option.getD_some,
      addItems?_eq_some getElem?_present, set_present]
  | some s =>
    cases s with
    | nonterminal name =>
      rw [ahead_take_succ_of_not_awaits hi fun token _ => by simp [hnext]]
      simp only [addItems?_eq_some getElem?_present, set_present, Option.bind_eq_bind,
        Option.bind_some]
      by_cases hname : name ∈ nullable
      · rw [if_pos hname, if_pos hname, addItem?_eq_some getElem?_present, set_present,
          pushAll_append]
        rfl
      · rw [if_neg hname, if_neg hname]
        rfl
    | terminal token =>
      have hhead : rest.head? = word[earlier.length]? := by rw [← hword, List.head?_drop]
      dsimp only
      rw [pushAll_nil]
      by_cases htoken : word[earlier.length]? = some token
      · obtain ⟨more, rfl⟩ := List.head?_eq_some_iff.1 (hhead.trans htoken)
        rw [if_pos htoken, addItem?_ahead hi hnodup hnext]
      · rw [if_neg htoken, ahead_take_succ_of_not_awaits hi fun other hother hread => ?_]
        -- a token that were read now would be the next one
        obtain rfl : token = other := by simpa using hnext.symm.trans hread
        exact htoken (hhead.symm.trans hother)

end Turns

/-- The state before the turn of the item at an index of the present set. -/
def amid (earlier : List (List Item)) (present : List Item) (rest : List String) (index : Nat) :
    ItemWalk :=
  ⟨earlier ++ present :: ahead rest (present.take index), earlier.length, index⟩

section Runs

variable {g : Grammar} {word rest : List String} {earlier sets : List (List Item)}
  {first present items : List Item} {index : Nat} {i : Item}

theorem position_le (hwithin : SetsWithin word (amid earlier present rest index).sets) :
    earlier.length ≤ word.length := by
  have hlength := hwithin.length_eq
  rw [amid, List.length_append, List.length_cons] at hlength
  omega

/-- One turn, as a step of the run. -/
theorem step?_amid (hwithin : SetsWithin word (amid earlier present rest index).sets)
    (hword : word.drop earlier.length = rest) (hnodup : present.Nodup)
    (hi : present[index]? = some i) :
    (amid earlier present rest index).step? g word =
      some (.inl (amid earlier (pushAll present
        (i.steps g.rules g.rules.nullable earlier present)) rest (index + 1))) := by
  have hindex : index < present.length := (List.getElem?_eq_some_iff.1 hi).1
  have horigin : i.origin ≤ earlier.length :=
    (hwithin.items_within _ _ getElem?_present i (List.mem_of_getElem? hi)).origin_le
  -- what the set has so far keeps its place
  have htake : (pushAll present (i.steps g.rules g.rules.nullable earlier present)).take
      (index + 1) = present.take (index + 1) := by
    obtain ⟨more, hmore⟩ :=
      prefix_pushAll present (i.steps g.rules g.rules.nullable earlier present)
    rw [← hmore, List.take_append_of_le_length hindex]
  simp only [step?, amid, if_pos (position_le hwithin), getElem?_present, Option.bind_eq_bind,
    Option.bind_some, if_pos hindex, hi, turn?_eq_some hword hi hnodup horigin, htake]
  rfl

/-- The turns for one position fill its set, and end with the next position. -/
theorem reaches_of_fills
    (h : Fills (Item.steps g.rules g.rules.nullable earlier) index present items)
    (hwithin : SetsWithin word (amid earlier present rest index).sets)
    (hword : word.drop earlier.length = rest) (hnodup : present.Nodup) :
    Reaches g word (amid earlier present rest index)
      ⟨earlier ++ items :: ahead rest items, earlier.length + 1, 0⟩ := by
  induction h with
  | @stop index items hlen =>
    apply Relation.ReflTransGen.single
    simp only [step?, amid, if_pos (position_le hwithin), getElem?_present, Option.bind_eq_bind,
      Option.bind_some, if_neg (Nat.not_lt.2 hlen), List.take_of_length_le hlen]
    rfl
  | @turn index present result i hi hrest ih =>
    have hstep := step?_amid (g := g) hwithin hword hnodup hi
    exact .head hstep (ih (Reaches.within (.single hstep) hwithin) (nodup_pushAll hnodup))

/-- Behind the last item before a token, the next position has what the token moves to it. -/
theorem eq_amid (earlier : List (List Item)) (items : List Item) (token : String)
    (rest : List String) :
    (⟨earlier ++ items :: ahead (token :: rest) items, earlier.length + 1, 0⟩ : ItemWalk) =
      amid (earlier ++ [items]) (scan token items) rest 0 := by
  rw [amid, List.take_zero, ahead_nil]
  simp [ahead]

/-- The turns for all positions make the sets of the way through them. -/
theorem reaches_of_chartRun (h : ChartRun g.rules g.rules.nullable earlier first rest sets)
    (hwithin : SetsWithin word (amid earlier first rest 0).sets)
    (hword : word.drop earlier.length = rest) (hnodup : first.Nodup) :
    Reaches g word (amid earlier first rest 0) ⟨sets, word.length + 1, 0⟩ := by
  induction h with
  | @last earlier first items hfills =>
    have hlast := reaches_of_fills hfills hwithin hword hnodup
    have hlength : earlier.length + 1 = word.length + 1 := by
      rw [← hwithin.length_eq, amid, List.length_append]
      rfl
    rwa [hlength] at hlast
  | @token earlier sets first items token rest hfills hrest ih =>
    have hfirst := reaches_of_fills hfills hwithin hword hnodup
    rw [eq_amid] at hfirst
    have hword' : word.drop (earlier ++ [items]).length = rest := by
      rw [List.length_append, List.length_singleton, ← List.drop_drop, hword, List.drop_one,
        List.tail_cons]
    exact hfirst.trans
      (ih (hfirst.within hwithin) hword' (Item.nodup_scan (hfills.nodup hnodup)))

end Runs

/-! ## The whole run -/

section Answers

variable (g : Grammar) (word : List String)

/-- The first state is there: the first set has the alternatives of the start symbol, and
the others are empty. -/
theorem begin?_eq_some :
    begin? g word = some (amid [] (distinct (Item.begin g.rules 0 g.start)) word 0) := by
  have hfirst : (List.replicate (word.length + 1) ([] : List Item))[0]? = some [] := rfl
  rw [begin?, addItems?_eq_some hfirst, amid, List.take_zero, ahead_nil]
  rfl

theorem setsWithin_begin :
    SetsWithin word (amid [] (distinct (Item.begin g.rules 0 g.start)) word 0).sets := by
  rw [amid, List.take_zero, ahead_nil]
  dsimp only
  rw [List.nil_append]
  refine ⟨by simp, fun k items hitems i hi => ?_⟩
  cases k with
  | zero =>
    obtain rfl := Option.some.inj hitems
    exact Item.within_of_mem_begin (mem_distinct.1 hi)
  | succ k =>
    rw [List.getElem?_cons_succ] at hitems
    obtain rfl := List.eq_of_mem_replicate (List.mem_of_getElem? hitems)
    exact absurd hi List.not_mem_nil

/-- The run comes to its end, with the chart of the word and the answer of the test. -/
theorem exists_reaches_answer {begun : ItemWalk} (h : begin? g word = some begun) :
    ∃ last, Reaches g word begun last ∧
      last.sets = chart g.rules g.rules.nullable g.start word ∧
      last.step? g word = some (.inr (g.derivesByItems word)) := by
  obtain rfl := Option.some.inj ((begin?_eq_some g word).symm.trans h)
  have hrun := reaches_of_chartRun (chartRun_chart g.rules g.start word)
    (setsWithin_begin g word) rfl (nodup_distinct _)
  obtain ⟨items, hitems, -⟩ :=
    (hrun.within (setsWithin_begin g word)).exists_getElem? (Nat.le_refl word.length)
  refine ⟨_, hrun, rfl, ?_⟩
  simp only [step?, if_neg (Nat.not_succ_le_self word.length), hitems, Option.bind_eq_bind,
    Option.bind_some, Grammar.derivesByItems, chartAccepts, Option.getD_some]
  rfl

end Answers

end ItemWalk

/-! ## Both tests -/

/-- Whatever the grammar and the word, both tests stay within range.

For the test on spans, the loops compute no row or column that the table does not have, and
no difference below zero. No access is refused, and the answer is that of the test on spans.

For the test on items, every state of the run has one set more than there are tokens, and in
each set the items began at no later position and have their dots within their alternatives.
No access is refused, and the run ends with the chart and the answer of the test on items. -/
theorem recognizers_within_range (g : Grammar) (word : List String) :
    (∀ length ∈ SpanGrid.lengths word.length, ∃ last,
      difference? word.length length = some last ∧
        ∀ start ∈ SpanGrid.positions last, ∀ split ∈ SpanGrid.splits length,
          Split.Within word.length length start split) ∧
    g.acceptsByGrid? word = some (g.acceptsBySpans word) ∧
    ∃ begun, ItemWalk.begin? g word = some begun ∧
      (∀ s, ItemWalk.Reaches g word begun s →
        s.step? g word ≠ none ∧ s.sets.length = word.length + 1 ∧
          ∀ (k : Nat) (items : List Item), s.sets[k]? = some items →
            ∀ i ∈ items, i.origin ≤ k ∧ i.dot ≤ i.phrase.length) ∧
      ∃ last, ItemWalk.Reaches g word begun last ∧
        last.sets = chart g.rules g.rules.nullable g.start word ∧
        last.step? g word = some (.inr (g.derivesByItems word)) := by
  refine ⟨fun length hlength => SpanGrid.exists_within_of_mem_lengths hlength,
    g.acceptsByGrid?_eq_some word, _, ItemWalk.begin?_eq_some g word, fun s hs => ?_,
    ItemWalk.exists_reaches_answer g word (ItemWalk.begin?_eq_some g word)⟩
  have hwithin := hs.within (ItemWalk.setsWithin_begin g word)
  obtain ⟨r, hr, -⟩ := hwithin.exists_step? g
  refine ⟨hr ▸ Option.some_ne_none r, hwithin.length_eq, fun k items hitems i hi => ?_⟩
  have hbounds := hwithin.items_within k items hitems i hi
  exact ⟨hbounds.origin_le, hbounds.dot_le⟩

/-- In the sample with a cycle, `"b"` is derived through a unit alternative. The test on
items says so, and the test on spans passes over that alternative; the first turn is one of
the states within range. -/
theorem recognizers_within_range_unitCycle :
    Sample.unitCycle.grammar.acceptsByGrid? ["b"] = some false ∧
    ∃ begun next last, ItemWalk.begin? Sample.unitCycle.grammar ["b"] = some begun ∧
      ItemWalk.Reaches Sample.unitCycle.grammar ["b"] begun next ∧ next.index = 1 ∧
      next.step? Sample.unitCycle.grammar ["b"] ≠ none ∧
      ItemWalk.Reaches Sample.unitCycle.grammar ["b"] begun last ∧
      last.step? Sample.unitCycle.grammar ["b"] = some (.inr true) := by
  obtain ⟨-, hgrid, begun, hbegun, hrange, last, hlast, -, hanswer⟩ :=
    recognizers_within_range Sample.unitCycle.grammar ["b"]
  have hspans : Sample.unitCycle.grammar.acceptsBySpans ["b"] = false := by decide
  have hitems : Sample.unitCycle.grammar.derivesByItems ["b"] = true := by decide
  rw [hspans] at hgrid
  rw [hitems] at hanswer
  obtain ⟨next, hstep, hindex⟩ : ∃ next,
      begun.step? Sample.unitCycle.grammar ["b"] = some (.inl next) ∧ next.index = 1 := by
    obtain rfl := Option.some.inj ((ItemWalk.begin?_eq_some _ _).symm.trans hbegun)
    exact ⟨_, rfl, rfl⟩
  have hnext : ItemWalk.Reaches Sample.unitCycle.grammar ["b"] begun next := .single hstep
  exact ⟨hgrid, begun, next, last, hbegun, hnext, hindex, (hrange next hnext).1, hlast, hanswer⟩

end Chomsky
