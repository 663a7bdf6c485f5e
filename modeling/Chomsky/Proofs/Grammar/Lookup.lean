import Chomsky.Grammar.Basic

/-!
# Looking alternatives up

Every operation on rules is described by what it does to the alternatives of
one name. A rule map is never opened again after this module.

## What this module delivers

- `Rules.mem_phrases_iff`, `Rules.mem_productions_iff`: an alternative of a rule
  map is an alternative of some name.
- `Rules.alternatives_mapEntries`, `Rules.alternatives_filterKeys` and
  `Rules.alternatives_insert`.
- `NameMap.get?_insertMany_of_mem` and `NameMap.get?_insertMany_of_notMem` for
  many entries with distinct names at once.
- `Rules.ext_alternatives`: left sides and alternatives are all there is to rules.
-/

set_option autoImplicit false

namespace Chomsky

namespace NameMap

variable {α : Type}

@[simp] theorem mem_keys_filterKeys {p : String → Bool} {m : NameMap α} {k : String} :
    k ∈ (m.filterKeys p).keys ↔ k ∈ m.keys ∧ p k = true := by
  simp only [mem_keys, get?_filterKeys]
  by_cases h : p k = true <;> simp [h]

theorem mem_keys_insertMany {m : NameMap α} {es : List (String × α)} {k : String} :
    k ∈ (m.insertMany es).keys ↔ k ∈ m.keys ∨ k ∈ es.map Prod.fst := by
  induction es generalizing m with
  | nil => simp
  | cons e es ih =>
    rw [insertMany_cons, ih, keys_insert, NameSet.mem_insert, List.map_cons, List.mem_cons]
    constructor
    · rintro ((h | h) | h) <;> simp [h]
    · rintro (h | h | h) <;> simp [h]

theorem size_eq_length_keys (m : NameMap α) : m.size = m.keys.toList.length := by
  rw [size, keys, List.length_map]

theorem get?_insertMany_of_notMem {es : List (String × α)} {m : NameMap α} {k : String}
    (h : k ∉ es.map Prod.fst) : (m.insertMany es).get? k = m.get? k := by
  induction es generalizing m with
  | nil => rfl
  | cons e es ih =>
    rw [List.map_cons, List.mem_cons, not_or] at h
    rw [insertMany_cons, ih h.2, get?_insert, if_neg h.1]

theorem get?_insertMany_of_mem {es : List (String × α)} {m : NameMap α} {k : String} {v : α}
    (hnodup : (es.map Prod.fst).Nodup) (h : (k, v) ∈ es) : (m.insertMany es).get? k = some v := by
  induction es generalizing m with
  | nil => exact absurd h List.not_mem_nil
  | cons e es ih =>
    rw [List.map_cons, List.nodup_cons] at hnodup
    rw [insertMany_cons]
    -- the entries behind it have other names, so they leave it as it is
    rcases List.mem_cons.1 h with rfl | h
    · rw [get?_insertMany_of_notMem hnodup.1, get?_insert, if_pos rfl]
    · exact ih hnodup.2 h

end NameMap

theorem Phrase.mentions_iff {p : Phrase} {name : String} :
    p.mentions name = true ↔ .nonterminal name ∈ p := by
  simp only [mentions, List.any_eq_true, beq_iff_eq, exists_eq_right]

namespace Rules

variable {r : Rules}

theorem mem_alternatives_iff {lhs : String} {p : Phrase} :
    p ∈ r.alternatives lhs ↔ ∃ ps, r.get? lhs = some ps ∧ p ∈ ps := by
  unfold alternatives
  cases r.get? lhs <;> simp

/-- Only left sides have alternatives. -/
theorem mem_keys_of_mem_alternatives {lhs : String} {p : Phrase} (h : p ∈ r.alternatives lhs) :
    lhs ∈ r.keys := by
  obtain ⟨ps, hps, -⟩ := mem_alternatives_iff.1 h
  exact NameMap.mem_keys.2 ⟨ps, hps⟩

/-- A name without a rule has no alternatives. -/
theorem alternatives_of_notMem_keys {lhs : String} (h : lhs ∉ r.keys) : r.alternatives lhs = [] := by
  rw [alternatives, NameMap.get?_eq_none_iff.2 h]
  rfl

theorem get?_of_mem_keys {lhs : String} (h : lhs ∈ r.keys) :
    r.get? lhs = some (r.alternatives lhs) := by
  obtain ⟨ps, hps⟩ := NameMap.mem_keys.1 h
  rw [alternatives, hps]
  rfl

/-- Rules with the same left sides and the same alternatives are the same. -/
theorem ext_alternatives {r' : Rules} (hkeys : ∀ lhs, lhs ∈ r.keys ↔ lhs ∈ r'.keys)
    (h : ∀ lhs, r.alternatives lhs = r'.alternatives lhs) : r = r' := by
  apply NameMap.ext
  intro lhs
  by_cases hlhs : lhs ∈ r.keys
  · rw [get?_of_mem_keys hlhs, get?_of_mem_keys ((hkeys lhs).1 hlhs), h]
  · have hlhs' : lhs ∉ r'.keys := fun hmem => hlhs ((hkeys lhs).2 hmem)
    rw [NameMap.get?_eq_none_iff.2 hlhs, NameMap.get?_eq_none_iff.2 hlhs']

theorem mem_productions_iff {e : String × Phrase} :
    e ∈ r.productions ↔ e.2 ∈ r.alternatives e.1 := by
  obtain ⟨lhs, p⟩ := e
  -- an entry of the map holds all alternatives of its name
  rw [mem_alternatives_iff, productions, List.mem_flatMap]
  constructor
  · rintro ⟨⟨k, ps⟩, hentry, hp⟩
    obtain ⟨q, hq, heq⟩ := List.mem_map.1 hp
    obtain ⟨rfl, rfl⟩ := Prod.mk.inj heq
    exact ⟨ps, NameMap.mem_entries_iff.1 hentry, hq⟩
  · rintro ⟨ps, hps, hp⟩
    exact ⟨(lhs, ps), NameMap.mem_entries_iff.2 hps, List.mem_map.2 ⟨p, hp, rfl⟩⟩

theorem phrases_eq_map_productions : r.phrases = r.productions.map Prod.snd := by
  simp [phrases, productions, NameMap.values, List.flatMap_def, Function.comp_def]

theorem mem_phrases_iff {p : Phrase} : p ∈ r.phrases ↔ ∃ lhs, p ∈ r.alternatives lhs := by
  rw [phrases_eq_map_productions, List.mem_map]
  constructor
  · rintro ⟨e, he, rfl⟩
    exact ⟨e.1, mem_productions_iff.1 he⟩
  · rintro ⟨lhs, h⟩
    exact ⟨(lhs, p), mem_productions_iff.2 h, rfl⟩

theorem mentions_iff {name : String} :
    r.mentions name = true ↔ ∃ lhs, ∃ p ∈ r.alternatives lhs, .nonterminal name ∈ p := by
  simp only [mentions, List.any_eq_true, mem_phrases_iff, Phrase.mentions_iff]
  constructor
  · rintro ⟨p, ⟨lhs, hp⟩, hmem⟩
    exact ⟨lhs, p, hp, hmem⟩
  · rintro ⟨lhs, p, hp, hmem⟩
    exact ⟨p, ⟨lhs, hp⟩, hmem⟩

/-! ## Operations -/

/-- A replacement of all rules acts on the alternatives of each name, provided
that it makes nothing out of nothing. -/
theorem alternatives_mapEntries {f : String → List Phrase → List Phrase} {lhs : String}
    (hnil : f lhs [] = []) : alternatives (r.mapEntries f) lhs = f lhs (r.alternatives lhs) := by
  unfold alternatives
  rw [NameMap.get?_mapEntries]
  cases r.get? lhs with
  | none => exact hnil.symm
  | some ps => rfl

theorem alternatives_filterKeys {p : String → Bool} {lhs : String} :
    alternatives (r.filterKeys p) lhs = if p lhs then r.alternatives lhs else [] := by
  unfold alternatives
  rw [NameMap.get?_filterKeys]
  by_cases h : p lhs = true <;> simp [h]

theorem alternatives_insert {name lhs : String} {ps : List Phrase} :
    alternatives (r.insert name ps) lhs = if lhs = name then ps else r.alternatives lhs := by
  unfold alternatives
  rw [NameMap.get?_insert]
  by_cases h : lhs = name <;> simp [h]

theorem alternatives_insertMany_of_notMem {es : List (String × List Phrase)} {lhs : String}
    (h : lhs ∉ es.map Prod.fst) : alternatives (r.insertMany es) lhs = r.alternatives lhs := by
  rw [alternatives, NameMap.get?_insertMany_of_notMem h, alternatives]

theorem alternatives_insertMany_of_mem {es : List (String × List Phrase)} {lhs : String}
    {ps : List Phrase} (hnodup : (es.map Prod.fst).Nodup) (h : (lhs, ps) ∈ es) :
    alternatives (r.insertMany es) lhs = ps := by
  rw [alternatives, NameMap.get?_insertMany_of_mem hnodup h]
  rfl

end Rules

end Chomsky
