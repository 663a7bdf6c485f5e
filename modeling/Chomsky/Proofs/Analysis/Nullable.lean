import Chomsky.Analysis.Nullable
import Chomsky.Proofs.Grammar.Simulation
import Chomsky.Proofs.Name.Distinct

/-!
# Nullable nonterminals derive the empty word

The rounds that enlarge the set of nullable nonterminals stop at a set that no
further round enlarges. It contains nothing that does not derive the empty word,
because every round adds only what its members justify, and everything that does,
because a derivation of the empty word uses nonterminals only.

## What this module delivers

- `Phrase.isNullable_iff` and `yields_nil_of_isNullable`.
- `Rules.NullClosed`, the sets that no round enlarges.
- `Rules.mem_iff_derives_nil` and `Rules.mem_nullable_iff`: the set is exact.
- `Phrase.Removes` and `Phrase.mem_removals_iff`: the phrases that leave out some
  nullable occurrences.
-/

set_option autoImplicit false

namespace Chomsky

theorem Symbol.isNullable_iff {nullable : NameSet} {s : Symbol} :
    s.isNullable nullable = true ↔ ∃ name ∈ nullable, s = .nonterminal name := by
  cases s with
  | terminal t => simp [Symbol.isNullable]
  | nonterminal n => simp [Symbol.isNullable]

theorem Phrase.isNullable_iff {nullable : NameSet} {p : Phrase} :
    p.isNullable nullable = true ↔ ∀ s ∈ p, s.isNullable nullable = true := List.all_eq_true

namespace Rules

variable {r : Rules}

/-- Every member of the set derives the empty word. -/
def NullSound (r : Rules) (nullable : NameSet) : Prop := ∀ name ∈ nullable, r.Derives name []

/-- No alternative of nullable nonterminals is left under a name outside of the
set. -/
def NullClosed (r : Rules) (nullable : NameSet) : Prop :=
  ∀ lhs, ∀ p ∈ r.alternatives lhs, p.isNullable nullable = true → lhs ∈ nullable

theorem yields_nil_of_isNullable {nullable : NameSet} (h : r.NullSound nullable) {p : Phrase}
    (hp : p.isNullable nullable = true) : Yields r p [] := by
  induction p with
  | nil => exact .nil
  | cons s p ih =>
    rw [Phrase.isNullable_iff] at hp
    obtain ⟨name, hname, rfl⟩ := Symbol.isNullable_iff.1 (hp s List.mem_cons_self)
    have hrest := ih (Phrase.isNullable_iff.2 fun x hx => hp x (List.mem_cons_of_mem _ hx))
    obtain ⟨q, hq, hyields⟩ := h name hname
    exact .nonterminal hq hyields hrest

theorem isNullable_of_yields_nil {nullable : NameSet} (h : r.NullClosed nullable) {p : Phrase}
    {w : List String} (hp : Yields r p w) (hw : w = []) : p.isNullable nullable = true := by
  induction hp with
  | nil => rfl
  | terminal t _ _ => exact absurd hw (List.cons_ne_nil _ _)
  | @nonterminal name q _ _ _ hmem _ _ ihu ihw =>
    -- both parts of an empty word are empty
    obtain ⟨hu, hv⟩ := List.append_eq_nil_iff.1 hw
    have hname : name ∈ nullable := h name q hmem (ihu hu)
    rw [Phrase.isNullable_iff]
    intro s hs
    rcases List.mem_cons.1 hs with rfl | hs
    · exact decide_eq_true hname
    · exact Phrase.isNullable_iff.1 (ihw hv) s hs

/-! ## Rounds -/

theorem mem_nullableStep {nullable : NameSet} {name : String} :
    name ∈ r.nullableStep nullable ↔ ∃ p ∈ r.alternatives name, p.isNullable nullable = true := by
  simp only [nullableStep, List.mem_map, List.mem_filter, List.any_eq_true, mem_alternatives_iff]
  constructor
  · rintro ⟨⟨k, ps⟩, ⟨hentry, p, hp, hnull⟩, rfl⟩
    exact ⟨p, ⟨ps, NameMap.mem_entries_iff.1 hentry, hp⟩, hnull⟩
  · rintro ⟨p, ⟨ps, hget, hp⟩, hnull⟩
    exact ⟨(name, ps), ⟨NameMap.mem_entries_iff.2 hget, p, hp, hnull⟩, rfl⟩

theorem mem_keys_of_mem_nullableStep {nullable : NameSet} {name : String}
    (h : name ∈ r.nullableStep nullable) : name ∈ r.keys := by
  obtain ⟨p, hp, -⟩ := mem_nullableStep.1 h
  exact mem_keys_of_mem_alternatives hp

/-- A set that differs from what it was enlarged from has more members. -/
theorem size_lt_size_insertMany {nullable : NameSet} {names : List String}
    (h : nullable.insertMany names ≠ nullable) :
    nullable.size < (nullable.insertMany names).size := by
  obtain ⟨x, hx, hnew⟩ : ∃ x ∈ names, x ∉ nullable := by
    refine Classical.byContradiction fun hno => h (NameSet.ext fun x => ?_)
    rw [NameSet.mem_insertMany]
    refine or_iff_right_of_imp fun hx => Classical.byContradiction fun hout => ?_
    exact hno ⟨x, hx, hout⟩
  have hnodup : (x :: nullable.toList).Nodup := List.nodup_cons.2 ⟨hnew, nullable.nodup_toList⟩
  have hsub : ∀ y ∈ x :: nullable.toList, y ∈ (nullable.insertMany names).toList := by
    intro y hy
    rw [NameSet.mem_toList, NameSet.mem_insertMany]
    rcases List.mem_cons.1 hy with rfl | hy
    · exact Or.inl hx
    · exact Or.inr hy
  have hle := length_le_of_nodup_of_subset hnodup hsub
  rw [List.length_cons] at hle
  exact hle

theorem nullableFrom_spec {rounds : Nat} {nullable : NameSet} (hsound : r.NullSound nullable)
    (hkeys : ∀ name ∈ nullable, name ∈ r.keys) (hbound : r.size ≤ rounds + nullable.size) :
    r.NullSound (r.nullableFrom rounds nullable) ∧
      r.NullClosed (r.nullableFrom rounds nullable) := by
  induction rounds generalizing nullable with
  | zero =>
    -- every left side is in the set already
    change r.NullSound nullable ∧ r.NullClosed nullable
    refine ⟨hsound, fun lhs p hp _ => Classical.byContradiction fun hout => ?_⟩
    have hlhs : lhs ∈ r.keys := mem_keys_of_mem_alternatives hp
    have hle := length_le_of_nodup_of_subset (m := r.keys.toList)
      (List.nodup_cons.2 ⟨hout, nullable.nodup_toList⟩) fun y hy => by
        rcases List.mem_cons.1 hy with rfl | hy
        · exact hlhs
        · exact hkeys y hy
    rw [List.length_cons, ← NameMap.size_eq_length_keys] at hle
    have hsize : nullable.toList.length = nullable.size := rfl
    omega
  | succ rounds ih =>
    rw [nullableFrom]
    split
    · next hsame =>
      refine ⟨hsound, fun lhs p hp hnull => ?_⟩
      rw [← hsame, NameSet.mem_insertMany]
      exact Or.inl (mem_nullableStep.2 ⟨p, hp, hnull⟩)
    · next hgrown =>
      -- the round has added a name, so one round less is enough
      refine ih ?_ ?_ ?_
      · intro name hname
        rcases NameSet.mem_insertMany.1 hname with hnew | hold
        · obtain ⟨p, hp, hnull⟩ := mem_nullableStep.1 hnew
          exact ⟨p, hp, yields_nil_of_isNullable hsound hnull⟩
        · exact hsound name hold
      · intro name hname
        rcases NameSet.mem_insertMany.1 hname with hnew | hold
        · exact mem_keys_of_mem_nullableStep hnew
        · exact hkeys name hold
      · have := size_lt_size_insertMany hgrown
        omega

theorem nullable_spec (r : Rules) : r.NullSound r.nullable ∧ r.NullClosed r.nullable :=
  nullableFrom_spec (fun name h => absurd h (NameSet.not_mem_empty name))
    (fun name h => absurd h (NameSet.not_mem_empty name)) (Nat.le_add_right _ _)

/-- A set that is sound and closed is exact. -/
theorem mem_iff_derives_nil {nullable : NameSet} (hsound : r.NullSound nullable)
    (hclosed : r.NullClosed nullable) {name : String} :
    name ∈ nullable ↔ r.Derives name [] := by
  constructor
  · exact hsound name
  · rintro ⟨p, hp, hyields⟩
    exact hclosed name p hp (isNullable_of_yields_nil hclosed hyields rfl)

/-- The nullable nonterminals are those that derive the empty word. -/
theorem mem_nullable_iff {name : String} : name ∈ r.nullable ↔ r.Derives name [] :=
  mem_iff_derives_nil r.nullable_spec.1 r.nullable_spec.2

end Rules

/-! ## Leaving out nullable occurrences -/

/-- The choices of a size are the sublists of that length. -/
theorem mem_choices {α : Type} {size : Nat} {l c : List α} :
    c ∈ choices size l ↔ c.Sublist l ∧ c.length = size := by
  induction l generalizing size c with
  | nil =>
    cases size with
    | zero => simp [choices]
    | succ size =>
      apply iff_of_false List.not_mem_nil
      rintro ⟨hsub, hlen⟩
      rw [List.sublist_nil.1 hsub] at hlen
      exact absurd hlen (Nat.succ_ne_zero size).symm
  | cons x l ih =>
    cases size with
    | zero =>
      rw [choices, List.mem_singleton, List.length_eq_zero_iff]
      exact ⟨fun h => ⟨h ▸ List.nil_sublist _, h⟩, And.right⟩
    | succ size =>
      -- the first element is chosen, or all are chosen behind it
      rw [choices, List.mem_append, List.mem_map, ih]
      constructor
      · rintro (⟨d, hd, rfl⟩ | ⟨hsub, hlen⟩)
        · obtain ⟨hsub, hlen⟩ := ih.1 hd
          exact ⟨hsub.cons_cons x, congrArg (· + 1) hlen⟩
        · exact ⟨hsub.cons x, hlen⟩
      · rintro ⟨hsub, hlen⟩
        cases hsub with
        | cons _ hsub => exact Or.inr ⟨hsub, hlen⟩
        | cons_cons _ hsub => exact Or.inl ⟨_, ih.2 ⟨hsub, Nat.succ.inj hlen⟩, rfl⟩

/-- The choices of all sizes but none, the smaller ones first. -/
def nonemptyChoices {α : Type} (l : List α) : List (List α) :=
  (List.range l.length).flatMap fun k => choices (k + 1) l

theorem mem_nonemptyChoices {α : Type} {l c : List α} :
    c ∈ nonemptyChoices l ↔ c ≠ [] ∧ c.Sublist l := by
  simp only [nonemptyChoices, List.mem_flatMap, List.mem_range, mem_choices]
  constructor
  · rintro ⟨k, -, hsub, hlen⟩
    exact ⟨List.ne_nil_of_length_eq_add_one hlen, hsub⟩
  · rintro ⟨hne, hsub⟩
    obtain ⟨k, hk⟩ := Nat.exists_eq_succ_of_ne_zero (mt List.length_eq_zero_iff.1 hne)
    exact ⟨k, Nat.lt_of_succ_le (hk ▸ hsub.length_le), hsub, hk⟩

namespace Phrase

variable {nullable : NameSet}

/-- The second phrase is the first one with some nullable occurrences left out. -/
inductive Removes (nullable : NameSet) : Phrase → Phrase → Prop where
  | nil : Removes nullable [] []
  | keep (s : Symbol) {p q : Phrase} : Removes nullable p q → Removes nullable (s :: p) (s :: q)
  | drop {s : Symbol} {p q : Phrase} :
      s.isNullable nullable = true → Removes nullable p q → Removes nullable (s :: p) q

theorem Removes.refl (nullable : NameSet) : ∀ p : Phrase, Removes nullable p p
  | [] => .nil
  | s :: p => .keep s (refl nullable p)

theorem Removes.mem {p q : Phrase} (h : Removes nullable p q) {s : Symbol} (hs : s ∈ q) :
    s ∈ p := by
  induction h with
  | nil => exact hs
  | keep x _ ih =>
    rcases List.mem_cons.1 hs with rfl | hs
    · exact List.mem_cons_self
    · exact List.mem_cons_of_mem x (ih hs)
  | drop _ _ ih => exact List.mem_cons_of_mem _ (ih hs)

/-- The positions of nullable occurrences, counted from `first`. -/
def nullablePositionsFrom (nullable : NameSet) (first : Nat) (p : Phrase) : List Nat :=
  ((p.zipIdx first).filter fun e => e.1.isNullable nullable).map Prod.snd

/-- The phrase without the symbols at the given positions, counted from `first`. -/
def withoutPositionsFrom (first : Nat) (p : Phrase) (positions : List Nat) : Phrase :=
  ((p.zipIdx first).filter fun e => !positions.contains e.2).map Prod.fst

theorem withoutPositionsFrom_cons {first : Nat} {s : Symbol} {p : Phrase} {positions : List Nat} :
    withoutPositionsFrom first (s :: p) positions =
      if first ∈ positions then withoutPositionsFrom (first + 1) p positions
      else s :: withoutPositionsFrom (first + 1) p positions := by
  by_cases h : first ∈ positions <;>
    simp [withoutPositionsFrom, List.zipIdx_cons, h]

theorem nullablePositionsFrom_cons {first : Nat} {s : Symbol} {p : Phrase} :
    nullablePositionsFrom nullable first (s :: p) =
      if s.isNullable nullable then first :: nullablePositionsFrom nullable (first + 1) p
      else nullablePositionsFrom nullable (first + 1) p := by
  by_cases h : s.isNullable nullable = true <;>
    simp [nullablePositionsFrom, List.zipIdx_cons, h]

theorem le_of_mem_nullablePositionsFrom {first i : Nat} {p : Phrase}
    (h : i ∈ nullablePositionsFrom nullable first p) : first ≤ i := by
  obtain ⟨e, he, rfl⟩ := List.mem_map.1 h
  exact List.le_snd_of_mem_zipIdx (List.mem_filter.1 he).1

/-- Positions before the first one do not matter. -/
theorem withoutPositionsFrom_cons_positions {first i : Nat} (hi : i < first) {p : Phrase}
    {positions : List Nat} :
    withoutPositionsFrom first p (i :: positions) = withoutPositionsFrom first p positions := by
  induction p generalizing first with
  | nil => rfl
  | cons s p ih =>
    have hne : first ≠ i := Nat.ne_of_gt hi
    rw [withoutPositionsFrom_cons, withoutPositionsFrom_cons, ih (Nat.lt_succ_of_lt hi)]
    simp [hne]

/-- Each set of nullable positions leaves out nullable occurrences, and each way
of leaving some out comes from a set of positions. -/
theorem removes_iff (first : Nat) {p q : Phrase} :
    Removes nullable p q ↔
      ∃ positions, positions.Sublist (nullablePositionsFrom nullable first p) ∧
        withoutPositionsFrom first p positions = q := by
  constructor
  · intro h
    induction h generalizing first with
    | nil => exact ⟨[], List.nil_sublist _, rfl⟩
    | @keep s p q _ ih =>
      obtain ⟨positions, hsub, rfl⟩ := ih (first + 1)
      -- the positions of the rest come after the first one
      have hfirst : first ∉ positions := fun hmem =>
        Nat.not_succ_le_self first (le_of_mem_nullablePositionsFrom (hsub.subset hmem))
      refine ⟨positions, ?_, by rw [withoutPositionsFrom_cons, if_neg hfirst]⟩
      rw [nullablePositionsFrom_cons]
      split
      · exact hsub.cons first
      · exact hsub
    | @drop s p q hs _ ih =>
      obtain ⟨positions, hsub, rfl⟩ := ih (first + 1)
      refine ⟨first :: positions, ?_, ?_⟩
      · rw [nullablePositionsFrom_cons, if_pos hs]
        exact hsub.cons_cons first
      · rw [withoutPositionsFrom_cons, if_pos List.mem_cons_self,
          withoutPositionsFrom_cons_positions (Nat.lt_succ_self first)]
  · rintro ⟨positions, hsub, rfl⟩
    induction p generalizing first positions with
    | nil => exact .nil
    | cons s p ih =>
      rw [nullablePositionsFrom_cons] at hsub
      rw [withoutPositionsFrom_cons]
      have hskip {positions : List Nat}
          (h : positions.Sublist (nullablePositionsFrom nullable (first + 1) p)) :
          first ∉ positions := fun hmem =>
        Nat.not_succ_le_self first (le_of_mem_nullablePositionsFrom (h.subset hmem))
      -- only a nullable first symbol has a position that could be chosen
      by_cases hs : s.isNullable nullable = true
      · rw [if_pos hs] at hsub
        cases hsub with
        | cons _ hsub =>
          rw [if_neg (hskip hsub)]
          exact .keep s (ih _ _ hsub)
        | cons_cons _ hsub =>
          rw [if_pos List.mem_cons_self,
            withoutPositionsFrom_cons_positions (Nat.lt_succ_self first)]
          exact .drop hs (ih _ _ hsub)
      · rw [if_neg hs] at hsub
        rw [if_neg (hskip hsub)]
        exact .keep s (ih _ _ hsub)

theorem removals_eq_map (nullable : NameSet) (p : Phrase) :
    p.removals nullable =
      (nonemptyChoices (p.nullablePositions nullable)).map p.withoutPositions := by
  rw [removals, nonemptyChoices, List.map_flatMap]

/-- The listed removals are those that leave out at least one occurrence. -/
theorem mem_removals_iff {p q : Phrase} :
    q ∈ p.removals nullable ↔
      ∃ positions, positions ≠ [] ∧ positions.Sublist (p.nullablePositions nullable) ∧
        p.withoutPositions positions = q := by
  simp only [removals_eq_map, List.mem_map, mem_nonemptyChoices, and_assoc]

/-- A phrase and its removals are all the ways of leaving out nullable
occurrences. -/
theorem removes_iff_mem_removals {p q : Phrase} :
    Removes nullable p q ↔ q = p ∨ q ∈ p.removals nullable := by
  rw [mem_removals_iff]
  constructor
  · intro h
    obtain ⟨positions, hsub, hq⟩ := (removes_iff 0).1 h
    cases positions with
    | nil =>
      left
      rw [← hq, withoutPositionsFrom]
      simp
    | cons i positions => exact Or.inr ⟨i :: positions, List.cons_ne_nil _ _, hsub, hq⟩
  · rintro (rfl | ⟨positions, -, hsub, hq⟩)
    · exact .refl nullable q
    · exact (removes_iff 0).2 ⟨positions, hsub, hq⟩

end Phrase

end Chomsky
