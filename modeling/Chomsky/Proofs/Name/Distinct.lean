import Chomsky.Name.Distinct
import Mathlib.Data.List.Forall2
import Mathlib.Data.List.Induction
import Mathlib.Data.List.Nodup
import Mathlib.Data.List.Perm.Subperm
import Mathlib.Data.Set.Card

/-!
# Counting without repetition

The number of distinct elements of a list depends on its members alone, so it
is kept by every map that tells the members apart.

## What this module delivers

- `distinct_concat`, `distinct_filter`, `distinct_flatMap` and `head?_distinct`: how
  `distinct` goes with the operations that lists are walked with.
- `length_distinct_congr` and `length_distinct_map`: two lists with the same
  members, and a list with its image, have as many distinct elements.
- `ncard_eq_length_distinct`: so have a list and the set of its members.
- `forall₂_distinct_filterMap`: the distinct images of a partial map that can be undone.
- `length_le_of_nodup_of_subset`: a list without repetition is no longer than a
  list that has all its members.
-/

set_option autoImplicit false

namespace Chomsky

variable {α β : Type} [DecidableEq α] [DecidableEq β]

theorem pushUnique_of_mem {l : List α} {a : α} (h : a ∈ l) : pushUnique l a = l := if_pos h

theorem pushUnique_of_notMem {l : List α} {a : α} (h : a ∉ l) : pushUnique l a = l ++ [a] :=
  if_neg h

theorem prefix_pushUnique (l : List α) (a : α) : l <+: pushUnique l a := by
  unfold pushUnique
  split
  · exact List.prefix_rfl
  · exact List.prefix_append l [a]

theorem prefix_pushAll (l as : List α) : l <+: pushAll l as := by
  induction as generalizing l with
  | nil => exact List.prefix_rfl
  | cons a as ih => exact (prefix_pushUnique l a).trans (ih _)

theorem pushAll_append (l as bs : List α) : pushAll l (as ++ bs) = pushAll (pushAll l as) bs :=
  List.foldl_append

theorem distinct_concat (as : List α) (a : α) : distinct (as ++ [a]) = pushUnique (distinct as) a :=
  pushAll_append [] as [a]

/-- Pushing elements that are new and without repetition appends them. -/
theorem pushAll_eq_append {l as : List α} (h : (l ++ as).Nodup) : pushAll l as = l ++ as := by
  induction as generalizing l with
  | nil => rw [pushAll_nil, List.append_nil]
  | cons a as ih =>
    have ha : a ∉ l := fun hmem => List.disjoint_of_nodup_append h hmem List.mem_cons_self
    rw [pushAll_cons, pushUnique_of_notMem ha, ih (by simpa using h), List.append_assoc,
      List.singleton_append]

theorem distinct_eq_self {as : List α} (h : as.Nodup) : distinct as = as := pushAll_eq_append h

theorem head?_distinct (as : List α) : (distinct as).head? = as.head? := by
  cases as with
  | nil => rfl
  | cons a as =>
    obtain ⟨rest, hrest⟩ : [a] <+: distinct (a :: as) := prefix_pushAll [a] as
    rw [← hrest]
    rfl

theorem filter_pushUnique (p : α → Bool) (l : List α) (a : α) :
    (pushUnique l a).filter p = if p a then pushUnique (l.filter p) a else l.filter p := by
  by_cases hmem : a ∈ l
  · rw [pushUnique_of_mem hmem]
    by_cases hp : p a = true
    · rw [if_pos hp, pushUnique_of_mem (List.mem_filter.2 ⟨hmem, hp⟩)]
    · rw [if_neg hp]
  · rw [pushUnique_of_notMem hmem, List.filter_append]
    by_cases hp : p a = true
    · rw [if_pos hp, pushUnique_of_notMem fun h => hmem (List.mem_filter.1 h).1,
        List.filter_singleton, hp]
      rfl
    · rw [if_neg hp, List.filter_singleton, Bool.of_not_eq_true hp]
      exact List.append_nil _

theorem filter_pushAll (p : α → Bool) (l as : List α) :
    (pushAll l as).filter p = pushAll (l.filter p) (as.filter p) := by
  induction as generalizing l with
  | nil => rfl
  | cons a as ih =>
    rw [pushAll_cons, ih, filter_pushUnique]
    by_cases hp : p a = true
    · rw [if_pos hp, List.filter_cons_of_pos hp, pushAll_cons]
    · rw [if_neg hp, List.filter_cons_of_neg hp]

theorem distinct_filter (p : α → Bool) (as : List α) :
    distinct (as.filter p) = (distinct as).filter p := (filter_pushAll p [] as).symm

/-- Elements that are none of those before are pushed as if there were none before. -/
theorem pushAll_of_disjoint {l as : List α} (h : l.Disjoint as) : pushAll l as = l ++ distinct as := by
  -- from the end, since an element is compared with all before it
  induction as using List.reverseRecOn with
  | nil => rw [pushAll_nil]; exact (List.append_nil l).symm
  | append_singleton as a ih =>
    obtain ⟨has, ha⟩ := List.disjoint_append_right.1 h
    have hal : a ∉ l := List.disjoint_singleton.1 ha
    rw [pushAll_append, ih has, pushAll_cons, pushAll_nil, distinct_concat]
    by_cases hmem : a ∈ distinct as
    · rw [pushUnique_of_mem hmem, pushUnique_of_mem (List.mem_append_right l hmem)]
    · have hnew : a ∉ l ++ distinct as := fun hin => (List.mem_append.1 hin).elim hal hmem
      rw [pushUnique_of_notMem hmem, pushUnique_of_notMem hnew, List.append_assoc]

omit [DecidableEq β] in
/-- Lists without a common element can be gone through one by one. -/
theorem distinct_flatMap {ks : List β} {f : β → List α}
    (h : ks.Pairwise (Function.onFun List.Disjoint f)) :
    distinct (ks.flatMap f) = ks.flatMap fun k => distinct (f k) := by
  induction ks with
  | nil => rfl
  | cons k ks ih =>
    obtain ⟨hk, hks⟩ := List.pairwise_cons.1 h
    have hdisjoint : (distinct (f k)).Disjoint (ks.flatMap f) := by
      intro a ha hlater
      obtain ⟨k', hk', ha'⟩ := List.mem_flatMap.1 hlater
      exact hk k' hk' (mem_distinct.1 ha) ha'
    rw [List.flatMap_cons, List.flatMap_cons, distinct, pushAll_append, ← distinct,
      pushAll_of_disjoint hdisjoint, ih hks]

/-! ## Counting -/

omit [DecidableEq α] in
theorem length_le_of_nodup_of_subset {l m : List α} (hl : l.Nodup) (h : ∀ a ∈ l, a ∈ m) :
    l.length ≤ m.length := (hl.subperm h).length_le

/-- Lists with the same members have as many distinct elements. -/
theorem length_distinct_congr {l m : List α} (h : ∀ a, a ∈ l ↔ a ∈ m) :
    (distinct l).length = (distinct m).length :=
  Nat.le_antisymm
    (length_le_of_nodup_of_subset (nodup_distinct l) fun a ha =>
      mem_distinct.2 ((h a).1 (mem_distinct.1 ha)))
    (length_le_of_nodup_of_subset (nodup_distinct m) fun a ha =>
      mem_distinct.2 ((h a).2 (mem_distinct.1 ha)))

/-- The number of members of a set is that of the distinct elements of any list with
the same members. -/
theorem ncard_eq_length_distinct {s : Set α} {l : List α} (h : ∀ a, a ∈ s ↔ a ∈ l) :
    s.ncard = (distinct l).length := by
  have hs : s = ((distinct l).toFinset : Set α) := by
    ext a
    simp only [h a, List.coe_toFinset, Set.mem_ofPred_eq, mem_distinct]
  rw [hs, Set.ncard_coe_finset, List.toFinset_card_of_nodup (nodup_distinct l)]

/-- A map that tells the members of a list apart goes with taking the distinct ones. -/
theorem map_distinct {l : List α} {f : α → β} (hinj : ∀ a ∈ l, ∀ b ∈ l, f a = f b → a = b) :
    (distinct l).map f = distinct (l.map f) := by
  -- from the end, since an element is compared with all before it
  induction l using List.reverseRecOn with
  | nil => rfl
  | append_singleton l a ih =>
    have hbefore : ∀ x ∈ l, ∀ y ∈ l, f x = f y → x = y := fun x hx y hy =>
      hinj x (List.mem_append_left _ hx) y (List.mem_append_left _ hy)
    rw [List.map_append, List.map_singleton, distinct_concat, distinct_concat, ← ih hbefore]
    by_cases hmem : a ∈ distinct l
    · rw [pushUnique_of_mem hmem, pushUnique_of_mem (List.mem_map_of_mem hmem)]
    · have himage : f a ∉ (distinct l).map f := by
        intro himage
        obtain ⟨b, hb, heq⟩ := List.mem_map.1 himage
        obtain rfl := hinj b (List.mem_append_left _ (mem_distinct.1 hb)) a (by simp) heq
        exact hmem hb
      rw [pushUnique_of_notMem hmem, pushUnique_of_notMem himage, List.map_append,
        List.map_singleton]

/-- Such a map keeps the number of distinct elements. -/
theorem length_distinct_map {l : List α} {f : α → β}
    (hinj : ∀ a ∈ l, ∀ b ∈ l, f a = f b → a = b) :
    (distinct (l.map f)).length = (distinct l).length := by
  rw [← map_distinct hinj, List.length_map]

/-- A partial map that can be undone on all members of a list pairs the distinct images
with the distinct members, in the same order. -/
theorem forall₂_distinct_filterMap {l : List α} {f : α → Option β} {undo : β → α}
    (h : ∀ a ∈ l, ∃ b, f a = some b ∧ undo b = a) :
    List.Forall₂ (fun b a => a ∈ l ∧ f a = some b) (distinct (l.filterMap f)) (distinct l) := by
  cases l with
  | nil => exact .nil
  | cons first rest =>
    obtain ⟨default, -⟩ := h first List.mem_cons_self
    have hget : ∀ a ∈ first :: rest, f a = some ((f a).getD default) := by
      intro a ha
      obtain ⟨b, hb, -⟩ := h a ha
      rw [hb, Option.getD_some]
    have hundo : ∀ a ∈ first :: rest, undo ((f a).getD default) = a := by
      intro a ha
      obtain ⟨b, hb, hundo⟩ := h a ha
      rw [hb, Option.getD_some, hundo]
    have hmap : (first :: rest).filterMap f = (first :: rest).map fun a => (f a).getD default := by
      rw [← List.filterMap_eq_map]
      exact List.filterMap_congr hget
    rw [hmap, ← map_distinct fun a ha b hb heq => by rw [← hundo a ha, heq, hundo b hb],
      List.forall₂_map_left_iff, List.forall₂_same]
    intro a ha
    rw [mem_distinct] at ha
    exact ⟨ha, hget a ha⟩

end Chomsky
