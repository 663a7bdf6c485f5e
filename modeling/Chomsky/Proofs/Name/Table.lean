import Chomsky.Name.Table
import Chomsky.Proofs.Name.Supply
import Mathlib.Data.List.Forall2
import Mathlib.Data.List.Induction

/-!
# What a table assigns

A table that learns keys one after the other pairs its distinct keys, in the
order in which they are met, with the free names of the pool, for as long as
there are names. So the table is known from the keys and the pool alone.

## What this module delivers

- `NameTable.names`, `NameTable.assigned` and `learnAll_ofPool`: the closed form of a table.
- `find?_assigned_iff`, `find?_injective`: look-up in it, one name for each key.
- `forall_isSome_find?_iff`: every key has a name exactly if the pool has as many
  free names as there are keys.
-/

set_option autoImplicit false

namespace Chomsky

/-- Related lists have related elements. -/
theorem exists_mem_of_forall₂ {α β : Type} {related : α → β → Prop} {l : List α} {m : List β}
    (h : List.Forall₂ related l m) :
    (∀ a ∈ l, ∃ b ∈ m, related a b) ∧ ∀ b ∈ m, ∃ a ∈ l, related a b := by
  induction h with
  | nil => exact ⟨fun a ha => absurd ha List.not_mem_nil, fun b hb => absurd hb List.not_mem_nil⟩
  | @cons a b _ _ hhead _ ih =>
    obtain ⟨ihl, ihr⟩ := ih
    constructor
    · intro x hx
      rcases List.mem_cons.1 hx with rfl | hx
      · exact ⟨b, List.mem_cons_self, hhead⟩
      · obtain ⟨y, hy, hxy⟩ := ihl x hx
        exact ⟨y, List.mem_cons_of_mem b hy, hxy⟩
    · intro y hy
      rcases List.mem_cons.1 hy with rfl | hy
      · exact ⟨a, List.mem_cons_self, hhead⟩
      · obtain ⟨x, hx, hxy⟩ := ihr y hy
        exact ⟨x, List.mem_cons_of_mem a hx, hxy⟩

/-- A partial map with an image for each element of a list maps the whole list. -/
theorem mapM_eq_some {α β : Type} {f : α → Option β} {l : List α}
    (h : ∀ a ∈ l, (f a).isSome = true) : l.mapM f = some (l.filterMap f) := by
  induction l with
  | nil => rfl
  | cons a l ih =>
    obtain ⟨b, hb⟩ := Option.isSome_iff_exists.1 (h a List.mem_cons_self)
    rw [List.mapM_cons, ih fun x hx => h x (List.mem_cons_of_mem a hx), hb,
      List.filterMap_cons_some hb]
    rfl

theorem mapM_eq_none {α β : Type} {f : α → Option β} {l : List α} {a : α} (ha : a ∈ l)
    (h : f a = none) : l.mapM f = none := by
  induction l with
  | nil => exact absurd ha List.not_mem_nil
  | cons b l ih =>
    rw [List.mapM_cons]
    -- the first element without an image ends the way through the list
    rcases List.mem_cons.1 ha with rfl | ha
    · rw [h]
      rfl
    · rw [ih ha]
      cases f b <;> rfl

namespace NameTable

variable {κ : Type}

/-- The names that a table has given. -/
def names (t : NameTable κ) : List String := t.entries.map Prod.snd

theorem mem_names {t : NameTable κ} {name : String} :
    name ∈ t.names ↔ ∃ key, (key, name) ∈ t.entries := by
  rw [names, List.mem_map]
  constructor
  · rintro ⟨⟨key, n⟩, hmem, rfl⟩
    exact ⟨key, hmem⟩
  · rintro ⟨key, hmem⟩
    exact ⟨_, hmem, rfl⟩

variable [DecidableEq κ]

/-- The table that pairs keys with the free names of a pool. -/
def assigned (pool : NamePool) (keys : List κ) : NameTable κ :=
  ⟨keys.zip pool.free, pool.drawn keys.length⟩

variable {pool : NamePool} {keys : List κ} {key : κ} {name : String}

/-! ## Look-up -/

theorem mem_of_lookup_eq_some {es : List (κ × String)} (h : es.lookup key = some name) :
    (key, name) ∈ es := by
  obtain ⟨l, r, rfl, -⟩ := List.lookup_eq_some_iff.1 h
  exact List.mem_append_right l List.mem_cons_self

theorem lookup_isSome_iff {es : List (κ × String)} :
    (es.lookup key).isSome = true ↔ key ∈ es.map Prod.fst := by
  induction es with
  | nil => simp
  | cons e es ih =>
    obtain ⟨k, v⟩ := e
    by_cases h : key = k
    · simp [h]
    · have hb : (key == k) = false := beq_eq_false_iff_ne.2 h
      simp [List.lookup_cons, hb, ih, h]

theorem lookup_eq_some_iff_of_nodup {es : List (κ × String)} (hnodup : (es.map Prod.fst).Nodup) :
    es.lookup key = some name ↔ (key, name) ∈ es := by
  refine ⟨mem_of_lookup_eq_some, fun hmem => ?_⟩
  -- some entry is found, and no other entry has this key
  have hsome : (es.lookup key).isSome = true := lookup_isSome_iff.2 (List.mem_map.2 ⟨_, hmem, rfl⟩)
  obtain ⟨other, hother⟩ := Option.isSome_iff_exists.1 hsome
  have heq := List.inj_on_of_nodup_map hnodup (mem_of_lookup_eq_some hother) hmem rfl
  rw [hother, (Prod.mk.inj heq).2]

omit [DecidableEq κ] in
theorem map_fst_zip_eq_take {keys : List κ} {names : List String} :
    (keys.zip names).map Prod.fst = keys.take names.length := by
  induction keys generalizing names with
  | nil => rw [List.zip_nil_left, List.take_nil, List.map_nil]
  | cons key keys ih =>
    cases names with
    | nil => rfl
    | cons name names => exact congrArg (key :: ·) ih

omit [DecidableEq κ] in
theorem map_snd_zip_eq_take {keys : List κ} {names : List String} :
    (keys.zip names).map Prod.snd = names.take keys.length := by
  induction keys generalizing names with
  | nil => rfl
  | cons key keys ih =>
    cases names with
    | nil => rfl
    | cons name names => exact congrArg (name :: ·) ih

omit [DecidableEq κ] in
/-- One key more is paired with the name that comes after those of the others. -/
theorem zip_concat (keys : List κ) (key : κ) (names : List String) :
    (keys ++ [key]).zip names
      = keys.zip names ++ ((names.drop keys.length).head?.map fun name => (key, name)).toList := by
  induction keys generalizing names with
  | nil => cases names <;> simp
  | cons k keys ih =>
    cases names with
    | nil => rfl
    | cons name names => exact congrArg ((k, name) :: ·) (ih names)

omit [DecidableEq κ] in
/-- The names of a table are the first free names of its pool. -/
theorem names_assigned (pool : NamePool) (keys : List κ) :
    (assigned pool keys).names = pool.free.take keys.length := map_snd_zip_eq_take

omit [DecidableEq κ] in
theorem nodup_map_fst_assigned (hkeys : keys.Nodup) :
    ((assigned pool keys).entries.map Prod.fst).Nodup := by
  rw [assigned, map_fst_zip_eq_take]
  exact hkeys.sublist (List.take_sublist _ _)

omit [DecidableEq κ] in
theorem nodup_names_assigned (pool : NamePool) (keys : List κ) :
    (assigned pool keys).names.Nodup := by
  rw [names_assigned]
  exact pool.nodup_free.sublist (List.take_sublist _ _)

omit [DecidableEq κ] in
/-- Where there are enough names, every key has its name, in the same order. -/
theorem forall₂_assigned {related : κ → String → Prop} (hle : keys.length ≤ pool.free.length)
    (h : ∀ key name, (key, name) ∈ (assigned pool keys).entries → related key name) :
    List.Forall₂ related keys (pool.free.take keys.length) := by
  have hentries : List.Forall₂ related ((assigned pool keys).entries.map Prod.fst)
      ((assigned pool keys).entries.map Prod.snd) := by
    simp only [List.forall₂_map_left_iff, List.forall₂_map_right_iff, List.forall₂_same]
    rintro ⟨key, name⟩ hmem
    exact h key name hmem
  rwa [assigned, map_fst_zip_eq_take, map_snd_zip_eq_take, List.take_of_length_le hle] at hentries

theorem find?_assigned_iff (hkeys : keys.Nodup) :
    (assigned pool keys).find? key = some name ↔ (key, name) ∈ (assigned pool keys).entries :=
  lookup_eq_some_iff_of_nodup (nodup_map_fst_assigned hkeys)

theorem isSome_find?_iff :
    ((assigned pool keys).find? key).isSome = true ↔ key ∈ keys.take pool.free.length := by
  rw [← map_fst_zip_eq_take]
  exact lookup_isSome_iff

/-- A name that a table assigns is a free name of its pool. -/
theorem mem_free_of_find? (h : (assigned pool keys).find? key = some name) : name ∈ pool.free :=
  (List.of_mem_zip (mem_of_lookup_eq_some h)).2

theorem mem_keys_of_find? (h : (assigned pool keys).find? key = some name) : key ∈ keys :=
  (List.of_mem_zip (mem_of_lookup_eq_some h)).1

/-- Different keys have different names. -/
theorem find?_injective {other : κ} (h : (assigned pool keys).find? key = some name)
    (hother : (assigned pool keys).find? other = some name) : key = other :=
  congrArg Prod.fst (List.inj_on_of_nodup_map (nodup_names_assigned pool keys)
    (mem_of_lookup_eq_some h) (mem_of_lookup_eq_some hother) rfl)

/-- Every key has a name exactly if there is a free name for each key. -/
theorem forall_isSome_find?_iff (hkeys : keys.Nodup) :
    (∀ key ∈ keys, ((assigned pool keys).find? key).isSome = true) ↔
      keys.length ≤ pool.free.length := by
  simp only [isSome_find?_iff]
  constructor
  · intro h
    -- no more keys have names than there are names
    have hle := length_le_of_nodup_of_subset hkeys h
    rw [List.length_take] at hle
    omega
  · intro h key hkey
    rwa [List.take_of_length_le h]

/-- Where the names do not suffice, some key is left without. -/
theorem exists_find?_eq_none (hkeys : keys.Nodup) (h : pool.free.length < keys.length) :
    ∃ key ∈ keys, (assigned pool keys).find? key = none := by
  refine Classical.byContradiction fun hall => Nat.not_le.2 h ?_
  apply (forall_isSome_find?_iff hkeys).1
  intro key hkey
  exact Option.isSome_iff_ne_none.2 fun hnone => hall ⟨key, hkey, hnone⟩

/-! ## Learning -/

section Learn

variable {t : NameTable κ}

theorem learn_of_find?_eq_some (h : t.find? key = some name) : t.learn key = t := by
  rw [learn, h]

theorem learn_of_fresh_eq_none (h : t.pool.fresh = none) : t.learn key = t := by
  rw [learn, h]
  split <;> rfl

theorem learn_of_fresh_eq_some (h : t.find? key = none)
    (hfresh : t.pool.fresh = some (name, pool)) :
    t.learn key = ⟨t.entries ++ [(key, name)], pool⟩ := by
  rw [learn, h, hfresh]

/-- A table finds all it found before it learned a key more. -/
theorem find?_learn {other : κ} (h : t.find? key = some name) :
    (t.learn other).find? key = some name := by
  unfold learn
  split
  · exact h
  · split
    · rw [find?, List.lookup_append, ← find?, h]
      rfl
    · exact h

end Learn

/-- A key that has no name after its turn shows that the names have run out. -/
theorem fresh_eq_none_of_find?_eq_none (h : key ∈ keys)
    (hfind : (assigned pool keys).find? key = none) : (assigned pool keys).pool.fresh = none := by
  -- if a name were left, this key would have had one
  have hexhausted : pool.free.length ≤ keys.length := by
    apply Nat.le_of_not_lt
    intro hlt
    have hsome : ((assigned pool keys).find? key).isSome = true := by
      rw [isSome_find?_iff, List.take_of_length_le (Nat.le_of_lt hlt)]
      exact h
    rw [hfind] at hsome
    exact Bool.false_ne_true hsome
  apply NamePool.fresh_of_free_nil
  rw [assigned, NamePool.free_drawn, List.drop_eq_nil_iff.2 hexhausted]

/-- A key that has its turn when it is known already changes nothing, be it that
it has a name or that no name was left for it. -/
theorem learn_assigned_of_mem (h : key ∈ keys) :
    (assigned pool keys).learn key = assigned pool keys := by
  cases hfind : (assigned pool keys).find? key with
  | some name => exact learn_of_find?_eq_some hfind
  | none => exact learn_of_fresh_eq_none (fresh_eq_none_of_find?_eq_none h hfind)

theorem learn_assigned_of_notMem (h : key ∉ keys) :
    (assigned pool keys).learn key = assigned pool (keys ++ [key]) := by
  have hfind : (assigned pool keys).find? key = none := by
    cases hcase : (assigned pool keys).find? key with
    | none => rfl
    | some name => exact absurd (mem_keys_of_find? hcase) h
  have hzip := zip_concat keys key pool.free
  cases hdrop : pool.free.drop keys.length with
  -- the names have run out, so the key is not paired
  | nil =>
    have hfresh : (assigned pool keys).pool.fresh = none :=
      NamePool.fresh_of_free_nil (by rw [assigned, NamePool.free_drawn, hdrop])
    have hle : pool.free.length ≤ keys.length := List.drop_eq_nil_iff.1 hdrop
    rw [hdrop, List.head?_nil, Option.map_none, Option.toList_none, List.append_nil] at hzip
    rw [learn_of_fresh_eq_none hfresh, assigned, assigned, hzip, List.length_append,
      List.length_singleton, NamePool.drawn_of_le hle (Nat.le_succ _)]
  -- the next free name goes to the key
  | cons name rest =>
    have hfresh : (assigned pool keys).pool.fresh
        = some (name, (pool.drawn keys.length).handOut name) :=
      NamePool.fresh_of_free_cons ((NamePool.free_drawn pool keys.length).trans hdrop)
    rw [hdrop, List.head?_cons, Option.map_some, Option.toList_some] at hzip
    rw [learn_of_fresh_eq_some hfind hfresh, assigned, assigned, hzip, List.length_append,
      List.length_singleton, NamePool.drawn_succ hdrop]

/-- Learning a key adds it to the keys, in the first place where it was met. -/
theorem learn_assigned (pool : NamePool) (keys : List κ) (key : κ) :
    (assigned pool keys).learn key = assigned pool (pushUnique keys key) := by
  by_cases h : key ∈ keys
  · rw [pushUnique_of_mem h]
    exact learn_assigned_of_mem h
  · rw [pushUnique_of_notMem h]
    exact learn_assigned_of_notMem h

theorem learnAll_append (t : NameTable κ) (keys more : List κ) :
    t.learnAll (keys ++ more) = (t.learnAll keys).learnAll more := List.foldl_append

/-- A table that starts with nothing pairs the distinct keys with the free names
of its pool. -/
theorem learnAll_ofPool (pool : NamePool) (keys : List κ) :
    (ofPool pool).learnAll keys = assigned pool (distinct keys) := by
  -- from the end, since a key is learned after all that come before it
  induction keys using List.reverseRecOn with
  | nil => simp [learnAll, ofPool, assigned, distinct]
  | append_singleton keys key ih =>
    rw [learnAll_append, ih, distinct_concat]
    exact learn_assigned pool (distinct keys) key

end NameTable

end Chomsky
