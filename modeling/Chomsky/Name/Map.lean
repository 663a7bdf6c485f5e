import Chomsky.Name.Set

/-!
# Finite maps keyed by names

A `NameMap α` lists its entries in ascending order of their names, each name
once. Like `NameSet`, it has one representation for each finite map, so two
maps with the same look-ups are equal.

## What this module delivers

- `NameMap` with `get?`, `insert`, `erase`, `mapEntries`, `filterKeys`, `keys`
  and `ofList`.
- One look-up law per operation (`get?_insert`, `get?_mapEntries`, ...).
- `NameMap.ext`: maps with the same look-ups are equal.
-/

set_option autoImplicit false

namespace Chomsky

/-- A finite map from names, with its entries in ascending order of names. -/
structure NameMap (α : Type) where
  /-- The entries, in ascending order of their names. -/
  entries : List (String × α)
  /-- Every name is below the names of all later entries. -/
  sorted : (entries.map Prod.fst).Pairwise (· < ·)
deriving DecidableEq

namespace NameMap

variable {α β : Type}

/-- The names that have an entry. -/
def keys (m : NameMap α) : NameSet := ⟨m.entries.map Prod.fst, m.sorted⟩

/-- The values, in the order of their names. -/
def values (m : NameMap α) : List α := m.entries.map Prod.snd

/-- The number of entries. -/
def size (m : NameMap α) : Nat := m.entries.length

/-- The value entered for `k`. -/
def get? (m : NameMap α) (k : String) : Option α := m.entries.lookup k

/-! ## Look-up and entries -/

theorem lookup_eq_some_iff_mem {k : String} {v : α} :
    ∀ {es : List (String × α)}, (es.map Prod.fst).Pairwise (· < ·) →
      (es.lookup k = some v ↔ (k, v) ∈ es)
  | [], _ => by simp
  | (k', v') :: es, h => by
      rw [List.map_cons, List.pairwise_cons] at h
      by_cases hk : k = k'
      · subst hk
        have habsent : (k, v) ∉ es := fun hmem =>
          String.lt_irrefl k (h.1 k (List.mem_map.2 ⟨_, hmem, rfl⟩))
        simp only [List.lookup_cons, BEq.rfl, Option.some.injEq, List.mem_cons, Prod.mk.injEq,
          true_and, habsent, or_false]
        exact eq_comm
      · have hb : (k == k') = false := by simpa using hk
        simp [List.lookup_cons, hb, hk, lookup_eq_some_iff_mem h.2]

theorem mem_entries_iff {m : NameMap α} {k : String} {v : α} :
    (k, v) ∈ m.entries ↔ m.get? k = some v :=
  (lookup_eq_some_iff_mem m.sorted).symm

theorem mem_keys {m : NameMap α} {k : String} : k ∈ m.keys ↔ ∃ v, m.get? k = some v := by
  constructor
  · intro h
    obtain ⟨e, he, rfl⟩ := List.mem_map.1 (show k ∈ m.entries.map Prod.fst from h)
    exact ⟨e.2, mem_entries_iff.1 he⟩
  · rintro ⟨v, h⟩
    exact List.mem_map.2 ⟨(k, v), mem_entries_iff.2 h, rfl⟩

theorem get?_eq_none_iff {m : NameMap α} {k : String} : m.get? k = none ↔ k ∉ m.keys := by
  rw [mem_keys]
  cases m.get? k <;> simp

/-! ## Extensionality -/

/-- Two ascending entry lists with the same entries are the same list. -/
theorem eq_of_mem_iff_of_sorted :
    ∀ {l r : List (String × α)}, (l.map Prod.fst).Pairwise (· < ·) →
      (r.map Prod.fst).Pairwise (· < ·) → (∀ e, e ∈ l ↔ e ∈ r) → l = r
  | [], [], _, _, _ => rfl
  | [], y :: _, _, _, h => absurd ((h y).2 List.mem_cons_self) List.not_mem_nil
  | x :: _, [], _, _, h => absurd ((h x).1 List.mem_cons_self) List.not_mem_nil
  | x :: xs, y :: ys, hl, hr, h => by
      rw [List.map_cons, List.pairwise_cons] at hl hr
      have below {z : String × α} {k : String} {zs : List (String × α)}
          (hk : ∀ a ∈ zs.map Prod.fst, k < a) (hz : z ∈ zs) : k < z.1 :=
        hk z.1 (List.mem_map.2 ⟨z, hz, rfl⟩)
      have hxy : x = y := by
        rcases List.mem_cons.1 ((h x).1 List.mem_cons_self) with hx | hx
        · exact hx
        · rcases List.mem_cons.1 ((h y).2 List.mem_cons_self) with hy | hy
          · exact hy.symm
          · exact absurd (below hl.1 hy) (String.lt_asymm (below hr.1 hx))
      subst hxy
      have htail : ∀ z, z ∈ xs ↔ z ∈ ys := by
        intro z
        constructor
        · intro hz
          rcases List.mem_cons.1 ((h z).1 (List.mem_cons_of_mem _ hz)) with hzx | hzy
          · exact absurd (below hl.1 hz) (hzx ▸ String.lt_irrefl _)
          · exact hzy
        · intro hz
          rcases List.mem_cons.1 ((h z).2 (List.mem_cons_of_mem _ hz)) with hzx | hzy
          · exact absurd (below hr.1 hz) (hzx ▸ String.lt_irrefl _)
          · exact hzy
      rw [eq_of_mem_iff_of_sorted hl.2 hr.2 htail]

/-- Maps with the same look-ups are equal. -/
@[ext] theorem ext {m n : NameMap α} (h : ∀ k, m.get? k = n.get? k) : m = n := by
  have hmem : ∀ e, e ∈ m.entries ↔ e ∈ n.entries := by
    rintro ⟨k, v⟩
    rw [mem_entries_iff, mem_entries_iff, h]
  cases m with
  | mk l hl =>
    cases n with
    | mk r hr =>
      have : l = r := eq_of_mem_iff_of_sorted hl hr hmem
      subst this
      rfl

/-! ## Operations -/

/-- The map without entries. -/
def empty : NameMap α := ⟨[], NameSet.ascending_nil⟩

instance : EmptyCollection (NameMap α) := ⟨empty⟩

instance : Inhabited (NameMap α) := ⟨empty⟩

@[simp] theorem get?_empty (k : String) : (∅ : NameMap α).get? k = none := rfl

/-- Places an entry in front of the first larger name, or in the place of the
entry of that name. -/
def insertEntry (k : String) (v : α) : List (String × α) → List (String × α)
  | [] => [(k, v)]
  | (k', v') :: es =>
      if k < k' then (k, v) :: (k', v') :: es
      else if k = k' then (k, v) :: es
      else (k', v') :: insertEntry k v es

theorem map_fst_insertEntry (k : String) (v : α) (es : List (String × α)) :
    (insertEntry k v es).map Prod.fst = NameSet.insertSorted k (es.map Prod.fst) := by
  induction es with
  | nil => rfl
  | cons e es ih =>
    obtain ⟨k', v'⟩ := e
    simp only [insertEntry, List.map_cons, NameSet.insertSorted]
    split
    · rfl
    · split
      · next h => simp [h]
      · simp [ih]

/-- The map with `k` entered for `v`, in the place of any earlier value. -/
def insert (m : NameMap α) (k : String) (v : α) : NameMap α :=
  ⟨insertEntry k v m.entries, by
    rw [map_fst_insertEntry]; exact NameSet.sorted_insertSorted m.sorted⟩

theorem lookup_insertEntry (k z : String) (v : α) (es : List (String × α)) :
    (insertEntry k v es).lookup z = if z = k then some v else es.lookup z := by
  induction es with
  | nil =>
    by_cases h : z = k
    · simp [insertEntry, h]
    · have hb : (z == k) = false := by simpa using h
      simp [insertEntry, List.lookup_cons, h, hb]
  | cons e es ih =>
    obtain ⟨k', v'⟩ := e
    unfold insertEntry
    by_cases hz : z = k
    · subst hz
      split
      · simp
      · split
        · simp
        · next hne =>
          have hb : (z == k') = false := by simpa using hne
          simp [List.lookup_cons, hb, ih]
    · have hb : (z == k) = false := by simpa using hz
      split
      · simp [List.lookup_cons, hb]
      · split
        · next he => subst he; simp [List.lookup_cons, hb]
        · simp only [List.lookup_cons, ih, hz, if_false]

@[simp] theorem get?_insert (m : NameMap α) (k z : String) (v : α) :
    (m.insert k v).get? z = if z = k then some v else m.get? z :=
  lookup_insertEntry k z v m.entries

@[simp] theorem keys_insert (m : NameMap α) (k : String) (v : α) :
    (m.insert k v).keys = m.keys.insert k := by
  cases m with
  | mk es hs => simp [keys, insert, NameSet.insert, map_fst_insertEntry]

/-- The map with every value replaced, given its name. -/
def mapEntries (f : String → α → β) (m : NameMap α) : NameMap β :=
  ⟨m.entries.map (fun e => (e.1, f e.1 e.2)), by
    rw [List.map_map]; exact m.sorted⟩

@[simp] theorem get?_mapEntries (f : String → α → β) (m : NameMap α) (k : String) :
    (m.mapEntries f).get? k = (m.get? k).map (f k) := by
  have onEntries : ∀ es : List (String × α),
      (es.map (fun e => (e.1, f e.1 e.2))).lookup k = (es.lookup k).map (f k) := by
    intro es
    induction es with
    | nil => rfl
    | cons e es ih =>
      obtain ⟨k', v⟩ := e
      by_cases h : k = k'
      · subst h; simp
      · have hb : (k == k') = false := by simpa using h
        simp [List.lookup_cons, hb, ih]
  exact onEntries m.entries

@[simp] theorem keys_mapEntries (f : String → α → β) (m : NameMap α) :
    (m.mapEntries f).keys = m.keys := by
  cases m with
  | mk es hs => simp [keys, mapEntries]

/-- The entries whose name satisfies `p`. -/
def filterKeys (p : String → Bool) (m : NameMap α) : NameMap α :=
  ⟨m.entries.filter (fun e => p e.1), by
    exact m.sorted.sublist (List.filter_sublist.map _)⟩

@[simp] theorem get?_filterKeys (p : String → Bool) (m : NameMap α) (k : String) :
    (m.filterKeys p).get? k = if p k then m.get? k else none := by
  apply Option.ext
  intro v
  have hmem : (k, v) ∈ (m.filterKeys p).entries ↔ (k, v) ∈ m.entries ∧ p k = true :=
    List.mem_filter
  rw [mem_entries_iff, mem_entries_iff] at hmem
  rw [hmem]
  by_cases hp : p k = true <;> simp [hp]

/-- The map without an entry for `k`. -/
def erase (m : NameMap α) (k : String) : NameMap α := m.filterKeys (· != k)

@[simp] theorem get?_erase (m : NameMap α) (k z : String) :
    (m.erase k).get? z = if z = k then none else m.get? z := by
  by_cases h : z = k <;> simp [erase, h]

/-- The map with every entry of a list made in turn, so that the last entry of
a name counts. -/
def insertMany (m : NameMap α) (entries : List (String × α)) : NameMap α :=
  entries.foldl (fun acc e => acc.insert e.1 e.2) m

@[simp] theorem insertMany_nil (m : NameMap α) : m.insertMany [] = m := rfl

@[simp] theorem insertMany_cons (m : NameMap α) (e : String × α) (es : List (String × α)) :
    m.insertMany (e :: es) = (m.insert e.1 e.2).insertMany es := rfl

/-- The map of a list of entries, the last one of a name counting. -/
def ofList (entries : List (String × α)) : NameMap α := insertMany ∅ entries

end NameMap

end Chomsky
