/-!
# Finite sets of names

A `NameSet` lists its names once each, in ascending order of code points. The
order is part of the type, so a set has exactly one representation and two
sets with the same members are equal.

## What this module delivers

- `NameSet` with `empty`, `insert`, `erase`, `filter`, `inter`, `insertMany`
  and `ofList`.
- One membership law per operation (`mem_insert`, `mem_erase`, ...).
- `NameSet.ext`: sets with the same members are equal.
-/

set_option autoImplicit false

namespace Chomsky

/-- A name that is neither below another name nor equal to it is above it. -/
theorem lt_of_not_lt_of_ne {x y : String} (hlt : ¬ x < y) (hne : x ≠ y) : y < x := by
  apply Classical.byContradiction
  intro h
  exact hne (String.le_antisymm (String.not_lt.1 h) (String.not_lt.1 hlt))

/-- A finite set of names, listed in ascending order. -/
structure NameSet where
  /-- The members, in ascending order. -/
  toList : List String
  /-- Every name is below all the names after it. -/
  sorted : toList.Pairwise (· < ·)
deriving DecidableEq

namespace NameSet

instance : Membership String NameSet := ⟨fun s x => x ∈ s.toList⟩

instance (x : String) (s : NameSet) : Decidable (x ∈ s) :=
  inferInstanceAs (Decidable (x ∈ s.toList))

@[simp] theorem mem_toList {s : NameSet} {x : String} : x ∈ s.toList ↔ x ∈ s := Iff.rfl

/-! ## Extensionality -/

/-- Two ascending lists with the same members are the same list. -/
theorem eq_of_mem_iff_of_sorted :
    ∀ {l r : List String}, l.Pairwise (· < ·) → r.Pairwise (· < ·) →
      (∀ x, x ∈ l ↔ x ∈ r) → l = r
  | [], [], _, _, _ => rfl
  | [], y :: _, _, _, h => absurd ((h y).2 List.mem_cons_self) List.not_mem_nil
  | x :: _, [], _, _, h => absurd ((h x).1 List.mem_cons_self) List.not_mem_nil
  | x :: xs, y :: ys, hl, hr, h => by
      rw [List.pairwise_cons] at hl hr
      have hxy : x = y := by
        rcases List.mem_cons.1 ((h x).1 List.mem_cons_self) with hx | hx
        · exact hx
        · rcases List.mem_cons.1 ((h y).2 List.mem_cons_self) with hy | hy
          · exact hy.symm
          · exact absurd (hl.1 y hy) (String.lt_asymm (hr.1 x hx))
      subst hxy
      have htail : ∀ z, z ∈ xs ↔ z ∈ ys := by
        intro z
        constructor
        · intro hz
          rcases List.mem_cons.1 ((h z).1 (List.mem_cons_of_mem _ hz)) with hzx | hzy
          · exact absurd (hzx ▸ hl.1 z hz) (String.lt_irrefl _)
          · exact hzy
        · intro hz
          rcases List.mem_cons.1 ((h z).2 (List.mem_cons_of_mem _ hz)) with hzx | hzy
          · exact absurd (hzx ▸ hr.1 z hz) (String.lt_irrefl _)
          · exact hzy
      rw [eq_of_mem_iff_of_sorted hl.2 hr.2 htail]

/-- Sets with the same members are equal. -/
@[ext] theorem ext {s t : NameSet} (h : ∀ x, x ∈ s ↔ x ∈ t) : s = t := by
  cases s with
  | mk l hl =>
    cases t with
    | mk r hr =>
      have : l = r := eq_of_mem_iff_of_sorted hl hr h
      subst this
      rfl

/-- No name is listed twice. -/
theorem nodup_toList (s : NameSet) : s.toList.Nodup :=
  s.sorted.imp fun {a b} (h : a < b) (hab : a = b) => String.lt_irrefl b (hab ▸ h)

/-! ## Operations -/

/-- The empty list is ascending. -/
theorem ascending_nil : ([] : List String).Pairwise (· < ·) := List.Pairwise.nil

/-- The set without members. -/
def empty : NameSet := ⟨[], ascending_nil⟩

instance : EmptyCollection NameSet := ⟨empty⟩

instance : Inhabited NameSet := ⟨empty⟩

@[simp] theorem not_mem_empty (x : String) : x ∉ (∅ : NameSet) := List.not_mem_nil

/-- The number of members. -/
def size (s : NameSet) : Nat := s.toList.length

/-- Places `x` in front of the first larger name; a name that is there already
is kept once. -/
def insertSorted (x : String) : List String → List String
  | [] => [x]
  | y :: ys => if x < y then x :: y :: ys else if x = y then y :: ys else y :: insertSorted x ys

theorem mem_insertSorted {x z : String} {l : List String} :
    z ∈ insertSorted x l ↔ z = x ∨ z ∈ l := by
  induction l with
  | nil => simp [insertSorted]
  | cons y ys ih =>
    unfold insertSorted
    split
    · simp
    · split
      · next hxy => subst hxy; simp
      · simp only [List.mem_cons, ih]
        constructor
        · rintro (h | h | h) <;> simp [h]
        · rintro (h | h | h) <;> simp [h]

theorem sorted_insertSorted {x : String} {l : List String} (h : l.Pairwise (· < ·)) :
    (insertSorted x l).Pairwise (· < ·) := by
  induction l with
  | nil => simp [insertSorted]
  | cons y ys ih =>
    have hcons := List.pairwise_cons.1 h
    unfold insertSorted
    split
    · next hxy =>
      refine List.pairwise_cons.2 ⟨fun z hz => ?_, h⟩
      rcases List.mem_cons.1 hz with hz | hz
      · exact hz ▸ hxy
      · exact String.lt_trans hxy (hcons.1 z hz)
    · next hlt =>
      split
      · exact h
      · next hne =>
        refine List.pairwise_cons.2 ⟨fun z hz => ?_, ih hcons.2⟩
        rcases mem_insertSorted.1 hz with hz | hz
        · exact hz ▸ lt_of_not_lt_of_ne hlt hne
        · exact hcons.1 z hz

/-- The set with `x` added. -/
def insert (s : NameSet) (x : String) : NameSet :=
  ⟨insertSorted x s.toList, sorted_insertSorted s.sorted⟩

@[simp] theorem mem_insert {s : NameSet} {x z : String} : z ∈ s.insert x ↔ z = x ∨ z ∈ s :=
  mem_insertSorted

/-- The members that satisfy `p`. -/
def filter (p : String → Bool) (s : NameSet) : NameSet :=
  ⟨s.toList.filter p, s.sorted.filter p⟩

@[simp] theorem mem_filter {p : String → Bool} {s : NameSet} {z : String} :
    z ∈ s.filter p ↔ z ∈ s ∧ p z = true :=
  List.mem_filter

/-- The set without `x`. -/
def erase (s : NameSet) (x : String) : NameSet := s.filter (· != x)

@[simp] theorem mem_erase {s : NameSet} {x z : String} : z ∈ s.erase x ↔ z ∈ s ∧ z ≠ x := by
  simp [erase]

/-- The names in both sets. -/
def inter (s t : NameSet) : NameSet := s.filter (fun x => decide (x ∈ t))

@[simp] theorem mem_inter {s t : NameSet} {z : String} : z ∈ s.inter t ↔ z ∈ s ∧ z ∈ t := by
  simp [inter]

/-- The set with every name of a list added. -/
def insertMany (s : NameSet) (names : List String) : NameSet := names.foldl insert s

@[simp] theorem mem_insertMany {s : NameSet} {names : List String} {z : String} :
    z ∈ s.insertMany names ↔ z ∈ names ∨ z ∈ s := by
  induction names generalizing s with
  | nil => simp [insertMany]
  | cons x xs ih =>
    have : z ∈ s.insertMany (x :: xs) ↔ z ∈ (s.insert x).insertMany xs := Iff.rfl
    rw [this, ih, mem_insert, List.mem_cons]
    constructor
    · rintro (h | h | h) <;> simp [h]
    · rintro ((h | h) | h) <;> simp [h]

/-- The set of the names of a list. -/
def ofList (names : List String) : NameSet := insertMany ∅ names

@[simp] theorem mem_ofList {names : List String} {z : String} : z ∈ ofList names ↔ z ∈ names := by
  simp [ofList]

/-- The names of either set. -/
def union (s t : NameSet) : NameSet := s.insertMany t.toList

@[simp] theorem mem_union {s t : NameSet} {z : String} : z ∈ s.union t ↔ z ∈ s ∨ z ∈ t := by
  simp [union, or_comm]

end NameSet

end Chomsky
