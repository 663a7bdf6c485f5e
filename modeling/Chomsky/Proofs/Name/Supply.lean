import Chomsky.Name.Pool
import Chomsky.Proofs.Name.Distinct

/-!
# The supply of a pool

What a pool will hand out is fixed from the outset: the names of its scheme that
are not in use, each once, in the order of the scheme. A draw takes the first of
them and leaves the others.

## What this module delivers

- `NamePool.free`, the names still to be handed out, and `NamePool.drawn`, the
  pool after a number of them.
- `fresh_of_free_cons` and `fresh_of_free_nil`: a draw takes the first free name.
- `free_drawn`: what is left after a number of draws.
-/

set_option autoImplicit false

namespace Chomsky

namespace NamePool

/-- The names that the pool can still hand out, in the order in which it will. -/
def free (p : NamePool) : List String :=
  distinct (p.scheme.names.filter fun name => !p.inUse name)

/-- The pool after it has handed out its next `count` names, or all that are
left. -/
def drawn (p : NamePool) (count : Nat) : NamePool :=
  { p with allocated := p.allocated ++ p.free.take count }

variable {p : NamePool} {name : String}

theorem mem_free : name ∈ p.free ↔ name ∈ p.scheme.names ∧ p.inUse name = false := by
  rw [free, mem_distinct, List.mem_filter, Bool.not_eq_true']

theorem nodup_free (p : NamePool) : p.free.Nodup := nodup_distinct _

theorem head?_free (p : NamePool) : p.free.head? = p.scheme.firstFree p.inUse := by
  rw [free, head?_distinct, List.head?_filter, NameScheme.firstFree_eq_find?]

theorem fresh_of_free_nil (h : p.free = []) : p.fresh = none := by
  rw [fresh, ← head?_free, h]
  rfl

theorem fresh_of_free_cons {rest : List String} (h : p.free = name :: rest) :
    p.fresh = some (name, p.handOut name) := by
  rw [fresh, ← head?_free, h]
  rfl

theorem inUse_handOut {other : String} :
    (p.handOut name).inUse other = true ↔ other = name ∨ p.inUse other = true := by
  simp only [inUse_iff, handOut, List.mem_append, List.mem_singleton]
  constructor
  · rintro (h | h | h) <;> simp [h]
  · rintro (h | h | h) <;> simp [h]

theorem free_handOut {rest : List String} (h : p.free = name :: rest) :
    (p.handOut name).free = rest := by
  -- one name more is in use, so it is filtered out, and it was there once
  have huse : ∀ x, (!(p.handOut name).inUse x) = (!p.inUse x && decide (x ≠ name)) := by
    intro x
    by_cases hx : x = name
    · rw [inUse_handOut.2 (Or.inl hx), decide_eq_false (not_not_intro hx), Bool.and_false]
      rfl
    · rw [Bool.eq_iff_iff.2 (inUse_handOut.trans (or_iff_right hx)), decide_eq_true hx,
        Bool.and_true]
  have hnodup : (name :: rest).Nodup := h ▸ p.nodup_free
  have hne : ∀ x ∈ rest, decide (x ≠ name) = true := fun x hx =>
    decide_eq_true fun heq => (List.nodup_cons.1 hnodup).1 (heq ▸ hx)
  calc (p.handOut name).free
      = distinct ((p.scheme.names.filter fun x => !p.inUse x).filter
          fun x => decide (x ≠ name)) := by
        rw [free, List.filter_filter]
        exact congrArg distinct (List.filter_congr fun x _ => by rw [huse, Bool.and_comm])
    _ = (name :: rest).filter fun x => decide (x ≠ name) := by rw [distinct_filter, ← free, h]
    _ = rest := by
        rw [List.filter_cons_of_neg (by simp), List.filter_eq_self.2 hne]

@[simp] theorem drawn_zero (p : NamePool) : p.drawn 0 = p := by simp [drawn]

@[simp] theorem drawn_scheme (p : NamePool) (count : Nat) : (p.drawn count).scheme = p.scheme := rfl

@[simp] theorem drawn_reserved (p : NamePool) (count : Nat) :
    (p.drawn count).reserved = p.reserved := rfl

@[simp] theorem drawn_allocated (p : NamePool) (count : Nat) :
    (p.drawn count).allocated = p.allocated ++ p.free.take count := rfl

/-- One draw more than `count` hands out the name that comes after them. -/
theorem drawn_succ {count : Nat} {rest : List String} (h : p.free.drop count = name :: rest) :
    p.drawn (count + 1) = (p.drawn count).handOut name := by
  have htake : p.free.take (count + 1) = p.free.take count ++ [name] := by
    rw [List.take_add_one, ← List.head?_drop, h]
    rfl
  rw [drawn, htake]
  simp [handOut, drawn]

/-- The first draw hands out the first free name. -/
theorem drawn_one {rest : List String} (h : p.free = name :: rest) :
    p.drawn 1 = p.handOut name := by
  have hdrop : p.free.drop 0 = name :: rest := h
  rw [drawn_succ hdrop, drawn_zero]

/-- When nothing is left, one draw more changes nothing. -/
theorem drawn_of_le {count more : Nat} (hfree : p.free.length ≤ count) (h : count ≤ more) :
    p.drawn more = p.drawn count := by
  rw [drawn, drawn, List.take_of_length_le hfree, List.take_of_length_le (Nat.le_trans hfree h)]

/-- What is left after `count` draws is the rest of the free names. -/
theorem free_drawn (p : NamePool) (count : Nat) : (p.drawn count).free = p.free.drop count := by
  induction count with
  | zero => rw [drawn_zero, List.drop_zero]
  | succ count ih =>
    cases hdrop : p.free.drop count with
    -- all names were handed out before
    | nil =>
      have hle : p.free.length ≤ count := List.drop_eq_nil_iff.1 hdrop
      rw [drawn_of_le hle (Nat.le_succ count), ih, hdrop,
        List.drop_eq_nil_iff.2 (Nat.le_succ_of_le hle)]
    | cons name rest =>
      rw [drawn_succ hdrop, free_handOut (ih.trans hdrop), ← List.tail_drop, hdrop]
      rfl

/-- Draws in two turns are draws in one. -/
theorem drawn_drawn (p : NamePool) (count more : Nat) :
    (p.drawn count).drawn more = p.drawn (count + more) := by
  have hallocated : p.allocated ++ p.free.take count ++ (p.free.drop count).take more
      = p.allocated ++ p.free.take (count + more) := by
    rw [List.take_add, List.append_assoc]
  rw [drawn, free_drawn, drawn_allocated, hallocated]
  rfl

theorem drawn_of_free_nil (h : p.free = []) (count : Nat) : p.drawn count = p := by
  have hle : p.free.length ≤ 0 := by rw [h]; exact Nat.le_refl 0
  rw [drawn_of_le hle (Nat.zero_le count), drawn_zero]

/-- A pool that hands out no name has none. -/
theorem free_eq_nil_of_fresh (h : p.fresh = none) : p.free = [] := by
  cases hfree : p.free with
  | nil => rfl
  | cons name rest =>
    rw [fresh_of_free_cons hfree] at h
    cases h

/-- A draw that returns a name has handed out the first free one. -/
theorem eq_drawn_one {q : NamePool} (h : p.fresh = some (name, q)) : q = p.drawn 1 := by
  cases hfree : p.free with
  | nil =>
    rw [fresh_of_free_nil hfree] at h
    cases h
  | cons first rest =>
    rw [fresh_of_free_cons hfree] at h
    cases h
    exact (drawn_one hfree).symm

/-- A name in use is not free. -/
theorem notMem_free_of_inUse (h : p.inUse name = true) : name ∉ p.free := fun hmem =>
  Bool.false_ne_true ((mem_free.1 hmem).2.symm.trans h)

theorem inUse_drawn {count : Nat} :
    (p.drawn count).inUse name = true ↔ p.inUse name = true ∨ name ∈ p.free.take count := by
  simp only [inUse_iff, drawn_reserved, drawn_allocated, List.mem_append, or_assoc]

end NamePool

end Chomsky
