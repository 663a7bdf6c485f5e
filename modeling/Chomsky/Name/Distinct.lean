/-!
# Lists without repetition

Alternatives of a rule are kept in the order in which they were first pushed,
and pushing an element that is already there changes nothing.

## What this module delivers

- `pushUnique`, `pushAll` and `distinct` on lists.
- Membership and `Nodup` laws for each of them.
-/

set_option autoImplicit false

namespace Chomsky

variable {α : Type} [DecidableEq α]

/-- The list with `a` at its end, unless it holds `a` already. -/
def pushUnique (l : List α) (a : α) : List α := if a ∈ l then l else l ++ [a]

@[simp] theorem mem_pushUnique {l : List α} {a x : α} : x ∈ pushUnique l a ↔ x ∈ l ∨ x = a := by
  unfold pushUnique
  split
  · next h =>
    constructor
    · exact Or.inl
    · rintro (hx | rfl)
      · exact hx
      · exact h
  · simp

theorem nodup_pushUnique {l : List α} {a : α} (h : l.Nodup) : (pushUnique l a).Nodup := by
  unfold pushUnique
  split
  · exact h
  · next ha =>
    refine List.nodup_append.2 ⟨h, by simp, fun x hx y hy hxy => ha ?_⟩
    rw [List.mem_singleton] at hy
    exact hy ▸ hxy ▸ hx

/-- The list with every element of `as` pushed in turn. -/
def pushAll (l as : List α) : List α := as.foldl pushUnique l

@[simp] theorem pushAll_nil (l : List α) : pushAll l [] = l := rfl

@[simp] theorem pushAll_cons (l : List α) (a : α) (as : List α) :
    pushAll l (a :: as) = pushAll (pushUnique l a) as := rfl

@[simp] theorem mem_pushAll {l as : List α} {x : α} : x ∈ pushAll l as ↔ x ∈ l ∨ x ∈ as := by
  induction as generalizing l with
  | nil => simp
  | cons a as ih => simp [ih, or_assoc]

theorem nodup_pushAll {l as : List α} (h : l.Nodup) : (pushAll l as).Nodup := by
  induction as generalizing l with
  | nil => exact h
  | cons a as ih => exact ih (nodup_pushUnique h)

/-- The elements of a list in order of first occurrence, each once. -/
def distinct (as : List α) : List α := pushAll [] as

@[simp] theorem mem_distinct {as : List α} {x : α} : x ∈ distinct as ↔ x ∈ as := by
  simp [distinct]

theorem nodup_distinct (as : List α) : (distinct as).Nodup := nodup_pushAll List.nodup_nil

end Chomsky
