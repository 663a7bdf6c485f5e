/-!
# Name schemes

A scheme fixes the names that new nonterminals may take and the order in which
they are tried: every letter of the alphabet on its own, then every letter with
suffix 1, and so on up to the largest suffix.

## What this module delivers

- `NameScheme` with `names`, the whole list, and `capacity`, its length.
- `NameScheme.firstFree`, which looks for a free name suffix by suffix and never
  builds the list.
- `firstFree_eq_find?`: the search finds the first free name of the list.
-/

set_option autoImplicit false

namespace Chomsky

/-- The names that new nonterminals are taken from. -/
structure NameScheme where
  /-- The letters, in the order in which they are tried. A letter may be
  repeated. -/
  alphabet : List Char
  /-- The largest numeric suffix. -/
  maxSuffix : Nat
deriving DecidableEq

namespace NameScheme

/-- The capital letters of the Latin alphabet. -/
def capitals : List Char := "ABCDEFGHIJKLMNOPQRSTUVWXYZ".toList

/-- The capital letters with suffixes up to 9. -/
def standard : NameScheme := ⟨capitals, 9⟩

/-- The capital letters alone. -/
def singleLetters : NameScheme := ⟨capitals, 0⟩

/-- The number of names, repetitions counted. -/
def capacity (s : NameScheme) : Nat := s.alphabet.length * (s.maxSuffix + 1)

/-- A letter with a suffix. Suffix zero is not written. -/
def lettered (letter : Char) (suffix : Nat) : String :=
  if suffix = 0 then String.singleton letter else String.singleton letter ++ Nat.repr suffix

/-- All letters with the same suffix. -/
def row (s : NameScheme) (suffix : Nat) : List String :=
  s.alphabet.map fun letter => lettered letter suffix

/-- The names of `count` consecutive suffixes. -/
def rows (s : NameScheme) : (count suffix : Nat) → List String
  | 0, _ => []
  | count + 1, suffix => s.row suffix ++ s.rows count (suffix + 1)

/-- All names, in the order in which they are tried. -/
def names (s : NameScheme) : List String := s.rows (s.maxSuffix + 1) 0

theorem length_rows (s : NameScheme) (count suffix : Nat) :
    (s.rows count suffix).length = s.alphabet.length * count := by
  induction count generalizing suffix with
  | zero => rfl
  | succ count ih => simp [rows, row, ih, Nat.mul_succ, Nat.add_comm]

@[simp] theorem length_names (s : NameScheme) : s.names.length = s.capacity :=
  s.length_rows _ _

/-! ## The search for a free name -/

/-- The first name of `count` consecutive suffixes that is not taken. -/
def search (s : NameScheme) (taken : String → Bool) : (count suffix : Nat) → Option String
  | 0, _ => none
  | count + 1, suffix =>
      match (s.row suffix).find? (fun name => !taken name) with
      | some name => some name
      | none => s.search taken count (suffix + 1)

/-- The first name that is not taken. Without letters there is no name, however
many suffixes there are. -/
def firstFree (s : NameScheme) (taken : String → Bool) : Option String :=
  if s.alphabet.isEmpty then none else s.search taken (s.maxSuffix + 1) 0

theorem search_eq_find? (s : NameScheme) (taken : String → Bool) (count suffix : Nat) :
    s.search taken count suffix = (s.rows count suffix).find? (fun name => !taken name) := by
  induction count generalizing suffix with
  | zero => rfl
  | succ count ih =>
    rw [search, rows, List.find?_append, ih]
    cases (s.row suffix).find? (fun name => !taken name) <;> rfl

theorem rows_eq_nil {s : NameScheme} (h : s.alphabet = []) (count suffix : Nat) :
    s.rows count suffix = [] := by
  induction count generalizing suffix with
  | zero => rfl
  | succ count ih => rw [rows, ih, row, h]; rfl

/-- The search finds the first name of the whole list that is not taken. -/
theorem firstFree_eq_find? (s : NameScheme) (taken : String → Bool) :
    s.firstFree taken = s.names.find? (fun name => !taken name) := by
  unfold firstFree
  split
  · next h =>
    rw [names, rows_eq_nil (List.isEmpty_iff.1 h)]
    rfl
  · exact s.search_eq_find? taken _ _

end NameScheme

end Chomsky
