import Chomsky.Name.Pool

/-!
# Tables of fresh names

A table gives one fresh name to each key that it learns, in the order in which
the keys are first met. It is what both steps share that invent nonterminals:
one names terminals, the other names pairs of symbols.

## What this module delivers

- `NameTable` with `learn`, `learnAll` and `find?`.
- A key that cannot be named, because the pool is exhausted, leaves the table
  as it is; `find?` then finds nothing for it.
-/

set_option autoImplicit false

namespace Chomsky

/-- Keys with the fresh names they were given, and the pool that is left. -/
structure NameTable (κ : Type) where
  /-- The keys with their names, oldest first. -/
  entries : List (κ × String)
  /-- The pool after the names of the entries were drawn. -/
  pool : NamePool

namespace NameTable

variable {κ : Type} [DecidableEq κ]

/-- The table that has learned nothing. -/
def ofPool (pool : NamePool) : NameTable κ := ⟨[], pool⟩

/-- The name of a key. -/
def find? (t : NameTable κ) (key : κ) : Option String := t.entries.lookup key

/-- Gives a key a fresh name, unless it has a name already or no name is left. -/
def learn (t : NameTable κ) (key : κ) : NameTable κ :=
  match t.find? key with
  | some _ => t
  | none =>
    match t.pool.fresh with
    | some (name, pool) => ⟨t.entries ++ [(key, name)], pool⟩
    | none => t

/-- Learns the keys of a list in turn. -/
def learnAll (t : NameTable κ) (keys : List κ) : NameTable κ := keys.foldl learn t

end NameTable

end Chomsky
