import Chomsky.Name.Scheme
import Chomsky.Name.Set

/-!
# Pools of fresh names

A pool hands out names of a scheme that are not in use. A name is in use when
it was reserved at the outset or handed out before; handing out a name is the
only change that a pool goes through.

## What this module delivers

- `NamePool` and `NamePool.fresh`.
- `fresh_eq_some`: what a successful draw returns and leaves behind.
- `fresh_eq_none`: a draw fails only when every name of the scheme is in use.
-/

set_option autoImplicit false

namespace Chomsky

/-- A supply of fresh names. -/
structure NamePool where
  /-- The names that may be handed out. -/
  scheme : NameScheme
  /-- The names in use from the outset. -/
  reserved : NameSet
  /-- The names handed out, oldest first. -/
  allocated : List String
deriving DecidableEq

namespace NamePool

/-- The pool that has handed out nothing yet. -/
def ofReserved (scheme : NameScheme) (reserved : NameSet) : NamePool := ⟨scheme, reserved, []⟩

/-- Whether a name is in use. -/
def inUse (p : NamePool) (name : String) : Bool :=
  decide (name ∈ p.reserved) || decide (name ∈ p.allocated)

@[simp] theorem inUse_iff {p : NamePool} {name : String} :
    p.inUse name = true ↔ name ∈ p.reserved ∨ name ∈ p.allocated := by
  simp [inUse]

/-- The pool with a name noted as handed out. -/
def handOut (p : NamePool) (name : String) : NamePool :=
  { p with allocated := p.allocated ++ [name] }

/-- Draws the first name that is not in use. -/
def fresh (p : NamePool) : Option (String × NamePool) :=
  (p.scheme.firstFree p.inUse).map fun name => (name, p.handOut name)

theorem fresh_eq_none {p : NamePool} :
    p.fresh = none ↔ ∀ name ∈ p.scheme.names, p.inUse name = true := by
  simp [fresh, NameScheme.firstFree_eq_find?, -inUse_iff]

theorem fresh_eq_some {p q : NamePool} {name : String} (h : p.fresh = some (name, q)) :
    name ∈ p.scheme.names ∧ p.inUse name = false ∧ q = p.handOut name := by
  unfold fresh at h
  rw [Option.map_eq_some_iff] at h
  obtain ⟨n, hn, he⟩ := h
  rw [Prod.mk.injEq] at he
  obtain ⟨rfl, rfl⟩ := he
  rw [NameScheme.firstFree_eq_find?] at hn
  exact ⟨List.mem_of_find?_eq_some hn, by simpa [-inUse_iff] using List.find?_some hn, rfl⟩

end NamePool

end Chomsky
