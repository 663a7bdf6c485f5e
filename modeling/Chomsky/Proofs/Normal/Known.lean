import Chomsky.Proofs.Grammar.WellFormed
import Chomsky.Proofs.Grammar.Lookup
import Chomsky.Proofs.Name.Supply

/-!
# Names that a grammar knows

A name is fresh to a grammar if the grammar does not know it in any of its parts. A pool
hands out fresh names only, provided that it has all in use that the grammar knows. For
a grammar that holds together this follows from its declared names alone.

## What this module delivers

- `Grammar.Knows`, the names of all parts of a grammar.
- `NamePool.Guards` and `NamePool.Reserves`: what is declared, or what is known, is in
  use; `NamePool.Guards.reserves` leads from one to the other.
- `Phrase.Avoids`: no symbol of the phrase is a free name.
-/

set_option autoImplicit false

namespace Chomsky

/-- The name is declared, or has a rule, or is the name of a symbol of an alternative. -/
def Grammar.Knows (g : Grammar) (name : String) : Prop :=
  name ∈ g.nonterminals ∨ name ∈ g.terminals ∨ name ∈ g.rules.keys ∨
    ∃ lhs, ∃ p ∈ g.rules.alternatives lhs, ∃ s ∈ p, s.name = name

/-- No symbol of the phrase is a name that the pool can still hand out. -/
def Phrase.Avoids (p : Phrase) (pool : NamePool) : Prop :=
  ∀ name ∈ pool.free, .nonterminal name ∉ p

theorem Phrase.Avoids.of_suffix {p q : Phrase} {pool : NamePool} (h : p.Avoids pool)
    (hq : q <:+ p) : q.Avoids pool := fun name hname hmem => h name hname (hq.subset hmem)

namespace NamePool

/-- Every name that the grammar declares is in use. -/
def Guards (pool : NamePool) (g : Grammar) : Prop :=
  ∀ name, name ∈ g.nonterminals ∨ name ∈ g.terminals → pool.inUse name = true

/-- Every name that the grammar knows is in use. -/
def Reserves (pool : NamePool) (g : Grammar) : Prop :=
  ∀ name, g.Knows name → pool.inUse name = true

variable {pool : NamePool} {g : Grammar} {name lhs : String} {p : Phrase}

theorem Guards.notMem (h : pool.Guards g) (hfree : name ∈ pool.free) :
    name ∉ g.nonterminals ∧ name ∉ g.terminals :=
  not_or.1 fun hdeclared => notMem_free_of_inUse (h name hdeclared) hfree

theorem guards_ofReserved (scheme : NameScheme) (g : Grammar) :
    (ofReserved scheme g.declared).Guards g := fun _ h =>
  inUse_iff.2 (Or.inl (Grammar.mem_declared.2 h))

/-- A grammar that holds together knows nothing but what it declares. -/
theorem Guards.reserves (h : pool.Guards g) (hg : g.SelfContained) : pool.Reserves g := by
  rintro name (hname | hname | hname | ⟨lhs, p, hp, s, hs, rfl⟩)
  · exact h name (Or.inl hname)
  · exact h name (Or.inr hname)
  · exact h name (Or.inl (hg.lhs_mem name hname))
  · cases s with
    | terminal t => exact h t (Or.inr (hg.terminal_mem hp hs))
    | nonterminal n => exact h n (Or.inl (hg.nonterminal_mem hp hs))

theorem reserves_ofReserved (scheme : NameScheme) (h : g.WellFormed) :
    (ofReserved scheme g.declared).Reserves g :=
  (guards_ofReserved scheme g).reserves (Grammar.wellFormed_iff.1 h)

theorem Reserves.guards (h : pool.Reserves g) : pool.Guards g := by
  rintro name (hname | hname)
  · exact h name (Or.inl hname)
  · exact h name (Or.inr (Or.inl hname))

/-- A free name is unknown. -/
theorem Reserves.not_knows (h : pool.Reserves g) (hfree : name ∈ pool.free) : ¬ g.Knows name :=
  fun hknows => notMem_free_of_inUse (h name hknows) hfree

theorem Reserves.notMem_keys (h : pool.Reserves g) (hfree : name ∈ pool.free) :
    name ∉ g.rules.keys := fun hkey => h.not_knows hfree (Or.inr (Or.inr (Or.inl hkey)))

theorem Reserves.avoids (h : pool.Reserves g) (hp : p ∈ g.rules.alternatives lhs) :
    p.Avoids pool := fun _ hfree hmem =>
  h.not_knows hfree (Or.inr (Or.inr (Or.inr ⟨lhs, p, hp, _, hmem, rfl⟩)))

end NamePool

end Chomsky
