import Chomsky.Grammar.Derivation

/-!
# Derivation trees

A derivation tree tells which alternative is used for each nonterminal on the way to a
word. Its inner nodes are nonterminals, and the trees below a node stand in a row, like
the symbols of the alternative that is used there. So a row of trees has a phrase at
its roots and a word at its leaves, and a single tree is a row whose phrase is a single
nonterminal.

## What this module delivers

- `Forest`, the rows of derivation trees, with `Forest.roots`, `Forest.word` and
  `Forest.height`.
- `Forest.Nodes`: a condition on the depth of each node and on the alternative that is
  used there.
- `Forest.Nodes.yields`: a row of trees that use alternatives of the rules is a
  derivation.
-/

set_option autoImplicit false

namespace Chomsky

/-- Derivation trees in a row, from left to right. -/
inductive Forest where
  | nil
  /-- A terminal, with nothing below it. -/
  | terminal (t : String) (rest : Forest)
  /-- A nonterminal, with a row of trees below it. -/
  | nonterminal (name : String) (below rest : Forest)

namespace Forest

/-- The phrase at the roots. -/
def roots : Forest → Phrase
  | nil => []
  | terminal t rest => .terminal t :: rest.roots
  | nonterminal name _ rest => .nonterminal name :: rest.roots

/-- The word at the leaves. -/
def word : Forest → List String
  | nil => []
  | terminal t rest => t :: rest.word
  | nonterminal _ below rest => below.word ++ rest.word

/-- The single tree with a nonterminal at its root. -/
def tree (name : String) (below : Forest) : Forest := .nonterminal name below .nil

/-- The greatest number of nonterminals on a way down. -/
def height : Forest → Nat
  | nil => 0
  | terminal _ rest => rest.height
  | nonterminal _ below rest => max (below.height + 1) rest.height

/-- The condition holds at each node of a nonterminal. It is on the depth of the node,
its name and the alternative that is used there, and the roots are at the given depth. -/
def Nodes (holds : (depth : Nat) → (name : String) → (alternative : Phrase) → Prop) :
    (depth : Nat) → Forest → Prop
  | _, nil => True
  | depth, terminal _ rest => rest.Nodes holds depth
  | depth, nonterminal name below rest =>
      holds depth name below.roots ∧ below.Nodes holds (depth + 1) ∧ rest.Nodes holds depth

/-- A condition that can be decided at each node can be decided for the whole row. -/
instance decidableNodes {holds : Nat → String → Phrase → Prop}
    [∀ depth name p, Decidable (holds depth name p)] :
    (depth : Nat) → (f : Forest) → Decidable (f.Nodes holds depth)
  | _, nil => isTrue trivial
  | depth, terminal _ rest => decidableNodes depth rest
  | depth, nonterminal name below rest =>
      have : Decidable (below.Nodes holds (depth + 1)) := decidableNodes (depth + 1) below
      have : Decidable (rest.Nodes holds depth) := decidableNodes depth rest
      inferInstanceAs (Decidable (holds depth name below.roots ∧ below.Nodes holds (depth + 1) ∧
        rest.Nodes holds depth))

/-- A row with a single nonterminal at its roots is a single tree. -/
theorem exists_eq_tree {f : Forest} {name : String} (h : f.roots = [.nonterminal name]) :
    ∃ below, f = tree name below := by
  cases f with
  | nil => exact absurd h.symm (List.cons_ne_nil _ _)
  | terminal t rest => exact Symbol.noConfusion (List.cons.inj h).1
  | nonterminal other below rest =>
    obtain ⟨hname, hrest⟩ := List.cons.inj h
    obtain rfl := Symbol.nonterminal.inj hname
    cases rest with
    | nil => exact ⟨below, rfl⟩
    | terminal t rest => exact absurd hrest (List.cons_ne_nil _ _)
    | nonterminal name below rest => exact absurd hrest (List.cons_ne_nil _ _)

@[simp] theorem word_tree (name : String) (below : Forest) : (tree name below).word = below.word :=
  List.append_nil below.word

variable {holds holds' : Nat → String → Phrase → Prop} {depth : Nat} {f : Forest}

theorem nodes_tree {name : String} : (tree name f).Nodes holds depth ↔
    holds depth name f.roots ∧ f.Nodes holds (depth + 1) :=
  and_congr_right fun _ => and_iff_left trivial

theorem Nodes.imp (h : f.Nodes holds depth)
    (himp : ∀ depth name p, holds depth name p → holds' depth name p) : f.Nodes holds' depth := by
  induction f generalizing depth with
  | nil => trivial
  | terminal t rest ih => exact ih h
  | nonterminal name below rest ihbelow ihrest =>
    obtain ⟨hhere, hbelow, hrest⟩ := h
    exact ⟨himp depth name _ hhere, ihbelow hbelow, ihrest hrest⟩

/-- A row of trees that use alternatives of the rules derives the word at its leaves. -/
theorem Nodes.yields {rules : Rules} (h : f.Nodes holds depth)
    (hrules : ∀ depth name p, holds depth name p → p ∈ rules.alternatives name) :
    Yields rules f.roots f.word := by
  induction f generalizing depth with
  | nil => exact .nil
  | terminal t rest ih => exact .terminal t (ih h)
  | nonterminal name below rest ihbelow ihrest =>
    obtain ⟨hhere, hbelow, hrest⟩ := h
    exact .nonterminal (hrules depth name _ hhere) (ihbelow hbelow) (ihrest hrest)

end Forest

end Chomsky
