import Chomsky.Grammar.WellFormed
import Chomsky.Proofs.Grammar.Lookup

/-!
# What a grammar without faults satisfies

The list of faults is a computation; proofs about a grammar that holds together
use the four properties of `Grammar.SelfContained` instead.

## What this module delivers

- `Grammar.SelfContained` and `Grammar.wellFormed_iff`.
- `SelfContained.nonterminal_mem` and `SelfContained.terminal_mem`: the symbols of
  an alternative are declared, each as one of its kind.
-/

set_option autoImplicit false

namespace Chomsky

namespace Grammar

/-- The start symbol and all left sides are nonterminals, no name is declared
twice, and alternatives use declared symbols only. -/
structure SelfContained (g : Grammar) : Prop where
  /-- The start symbol is a nonterminal. -/
  start_mem : g.start ∈ g.nonterminals
  /-- No nonterminal is a terminal as well. -/
  notMem_terminals : ∀ name ∈ g.nonterminals, name ∉ g.terminals
  /-- Rules are given to nonterminals only. -/
  lhs_mem : ∀ lhs ∈ g.rules.keys, lhs ∈ g.nonterminals
  /-- Every symbol of an alternative is declared. -/
  declares : ∀ lhs, ∀ p ∈ g.rules.alternatives lhs, ∀ s ∈ p, g.declares s = true

@[simp] theorem declares_terminal {g : Grammar} {name : String} :
    g.declares (.terminal name) = true ↔ name ∈ g.terminals := decide_eq_true_iff

@[simp] theorem declares_nonterminal {g : Grammar} {name : String} :
    g.declares (.nonterminal name) = true ↔ name ∈ g.nonterminals := decide_eq_true_iff

variable {g : Grammar}

theorem startFaults_eq_nil : g.startFaults = [] ↔ g.start ∈ g.nonterminals := by
  unfold startFaults
  split
  · next h => exact iff_of_true rfl h
  · next h => exact iff_of_false (List.cons_ne_nil _ _) h

theorem ambiguityFaults_eq_nil :
    g.ambiguityFaults = [] ↔ ∀ name ∈ g.nonterminals, name ∉ g.terminals := by
  rw [ambiguityFaults, List.map_eq_nil_iff, List.eq_nil_iff_forall_not_mem]
  constructor
  · intro h name hn ht
    exact h name (NameSet.mem_inter.2 ⟨hn, ht⟩)
  · intro h name hmem
    obtain ⟨hn, ht⟩ := NameSet.mem_inter.1 hmem
    exact h name hn ht

theorem leftSideFaults_eq_nil :
    g.leftSideFaults = [] ↔ ∀ lhs ∈ g.rules.keys, lhs ∈ g.nonterminals := by
  rw [leftSideFaults, List.map_eq_nil_iff, List.eq_nil_iff_forall_not_mem]
  simp only [NameSet.mem_toList, NameSet.mem_filter, Bool.not_eq_true', decide_eq_false_iff_not,
    not_and, Classical.not_not]

theorem symbolFaults_eq_nil :
    g.symbolFaults = [] ↔
      ∀ lhs, ∀ p ∈ g.rules.alternatives lhs, ∀ s ∈ p, g.declares s = true := by
  simp only [symbolFaults, List.flatMap_eq_nil_iff, List.map_eq_nil_iff, List.filter_eq_nil_iff,
    Bool.not_eq_true', Bool.not_eq_false]
  constructor
  · intro h lhs p hp
    exact h (lhs, p) (Rules.mem_productions_iff.2 hp)
  · intro h e he
    exact h e.1 e.2 (Rules.mem_productions_iff.1 he)

/-- A grammar has no fault exactly if it is self-contained. -/
theorem wellFormed_iff : g.WellFormed ↔ g.SelfContained := by
  rw [WellFormed, malformations, List.append_eq_nil_iff, List.append_eq_nil_iff,
    List.append_eq_nil_iff, startFaults_eq_nil, ambiguityFaults_eq_nil, leftSideFaults_eq_nil,
    symbolFaults_eq_nil]
  constructor
  · rintro ⟨⟨⟨h1, h2⟩, h3⟩, h4⟩
    exact ⟨h1, h2, h3, h4⟩
  · rintro ⟨h1, h2, h3, h4⟩
    exact ⟨⟨⟨h1, h2⟩, h3⟩, h4⟩

namespace SelfContained

theorem nonterminal_mem (h : g.SelfContained) {lhs name : String} {p : Phrase}
    (hp : p ∈ g.rules.alternatives lhs) (hmem : .nonterminal name ∈ p) :
    name ∈ g.nonterminals :=
  declares_nonterminal.1 (h.declares lhs p hp _ hmem)

theorem terminal_mem (h : g.SelfContained) {lhs name : String} {p : Phrase}
    (hp : p ∈ g.rules.alternatives lhs) (hmem : .terminal name ∈ p) : name ∈ g.terminals :=
  declares_terminal.1 (h.declares lhs p hp _ hmem)

end SelfContained

theorem mem_declared {name : String} :
    name ∈ g.declared ↔ name ∈ g.nonterminals ∨ name ∈ g.terminals := NameSet.mem_union

end Grammar

end Chomsky
