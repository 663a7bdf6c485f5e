import Chomsky.Normal.Pruned
import Chomsky.Proofs.Analysis.Worklist
import Chomsky.Proofs.Grammar.Simulation
import Chomsky.Proofs.Grammar.WellFormed

/-!
# What pruning keeps

Pruning keeps the rules of reachable names as they are, so a derivation that
starts from one of them never misses a rule.

## What this module delivers

- `Grammar.mem_alternatives_prune`, `Grammar.mem_nonterminals_prune`: what is kept.
- `Grammar.reaches_prune_iff`: the same names are reachable afterwards.
- `Grammar.derives_prune_iff`: reachable names derive the same words.
- `Grammar.prune_keeps_reachable`: a search with a queue finds the reachable names, and
  pruning keeps exactly these.
-/

set_option autoImplicit false

namespace Chomsky

namespace Grammar

variable {g : Grammar} {lhs name : String} {p : Phrase} {w : List String}

@[simp] theorem prune_terminals (g : Grammar) : g.prune.terminals = g.terminals := rfl

@[simp] theorem prune_start (g : Grammar) : g.prune.start = g.start := rfl

@[simp] theorem prune_acceptsEmpty (g : Grammar) : g.prune.acceptsEmpty = g.acceptsEmpty := rfl

theorem mem_nonterminals_prune :
    name ∈ g.prune.nonterminals ↔ name ∈ g.nonterminals ∧ g.Reaches name := by
  rw [prune, NameSet.mem_filter, decide_eq_true_eq, mem_reachable_iff]

theorem mem_keys_prune : lhs ∈ g.prune.rules.keys ↔ lhs ∈ g.rules.keys ∧ g.Reaches lhs := by
  rw [prune, NameMap.mem_keys_filterKeys, decide_eq_true_eq, mem_reachable_iff]

/-- A rule is kept as it is, or dropped. -/
theorem get?_prune (g : Grammar) (lhs : String) :
    g.prune.rules.get? lhs = if lhs ∈ g.reachable then g.rules.get? lhs else none := by
  simp only [prune, NameMap.get?_filterKeys, decide_eq_true_eq]

/-- A name that is reachable keeps its alternatives. -/
theorem alternatives_prune (h : g.Reaches lhs) :
    g.prune.rules.alternatives lhs = g.rules.alternatives lhs := by
  rw [prune, Rules.alternatives_filterKeys, if_pos (decide_eq_true (mem_reachable_iff.2 h))]

theorem mem_alternatives_prune :
    p ∈ g.prune.rules.alternatives lhs ↔ p ∈ g.rules.alternatives lhs ∧ g.Reaches lhs := by
  constructor
  · intro h
    have hreach := (mem_keys_prune.1 (Rules.mem_keys_of_mem_alternatives h)).2
    exact ⟨alternatives_prune hreach ▸ h, hreach⟩
  · rintro ⟨h, hreach⟩
    rwa [alternatives_prune hreach]

theorem nodup_alternatives_prune (h : (g.rules.alternatives lhs).Nodup) :
    (g.prune.rules.alternatives lhs).Nodup := by
  rw [prune, Rules.alternatives_filterKeys]
  split
  · exact h
  · exact List.nodup_nil

/-- Pruning cuts no chain of occurrences that begins at the start symbol. -/
theorem reaches_prune_iff : g.prune.Reaches name ↔ g.Reaches name := by
  constructor
  · intro h
    induction h with
    | seed hseed => exact .seed hseed
    | step _ hstep ih =>
      obtain ⟨p, hp, hmem⟩ := Rules.mem_successors.1 hstep
      exact ih.step (mem_alternatives_prune.1 hp).1 hmem
  · intro h
    induction h with
    | seed hseed => exact .seed hseed
    | step hreach hstep ih =>
      obtain ⟨p, hp, hmem⟩ := Rules.mem_successors.1 hstep
      exact ih.step (mem_alternatives_prune.2 ⟨hp, hreach⟩) hmem

/-! ## Derived words -/

/-- A phrase of reachable nonterminals derives the same words after pruning. -/
theorem yields_prune_iff (hp : ∀ name, .nonterminal name ∈ p → g.Reaches name) :
    Yields g.prune.rules p w ↔ Yields g.rules p w := by
  constructor
  · exact fun h => h.mono fun lhs q hq => (mem_alternatives_prune.1 hq).1
  · intro h
    -- such a derivation meets reachable names only
    refine h.restrict g.Reaches (fun lhs hlhs q hq => ⟨?_, fun name hname => ?_⟩) hp
    · exact mem_alternatives_prune.2 ⟨hq, hlhs⟩
    · exact hlhs.step hq hname

theorem derives_prune_iff (h : g.Reaches lhs) :
    g.prune.rules.Derives lhs w ↔ g.rules.Derives lhs w := by
  rw [← yields_nonterminal_iff, ← yields_nonterminal_iff]
  apply yields_prune_iff
  intro name hname
  obtain rfl : name = lhs := by simpa using hname
  exact h

theorem accepts_prune_iff : g.prune.Accepts w ↔ g.Accepts w := by
  rw [Accepts, Accepts, prune_start, prune_acceptsEmpty, derives_prune_iff g.reaches_start]

/-! ## Well-formedness -/

theorem SelfContained.prune (h : g.SelfContained) : g.prune.SelfContained where
  start_mem := mem_nonterminals_prune.2 ⟨h.start_mem, g.reaches_start⟩
  notMem_terminals name hname := h.notMem_terminals name (mem_nonterminals_prune.1 hname).1
  lhs_mem lhs hlhs := by
    obtain ⟨hkey, hreach⟩ := mem_keys_prune.1 hlhs
    exact mem_nonterminals_prune.2 ⟨h.lhs_mem lhs hkey, hreach⟩
  declares lhs p hp s hs := by
    obtain ⟨hmem, hreach⟩ := mem_alternatives_prune.1 hp
    cases s with
    | terminal t => exact declares_terminal.2 (h.terminal_mem hmem hs)
    | nonterminal name =>
      exact declares_nonterminal.2
        (mem_nonterminals_prune.2 ⟨h.nonterminal_mem hmem hs, hreach.step hmem hs⟩)

/-! ## Exactly the reachable names -/

/-- A rule that is kept mentions reachable names only. -/
theorem reaches_of_leadsTo_prune (h : g.prune.rules.LeadsTo lhs name) : g.Reaches name := by
  obtain ⟨p, hp, hname⟩ := h
  obtain ⟨hmem, hreach⟩ := mem_alternatives_prune.1 hp
  exact hreach.step hmem hname

/-- The search with a queue ends with the names that a chain of occurrences links to the
start symbol. Pruning keeps the nonterminals and the rules of these names and no others,
the rules unchanged, and leaves everything else as it is. A rule that is kept mentions no
name whose declaration or rule was dropped, and the names derive the same words as
before. -/
theorem prune_keeps_reachable (g : Grammar) :
    (∀ found, Explores g.rules.successors (.start g.start) found ↔ found = g.reachable) ∧
    (∀ name, name ∈ g.reachable ↔ Relation.ReflTransGen g.rules.LeadsTo g.start name) ∧
    (∀ name, name ∈ g.prune.nonterminals ↔ name ∈ g.nonterminals ∧ name ∈ g.reachable) ∧
    (∀ lhs, g.prune.rules.get? lhs = if lhs ∈ g.reachable then g.rules.get? lhs else none) ∧
    g.prune.terminals = g.terminals ∧ g.prune.start = g.start ∧
    g.prune.acceptsEmpty = g.acceptsEmpty ∧
    (∀ lhs name, g.prune.rules.LeadsTo lhs name →
      (name ∈ g.nonterminals → name ∈ g.prune.nonterminals) ∧
      (name ∈ g.rules.keys → name ∈ g.prune.rules.keys)) ∧
    (∀ name ∈ g.reachable, ∀ w, g.prune.rules.Derives name w ↔ g.rules.Derives name w) := by
  refine ⟨g.explores_iff, fun name => ?chains, fun name => ?declared, g.get?_prune, rfl, rfl, rfl,
    fun lhs name hleads => ?mentioned, fun name hname w => ?words⟩
  case chains => rw [mem_reachable_iff, reaches_iff]
  case declared => rw [mem_nonterminals_prune, mem_reachable_iff]
  case mentioned =>
    have hreach := reaches_of_leadsTo_prune hleads
    exact ⟨fun hname => mem_nonterminals_prune.2 ⟨hname, hreach⟩,
      fun hkey => mem_keys_prune.2 ⟨hkey, hreach⟩⟩
  case words => exact derives_prune_iff (mem_reachable_iff.1 hname)

end Grammar

end Chomsky
