import Chomsky.Normal.IsolatedStart
import Chomsky.Proofs.Grammar.Simulation
import Chomsky.Proofs.Normal.Known

/-!
# A start symbol of its own

A start symbol that occurs in an alternative is put behind a name that no
alternative uses, so the new start symbol derives what the old one did and all
other names are left as they were.

## What this module delivers

- `Grammar.isolateStart_eq_ok`, `Grammar.isolateStart_eq_error`: the outcome, from
  the number of free names.
- `Grammar.derives_behind_iff`, `Grammar.accepts_behind_iff`: the derived words.
- `SelfContained.behind`: the grammar still holds together.
-/

set_option autoImplicit false

namespace Chomsky

namespace Grammar

variable {g : Grammar} {pool : NamePool} {name : String}

/-! ## Outcome -/

/-- The number of names that isolating the start symbol takes. -/
def startDemand (g : Grammar) : Nat := if g.startOccurs then 1 else 0

/-- The grammar with its start symbol isolated, by a given name where one is
needed. -/
def withStartIsolated (g : Grammar) (pool : NamePool) : Grammar :=
  match g.startOccurs, pool.free with
  | true, name :: _ => g.behind name
  | _, _ => g

theorem isolateStart_eq_ok (h : g.startDemand ≤ pool.free.length) :
    g.isolateStart pool = (.ok (g.withStartIsolated pool), pool.drawn g.startDemand) := by
  unfold isolateStart withStartIsolated
  cases hoccurs : g.startOccurs with
  | false =>
    rw [startDemand, hoccurs, if_neg Bool.false_ne_true, if_neg Bool.false_ne_true,
      NamePool.drawn_zero]
  | true =>
    cases hfree : pool.free with
    | nil =>
      rw [startDemand, hoccurs, hfree] at h
      exact absurd h (Nat.not_succ_le_zero 0)
    | cons name rest =>
      rw [if_pos rfl, NamePool.draw, NamePool.fresh_of_free_cons hfree, startDemand, hoccurs,
        if_pos rfl, NamePool.drawn_one hfree]

theorem isolateStart_eq_error (h : pool.free.length < g.startDemand) :
    g.isolateStart pool = (.error (.namesExhausted pool.scheme.capacity), pool) := by
  rw [startDemand] at h
  split at h
  · next hoccurs =>
    have hfree : pool.free = [] := List.length_eq_zero_iff.1 (Nat.lt_one_iff.1 h)
    rw [isolateStart, if_pos hoccurs, NamePool.draw, NamePool.fresh_of_free_nil hfree]
  · exact absurd h (Nat.not_lt_zero _)

theorem startOccurs_iff :
    g.startOccurs = true ↔ ∃ lhs, ∃ p ∈ g.rules.alternatives lhs, .nonterminal g.start ∈ p :=
  Rules.mentions_iff

/-! ## The grammar behind a new start symbol -/

@[simp] theorem behind_terminals (g : Grammar) (name : String) :
    (g.behind name).terminals = g.terminals := rfl

@[simp] theorem behind_start (g : Grammar) (name : String) : (g.behind name).start = name := rfl

@[simp] theorem behind_acceptsEmpty (g : Grammar) (name : String) :
    (g.behind name).acceptsEmpty = g.acceptsEmpty := rfl

theorem mem_nonterminals_behind {other : String} :
    other ∈ (g.behind name).nonterminals ↔ other = name ∨ other ∈ g.nonterminals :=
  NameSet.mem_insert

theorem mem_keys_behind {lhs : String} :
    lhs ∈ (g.behind name).rules.keys ↔ lhs = name ∨ lhs ∈ g.rules.keys := by
  have hkeys : (g.behind name).rules.keys = g.rules.keys.insert name := NameMap.keys_insert _ _ _
  rw [hkeys, NameSet.mem_insert]

theorem alternatives_behind (g : Grammar) (name lhs : String) :
    (g.behind name).rules.alternatives lhs =
      if lhs = name then [[.nonterminal g.start]] else g.rules.alternatives lhs :=
  Rules.alternatives_insert

theorem mem_alternatives_behind {lhs : String} {p : Phrase} :
    p ∈ (g.behind name).rules.alternatives lhs ↔
      (lhs = name ∧ p = [.nonterminal g.start]) ∨ (lhs ≠ name ∧ p ∈ g.rules.alternatives lhs) := by
  rw [alternatives_behind]
  by_cases h : lhs = name <;> simp [h]

variable (hg : g.SelfContained) (hname : name ∉ g.nonterminals)

include hg hname

theorem ne_of_mem_alternatives {lhs other : String} {p : Phrase} (hp : p ∈ g.rules.alternatives lhs)
    (hmem : .nonterminal other ∈ p) : other ≠ name := fun heq =>
  hname (heq ▸ hg.nonterminal_mem hp hmem)

/-- The new start symbol occurs in no alternative. -/
theorem notMem_alternatives_behind {lhs : String} {p : Phrase}
    (hp : p ∈ (g.behind name).rules.alternatives lhs) : .nonterminal name ∉ p := by
  intro hmem
  rcases mem_alternatives_behind.1 hp with ⟨-, rfl⟩ | ⟨-, hp⟩
  · obtain rfl : name = g.start := by simpa using hmem
    exact hname hg.start_mem
  · exact ne_of_mem_alternatives hg hname hp hmem rfl

theorem yields_behind_iff {p : Phrase} {w : List String} (hp : .nonterminal name ∉ p) :
    Yields (g.behind name).rules p w ↔ Yields g.rules p w := by
  constructor
  · intro h
    -- the new name is met nowhere on the way
    refine h.restrict (· ≠ name) (fun lhs hlhs q hq => ?_) fun other hother heq =>
      hp (heq ▸ hother)
    obtain ⟨-, hq⟩ := (mem_alternatives_behind.1 hq).resolve_left fun h => hlhs h.1
    exact ⟨hq, fun other => ne_of_mem_alternatives hg hname hq⟩
  · intro h
    refine h.mono fun lhs q hq => mem_alternatives_behind.2 (Or.inr ⟨?_, hq⟩)
    rintro rfl
    exact hname (hg.lhs_mem lhs (Rules.mem_keys_of_mem_alternatives hq))

/-- A new start symbol changes nothing for the other names. -/
theorem derives_behind_iff {lhs : String} {w : List String} (hlhs : lhs ≠ name) :
    (g.behind name).rules.Derives lhs w ↔ g.rules.Derives lhs w := by
  rw [← yields_nonterminal_iff, ← yields_nonterminal_iff]
  refine yields_behind_iff hg hname fun hmem => hlhs ?_
  obtain rfl : name = lhs := by simpa using hmem
  rfl

/-- The new start symbol derives what the old one did. -/
theorem derives_start_behind_iff {w : List String} :
    (g.behind name).rules.Derives name w ↔ g.rules.Derives g.start w := by
  have hne : g.start ≠ name := fun heq => hname (heq ▸ hg.start_mem)
  have hstart : Yields (g.behind name).rules [.nonterminal g.start] w ↔ _ := yields_nonterminal_iff
  rw [← derives_behind_iff hg hname hne, ← hstart, Rules.Derives, alternatives_behind, if_pos rfl]
  simp only [List.mem_singleton, exists_eq_left]

theorem accepts_behind_iff {w : List String} : (g.behind name).Accepts w ↔ g.Accepts w := by
  rw [Accepts, Accepts, behind_start, behind_acceptsEmpty, derives_start_behind_iff hg hname]

theorem SelfContained.behind (hterminal : name ∉ g.terminals) : (g.behind name).SelfContained where
  start_mem := mem_nonterminals_behind.2 (Or.inl rfl)
  notMem_terminals other hother := by
    rcases mem_nonterminals_behind.1 hother with rfl | hother
    · exact hterminal
    · exact hg.notMem_terminals other hother
  lhs_mem lhs hlhs :=
    mem_nonterminals_behind.2 ((mem_keys_behind.1 hlhs).imp_right (hg.lhs_mem lhs))
  declares lhs p hp s hs := by
    have hkeep : ∀ s, g.declares s = true → (g.behind name).declares s = true := by
      rintro (t | other) h
      · exact h
      · exact declares_nonterminal.2 (mem_nonterminals_behind.2 (Or.inr (declares_nonterminal.1 h)))
    apply hkeep s
    rcases mem_alternatives_behind.1 hp with ⟨-, rfl⟩ | ⟨-, hp⟩
    · rw [List.mem_singleton] at hs
      exact hs ▸ declares_nonterminal.2 hg.start_mem
    · exact hg.declares lhs p hp s hs

/-! ## The grammar afterwards -/

omit hg hname in
/-- Either nothing had to be done, or the first free name is the new start symbol. -/
theorem withStartIsolated_cases (h : g.startDemand ≤ pool.free.length) :
    (g.startOccurs = false ∧ g.startDemand = 0 ∧ g.withStartIsolated pool = g) ∨
      ∃ name rest, pool.free = name :: rest ∧ g.startDemand = 1 ∧
        g.withStartIsolated pool = g.behind name := by
  cases hoccurs : g.startOccurs with
  | false =>
    left
    rw [startDemand, withStartIsolated, hoccurs]
    exact ⟨rfl, rfl, rfl⟩
  | true =>
    right
    have hone : g.startDemand = 1 := by
      rw [startDemand, hoccurs]
      rfl
    cases hfree : pool.free with
    | nil =>
      rw [hone, hfree] at h
      exact absurd h (Nat.not_succ_le_zero 0)
    | cons name rest =>
      refine ⟨name, rest, rfl, hone, ?_⟩
      rw [withStartIsolated, hoccurs, hfree]

omit hname

variable (hpool : pool.Guards g) (h : g.startDemand ≤ pool.free.length)

include hpool h

theorem SelfContained.withStartIsolated : (g.withStartIsolated pool).SelfContained := by
  rcases withStartIsolated_cases h with ⟨-, -, heq⟩ | ⟨name, rest, hfree, -, heq⟩
  · rwa [heq]
  · obtain ⟨hnonterminal, hterminal⟩ := hpool.notMem (hfree ▸ List.mem_cons_self)
    rw [heq]
    exact hg.behind hnonterminal hterminal

omit hg hpool in
theorem mem_nonterminals_withStartIsolated :
    name ∈ (g.withStartIsolated pool).nonterminals ↔
      name ∈ pool.free.take g.startDemand ∨ name ∈ g.nonterminals := by
  rcases withStartIsolated_cases h with ⟨-, hzero, heq⟩ | ⟨new, rest, hfree, hone, heq⟩
  · rw [heq, hzero, List.take_zero]
    exact (or_iff_right List.not_mem_nil).symm
  · rw [heq, hone, hfree, mem_nonterminals_behind]
    exact or_congr_left List.mem_singleton.symm

omit hg hpool in
theorem mem_keys_withStartIsolated (lhs : String) :
    lhs ∈ (g.withStartIsolated pool).rules.keys ↔
      lhs ∈ g.rules.keys ∨ lhs ∈ pool.free.take g.startDemand := by
  rcases withStartIsolated_cases h with ⟨-, hzero, heq⟩ | ⟨name, rest, hfree, hone, heq⟩
  · rw [heq, hzero, List.take_zero]
    exact (or_iff_left List.not_mem_nil).symm
  · rw [heq, hone, hfree, mem_keys_behind, or_comm]
    exact or_congr_right List.mem_singleton.symm

omit hg hpool in
/-- A name that is drawn becomes the start symbol. -/
theorem start_withStartIsolated (hname : name ∈ pool.free.take g.startDemand) :
    (g.withStartIsolated pool).start = name := by
  rcases withStartIsolated_cases h with ⟨-, hzero, -⟩ | ⟨new, rest, hfree, hone, heq⟩
  · rw [hzero, List.take_zero] at hname
    exact absurd hname List.not_mem_nil
  · rw [hone, hfree] at hname
    rw [heq, behind_start, List.mem_singleton.1 hname]

omit hg hpool in
theorem terminals_withStartIsolated : (g.withStartIsolated pool).terminals = g.terminals := by
  rcases withStartIsolated_cases h with ⟨-, -, heq⟩ | ⟨name, rest, -, -, heq⟩ <;> rw [heq]
  exact behind_terminals g name

omit hg in
theorem guards_withStartIsolated :
    (pool.drawn g.startDemand).Guards (g.withStartIsolated pool) := by
  intro name hname
  rw [mem_nonterminals_withStartIsolated h, terminals_withStartIsolated h] at hname
  rw [NamePool.inUse_drawn]
  rcases hname with (hname | hname) | hname
  · exact Or.inr hname
  · exact Or.inl (hpool name (Or.inl hname))
  · exact Or.inl (hpool name (Or.inr hname))

/-- The start symbol occurs in no alternative any more. -/
theorem start_notMem_withStartIsolated {lhs : String} {p : Phrase}
    (hp : p ∈ (g.withStartIsolated pool).rules.alternatives lhs) :
    .nonterminal (g.withStartIsolated pool).start ∉ p := by
  rcases withStartIsolated_cases h with ⟨hoccurs, -, heq⟩ | ⟨name, rest, hfree, -, heq⟩
  · rw [heq] at hp ⊢
    intro hmem
    exact Bool.eq_false_iff.1 hoccurs (startOccurs_iff.2 ⟨lhs, p, hp, hmem⟩)
  · rw [heq] at hp ⊢
    exact notMem_alternatives_behind hg (hpool.notMem (hfree ▸ List.mem_cons_self)).1 hp

theorem derives_withStartIsolated_iff {lhs : String} {w : List String}
    (hlhs : lhs ∈ g.nonterminals) :
    (g.withStartIsolated pool).rules.Derives lhs w ↔ g.rules.Derives lhs w := by
  rcases withStartIsolated_cases h with ⟨-, -, heq⟩ | ⟨name, rest, hfree, -, heq⟩
  · rw [heq]
  · have hnew := (hpool.notMem (hfree ▸ List.mem_cons_self)).1
    rw [heq]
    exact derives_behind_iff hg hnew fun heq => hnew (heq ▸ hlhs)

theorem accepts_withStartIsolated_iff {w : List String} :
    (g.withStartIsolated pool).Accepts w ↔ g.Accepts w := by
  rcases withStartIsolated_cases h with ⟨-, -, heq⟩ | ⟨name, rest, hfree, -, heq⟩
  · rw [heq]
  · rw [heq]
    exact accepts_behind_iff hg (hpool.notMem (hfree ▸ List.mem_cons_self)).1

end Grammar

end Chomsky
