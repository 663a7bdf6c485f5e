import Chomsky.Grammar.Samples
import Chomsky.Proofs.Normal.Binary
import Chomsky.Proofs.Normal.Expansion
import Chomsky.Proofs.Normal.IsolatedTerminals
import Chomsky.Proofs.Normal.Outcome

/-!
# The phases that name parts can be undone

Both phases that invent nonterminals lose nothing but repetitions. The names that they draw
abbreviate terminals, or ends of alternatives, and each new alternative means the one that
it replaces. So the old alternatives are found again by replacing the names.

For this it does not matter whether the grammar holds together, as long as the pool has all
names in use that the grammar knows. Then a fresh name is no left side of before and occurs
in no alternative.

No name is drawn without need. There is one for each distinct terminal of the longer
alternatives, in the order in which these first occur, and one for each distinct proper end.

## What this module delivers

- `Grammar.abbreviates_terminalsIsolated` and `Grammar.abbreviates_binarized`: what the
  names mean.
- `isolateTerminals_invertible` and `binarize_invertible`: the phases as a whole.
- `Grammar.pairDemand_of_forall_eq`: the number of names for a single long alternative.
-/

set_option autoImplicit false

namespace Chomsky

namespace Grammar

variable {g g' : Grammar} {pool pool' : NamePool} {lhs name other : String} {p q k : Phrase}

/-! ## Isolated terminals -/

/-- If the terminals are isolated, there were enough names. -/
theorem eq_of_isolateTerminals (h : g.isolateTerminals pool = (.ok g', pool')) :
    g.terminalDemand ≤ pool.free.length ∧ g' = g.terminalsIsolated pool ∧
      pool' = pool.drawn g.terminalDemand := by
  rcases Nat.lt_or_ge pool.free.length g.terminalDemand with hlt | hle
  · simp [isolateTerminals_eq_error hlt] at h
  · simp only [isolateTerminals_eq_ok hle, Prod.mk.injEq, Except.ok.injEq] at h
    exact ⟨hle, h.1.symm, h.2.symm⟩

section Terminals

variable (hpool : pool.Reserves g)

include hpool

/-- The names drawn mean their terminals. -/
theorem abbreviates_terminalsIsolated :
    (g.terminalsIsolated pool).rules.Abbreviates (g.rules.terminalTable pool).names
      ((g.rules.terminalTable pool).meaning fun t => [.terminal t]) := by
  apply abbreviates_withNamed (newTo_terminalTable hpool.guards).nodup rfl
  intro t name hentry
  exact ⟨t, hentry, .single (NameTable.stands_terminal _ _ _), by simp [Symbol.weight]⟩

/-- Each terminal has a name with this terminal as the only alternative, in order. -/
theorem forall₂_terminalsToIsolate (h : g.terminalDemand ≤ pool.free.length) :
    List.Forall₂ (fun t name =>
        (g.terminalsIsolated pool).rules.alternatives name = [[.terminal t]])
      (distinct g.rules.terminalsToIsolate) (pool.free.take g.terminalDemand) := by
  apply NameTable.forall₂_assigned h
  intro t name hentry
  rw [← terminalTable_eq] at hentry
  exact alternatives_withNamed_of_mem (newTo_terminalTable hpool.guards).nodup hentry

theorem terminal_notMem_of_two_le (h : g.terminalDemand ≤ pool.free.length)
    (hq : q ∈ (g.terminalsIsolated pool).rules.alternatives lhs) (hlen : 2 ≤ q.length)
    (t : String) : .terminal t ∉ q := by
  intro hmem
  rcases (mem_alternatives_terminalsIsolated hpool h).1 hq with ⟨p, hp, rfl⟩ | ⟨t', -, rfl⟩
  · rw [Phrase.length_isolated] at hlen
    obtain ⟨name, hname⟩ := (named_of_mem h hp hlen).exists_eq_nonterminal hlen hmem
    exact Symbol.noConfusion hname
  · simp at hlen

variable (h : g.terminalDemand ≤ pool.free.length)

include h

theorem exists_isolate?_eq (hp : p ∈ g.rules.alternatives lhs) :
    ∃ q, p.isolate? (g.rules.terminalTable pool) = some q ∧
      q.flatMap ((g.rules.terminalTable pool).meaning fun t => [.terminal t]) = p := by
  refine ⟨_, isolate?_eq_of_mem h hp, ?_⟩
  exact NameTable.flatMap_meaning_of_unfolds (unfolds_isolated (hpool.avoids hp))
    (newTo_terminalTable hpool.guards).nodup

theorem restores_terminalsIsolated :
    (g.terminalsIsolated pool).rules.Restores (pool.free.take g.terminalDemand) g.rules := by
  rw [← names_terminalTable]
  apply restores_withNamed (abbreviates_terminalsIsolated hpool)
  · intro lhs p hp
    exact exists_isolate?_eq hpool h hp
  · intro lhs hlhs
    exact notMem_names_terminalTable hpool hlhs

/-- An isolated alternative stands in the place of the one that it replaces, and is as long.
A short alternative stays. -/
theorem forall₂_terminalsIsolated (hlhs : lhs ∈ g.rules.keys) :
    List.Forall₂ (fun q p => q.length = p.length ∧ (p.length < 2 → q = p))
      ((g.terminalsIsolated pool).rules.alternatives lhs)
      (distinct (g.rules.alternatives lhs)) := by
  apply (forall₂_alternatives_withNamed (fun p hp => exists_isolate?_eq hpool h hp)
    (notMem_names_terminalTable hpool hlhs)).imp
  rintro q p ⟨hp, hq⟩
  rw [isolate?_eq_of_mem h hp] at hq
  obtain rfl := Option.some.inj hq
  exact ⟨Phrase.length_isolated _ p, Phrase.isolated_of_lt⟩

end Terminals

end Grammar

/-- Isolating terminals can be undone, and draws no name without need. Let the pool have all
names in use that the grammar knows, and let the phase succeed. Then no alternative of two
or more symbols has a terminal, and shorter alternatives stay in their places. The names
drawn are new and different, one for each distinct terminal of the longer alternatives, in
the order in which these first occur, with the terminal as its only alternative. Replacing
the names gives back the alternatives of before, without repetitions. -/
theorem isolateTerminals_invertible {g g' : Grammar} {pool pool' : NamePool}
    (hpool : pool.Reserves g) (h : g.isolateTerminals pool = (.ok g', pool')) :
    ∃ drawn, pool'.allocated = pool.allocated ++ drawn ∧ drawn.Nodup ∧
      (∀ name ∈ drawn, ¬ g.Knows name) ∧
      (∀ lhs, lhs ∈ g'.rules.keys ↔ lhs ∈ g.rules.keys ∨ lhs ∈ drawn) ∧
      (∀ lhs, ∀ p ∈ g'.rules.alternatives lhs, 2 ≤ p.length → ∀ t, .terminal t ∉ p) ∧
      (∀ lhs ∈ g.rules.keys,
        List.Forall₂ (fun q p => q.length = p.length ∧ (p.length < 2 → q = p))
          (g'.rules.alternatives lhs) (distinct (g.rules.alternatives lhs))) ∧
      List.Forall₂ (fun t name => g'.rules.alternatives name = [[.terminal t]])
        (distinct g.rules.terminalsToIsolate) drawn ∧
      g'.rules.Restores drawn g.rules := by
  obtain ⟨hle, rfl, rfl⟩ := Grammar.eq_of_isolateTerminals h
  refine ⟨pool.free.take g.terminalDemand, pool.drawn_allocated _,
    pool.nodup_free.sublist (List.take_sublist _ _), ?_, g.mem_keys_terminalsIsolated pool,
    fun lhs p hp hlen t => Grammar.terminal_notMem_of_two_le hpool hle hp hlen t,
    fun lhs hlhs => Grammar.forall₂_terminalsIsolated hpool hle hlhs,
    Grammar.forall₂_terminalsToIsolate hpool hle, Grammar.restores_terminalsIsolated hpool hle⟩
  intro name hname
  exact hpool.not_knows (List.mem_of_mem_take hname)

/-- The sample of expressions has four terminals in longer alternatives. They are named in
the order in which they occur there, and the names can be replaced again. -/
theorem isolateTerminals_invertible_arithmetic :
    ∃ g' pool', Sample.arithmetic.grammar.isolateTerminals
        (.ofReserved .standard Sample.arithmetic.grammar.declared) = (.ok g', pool') ∧
      pool'.allocated = ["A", "B", "C", "D"] ∧
      List.Forall₂ (fun t name => g'.rules.alternatives name = [[.terminal t]])
        ["+", "(", ")", "*"] ["A", "B", "C", "D"] ∧
      g'.rules.Restores ["A", "B", "C", "D"] Sample.arithmetic.grammar.rules := by
  obtain ⟨g', pool', h, hallocated⟩ : ∃ g' pool', Sample.arithmetic.grammar.isolateTerminals
      (.ofReserved .standard Sample.arithmetic.grammar.declared) = (.ok g', pool') ∧
        pool'.allocated = ["A", "B", "C", "D"] := ⟨_, _, rfl, by decide⟩
  obtain ⟨drawn, hdrawn, -, -, -, -, -, hnames, hrestores⟩ :=
    isolateTerminals_invertible (NamePool.reserves_ofReserved _ (by decide)) h
  obtain rfl : ["A", "B", "C", "D"] = drawn := hallocated.symm.trans hdrawn
  have hterminals : distinct Sample.arithmetic.grammar.rules.terminalsToIsolate
      = ["+", "(", ")", "*"] := by decide
  exact ⟨g', pool', h, hallocated, hterminals ▸ hnames, hrestores⟩

/-! ## Split alternatives -/

namespace Grammar

variable {g g' : Grammar} {pool pool' : NamePool} {lhs name other : String} {p q k : Phrase}

/-- The ends of a single long alternative are all ends there are: two less than it has
symbols. -/
theorem pairDemand_of_forall_eq (hp : p ∈ g.rules.alternatives lhs)
    (honly : ∀ lhs, ∀ q ∈ g.rules.alternatives lhs, 3 ≤ q.length → q = p) :
    g.pairDemand = p.length - 2 := by
  have hends : ∀ k, k ∈ g.rules.ends ↔ k ∈ Phrase.ends p.tail := by
    intro k
    rw [Rules.mem_ends, Phrase.mem_ends]
    constructor
    · rintro ⟨lhs', q, hq, hsuffix, hlen⟩
      have hlong := hsuffix.length_le
      rw [List.length_tail] at hlong
      obtain rfl := honly lhs' q hq (by omega)
      exact ⟨hsuffix, hlen⟩
    · rintro ⟨hsuffix, hlen⟩
      exact ⟨lhs, p, hp, hsuffix, hlen⟩
  rw [pairDemand, length_distinct_congr hends, distinct_eq_self (Phrase.nodup_ends _),
    Phrase.length_ends, List.length_tail, Nat.sub_sub]

section Pairs

variable (hpool : pool.Reserves g)

include hpool

/-- If the alternatives are split, there were enough names. -/
theorem eq_of_binarize (h : g.binarize pool = (.ok g', pool')) :
    g.pairDemand ≤ pool.free.length ∧ g' = g.binarized pool ∧
      pool' = pool.drawn g.pairDemand := by
  rcases Nat.lt_or_ge pool.free.length g.pairDemand with hlt | hle
  · simp [binarize_eq_error hpool hlt] at h
  · simp only [binarize_eq_ok hpool hle, Prod.mk.injEq, Except.ok.injEq] at h
    exact ⟨hle, h.1.symm, h.2.symm⟩

/-- The names in a pair that was folded from a string mean less than the string. The first
symbol is no new name, and the second one means what comes after it. -/
theorem weight_lt_of_foldedFrom {pair : Symbol × Symbol} (hk : k.Avoids pool)
    (h : FoldedFrom (g.rules.endTable pool) pair k) :
    Phrase.weight (g.rules.pairTable pool).names ((g.rules.endTable pool).meaning id)
      [pair.1, pair.2] < k.length := by
  obtain ⟨second, rest, rfl, htail⟩ := h
  have hfirst : Symbol.weight (g.rules.pairTable pool).names
      ((g.rules.endTable pool).meaning id) pair.1 = 0 := by
    apply Symbol.weight_of_forall_ne
    intro name hname heq
    rw [names_pairTable_eq_take hpool] at hname
    exact hk name (List.mem_of_mem_take hname) (heq ▸ List.mem_cons_self)
  have hmeaning : (g.rules.endTable pool).meaning id pair.2 = second :: rest :=
    (stands_of_standIn? (hk.of_suffix (List.suffix_cons _ _)) htail).meaning_eq
      (newTo_endTable hpool.guards).nodup
  have hsecond : Symbol.weight (g.rules.pairTable pool).names
      ((g.rules.endTable pool).meaning id) pair.2 ≤ rest.length + 1 := by
    apply Symbol.weight_le.trans
    rw [hmeaning, List.length_cons]
  simp only [Phrase.weight_cons, Phrase.weight_nil, hfirst, List.length_cons]
  omega

/-- The names drawn mean the ends that they were drawn for. -/
theorem abbreviates_binarized :
    (g.binarized pool).rules.Abbreviates (g.rules.pairTable pool).names
      ((g.rules.endTable pool).meaning id) := by
  apply abbreviates_withNamed (newTo_pairTable hpool).nodup (names_pairTable hpool)
  intro pair name hpair
  obtain ⟨k, hk, hfolded⟩ := (mirrors_pairTable hpool).mem_entries_iff.1 hpair
  have havoids := avoids_of_mem_endTable hpool hk
  exact ⟨k, hk, unfolds_of_foldedFrom havoids hfolded,
    weight_lt_of_foldedFrom hpool havoids hfolded⟩

theorem length_le_two_of_mem_binarized (hq : q ∈ (g.binarized pool).rules.alternatives lhs) :
    q.length ≤ 2 := by
  rcases (mem_alternatives_binarized hpool).1 hq with ⟨-, hlen⟩ | ⟨pair, k, -, -, rfl⟩
  · exact Nat.le_of_lt hlen
  · exact Nat.le_refl 2

/-- A name that is drawn has one pair as its only alternative, and it was drawn for the
string that the pair was folded from. -/
theorem exists_alternatives_eq_pair (hname : name ∈ pool.free.take g.pairDemand) :
    ∃ (pair : Symbol × Symbol) (k : Phrase),
      (g.binarized pool).rules.alternatives name = [[pair.1, pair.2]] ∧
        (g.rules.endTable pool).find? k = some name ∧
          [pair.1, pair.2].flatMap ((g.rules.endTable pool).meaning id) = k := by
  rw [← names_pairTable_eq_take hpool] at hname
  obtain ⟨pair, hpair⟩ := NameTable.mem_names.1 hname
  obtain ⟨k, hk, hfolded⟩ := (mirrors_pairTable hpool).mem_entries_iff.1 hpair
  refine ⟨pair, k, alternatives_withNamed_of_mem (newTo_pairTable hpool).nodup hpair,
    find?_endTable_iff.2 hk, ?_⟩
  exact NameTable.flatMap_meaning_of_unfolds
    (unfolds_of_foldedFrom (avoids_of_mem_endTable hpool hk) hfolded)
    (newTo_endTable hpool.guards).nodup

/-- Names with the same alternative were drawn for the same string. -/
theorem eq_of_alternatives_eq (hname : name ∈ pool.free.take g.pairDemand)
    (hother : other ∈ pool.free.take g.pairDemand)
    (heq : (g.binarized pool).rules.alternatives name
      = (g.binarized pool).rules.alternatives other) : name = other := by
  obtain ⟨pair, k, hpair, hfind, hmeans⟩ := exists_alternatives_eq_pair hpool hname
  obtain ⟨pair', k', hpair', hfind', hmeans'⟩ := exists_alternatives_eq_pair hpool hother
  -- the same pair means the same string
  rw [hpair, hpair', List.singleton_inj] at heq
  rw [heq, hmeans'] at hmeans
  rw [← hmeans, hfind'] at hfind
  exact (Option.some.inj hfind).symm

variable (h : g.pairDemand ≤ pool.free.length)

include h

theorem exists_binarize?_flatMap_eq (hp : p ∈ g.rules.alternatives lhs) :
    ∃ q, p.binarize? (g.rules.pairTable pool) = some q ∧
      q.flatMap ((g.rules.endTable pool).meaning id) = p := by
  obtain ⟨q, hq⟩ := exists_binarize?_eq hpool h hp
  exact ⟨q, hq, NameTable.flatMap_meaning_of_unfolds (unfolds_of_binarize? hpool hp hq)
    (newTo_endTable hpool.guards).nodup⟩

theorem restores_binarized :
    (g.binarized pool).rules.Restores (pool.free.take g.pairDemand) g.rules := by
  rw [← names_pairTable_eq_take hpool]
  apply restores_withNamed (abbreviates_binarized hpool)
  · intro lhs p hp
    exact exists_binarize?_flatMap_eq hpool h hp
  · intro lhs hlhs
    exact notMem_names_pairTable hpool hlhs

end Pairs

end Grammar

/-- Splitting alternatives can be undone, and shares exactly. Let the pool have all names in
use that the grammar knows, and let the phase succeed. Then no alternative has more than two
symbols. The names drawn are new and different, each has one pair as its only alternative,
and no two of them have the same. Replacing the names comes to an end and gives back the
alternatives of before, without repetitions. There are as many names as there are proper
ends of at least two symbols of alternatives of at least three, so a single long alternative
takes two names less than it has symbols. -/
theorem binarize_invertible {g g' : Grammar} {pool pool' : NamePool}
    (hpool : pool.Reserves g) (h : g.binarize pool = (.ok g', pool')) :
    ∃ drawn, pool'.allocated = pool.allocated ++ drawn ∧ drawn.Nodup ∧
      (∀ name ∈ drawn, ¬ g.Knows name) ∧
      (∀ lhs, lhs ∈ g'.rules.keys ↔ lhs ∈ g.rules.keys ∨ lhs ∈ drawn) ∧
      (∀ lhs, ∀ p ∈ g'.rules.alternatives lhs, p.length ≤ 2) ∧
      (∀ name ∈ drawn, ∃ first second, g'.rules.alternatives name = [[first, second]]) ∧
      (∀ name ∈ drawn, ∀ other ∈ drawn,
        g'.rules.alternatives name = g'.rules.alternatives other → name = other) ∧
      g'.rules.Restores drawn g.rules ∧
      drawn.length = g.rules.properEnds.ncard ∧
      ∀ lhs, ∀ p ∈ g.rules.alternatives lhs,
        (∀ lhs', ∀ q ∈ g.rules.alternatives lhs', 3 ≤ q.length → q = p) →
          drawn.length = p.length - 2 := by
  obtain ⟨hle, rfl, rfl⟩ := Grammar.eq_of_binarize hpool h
  have hlength : (pool.free.take g.pairDemand).length = g.pairDemand :=
    List.length_take_of_le hle
  refine ⟨pool.free.take g.pairDemand, pool.drawn_allocated _,
    pool.nodup_free.sublist (List.take_sublist _ _), ?_, Grammar.mem_keys_binarized hpool,
    fun lhs p hp => Grammar.length_le_two_of_mem_binarized hpool hp, ?_,
    fun name hname other hother heq => Grammar.eq_of_alternatives_eq hpool hname hother heq,
    Grammar.restores_binarized hpool hle, hlength.trans Grammar.ncard_properEnds.symm, ?_⟩
  · intro name hname
    exact hpool.not_knows (List.mem_of_mem_take hname)
  · intro name hname
    obtain ⟨pair, -, hpair, -, -⟩ := Grammar.exists_alternatives_eq_pair hpool hname
    exact ⟨pair.1, pair.2, hpair⟩
  · intro lhs p hp honly
    rw [hlength, Grammar.pairDemand_of_forall_eq hp honly]

/-- The sample of a long alternative has four symbols in it, so it takes two names, which
can be replaced again. -/
theorem binarize_invertible_longProduction :
    ∃ g' pool', Sample.longProduction.grammar.binarize
        (.ofReserved .standard Sample.longProduction.grammar.declared) = (.ok g', pool') ∧
      pool'.allocated = ["B", "C"] ∧ g'.rules.Restores ["B", "C"]
        Sample.longProduction.grammar.rules ∧
      Sample.longProduction.grammar.rules.properEnds.ncard = 2 := by
  obtain ⟨g', pool', h, hallocated⟩ : ∃ g' pool', Sample.longProduction.grammar.binarize
      (.ofReserved .standard Sample.longProduction.grammar.declared) = (.ok g', pool') ∧
        pool'.allocated = ["B", "C"] := ⟨_, _, rfl, by decide⟩
  obtain ⟨drawn, hdrawn, -, -, -, -, -, -, hrestores, hncard, -⟩ :=
    binarize_invertible (NamePool.reserves_ofReserved _ (by decide)) h
  obtain rfl : ["B", "C"] = drawn := hallocated.symm.trans hdrawn
  exact ⟨g', pool', h, hallocated, hrestores, hncard.symm⟩

end Chomsky
