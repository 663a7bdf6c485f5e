import Chomsky.Normal.Pipeline
import Chomsky.Proofs.Normal.Binary
import Chomsky.Proofs.Normal.IsolatedTerminals
import Chomsky.Proofs.Normal.NullFree
import Chomsky.Proofs.Normal.Pruned
import Chomsky.Proofs.Normal.UnitFree

/-!
# The grammars of a run

A run passes through grammars that are known from the first one and the scheme of
names: each phase either ends the run or does what its closed form says. Every one
of them holds together and is guarded by the pool at its stage, so the results on
the phases can be put in a row.

## What this module delivers

- `Grammar.started`, `Grammar.stripped`, `Grammar.isolated` and `Grammar.normal`,
  the grammars of a run.
- `Grammar.pairDemand_isolated`: isolating terminals leaves the number of distinct
  ends as it is.
- `normalize_cases`: the five ways in which a run can end.
-/

set_option autoImplicit false

namespace Chomsky

/-- Lists with the same image are equal if the map tells their elements apart. -/
theorem eq_of_map_eq {α β : Type} {f : α → β} {l m : List α}
    (hinj : ∀ a ∈ l, ∀ b ∈ m, f a = f b → a = b) (h : l.map f = m.map f) : l = m := by
  induction l generalizing m with
  | nil => exact (List.map_eq_nil_iff.1 h.symm).symm
  | cons a l ih =>
    cases m with
    | nil => exact absurd h (List.cons_ne_nil _ _)
    | cons b m =>
      obtain ⟨hhead, htail⟩ := List.cons.inj h
      have hrest : ∀ x ∈ l, ∀ y ∈ m, f x = f y → x = y := fun x hx y hy =>
        hinj x (List.mem_cons_of_mem a hx) y (List.mem_cons_of_mem b hy)
      rw [hinj a List.mem_cons_self b List.mem_cons_self hhead, ih hrest htail]

namespace Grammar

variable (g : Grammar) (scheme : NameScheme)

/-- The pool of a run. -/
def pool : NamePool := .ofReserved scheme g.declared

/-- The grammar with its start symbol isolated. -/
def started : Grammar := g.withStartIsolated (g.pool scheme)

/-- The grammar as it stands after pruning. -/
def stripped : Grammar := (g.started scheme).removeNull.splice.prune

/-- The grammar with its terminals isolated. -/
def isolated : Grammar :=
  (g.stripped scheme).terminalsIsolated ((g.pool scheme).drawn g.startDemand)

/-- The grammar after the last phase. -/
def normal : Grammar :=
  (g.isolated scheme).binarized
    ((g.pool scheme).drawn (g.startDemand + (g.stripped scheme).terminalDemand))

variable {g scheme}

theorem start_isolated : (g.isolated scheme).start = (g.stripped scheme).start := by
  rw [isolated, terminalsIsolated, withNamed_start]

theorem start_normal : (g.normal scheme).start = (g.isolated scheme).start := by
  rw [normal, binarized, withNamed_start]

theorem terminals_normal (hstart : g.startDemand ≤ (g.pool scheme).free.length) :
    (g.normal scheme).terminals = g.terminals := by
  rw [normal, binarized, withNamed_terminals, isolated, terminalsIsolated, withNamed_terminals,
    stripped, prune_terminals, splice_terminals, removeNull_terminals, started]
  exact terminals_withStartIsolated hstart

/-- The pool of a run has handed out what it has drawn, and nothing before. -/
theorem allocated_drawn_pool (g : Grammar) (scheme : NameScheme) (count : Nat) :
    ((g.pool scheme).drawn count).allocated = (g.pool scheme).free.take count := by
  rw [NamePool.drawn_allocated, pool, NamePool.ofReserved, List.nil_append]

theorem guards_pool : (g.pool scheme).Guards g := NamePool.guards_ofReserved scheme g

section Started

variable (hg : g.SelfContained) (hstart : g.startDemand ≤ (g.pool scheme).free.length)

include hg hstart

theorem selfContained_started : (g.started scheme).SelfContained :=
  hg.withStartIsolated guards_pool hstart

theorem selfContained_stripped : (g.stripped scheme).SelfContained :=
  (selfContained_started hg hstart).removeNull.splice.prune

omit hg in
theorem guards_stripped : ((g.pool scheme).drawn g.startDemand).Guards (g.stripped scheme) := by
  intro name hname
  refine guards_withStartIsolated guards_pool hstart name (hname.imp_left fun h => ?_)
  exact (mem_nonterminals_prune.1 h).1

end Started

/-! ## The ends of the isolated alternatives -/

section Ends

variable {pool : NamePool} (hg : g.SelfContained) (hpool : pool.Guards g)
  (h : g.terminalDemand ≤ pool.free.length)

include hg hpool h

/-- Symbols of a longer alternative stay different when terminals are isolated. -/
theorem isolated_injective {lhs lhs' : String} {p q : Phrase} {a b : Symbol}
    (hp : p ∈ g.rules.alternatives lhs) (hlen : 2 ≤ p.length) (ha : a ∈ p)
    (hq : q ∈ g.rules.alternatives lhs') (hlen' : 2 ≤ q.length) (hb : b ∈ q)
    (heq : a.isolated (g.rules.terminalTable pool) = b.isolated (g.rules.terminalTable pool)) :
    a = b := by
  have hnew := newTo_terminalTable hpool
  have hname : ∀ {t name : String}, (g.rules.terminalTable pool).find? t = some name →
      name ∉ g.nonterminals := fun ht =>
    hnew.notMem_nonterminals _ (NameTable.mem_names.2 ⟨_, find?_terminalTable_iff.1 ht⟩)
  -- a name is given to one terminal only, and to none that is a nonterminal
  cases a with
  | nonterminal n =>
    have hn := hg.nonterminal_mem hp ha
    cases b with
    | nonterminal m => exact heq
    | terminal t =>
      obtain ⟨name, ht⟩ := Option.isSome_iff_exists.1 (named_of_mem h hq hlen' t hb)
      rw [Symbol.isolated_terminal ht] at heq
      exact absurd (Symbol.nonterminal.inj heq ▸ hn) (hname ht)
  | terminal t =>
    obtain ⟨name, ht⟩ := Option.isSome_iff_exists.1 (named_of_mem h hp hlen t ha)
    rw [Symbol.isolated_terminal ht] at heq
    cases b with
    | nonterminal m =>
      have hm := hg.nonterminal_mem hq hb
      exact absurd (Symbol.nonterminal.inj heq ▸ hm) (hname ht)
    | terminal u =>
      obtain ⟨other, hu⟩ := Option.isSome_iff_exists.1 (named_of_mem h hq hlen' u hb)
      rw [Symbol.isolated_terminal hu] at heq
      rw [Symbol.nonterminal.inj heq, terminalTable_eq] at ht
      rw [terminalTable_eq] at hu
      rw [NameTable.find?_injective ht hu]

/-- The ends after terminals are isolated are the ends of before, symbol by symbol. -/
theorem mem_ends_terminalsIsolated {k : Phrase} :
    k ∈ (g.terminalsIsolated pool).rules.ends ↔
      k ∈ g.rules.ends.map (List.map (Symbol.isolated (g.rules.terminalTable pool))) := by
  rw [Rules.mem_ends, List.mem_map]
  simp only [Rules.mem_ends]
  constructor
  · rintro ⟨lhs, q, hq, hsuffix, hlen⟩
    rcases (mem_alternatives_terminalsIsolated (hpool.reserves hg) h).1 hq with
      ⟨p, hp, rfl⟩ | ⟨t, -, rfl⟩
    · rcases Nat.lt_or_ge p.length 2 with hshort | hlong
      · -- a short alternative has no ends at all
        have := hsuffix.length_le
        rw [Phrase.isolated_of_lt hshort, List.length_tail] at this
        omega
      · rw [Phrase.isolated_of_le hlong, ← List.map_tail] at hsuffix
        obtain ⟨k', hk', rfl⟩ := List.suffix_map_iff.1 hsuffix
        exact ⟨k', ⟨lhs, p, hp, hk', by rwa [List.length_map] at hlen⟩, rfl⟩
    · exact absurd (Nat.le_trans hlen hsuffix.length_le) (Nat.not_succ_le_zero 1)
  · rintro ⟨k', ⟨lhs, p, hp, hsuffix, hlen⟩, rfl⟩
    have hlong : 2 ≤ p.length :=
      Nat.le_trans hlen (hsuffix.trans (List.tail_suffix p)).length_le
    refine ⟨lhs, _, (mem_alternatives_terminalsIsolated (hpool.reserves hg) h).2
      (Or.inl ⟨p, hp, rfl⟩), ?_, ?_⟩
    · rw [Phrase.isolated_of_le hlong, ← List.map_tail]
      exact hsuffix.map _
    · rwa [List.length_map]

/-- Isolating terminals keeps the number of distinct ends: it makes no two of them
equal, and its own alternatives have none. -/
theorem pairDemand_terminalsIsolated : (g.terminalsIsolated pool).pairDemand = g.pairDemand := by
  have hinj : ∀ k ∈ g.rules.ends, ∀ l ∈ g.rules.ends,
      k.map (Symbol.isolated (g.rules.terminalTable pool))
        = l.map (Symbol.isolated (g.rules.terminalTable pool)) → k = l := by
    intro k hk l hl heq
    obtain ⟨lhs, p, hp, hkp, hklen⟩ := Rules.mem_ends.1 hk
    obtain ⟨lhs', q, hq, hlq, hllen⟩ := Rules.mem_ends.1 hl
    have hkp := hkp.trans (List.tail_suffix p)
    have hlq := hlq.trans (List.tail_suffix q)
    refine eq_of_map_eq (fun a ha b hb => ?_) heq
    exact isolated_injective hg hpool h hp (Nat.le_trans hklen hkp.length_le) (hkp.subset ha)
      hq (Nat.le_trans hllen hlq.length_le) (hlq.subset hb)
  calc (g.terminalsIsolated pool).pairDemand
      = (distinct (g.rules.ends.map
          (List.map (Symbol.isolated (g.rules.terminalTable pool))))).length :=
        length_distinct_congr fun k => mem_ends_terminalsIsolated hg hpool h
    _ = g.pairDemand := length_distinct_map hinj

end Ends

/-! ## The stages after pruning -/

section Stripped

variable (hg : g.SelfContained)
  (h : g.startDemand + (g.stripped scheme).terminalDemand ≤ (g.pool scheme).free.length)

include hg h

omit hg in
theorem terminalDemand_le :
    (g.stripped scheme).terminalDemand ≤ ((g.pool scheme).drawn g.startDemand).free.length := by
  rw [NamePool.free_drawn, List.length_drop]
  omega

theorem selfContained_isolated : (g.isolated scheme).SelfContained :=
  (selfContained_stripped hg (Nat.le_trans (Nat.le_add_right _ _) h)).terminalsIsolated
    (guards_stripped (Nat.le_trans (Nat.le_add_right _ _) h)) (terminalDemand_le h)

omit hg in
theorem guards_isolated :
    ((g.pool scheme).drawn (g.startDemand + (g.stripped scheme).terminalDemand)).Guards
      (g.isolated scheme) := by
  rw [← NamePool.drawn_drawn]
  exact guards_terminalsIsolated (guards_stripped (Nat.le_trans (Nat.le_add_right _ _) h))

theorem reserves_isolated :
    ((g.pool scheme).drawn (g.startDemand + (g.stripped scheme).terminalDemand)).Reserves
      (g.isolated scheme) :=
  (guards_isolated h).reserves (selfContained_isolated hg h)

theorem pairDemand_isolated : (g.isolated scheme).pairDemand = (g.stripped scheme).pairDemand := by
  have hstart := Nat.le_trans (Nat.le_add_right _ _) h
  exact pairDemand_terminalsIsolated (selfContained_stripped hg hstart) (guards_stripped hstart)
    (terminalDemand_le h)

theorem pairDemand_le
    (hpairs : g.startDemand + (g.stripped scheme).terminalDemand + (g.stripped scheme).pairDemand
      ≤ (g.pool scheme).free.length) :
    (g.isolated scheme).pairDemand ≤ ((g.pool scheme).drawn
      (g.startDemand + (g.stripped scheme).terminalDemand)).free.length := by
  rw [pairDemand_isolated hg h, NamePool.free_drawn, List.length_drop]
  omega

omit hg h in
theorem mem_nonterminals_isolated {name : String} :
    name ∈ (g.isolated scheme).nonterminals ↔ name ∈ (g.stripped scheme).nonterminals ∨
      name ∈ ((g.pool scheme).drawn g.startDemand).free.take
        (g.stripped scheme).terminalDemand := by
  rw [isolated, terminalsIsolated, mem_nonterminals_withNamed, names_terminalTable]
  exact or_comm

theorem mem_nonterminals_normal {name : String} :
    name ∈ (g.normal scheme).nonterminals ↔ name ∈ (g.isolated scheme).nonterminals ∨
      name ∈ ((g.pool scheme).drawn
        (g.startDemand + (g.stripped scheme).terminalDemand)).free.take
          (g.stripped scheme).pairDemand := by
  rw [normal, binarized, mem_nonterminals_withNamed,
    names_pairTable_eq_take (reserves_isolated hg h), pairDemand_isolated hg h]
  exact or_comm

end Stripped

end Grammar

/-! ## How a run ends -/

/-- The settings do not let the unit alternatives of the grammar pass: they refuse
cycles, and after empty alternatives are removed there is one of at least two
nonterminals. -/
def Settings.Refuses (settings : Settings) (g : Grammar) : Prop :=
  settings.unitCycles = .refuse ∧
    ∃ cycle, IsCycle (g.started settings.scheme).removeNull.rules.UnitStep cycle ∧ 2 ≤ cycle.length

theorem Grammar.removeUnits_of_refuses {g : Grammar} {policy : CyclePolicy}
    (hpolicy : policy = .refuse)
    (hcycle : ∃ cycle, IsCycle g.rules.UnitStep cycle ∧ 2 ≤ cycle.length) :
    ∃ cycle, IsCycle g.rules.UnitStep cycle ∧ 2 ≤ cycle.length ∧
      g.removeUnits policy = .error (.unitCycle cycle) := by
  obtain ⟨cycle, hfound⟩ := Rules.exists_unitCycle?_iff.2 hcycle
  obtain ⟨hcycle, hlen⟩ := Rules.isCycle_of_unitCycle? hfound
  refine ⟨cycle, hcycle, hlen, ?_⟩
  unfold removeUnits
  rw [hpolicy, hfound]

theorem Grammar.removeUnits_of_not_refuses {g : Grammar} {policy : CyclePolicy}
    (h : ¬ (policy = .refuse ∧ ∃ cycle, IsCycle g.rules.UnitStep cycle ∧ 2 ≤ cycle.length)) :
    g.removeUnits policy = .ok g.splice := by
  unfold removeUnits
  split
  · next cycle hfound => exact absurd ⟨rfl, cycle, Rules.isCycle_of_unitCycle? hfound⟩ h
  · rfl

/-- The ways in which the run of a grammar without faults can end. -/
inductive RunOutcome (settings : Settings) (g : Grammar) :
    Except (List (Located NormalizationError)) Workbench → Prop where
  /-- No name is left for the start symbol. -/
  | startSymbol : (g.pool settings.scheme).free.length < g.startDemand →
      RunOutcome settings g (.error [⟨.startSymbol, .namesExhausted settings.scheme.capacity⟩])
  /-- The unit alternatives form a cycle, and cycles are refused. -/
  | unitProductions {cycle : List String} :
      g.startDemand ≤ (g.pool settings.scheme).free.length → settings.Refuses g →
      IsCycle (g.started settings.scheme).removeNull.rules.UnitStep cycle → 2 ≤ cycle.length →
      RunOutcome settings g (.error [⟨.unitProductions, .unitCycle cycle⟩])
  /-- The names do not suffice for the terminals. -/
  | terminals : g.startDemand ≤ (g.pool settings.scheme).free.length → ¬ settings.Refuses g →
      (g.pool settings.scheme).free.length
        < g.startDemand + (g.stripped settings.scheme).terminalDemand →
      RunOutcome settings g (.error [⟨.terminals, .namesExhausted settings.scheme.capacity⟩])
  /-- The names do not suffice for the ends of the long alternatives. -/
  | binarization : ¬ settings.Refuses g →
      g.startDemand + (g.stripped settings.scheme).terminalDemand
        ≤ (g.pool settings.scheme).free.length →
      (g.pool settings.scheme).free.length < g.startDemand
        + (g.stripped settings.scheme).terminalDemand + (g.stripped settings.scheme).pairDemand →
      RunOutcome settings g (.error [⟨.binarization, .namesExhausted settings.scheme.capacity⟩])
  /-- All phases are through. -/
  | normal : ¬ settings.Refuses g →
      g.startDemand + (g.stripped settings.scheme).terminalDemand
        + (g.stripped settings.scheme).pairDemand ≤ (g.pool settings.scheme).free.length →
      RunOutcome settings g (.ok ⟨g.normal settings.scheme, (g.pool settings.scheme).drawn
        (g.startDemand + (g.stripped settings.scheme).terminalDemand
          + (g.stripped settings.scheme).pairDemand)⟩)

/-- A run ends in one of these ways, according to the number of free names and the
unit alternatives. -/
theorem runOutcome_normalize (settings : Settings) {g : Grammar} (h : g.WellFormed) :
    RunOutcome settings g (normalize settings g) := by
  have hg := Grammar.wellFormed_iff.1 h
  have hfaults : g.malformations = [] := h
  have hpool : NamePool.ofReserved settings.scheme g.declared = g.pool settings.scheme := rfl
  have hstarted : g.withStartIsolated (g.pool settings.scheme) = g.started settings.scheme := rfl
  have hstripped : (g.started settings.scheme).removeNull.splice.prune
    = g.stripped settings.scheme := rfl
  have hisolated : (g.stripped settings.scheme).terminalsIsolated
    ((g.pool settings.scheme).drawn g.startDemand) = g.isolated settings.scheme := rfl
  -- what is left of the names before each of the last two phases
  have hfree : ∀ count, ((g.pool settings.scheme).drawn count).free.length
      = (g.pool settings.scheme).free.length - count := by
    intro count
    rw [NamePool.free_drawn, List.length_drop]
  rw [normalize, if_pos hfaults, hpool]
  rcases Nat.lt_or_ge (g.pool settings.scheme).free.length g.startDemand with hlt | hstart
  · rw [Grammar.isolateStart_eq_error hlt]
    exact .startSymbol hlt
  -- the start symbol has its name, and the next to fail are the unit alternatives
  rw [Grammar.isolateStart_eq_ok hstart, hstarted]
  by_cases hrefuses : settings.Refuses g
  · obtain ⟨cycle, hcycle, hlen, herror⟩ :=
      Grammar.removeUnits_of_refuses hrefuses.1 hrefuses.2
    simp only [Grammar.reduced, herror]
    exact .unitProductions hstart hrefuses hcycle hlen
  simp only [Grammar.reduced, Grammar.removeUnits_of_not_refuses hrefuses, Except.map, hstripped]
  -- the grammar is pruned, and names are drawn for its terminals
  rcases Nat.lt_or_ge (g.pool settings.scheme).free.length
      (g.startDemand + (g.stripped settings.scheme).terminalDemand) with hlt | hterminals
  · have hlt' := hfree g.startDemand ▸ Nat.sub_lt_left_of_lt_add hstart hlt
    simp only [Grammar.isolateTerminals_eq_error hlt']
    exact .terminals hstart hrefuses hlt
  -- what the last phase takes was known before the terminals were isolated
  have hreserves := Grammar.reserves_isolated hg hterminals
  have hdemand := Grammar.pairDemand_isolated hg hterminals
  simp only [Grammar.isolateTerminals_eq_ok (Grammar.terminalDemand_le hterminals), hisolated,
    NamePool.drawn_drawn]
  have hleft := hfree (g.startDemand + (g.stripped settings.scheme).terminalDemand)
  rcases Nat.lt_or_ge (g.pool settings.scheme).free.length
      (g.startDemand + (g.stripped settings.scheme).terminalDemand
        + (g.stripped settings.scheme).pairDemand) with hlt | hpairs
  · have hlt' : ((g.pool settings.scheme).drawn (g.startDemand
        + (g.stripped settings.scheme).terminalDemand)).free.length
          < (g.isolated settings.scheme).pairDemand := by omega
    simp only [Grammar.binarize_eq_error hreserves hlt']
    exact .binarization hrefuses hterminals hlt
  · have hle : (g.isolated settings.scheme).pairDemand ≤ ((g.pool settings.scheme).drawn
        (g.startDemand + (g.stripped settings.scheme).terminalDemand)).free.length := by omega
    simp only [Grammar.binarize_eq_ok hreserves hle, NamePool.drawn_drawn, hdemand]
    exact .normal hrefuses hpairs

/-- A run without failure has the names for all that it demands, and ends with the
last grammar and what is left of the pool. -/
theorem normalize_eq_ok {settings : Settings} {g : Grammar} {result : Workbench}
    (h : normalize settings g = .ok result) :
    g.SelfContained ∧
      g.startDemand + (g.stripped settings.scheme).terminalDemand
        + (g.stripped settings.scheme).pairDemand ≤ (g.pool settings.scheme).free.length ∧
      result = ⟨g.normal settings.scheme, (g.pool settings.scheme).drawn
        (g.startDemand + (g.stripped settings.scheme).terminalDemand
          + (g.stripped settings.scheme).pairDemand)⟩ := by
  by_cases hfaults : g.malformations = []
  · have houtcome := runOutcome_normalize settings hfaults
    generalize normalize settings g = answer at h houtcome
    cases houtcome with
    | normal _ hle => exact ⟨Grammar.wellFormed_iff.1 hfaults, hle, (Except.ok.inj h).symm⟩
    | _ => cases h
  · rw [normalize, if_neg hfaults] at h
    cases h

end Chomsky
