import Chomsky.Normal.IsolatedTerminals
import Chomsky.Proofs.Normal.Naming

/-!
# Terminals on their own

Isolating terminals replaces every terminal of a longer alternative by a name of
its own, so the replaced alternative stands for the one it replaces symbol by
symbol. One name is drawn for each distinct terminal that has to go.

## What this module delivers

- `Grammar.isolateTerminals_eq_ok`, `Grammar.isolateTerminals_eq_error`: the
  outcome, from the number of free names.
- `Grammar.derives_terminalsIsolated_iff`: the derived words.
- `SelfContained.terminalsIsolated` and `Grammar.mem_alternatives_terminalsIsolated`.
-/

set_option autoImplicit false

namespace Chomsky

theorem Phrase.mem_terminals {p : Phrase} {name : String} :
    name ∈ p.terminals ↔ .terminal name ∈ p := by
  rw [Phrase.terminals, List.mem_filterMap]
  constructor
  · rintro ⟨s, hs, heq⟩
    cases s with
    | nonterminal n => exact absurd heq (by simp [Symbol.terminal?])
    | terminal t =>
      obtain rfl := Option.some.inj heq
      exact hs
  · exact fun h => ⟨_, h, rfl⟩

theorem Rules.mem_terminalsToIsolate {r : Rules} {name : String} :
    name ∈ r.terminalsToIsolate ↔
      ∃ lhs, ∃ p ∈ r.alternatives lhs, 2 ≤ p.length ∧ .terminal name ∈ p := by
  simp only [Rules.terminalsToIsolate, List.mem_flatMap, List.mem_filter, Rules.mem_phrases_iff,
    decide_eq_true_eq, Phrase.mem_terminals]
  constructor
  · rintro ⟨p, ⟨⟨lhs, hp⟩, hlen⟩, hmem⟩
    exact ⟨lhs, p, hp, hlen, hmem⟩
  · rintro ⟨lhs, p, hp, hlen, hmem⟩
    exact ⟨p, ⟨⟨lhs, hp⟩, hlen⟩, hmem⟩

/-! ## Symbols and phrases -/

section Table

variable {table : NameTable String} {s : Symbol} {p : Phrase}

/-- The symbol that takes the place of another; a terminal without a name stays. -/
def Symbol.isolated (table : NameTable String) (s : Symbol) : Symbol := (s.isolate? table).getD s

theorem Symbol.isolate?_eq_some (h : (s.isolate? table).isSome = true) :
    s.isolate? table = some (s.isolated table) := by
  obtain ⟨s', hs'⟩ := Option.isSome_iff_exists.1 h
  rw [Symbol.isolated, hs', Option.getD_some]

@[simp] theorem Symbol.isolated_nonterminal (table : NameTable String) (name : String) :
    Symbol.isolated table (.nonterminal name) = .nonterminal name := rfl

theorem Symbol.isolated_terminal {t name : String} (h : table.find? t = some name) :
    Symbol.isolated table (.terminal t) = .nonterminal name := by
  rw [Symbol.isolated, Symbol.isolate?, h]
  rfl

/-- The alternative that takes the place of another. -/
def Phrase.isolated (table : NameTable String) (p : Phrase) : Phrase :=
  if 2 ≤ p.length then p.map (Symbol.isolated table) else p

/-- All terminals of the phrase have a name. -/
def Phrase.Named (table : NameTable String) (p : Phrase) : Prop :=
  ∀ t, .terminal t ∈ p → (table.find? t).isSome = true

theorem Phrase.Named.isSome (h : p.Named table) (hs : s ∈ p) :
    (s.isolate? table).isSome = true := by
  cases s with
  | nonterminal name => rfl
  | terminal t =>
    rw [Symbol.isolate?, Option.isSome_map]
    exact h t hs

theorem Phrase.mapM_isolate?_eq (h : p.Named table) :
    p.mapM (Symbol.isolate? table) = some (p.map (Symbol.isolated table)) := by
  rw [mapM_eq_some fun s hs => h.isSome hs,
    List.filterMap_congr fun s hs => Symbol.isolate?_eq_some (h.isSome hs), List.filterMap_eq_map']

theorem Phrase.mapM_isolate?_eq_none {t : String} (ht : .terminal t ∈ p)
    (h : table.find? t = none) : p.mapM (Symbol.isolate? table) = none := by
  apply mapM_eq_none ht
  rw [Symbol.isolate?, h]
  rfl

theorem Phrase.isolate?_eq (h : 2 ≤ p.length → p.Named table) :
    p.isolate? table = some (p.isolated table) := by
  by_cases hlen : 2 ≤ p.length
  · rw [Phrase.isolate?, if_pos hlen, Phrase.mapM_isolate?_eq (h hlen), Phrase.isolated,
      if_pos hlen]
  · rw [Phrase.isolate?, if_neg hlen, Phrase.isolated, if_neg hlen]

theorem Phrase.isolated_of_le (h : 2 ≤ p.length) :
    p.isolated table = p.map (Symbol.isolated table) := if_pos h

theorem Phrase.isolated_of_lt (h : p.length < 2) : p.isolated table = p :=
  if_neg (Nat.not_le.2 h)

/-- A longer phrase whose terminals all have names consists of nonterminals, once it is
isolated. -/
theorem Phrase.Named.exists_eq_nonterminal (h : p.Named table) (hlen : 2 ≤ p.length)
    (hs : s ∈ p.isolated table) : ∃ name, s = .nonterminal name := by
  rw [Phrase.isolated_of_le hlen] at hs
  obtain ⟨x, hx, rfl⟩ := List.mem_map.1 hs
  cases x with
  | nonterminal name => exact ⟨name, rfl⟩
  | terminal t =>
    obtain ⟨name, hname⟩ := Option.isSome_iff_exists.1 (h t hx)
    exact ⟨name, Symbol.isolated_terminal hname⟩

theorem Phrase.length_isolated (table : NameTable String) (p : Phrase) :
    (p.isolated table).length = p.length := by
  unfold Phrase.isolated
  split
  · exact List.length_map _
  · rfl

end Table

namespace Grammar

variable {g : Grammar} {pool : NamePool} {lhs name : String} {p q : Phrase}

/-! ## Outcome -/

/-- The number of names that isolating the terminals takes, one for each distinct
terminal of the longer alternatives. -/
def terminalDemand (g : Grammar) : Nat := (distinct g.rules.terminalsToIsolate).length

theorem terminalTable_eq (r : Rules) (pool : NamePool) :
    r.terminalTable pool = NameTable.assigned pool (distinct r.terminalsToIsolate) :=
  NameTable.learnAll_ofPool pool _

/-- The grammar with its terminals isolated, by the names of a pool. -/
def terminalsIsolated (g : Grammar) (pool : NamePool) : Grammar :=
  g.withNamed (g.rules.replaced (Phrase.isolate? (g.rules.terminalTable pool)))
    (g.rules.terminalTable pool) fun name => [.terminal name]

/-- All terminals that have to go are named exactly if there are enough free names. -/
theorem forall_isSome_terminalTable_iff :
    (∀ t ∈ g.rules.terminalsToIsolate, ((g.rules.terminalTable pool).find? t).isSome = true) ↔
      g.terminalDemand ≤ pool.free.length := by
  rw [terminalTable_eq, terminalDemand, ← NameTable.forall_isSome_find?_iff (nodup_distinct _)]
  simp only [mem_distinct]

theorem named_of_mem (h : g.terminalDemand ≤ pool.free.length) (hp : p ∈ g.rules.alternatives lhs)
    (hlen : 2 ≤ p.length) : p.Named (g.rules.terminalTable pool) := fun t ht =>
  forall_isSome_terminalTable_iff.2 h t (Rules.mem_terminalsToIsolate.2 ⟨lhs, p, hp, hlen, ht⟩)

theorem isolate?_eq_of_mem (h : g.terminalDemand ≤ pool.free.length)
    (hp : p ∈ g.rules.alternatives lhs) :
    p.isolate? (g.rules.terminalTable pool) = some (p.isolated (g.rules.terminalTable pool)) :=
  Phrase.isolate?_eq (named_of_mem h hp)

theorem pool_terminalTable (g : Grammar) (pool : NamePool) :
    (g.rules.terminalTable pool).pool = pool.drawn g.terminalDemand := by
  rw [terminalTable_eq]
  rfl

theorem isolateTerminals_eq_ok (h : g.terminalDemand ≤ pool.free.length) :
    g.isolateTerminals pool = (.ok (g.terminalsIsolated pool), pool.drawn g.terminalDemand) := by
  have hreplace : g.rules.replace? (Phrase.isolate? (g.rules.terminalTable pool))
      = some (g.rules.replaced (Phrase.isolate? (g.rules.terminalTable pool))) :=
    Rules.replace?_eq_some fun lhs p hp => by rw [isolate?_eq_of_mem h hp]; rfl
  rw [isolateTerminals, hreplace, ← pool_terminalTable]
  rfl

theorem isolateTerminals_eq_error (h : pool.free.length < g.terminalDemand) :
    g.isolateTerminals pool =
      (.error (.namesExhausted pool.scheme.capacity), pool.drawn g.terminalDemand) := by
  obtain ⟨t, ht, hnone⟩ := NameTable.exists_find?_eq_none (nodup_distinct _) h
  rw [← terminalTable_eq] at hnone
  obtain ⟨lhs, p, hp, hlen, hmem⟩ := Rules.mem_terminalsToIsolate.1 (mem_distinct.1 ht)
  -- the alternative in which it occurs cannot be replaced
  have hreplace : g.rules.replace? (Phrase.isolate? (g.rules.terminalTable pool)) = none := by
    refine Rules.replace?_eq_none hp ?_
    rw [Phrase.isolate?, if_pos hlen, Phrase.mapM_isolate?_eq_none hmem hnone]
    rfl
  rw [isolateTerminals, hreplace, ← pool_terminalTable]

/-! ## The grammar afterwards -/

theorem newTo_terminalTable (hpool : pool.Guards g) : (g.rules.terminalTable pool).NewTo g := by
  rw [terminalTable_eq]
  exact hpool.newTo_assigned _

theorem names_terminalTable (g : Grammar) (pool : NamePool) :
    (g.rules.terminalTable pool).names = pool.free.take g.terminalDemand := by
  rw [terminalTable_eq, NameTable.names_assigned, terminalDemand]

theorem notMem_names_terminalTable (hpool : pool.Reserves g) (hlhs : lhs ∈ g.rules.keys) :
    lhs ∉ (g.rules.terminalTable pool).names := by
  rw [names_terminalTable]
  intro hname
  exact hpool.notMem_keys (List.mem_of_mem_take hname) hlhs

theorem mem_keys_terminalsIsolated (g : Grammar) (pool : NamePool) (lhs : String) :
    lhs ∈ (g.terminalsIsolated pool).rules.keys ↔
      lhs ∈ g.rules.keys ∨ lhs ∈ pool.free.take g.terminalDemand := by
  rw [terminalsIsolated, mem_keys_withNamed, Rules.keys_replaced, names_terminalTable]

theorem guards_terminalsIsolated (hpool : pool.Guards g) :
    (pool.drawn g.terminalDemand).Guards (g.terminalsIsolated pool) :=
  hpool.withNamed (names_terminalTable g pool) _ _

theorem find?_terminalTable_iff {t : String} :
    (g.rules.terminalTable pool).find? t = some name ↔
      (t, name) ∈ (g.rules.terminalTable pool).entries := by
  rw [terminalTable_eq]
  exact NameTable.find?_assigned_iff (nodup_distinct _)

/-- Where there are enough names, the new alternatives of an old name are its
isolated alternatives, and a new name has its terminal. -/
theorem mem_alternatives_terminalsIsolated (hpool : pool.Reserves g)
    (h : g.terminalDemand ≤ pool.free.length) :
    q ∈ (g.terminalsIsolated pool).rules.alternatives lhs ↔
      (∃ p ∈ g.rules.alternatives lhs, q = p.isolated (g.rules.terminalTable pool)) ∨
        ∃ t, (t, lhs) ∈ (g.rules.terminalTable pool).entries ∧ q = [.terminal t] := by
  rw [terminalsIsolated, mem_alternatives_withNamed (newTo_terminalTable hpool.guards).nodup]
  apply or_congr_left
  rw [Rules.mem_replaced_iff]
  constructor
  · rintro ⟨-, p, hp, heq⟩
    rw [isolate?_eq_of_mem h hp] at heq
    exact ⟨p, hp, (Option.some.inj heq).symm⟩
  · rintro ⟨p, hp, rfl⟩
    exact ⟨notMem_names_terminalTable hpool (Rules.mem_keys_of_mem_alternatives hp), p, hp,
      isolate?_eq_of_mem h hp⟩

/-- A symbol of an isolated alternative is a symbol of the alternative or the name
of one of its terminals. -/
theorem exists_of_mem_isolated {table : NameTable String} {s : Symbol} (hs : s ∈ p.isolated table) :
    s ∈ p ∨ ∃ t name, .terminal t ∈ p ∧ table.find? t = some name ∧ s = .nonterminal name := by
  unfold Phrase.isolated at hs
  split at hs
  · obtain ⟨x, hx, rfl⟩ := List.mem_map.1 hs
    cases x with
    | nonterminal n => exact Or.inl hx
    | terminal t =>
      cases hfind : table.find? t with
      | none =>
        left
        rwa [Symbol.isolated, Symbol.isolate?, hfind]
      | some name => exact Or.inr ⟨t, name, hx, hfind, Symbol.isolated_terminal hfind⟩
  · exact Or.inl hs

theorem mem_isolated_of_nonterminal {table : NameTable String} (h : .nonterminal name ∈ p) :
    .nonterminal name ∈ p.isolated table := by
  unfold Phrase.isolated
  split
  · exact List.mem_map.2 ⟨_, h, rfl⟩
  · exact h

theorem SelfContained.terminalsIsolated (hg : g.SelfContained) (hpool : pool.Guards g)
    (h : g.terminalDemand ≤ pool.free.length) : (g.terminalsIsolated pool).SelfContained := by
  refine hg.withNamed (newTo_terminalTable hpool) ?_ ?_
  · intro lhs p hp q heq s hs
    rw [isolate?_eq_of_mem h hp] at heq
    obtain rfl := Option.some.inj heq
    rcases exists_of_mem_isolated hs with hs | ⟨t, name, -, hfind, rfl⟩
    · exact Or.inl (hg.declares lhs p hp s hs)
    · exact Or.inr ⟨name, NameTable.mem_names.2 ⟨t, find?_terminalTable_iff.1 hfind⟩, rfl⟩
  · rintro ⟨t, name⟩ hmem s hs
    rw [List.mem_singleton] at hs
    subst hs
    rw [terminalTable_eq] at hmem
    have hkey : t ∈ g.rules.terminalsToIsolate := mem_distinct.1 (List.of_mem_zip hmem).1
    obtain ⟨lhs, p, hp, -, hterminal⟩ := Rules.mem_terminalsToIsolate.1 hkey
    exact Or.inl (hg.declares lhs p hp _ hterminal)

/-! ## Derived words -/

/-- The terminal that a new name stands for. -/
abbrev standsForTerminal (r : Rules) (pool : NamePool) : Symbol → Phrase → Prop :=
  (r.terminalTable pool).Stands fun t => [.terminal t]

theorem unfolds_isolated (hp : p.Avoids pool) :
    Unfolds (standsForTerminal g.rules pool) (p.isolated (g.rules.terminalTable pool)) p := by
  have hself : ∀ s ∈ p, standsForTerminal g.rules pool s [s] := by
    intro s hs
    rw [standsForTerminal, terminalTable_eq]
    exact .of_avoids hp hs
  -- symbol by symbol, with or without a name
  have hsymbol : ∀ s ∈ p, standsForTerminal g.rules pool
      (s.isolated (g.rules.terminalTable pool)) [s] := by
    intro s hs
    cases s with
    | nonterminal n => exact hself _ hs
    | terminal t =>
      cases hfind : (g.rules.terminalTable pool).find? t with
      | none =>
        rw [Symbol.isolated, Symbol.isolate?, hfind]
        exact hself _ hs
      | some name =>
        rw [Symbol.isolated_terminal hfind]
        exact .of_entry (NameTable.mem_of_lookup_eq_some hfind)
  unfold Phrase.isolated
  split
  · exact .map hsymbol
  · exact .refl hself

/-- An isolated alternative derives what the alternative derives. -/
theorem yields_isolated (hpool : pool.Guards g) {u : List String}
    (h : Yields (g.terminalsIsolated pool).rules p u) :
    Yields (g.terminalsIsolated pool).rules (p.isolated (g.rules.terminalTable pool)) u := by
  unfold Phrase.isolated
  split
  · apply h.map
    intro s _ v hv
    cases s with
    | nonterminal n => exact hv
    | terminal t =>
      cases hfind : (g.rules.terminalTable pool).find? t with
      | none => rwa [Symbol.isolated, Symbol.isolate?, hfind]
      | some name =>
        -- the new name has the terminal as its alternative
        rw [Symbol.isolated_terminal hfind, yields_nonterminal_iff]
        refine ⟨[.terminal t], ?_, hv⟩
        rw [terminalsIsolated, alternatives_withNamed_of_mem (newTo_terminalTable hpool).nodup
          (find?_terminalTable_iff.1 hfind)]
        exact List.mem_singleton_self _
  · exact h

/-- Isolating terminals keeps the words of every name that was there before. -/
theorem derives_terminalsIsolated_iff (hg : g.SelfContained) (hpool : pool.Guards g)
    (h : g.terminalDemand ≤ pool.free.length) (hlhs : lhs ∈ g.nonterminals) {w : List String} :
    (g.terminalsIsolated pool).rules.Derives lhs w ↔ g.rules.Derives lhs w := by
  have hnew := newTo_terminalTable hpool
  have hold : ∀ name ∈ g.nonterminals, name ∉ (g.rules.terminalTable pool).names :=
    fun name hname hmem => hnew.notMem_nonterminals name hmem hname
  refine derives_withNamed_iff (fun t => [.terminal t]) hnew.nodup rfl ?_ ?_ ?_
    (fun lhs hkey => hold lhs (hg.lhs_mem lhs hkey)) (hold lhs hlhs)
  · intro t name hmem t' hmem'
    -- a new name has one terminal only
    have hpair := List.inj_on_of_nodup_map hnew.nodup hmem hmem' rfl
    rw [(Prod.mk.inj hpair).1]
    exact .single (NameTable.stands_terminal _ _ _)
  · intro lhs p hp q heq
    rw [isolate?_eq_of_mem h hp] at heq
    obtain rfl := Option.some.inj heq
    exact unfolds_isolated ((hpool.reserves hg).avoids hp)
  · intro lhs p hp
    exact ⟨_, isolate?_eq_of_mem h hp, fun u hu => yields_isolated hpool hu⟩

theorem accepts_terminalsIsolated_iff (hg : g.SelfContained) (hpool : pool.Guards g)
    (h : g.terminalDemand ≤ pool.free.length) {w : List String} :
    (g.terminalsIsolated pool).Accepts w ↔ g.Accepts w := by
  rw [Accepts, Accepts, terminalsIsolated, withNamed_start, withNamed_acceptsEmpty,
    ← terminalsIsolated, derives_terminalsIsolated_iff hg hpool h hg.start_mem]

/-! ## Reachability -/

/-- Isolating terminals strands no nonterminal, and reaches every new one. -/
theorem reaches_terminalsIsolated (hg : g.SelfContained) (hpool : pool.Guards g)
    (h : g.terminalDemand ≤ pool.free.length) (hreach : ∀ name ∈ g.nonterminals, g.Reaches name) :
    ∀ name ∈ (g.terminalsIsolated pool).nonterminals, (g.terminalsIsolated pool).Reaches name := by
  have hisolated : ∀ {lhs : String} {p : Phrase}, p ∈ g.rules.alternatives lhs →
      p.isolated (g.rules.terminalTable pool) ∈ (g.terminalsIsolated pool).rules.alternatives lhs :=
    fun hp => (mem_alternatives_terminalsIsolated (hpool.reserves hg) h).2 (Or.inl ⟨_, hp, rfl⟩)
  have hold : ∀ name ∈ g.nonterminals, (g.terminalsIsolated pool).Reaches name := by
    intro name hname
    refine reaches_withNamed (fun lhs hlhs p hp n hn => ?_) (hreach name hname)
    exact Reaches.step hlhs (hisolated hp) (mem_isolated_of_nonterminal hn)
  intro name hname
  rcases mem_nonterminals_withNamed.1 hname with hname | hname
  · obtain ⟨t, ht⟩ := NameTable.mem_names.1 hname
    have hkey : t ∈ g.rules.terminalsToIsolate := by
      rw [terminalTable_eq] at ht
      exact mem_distinct.1 (List.of_mem_zip ht).1
    -- the name stands where its terminal stood
    obtain ⟨lhs, p, hp, hlen, hmem⟩ := Rules.mem_terminalsToIsolate.1 hkey
    apply (hold lhs (hg.lhs_mem lhs (Rules.mem_keys_of_mem_alternatives hp))).step (hisolated hp)
    rw [Phrase.isolated_of_le hlen]
    exact List.mem_map.2 ⟨_, hmem, Symbol.isolated_terminal (find?_terminalTable_iff.2 ht)⟩
  · exact hold name hname

end Grammar

end Chomsky
