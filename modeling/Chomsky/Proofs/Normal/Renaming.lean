import Chomsky.Grammar.Samples
import Chomsky.Proofs.Grammar.Renaming
import Chomsky.Proofs.Normal.NormalForm

/-!
# The normal form up to names

The order of alternatives decides in which order names are drawn, and the order of the
names drawn decides in which order later names are. What is named by them does not
depend on any of this: a terminal that has to go, or an end of an alternative. So the
nonterminals of two runs are paired by what they stand for, and every phase takes
grammars that match to grammars that match.

## What this module delivers

- `Grammar.SameSets`: grammars that differ in the order of alternatives at most, and in
  how often they are repeated.
- `NameTable.NamedAlike`: the names that two tables give to keys that go together.
- `Grammar.Supplied`: a grammar and the pool that a phase starts with.
- One lemma for each phase, from `Grammar.Matches.withStartIsolated` to
  `Grammar.Matches.binarized`.
- `normalize_unique`: the results of two runs differ in names only.
-/

set_option autoImplicit false

namespace Chomsky

open Relation (ReflTransGen)

variable {fixed : NameSet} {pairs : Pairing} {g h : Grammar} {pool pool' : NamePool}

/-! ## Empty alternatives -/

/-- Nullable occurrences go with nullable occurrences, so they can be left out of both
phrases. -/
theorem Phrase.Removes.exists_paired {nullable nullable' : NameSet} {p p' q : Phrase}
    (h : Phrase.Removes nullable p p')
    (hnullable : ∀ a b, pairs a b → a ∈ nullable → b ∈ nullable')
    (hpaired : Phrase.Paired pairs p q) :
    ∃ q', Phrase.Removes nullable' q q' ∧ Phrase.Paired pairs p' q' := by
  induction h generalizing q with
  | nil =>
    cases hpaired
    exact ⟨[], .nil, .nil⟩
  | keep s _ ih =>
    cases hpaired with
    | cons hhead htail =>
      obtain ⟨q', hremoves, hq'⟩ := ih htail
      exact ⟨_, .keep _ hremoves, .cons hhead hq'⟩
  | drop hs _ ih =>
    obtain ⟨a, ha, rfl⟩ := Symbol.isNullable_iff.1 hs
    cases hpaired with
    | cons hhead htail =>
      obtain ⟨q', hremoves, hq'⟩ := ih htail
      cases hhead with
      | nonterminal hab =>
        have hdropped := Symbol.isNullable_iff.2 ⟨_, hnullable _ _ hab ha, rfl⟩
        exact ⟨q', .drop hdropped hremoves, hq'⟩

namespace Grammar

namespace Covers

theorem removeNull (hc : Covers fixed pairs g h) : Covers fixed pairs g.removeNull h.removeNull where
  names := hc.names
  fixes := hc.fixes
  start := hc.start
  terminals_eq := hc.terminals_eq
  acceptsEmpty hempty := by
    rw [acceptsEmpty_removeNull_iff] at hempty ⊢
    exact hempty.imp hc.acceptsEmpty (hc.derives hc.start)
  keys hab ha := by
    rw [keys_removeNull] at ha ⊢
    exact hc.keys hab ha
  alternatives hab p' hp' := by
    have hnullable : ∀ a b, pairs a b → a ∈ g.rules.nullable → b ∈ h.rules.nullable := by
      intro a b hab ha
      rw [Rules.mem_nullable_iff] at ha ⊢
      exact hc.derives hab ha
    obtain ⟨hne, p, hp, hremoves⟩ := mem_alternatives_removeNull.1 hp'
    obtain ⟨q, hq, hpaired⟩ := hc.alternatives hab p hp
    obtain ⟨q', hremoves', hpaired'⟩ := hremoves.exists_paired hnullable hpaired
    refine ⟨q', mem_alternatives_removeNull.2 ⟨?_, q, hq, hremoves'⟩, hpaired'⟩
    rintro rfl
    cases hpaired'
    exact hne rfl

/-! ## Unit alternatives -/

/-- A way by unit alternatives goes with such a way. -/
theorem exists_reflTransGen (hc : Covers fixed pairs g h) {a b source : String} (hab : pairs a b)
    (hreach : ReflTransGen g.rules.UnitStep a source) :
    ∃ source', pairs source source' ∧ ReflTransGen h.rules.UnitStep b source' := by
  induction hreach with
  | refl => exact ⟨b, hab, .refl⟩
  | tail _ hstep ih =>
    obtain ⟨via, hvia, hreach'⟩ := ih
    obtain ⟨q, hq, hpaired⟩ := hc.alternatives hvia _ hstep
    -- what is paired with a unit alternative is one
    cases hpaired with
    | cons hhead htail =>
      cases htail
      cases hhead with
      | nonterminal hsource => exact ⟨_, hsource, hreach'.tail hq⟩

theorem splice (hc : Covers fixed pairs g h) : Covers fixed pairs g.splice h.splice where
  names := hc.names
  fixes := hc.fixes
  start := hc.start
  terminals_eq := hc.terminals_eq
  acceptsEmpty := hc.acceptsEmpty
  keys hab ha := by
    rw [keys_splice] at ha ⊢
    exact hc.keys hab ha
  alternatives hab p hp := by
    obtain ⟨hnone, source, hreach, hmem⟩ := mem_alternatives_splice.1 hp
    obtain ⟨source', hsource, hreach'⟩ := hc.exists_reflTransGen hab hreach
    obtain ⟨q, hq, hpaired⟩ := hc.alternatives hsource p hmem
    refine ⟨q, mem_alternatives_splice.2 ⟨?_, source', hreach', hq⟩, hpaired⟩
    cases htarget : q.unitTarget? with
    | none => rfl
    | some target =>
      obtain rfl := Phrase.unitTarget?_eq_some_iff.1 htarget
      cases hpaired with
      | cons hhead htail =>
        cases htail
        cases hhead
        exact absurd hnone (Option.some_ne_none _)

/-! ## Unreachable nonterminals -/

theorem prune (hc : Covers fixed pairs g h) :
    Covers fixed (fun a b => pairs a b ∧ g.Reaches a) g.prune h.prune where
  names := (hc.names.and g.Reaches).congr (fun _ _ => Iff.rfl)
    fun _ => mem_nonterminals_prune.symm
  fixes hab := hc.fixes hab.1
  start := ⟨hc.start, g.reaches_start⟩
  terminals_eq := hc.terminals_eq
  acceptsEmpty := hc.acceptsEmpty
  keys hab ha := by
    rw [mem_keys_prune] at ha ⊢
    exact ⟨hc.keys hab.1 ha.1, hc.reaches hab.1 ha.2⟩
  alternatives hab p hp := by
    obtain ⟨hmem, hreach⟩ := mem_alternatives_prune.1 hp
    obtain ⟨q, hq, hpaired⟩ := hc.alternatives hab.1 p hmem
    refine ⟨q, mem_alternatives_prune.2 ⟨hq, hc.reaches hab.1 hreach⟩, ?_⟩
    -- the nonterminals of an alternative are reached through it
    apply hpaired.imp_of_mem
    intro s hs x _ hsx
    cases hsx with
    | terminal t => exact .terminal t
    | nonterminal hst => exact .nonterminal ⟨hst, hreach.step hmem hs⟩

end Covers

namespace Matches

theorem removeNull (m : Matches fixed pairs g h) : Matches fixed pairs g.removeNull h.removeNull :=
  ⟨m.forth.removeNull, m.back.removeNull⟩

theorem splice (m : Matches fixed pairs g h) : Matches fixed pairs g.splice h.splice :=
  ⟨m.forth.splice, m.back.splice⟩

theorem prune (m : Matches fixed pairs g h) :
    Matches fixed (fun a b => pairs a b ∧ g.Reaches a) g.prune h.prune := by
  refine ⟨m.forth.prune, m.back.prune.congr fun b a => ?_⟩
  exact and_congr_right fun hab => ⟨m.back.reaches hab, m.forth.reaches hab⟩

end Matches

/-! ## The start symbol -/

/-- The grammar holds together, and its pool hands out no name that it declares and no
fixed name. -/
structure Supplied (fixed : NameSet) (g : Grammar) (pool : NamePool) : Prop where
  /-- The grammar holds together. -/
  selfContained : g.SelfContained
  /-- What it declares is in use. -/
  guards : pool.Guards g
  /-- What is fixed is in use. -/
  inUse : ∀ name ∈ fixed, pool.inUse name = true

theorem Supplied.reserves (hg : g.Supplied fixed pool) : pool.Reserves g :=
  hg.guards.reserves hg.selfContained

theorem Supplied.notMem (hg : g.Supplied fixed pool) {name : String} (hfree : name ∈ pool.free) :
    name ∉ g.nonterminals ∧ name ∉ fixed :=
  ⟨(hg.guards.notMem hfree).1, fun hname =>
    NamePool.notMem_free_of_inUse (hg.inUse name hname) hfree⟩

theorem Covers.startOccurs (hc : Covers fixed pairs g h) (hg : g.SelfContained)
    (hoccurs : g.startOccurs = true) : h.startOccurs = true := by
  obtain ⟨lhs, p, hp, hmem⟩ := startOccurs_iff.1 hoccurs
  obtain ⟨lhs', -, q, hq, hpaired⟩ := hc.exists_alternatives hg hp
  obtain ⟨b, hstart, hmem'⟩ := hpaired.exists_nonterminal hmem
  obtain rfl := hc.names.unique hc.start hstart
  exact startOccurs_iff.2 ⟨lhs', q, hq, hmem'⟩

theorem Matches.startDemand_eq (m : Matches fixed pairs g h) (hg : g.SelfContained)
    (hh : h.SelfContained) : g.startDemand = h.startDemand := by
  have hoccurs : g.startOccurs = h.startOccurs := by
    rw [Bool.eq_iff_iff]
    exact ⟨m.forth.startOccurs hg, m.back.startOccurs hh⟩
  rw [startDemand, startDemand, hoccurs]

/-- The new start symbols go together. -/
theorem Covers.behind (hc : Covers fixed pairs g h) (hh : h.SelfContained) {new new' : String}
    (hnew : new ∉ g.nonterminals ∧ new ∉ fixed) (hnew' : new' ∉ h.nonterminals) :
    Covers fixed (fun a b => pairs a b ∨ (a = new ∧ b = new')) (g.behind new) (h.behind new') where
  names := by
    have hsingle : Pairing.FunctionOn (fun a b => a = new ∧ b = new') (· = new) :=
      ⟨fun hab => hab.1, fun ha => ⟨new', ha, rfl⟩, fun hab hab' => hab.2.trans hab'.2.symm⟩
    apply (hc.names.or hsingle fun a ha heq => hnew.1 (heq ▸ ha)).congr (fun _ _ => Iff.rfl)
    intro a
    rw [mem_nonterminals_behind, or_comm]
  fixes hab ha := by
    rcases hab with hab | ⟨rfl, -⟩
    · exact hc.fixes hab ha
    · exact absurd ha hnew.2
  start := Or.inr ⟨rfl, rfl⟩
  terminals_eq := hc.terminals_eq
  acceptsEmpty := hc.acceptsEmpty
  keys hab ha := by
    rw [mem_keys_behind] at ha ⊢
    rcases hab with hab | ⟨rfl, rfl⟩
    · rcases ha with rfl | ha
      · exact absurd (hc.names.mem hab) hnew.1
      · exact Or.inr (hc.keys hab ha)
    · exact Or.inl rfl
  alternatives := by
    intro a b hab p hp
    rcases hab with hab | ⟨rfl, rfl⟩
    · rcases mem_alternatives_behind.1 hp with ⟨rfl, -⟩ | ⟨-, hp⟩
      · exact absurd (hc.names.mem hab) hnew.1
      · obtain ⟨q, hq, hpaired⟩ := hc.alternatives hab p hp
        refine ⟨q, mem_alternatives_behind.2 (Or.inr ⟨?_, hq⟩), hpaired.mono fun _ _ => Or.inl⟩
        rintro rfl
        exact hnew' (hh.lhs_mem b (Rules.mem_keys_of_mem_alternatives hq))
    · rcases mem_alternatives_behind.1 hp with ⟨-, rfl⟩ | ⟨hne, -⟩
      · -- the one alternative of a new start symbol is the old one
        refine ⟨[.nonterminal h.start], mem_alternatives_behind.2 (Or.inl ⟨rfl, rfl⟩), ?_⟩
        exact .cons (.nonterminal (Or.inl hc.start)) .nil
      · exact absurd rfl hne

theorem Matches.withStartIsolated (m : Matches fixed pairs g h) (hg : g.Supplied fixed pool)
    (hh : h.Supplied fixed pool') (hle : g.startDemand ≤ pool.free.length)
    (hle' : h.startDemand ≤ pool'.free.length) :
    ∃ pairs', Matches fixed pairs' (g.withStartIsolated pool) (h.withStartIsolated pool') := by
  have hdemand := m.startDemand_eq hg.selfContained hh.selfContained
  rcases withStartIsolated_cases hle with ⟨-, hzero, heq⟩ | ⟨new, rest, hfree, hone, heq⟩
  · rcases withStartIsolated_cases hle' with ⟨-, -, heq'⟩ | ⟨-, -, -, hone', -⟩
    · rw [heq, heq']
      exact ⟨pairs, m⟩
    · omega
  · rcases withStartIsolated_cases hle' with ⟨-, hzero', -⟩ | ⟨new', rest', hfree', -, heq'⟩
    · omega
    · have hnew := hg.notMem (hfree ▸ List.mem_cons_self)
      have hnew' := hh.notMem (hfree' ▸ List.mem_cons_self)
      rw [heq, heq']
      refine ⟨_, m.forth.behind hh.selfContained hnew hnew'.1, ?_⟩
      exact (m.back.behind hg.selfContained hnew' hnew.1).congr fun b a =>
        or_congr_right and_comm

end Grammar

/-! ## Names for keys -/

/-- The names that two tables give to keys that go together. -/
def NameTable.NamedAlike {κ : Type} (related : κ → κ → Prop) (t u : NameTable κ) : Pairing :=
  fun a b => ∃ k l, related k l ∧ (k, a) ∈ t.entries ∧ (l, b) ∈ u.entries

namespace NameTable

variable {κ : Type} {related related' : κ → κ → Prop} {t u : NameTable κ}

theorem namedAlike_flip (hrelated : ∀ k l, related k l ↔ related' l k) {a b : String} :
    NamedAlike related t u a b ↔ NamedAlike related' u t b a := by
  constructor
  · rintro ⟨k, l, hkl, hk, hl⟩
    exact ⟨l, k, (hrelated k l).1 hkl, hl, hk⟩
  · rintro ⟨l, k, hlk, hl, hk⟩
    exact ⟨k, l, (hrelated k l).2 hlk, hk, hl⟩

/-- Tables that name each key once pair all names of the first, if each of its keys goes
with one key of the second. -/
theorem functionOn_namedAlike (hnodup : t.names.Nodup)
    (hunique : ∀ k l l', related k l → related k l' → l = l')
    (honce : ∀ k name name', (k, name) ∈ u.entries → (k, name') ∈ u.entries → name = name')
    (htotal : ∀ k name, (k, name) ∈ t.entries → ∃ l other, related k l ∧ (l, other) ∈ u.entries) :
    (NamedAlike related t u).FunctionOn (· ∈ t.names) where
  mem := by
    rintro a b ⟨k, -, -, hk, -⟩
    exact mem_names.2 ⟨k, hk⟩
  exists_pair := by
    intro a ha
    obtain ⟨k, hk⟩ := mem_names.1 ha
    obtain ⟨l, b, hkl, hl⟩ := htotal k a hk
    exact ⟨b, k, l, hkl, hk, hl⟩
  unique := by
    rintro a b b' ⟨k, l, hkl, hk, hl⟩ ⟨k', l', hkl', hk', hl'⟩
    -- the name is that of one key, which goes with one key
    obtain rfl : k = k' := congrArg Prod.fst (List.inj_on_of_nodup_map hnodup hk hk' rfl)
    obtain rfl := hunique k l l' hkl hkl'
    exact honce l b b' hl hl'

end NameTable

namespace Grammar

/-- Grammars with named parts match at the new names as well, if their alternatives do. -/
theorem Covers.withNamed {κ κ' : Type} {t : NameTable κ} {u : NameTable κ'} {new : Pairing}
    {f f' : Phrase → Option Phrase} {alternative : κ → Phrase} {alternative' : κ' → Phrase}
    (hc : Covers fixed pairs g h) (hnew : new.FunctionOn (· ∈ t.names))
    (hnew' : ∀ a b, new a b → b ∈ u.names)
    (hout : ∀ name ∈ t.names, name ∉ g.nonterminals ∧ name ∉ fixed)
    (halternatives : ∀ a b, pairs a b ∨ new a b →
      ∀ p ∈ (g.withNamed (g.rules.replaced f) t alternative).rules.alternatives a,
        ∃ q ∈ (h.withNamed (h.rules.replaced f') u alternative').rules.alternatives b,
          Phrase.Paired (fun a b => pairs a b ∨ new a b) p q) :
    Covers fixed (fun a b => pairs a b ∨ new a b)
      (g.withNamed (g.rules.replaced f) t alternative)
      (h.withNamed (h.rules.replaced f') u alternative') where
  names := by
    apply (hc.names.or hnew fun a ha hmem => (hout a hmem).1 ha).congr (fun _ _ => Iff.rfl)
    intro a
    rw [mem_nonterminals_withNamed, or_comm]
  fixes hab ha := by
    rcases hab with hab | hab
    · exact hc.fixes hab ha
    · exact absurd ha (hout _ (hnew.mem hab)).2
  start := Or.inl hc.start
  terminals_eq := hc.terminals_eq
  acceptsEmpty := hc.acceptsEmpty
  keys hab ha := by
    rw [mem_keys_withNamed, Rules.keys_replaced] at ha ⊢
    rcases hab with hab | hab
    · rcases ha with ha | ha
      · exact Or.inl (hc.keys hab ha)
      · exact absurd (hc.names.mem hab) (hout _ ha).1
    · exact Or.inr (hnew' _ _ hab)
  alternatives {a b} hab := halternatives a b hab

/-! ## Terminals -/

section Terminals

variable (hg : g.Supplied fixed pool) (hh : h.Supplied fixed pool')
  (hle : g.terminalDemand ≤ pool.free.length) (hle' : h.terminalDemand ≤ pool'.free.length)

/-- The pairs after the isolation of terminals: names for the same terminal go
together. -/
abbrev terminalPairs (pairs : Pairing) (g h : Grammar) (pool pool' : NamePool) : Pairing :=
  fun a b => pairs a b ∨
    NameTable.NamedAlike Eq (g.rules.terminalTable pool) (h.rules.terminalTable pool') a b

theorem Covers.mem_terminalsToIsolate (hc : Covers fixed pairs g h) (hg : g.SelfContained)
    {t : String} (ht : t ∈ g.rules.terminalsToIsolate) : t ∈ h.rules.terminalsToIsolate := by
  obtain ⟨lhs, p, hp, hlen, hmem⟩ := Rules.mem_terminalsToIsolate.1 ht
  obtain ⟨lhs', -, q, hq, hpaired⟩ := hc.exists_alternatives hg hp
  rw [hpaired.length_eq] at hlen
  exact Rules.mem_terminalsToIsolate.2 ⟨lhs', q, hq, hlen, hpaired.mem_terminal hmem⟩

include hle hle' in
/-- Isolated alternatives are paired as the alternatives were. -/
theorem paired_isolated {lhs lhs' : String} {p q : Phrase} (hp : p ∈ g.rules.alternatives lhs)
    (hq : q ∈ h.rules.alternatives lhs') (hpaired : Phrase.Paired pairs p q) :
    Phrase.Paired (terminalPairs pairs g h pool pool')
      (p.isolated (g.rules.terminalTable pool)) (q.isolated (h.rules.terminalTable pool')) := by
  have hlength := hpaired.length_eq
  rcases Nat.lt_or_ge p.length 2 with hlen | hlen
  · rw [Phrase.isolated_of_lt hlen, Phrase.isolated_of_lt (hlength ▸ hlen)]
    exact hpaired.mono fun _ _ => Or.inl
  · have hlen' : 2 ≤ q.length := hlength ▸ hlen
    rw [Phrase.isolated_of_le hlen, Phrase.isolated_of_le hlen', Phrase.Paired,
      List.forall₂_map_left_iff, List.forall₂_map_right_iff]
    apply hpaired.imp_of_mem
    intro s hs x hx hsx
    cases hsx with
    | nonterminal hab => exact .nonterminal (Or.inl hab)
    | terminal t =>
      -- both tables have a name for the terminal
      obtain ⟨a, ha⟩ := Option.isSome_iff_exists.1 (named_of_mem hle hp hlen t hs)
      obtain ⟨b, hb⟩ := Option.isSome_iff_exists.1 (named_of_mem hle' hq hlen' t hx)
      rw [Symbol.isolated_terminal ha, Symbol.isolated_terminal hb]
      exact .nonterminal
        (Or.inr ⟨t, t, rfl, find?_terminalTable_iff.1 ha, find?_terminalTable_iff.1 hb⟩)

include hg hh hle hle' in
theorem Covers.terminalsIsolated (hc : Covers fixed pairs g h) :
    Covers fixed (terminalPairs pairs g h pool pool')
      (g.terminalsIsolated pool) (h.terminalsIsolated pool') := by
  have hnodup := (newTo_terminalTable hg.guards).nodup
  have hout : ∀ name ∈ (g.rules.terminalTable pool).names,
      name ∉ g.nonterminals ∧ name ∉ fixed := by
    intro name hname
    rw [terminalTable_eq, NameTable.names_assigned] at hname
    exact hg.notMem (List.mem_of_mem_take hname)
  apply hc.withNamed
  case hnew =>
    apply NameTable.functionOn_namedAlike hnodup (fun _ _ _ hkl hkl' => hkl.symm.trans hkl')
    · intro t name name' hname hname'
      rw [← find?_terminalTable_iff] at hname hname'
      exact Option.some.inj (hname.symm.trans hname')
    · -- a terminal that has to go in one grammar has to go in the other
      intro t name hname
      rw [terminalTable_eq] at hname
      have ht : t ∈ g.rules.terminalsToIsolate := mem_distinct.1 (List.of_mem_zip hname).1
      obtain ⟨other, hother⟩ := Option.isSome_iff_exists.1
        (forall_isSome_terminalTable_iff.2 hle' t (hc.mem_terminalsToIsolate hg.selfContained ht))
      exact ⟨t, other, rfl, find?_terminalTable_iff.1 hother⟩
  case hnew' =>
    rintro a b ⟨-, t, -, -, ht⟩
    exact NameTable.mem_names.2 ⟨t, ht⟩
  case hout => exact hout
  case halternatives =>
    intro a b hab p' hp'
    rcases (mem_alternatives_terminalsIsolated hg.reserves hle).1 hp' with
      ⟨p, hp, rfl⟩ | ⟨t, ht, rfl⟩
    · -- an alternative of before, isolated
      rcases hab with hab | ⟨t, -, -, ht, -⟩
      · obtain ⟨q, hq, hpaired⟩ := hc.alternatives hab p hp
        exact ⟨_, (mem_alternatives_terminalsIsolated hh.reserves hle').2
          (Or.inl ⟨q, hq, rfl⟩), paired_isolated hle hle' hp hq hpaired⟩
      · have ha := hg.selfContained.lhs_mem a (Rules.mem_keys_of_mem_alternatives hp)
        exact absurd ha (hout a (NameTable.mem_names.2 ⟨t, ht⟩)).1
    · -- the alternative of a name for a terminal
      rcases hab with hab | ⟨t', _, rfl, ht', hu⟩
      · exact absurd (hc.names.mem hab) (hout a (NameTable.mem_names.2 ⟨t, ht⟩)).1
      · obtain rfl : t = t' := congrArg Prod.fst (List.inj_on_of_nodup_map hnodup ht ht' rfl)
        exact ⟨_, (mem_alternatives_terminalsIsolated hh.reserves hle').2
          (Or.inr ⟨t, hu, rfl⟩), .cons (.terminal t) .nil⟩

include hg hh hle hle' in
theorem Matches.terminalsIsolated (m : Matches fixed pairs g h) :
    Matches fixed (terminalPairs pairs g h pool pool')
      (g.terminalsIsolated pool) (h.terminalsIsolated pool') := by
  refine ⟨m.forth.terminalsIsolated hg hh hle hle', ?_⟩
  exact (m.back.terminalsIsolated hh hg hle' hle).congr fun b a =>
    or_congr_right (NameTable.namedAlike_flip fun _ _ => eq_comm)

end Terminals

/-! ## Ends of alternatives -/

section Pairs

variable (hg : g.Supplied fixed pool) (hh : h.Supplied fixed pool')
  (hle : g.pairDemand ≤ pool.free.length) (hle' : h.pairDemand ≤ pool'.free.length)

/-- The pairs after splitting: names for ends go together if the ends do. -/
abbrev endPairs (pairs : Pairing) (g h : Grammar) (pool pool' : NamePool) : Pairing :=
  fun a b => pairs a b ∨ NameTable.NamedAlike (Phrase.Paired pairs) (g.rules.endTable pool)
    (h.rules.endTable pool') a b

theorem Covers.exists_mem_ends (hc : Covers fixed pairs g h) (hg : g.SelfContained) {k : Phrase}
    (hk : k ∈ g.rules.ends) : ∃ l ∈ h.rules.ends, Phrase.Paired pairs k l := by
  obtain ⟨lhs, p, hp, hsuffix, hlen⟩ := Rules.mem_ends.1 hk
  obtain ⟨lhs', -, q, hq, hpaired⟩ := hc.exists_alternatives hg hp
  have htail : Phrase.Paired pairs p.tail q.tail := by
    cases hpaired with
    | nil => exact .nil
    | cons _ htail => exact htail
  obtain ⟨l, hl, hkl⟩ := htail.exists_suffix hsuffix
  rw [hkl.length_eq] at hlen
  exact ⟨l, Rules.mem_ends.2 ⟨lhs', q, hq, hl, hlen⟩, hkl⟩

/-- The symbols for strings that go together go together. -/
theorem paired_standIn? {first first' s x : Symbol} {rest rest' : Phrase}
    (hhead : Symbol.Paired pairs first first') (hrest : Phrase.Paired pairs rest rest')
    (hs : (g.rules.endTable pool).standIn? (first :: rest) = some s)
    (hx : (h.rules.endTable pool').standIn? (first' :: rest') = some x) :
    Symbol.Paired (endPairs pairs g h pool pool') s x := by
  cases hrest with
  | nil =>
    -- a single symbol stands for itself
    obtain rfl := Option.some.inj hs
    obtain rfl := Option.some.inj hx
    exact hhead.mono fun _ _ => Or.inl
  | cons hsecond hrest =>
    obtain ⟨a, ha, rfl⟩ := Option.map_eq_some_iff.1 hs
    obtain ⟨b, hb, rfl⟩ := Option.map_eq_some_iff.1 hx
    exact .nonterminal (Or.inr ⟨_, _, .cons hhead (.cons hsecond hrest),
      find?_endTable_iff.1 ha, find?_endTable_iff.1 hb⟩)

include hle' in
/-- If a string is folded to a pair, what goes with the string is folded to what goes
with the pair. -/
theorem exists_foldedFrom {pair : Symbol × Symbol} {k l q : Phrase} {lhs : String}
    (hfolded : FoldedFrom (g.rules.endTable pool) pair k) (hkl : Phrase.Paired pairs k l)
    (hq : q ∈ h.rules.alternatives lhs) (hsuffix : l <:+ q) :
    ∃ pair', FoldedFrom (h.rules.endTable pool') pair' l ∧
      Phrase.Paired (endPairs pairs g h pool pool') [pair.1, pair.2] [pair'.1, pair'.2] := by
  obtain ⟨second, rest, rfl, htail⟩ := hfolded
  cases hkl with
  | @cons _ first' _ l hhead hrest =>
    cases hrest with
    | @cons _ second' _ rest' hsecond hrest =>
      -- the string behind the first symbol is an end that has a name
      have hend : second' :: rest' <:+ q.tail := by
        obtain ⟨before, rfl⟩ := hsuffix
        cases before with
        | nil => exact List.suffix_rfl
        | cons s before => exact ⟨before ++ [first'], by simp⟩
      obtain ⟨tail', htail'⟩ := exists_standIn?_of_mem hle' hq hend (List.cons_ne_nil _ _)
      refine ⟨(first', tail'), ⟨second', rest', rfl, htail'⟩, ?_⟩
      exact .cons (hhead.mono fun _ _ => Or.inl)
        (.cons (paired_standIn? hsecond hrest htail htail') .nil)

include hg hh hle' in
theorem Covers.binarized (hc : Covers fixed pairs g h) :
    Covers fixed (endPairs pairs g h pool pool') (g.binarized pool) (h.binarized pool') := by
  have hnames := names_pairTable hg.reserves
  have hnames' := names_pairTable hh.reserves
  have hnodup := (newTo_endTable hg.guards).nodup
  have hunique : ∀ a b b', pairs a b → pairs a b' → b = b' := fun _ _ _ => hc.names.unique
  have hout : ∀ name ∈ (g.rules.endTable pool).names, name ∉ g.nonterminals ∧ name ∉ fixed := by
    intro name hname
    rw [Rules.endTable, NameTable.names_assigned] at hname
    exact hg.notMem (List.mem_of_mem_take hname)
  apply hc.withNamed
  case hnew =>
    rw [hnames]
    apply NameTable.functionOn_namedAlike hnodup fun _ _ _ hkl hkl' => hkl.unique hunique hkl'
    · intro k name name' hname hname'
      rw [← find?_endTable_iff] at hname hname'
      exact Option.some.inj (hname.symm.trans hname')
    · intro k name hname
      obtain ⟨l, hl, hkl⟩ := hc.exists_mem_ends hg.selfContained
        (mem_distinct.1 (List.of_mem_zip hname).1)
      obtain ⟨other, hother⟩ := Option.isSome_iff_exists.1
        (forall_isSome_endTable_iff.2 hle' l hl)
      exact ⟨l, other, hkl, find?_endTable_iff.1 hother⟩
  case hnew' =>
    rintro a b ⟨-, l, -, -, hl⟩
    rw [hnames']
    exact NameTable.mem_names.2 ⟨l, hl⟩
  case hout => rwa [hnames]
  case halternatives =>
    intro a b hab p hp
    rcases hab with hab | ⟨k, l, hkl, hk, hl⟩
    · rcases (mem_alternatives_binarized hg.reserves).1 hp with
        ⟨hp, hlen⟩ | ⟨pair, k, hk | hk, hfolded, rfl⟩
      · obtain ⟨q, hq, hpaired⟩ := hc.alternatives hab p hp
        rw [hpaired.length_eq] at hlen
        exact ⟨q, (mem_alternatives_binarized hh.reserves).2 (Or.inl ⟨hq, hlen⟩),
          hpaired.mono fun _ _ => Or.inl⟩
      · obtain ⟨l, hl, hkl⟩ := hc.alternatives hab k hk
        obtain ⟨pair', hfolded', hpaired⟩ := exists_foldedFrom hle' hfolded hkl hl List.suffix_rfl
        exact ⟨_, (mem_alternatives_binarized hh.reserves).2
          (Or.inr ⟨pair', l, Or.inl hl, hfolded', rfl⟩), hpaired⟩
      · exact absurd (hc.names.mem hab) (hout a (NameTable.mem_names.2 ⟨k, hk⟩)).1
    · have hkey : ∀ {p : Phrase}, p ∉ g.rules.alternatives a := fun hp =>
        (hout a (NameTable.mem_names.2 ⟨k, hk⟩)).1
          (hg.selfContained.lhs_mem a (Rules.mem_keys_of_mem_alternatives hp))
      rcases (mem_alternatives_binarized hg.reserves).1 hp with
        ⟨hp, -⟩ | ⟨pair, k', hk' | hk', hfolded, rfl⟩
      · exact absurd hp hkey
      · exact absurd hk' hkey
      · -- the name is that of one end
        obtain rfl : k = k' := congrArg Prod.fst (List.inj_on_of_nodup_map hnodup hk hk' rfl)
        obtain ⟨lhs, q, hq, hsuffix⟩ := exists_of_mem_endTable hl
        obtain ⟨pair', hfolded', hpaired⟩ := exists_foldedFrom hle' hfolded hkl hq hsuffix
        exact ⟨_, (mem_alternatives_binarized hh.reserves).2
          (Or.inr ⟨pair', l, Or.inr hl, hfolded', rfl⟩), hpaired⟩

include hg hh hle hle' in
theorem Matches.binarized (m : Matches fixed pairs g h) :
    Matches fixed (endPairs pairs g h pool pool') (g.binarized pool) (h.binarized pool') := by
  refine ⟨m.forth.binarized hg hh hle', ?_⟩
  exact (m.back.binarized hh hg hle).congr fun b a =>
    or_congr_right (NameTable.namedAlike_flip fun _ _ =>
      ⟨fun hpaired => hpaired.symm, fun hpaired => hpaired.symm⟩)

end Pairs

/-! ## Two runs -/

/-- The grammars say the same, up to the order of alternatives and to how often they are
repeated. -/
structure SameSets (g h : Grammar) : Prop where
  /-- The nonterminals are the same. -/
  nonterminals_eq : g.nonterminals = h.nonterminals
  /-- The terminals are the same. -/
  terminals_eq : g.terminals = h.terminals
  /-- The start symbol is the same. -/
  start_eq : g.start = h.start
  /-- Both accept the empty word, or none of them. -/
  acceptsEmpty_eq : g.acceptsEmpty = h.acceptsEmpty
  /-- The left sides are the same. -/
  keys_eq : g.rules.keys = h.rules.keys
  /-- Each left side has the same set of alternatives. -/
  alternatives_iff : ∀ lhs p, p ∈ g.rules.alternatives lhs ↔ p ∈ h.rules.alternatives lhs

theorem SameSets.symm (hsame : SameSets g h) : SameSets h g :=
  ⟨hsame.nonterminals_eq.symm, hsame.terminals_eq.symm, hsame.start_eq.symm,
    hsame.acceptsEmpty_eq.symm, hsame.keys_eq.symm, fun lhs p => (hsame.alternatives_iff lhs p).symm⟩

/-- Every nonterminal goes with itself. -/
theorem SameSets.covers (hsame : SameSets g h) (hg : g.SelfContained) (fixed : NameSet) :
    Covers fixed (fun a b => a ∈ g.nonterminals ∧ b = a) g h where
  names := ⟨fun hab => hab.1, fun ha => ⟨_, ha, rfl⟩, fun hab hab' => hab.2.trans hab'.2.symm⟩
  fixes hab _ := hab.2
  start := ⟨hg.start_mem, hsame.start_eq.symm⟩
  terminals_eq := hsame.terminals_eq
  acceptsEmpty hempty := hsame.acceptsEmpty_eq ▸ hempty
  keys := by
    rintro _ a ⟨-, rfl⟩ ha
    exact hsame.keys_eq ▸ ha
  alternatives := by
    rintro _ a ⟨-, rfl⟩ p hp
    refine ⟨p, (hsame.alternatives_iff a p).1 hp, List.forall₂_same.2 fun s hs => ?_⟩
    cases s with
    | terminal t => exact .terminal t
    | nonterminal name => exact .nonterminal ⟨hg.nonterminal_mem hp hs, rfl⟩

theorem SameSets.exists_matches (hsame : SameSets g h) (hg : g.SelfContained)
    (hh : h.SelfContained) (fixed : NameSet) : ∃ pairs, Matches fixed pairs g h := by
  refine ⟨_, hsame.covers hg fixed, (hsame.symm.covers hh fixed).congr fun b a => ?_⟩
  constructor
  · rintro ⟨hb, rfl⟩
    exact ⟨hsame.nonterminals_eq ▸ hb, rfl⟩
  · rintro ⟨ha, rfl⟩
    exact ⟨hsame.nonterminals_eq ▸ ha, rfl⟩

variable {scheme scheme' : NameScheme}

/-- The names of the first grammar stay in use while a run goes on. -/
theorem supplied_of_drawn {g' : Grammar} {count : Nat} (hself : g'.SelfContained)
    (hguards : ((g.pool scheme).drawn count).Guards g')
    (hfixed : ∀ name ∈ fixed, name ∈ g.nonterminals) :
    g'.Supplied fixed ((g.pool scheme).drawn count) :=
  ⟨hself, hguards, fun name hname =>
    NamePool.inUse_drawn.2 (Or.inl (guards_pool name (Or.inl (hfixed name hname))))⟩

/-- The last grammars of two runs match, if the first ones do and there are names enough
for both. -/
theorem Matches.exists_normal (m : Matches fixed pairs g h) (hg : g.SelfContained)
    (hh : h.SelfContained)
    (hle : g.startDemand + (g.stripped scheme).terminalDemand + (g.stripped scheme).pairDemand
      ≤ (g.pool scheme).free.length)
    (hle' : h.startDemand + (h.stripped scheme').terminalDemand + (h.stripped scheme').pairDemand
      ≤ (h.pool scheme').free.length)
    (hfixed : ∀ name ∈ fixed, name ∈ g.nonterminals)
    (hfixed' : ∀ name ∈ fixed, name ∈ h.nonterminals) :
    ∃ pairs', Matches fixed pairs' (g.normal scheme) (h.normal scheme') := by
  have hterminals := Nat.le_trans (Nat.le_add_right _ _) hle
  have hterminals' := Nat.le_trans (Nat.le_add_right _ _) hle'
  have hstart := Nat.le_trans (Nat.le_add_right _ _) hterminals
  have hstart' := Nat.le_trans (Nat.le_add_right _ _) hterminals'
  have hsupplied : g.Supplied fixed (g.pool scheme) :=
    ⟨hg, guards_pool, fun name hname => guards_pool name (Or.inl (hfixed name hname))⟩
  have hsupplied' : h.Supplied fixed (h.pool scheme') :=
    ⟨hh, guards_pool, fun name hname => guards_pool name (Or.inl (hfixed' name hname))⟩
  obtain ⟨_, hstarted⟩ := m.withStartIsolated hsupplied hsupplied' hstart hstart'
  have hstripped := hstarted.removeNull.splice.prune
  have hisolated := hstripped.terminalsIsolated
    (supplied_of_drawn (selfContained_stripped hg hstart) (guards_stripped hstart) hfixed)
    (supplied_of_drawn (selfContained_stripped hh hstart') (guards_stripped hstart') hfixed')
    (terminalDemand_le hterminals) (terminalDemand_le hterminals')
  exact ⟨_, hisolated.binarized
    (supplied_of_drawn (selfContained_isolated hg hterminals) (guards_isolated hterminals) hfixed)
    (supplied_of_drawn (selfContained_isolated hh hterminals') (guards_isolated hterminals')
      hfixed')
    (pairDemand_le hg hterminals hle) (pairDemand_le hh hterminals' hle')⟩

end Grammar

/-- The results of two runs on grammars that say the same are renamings of each other,
whatever the settings. The names of the grammar stay as they are, and the same of them
are left in both. -/
theorem normalize_unique {settings settings' : Settings} {result result' : Workbench}
    (hsame : g.SameSets h) (hresult : normalize settings g = .ok result)
    (hresult' : normalize settings' h = .ok result') :
    ∃ f, (∀ name ∈ g.nonterminals, f name = name ∧
        (name ∈ result.grammar.nonterminals ↔ name ∈ result'.grammar.nonterminals)) ∧
      result.grammar.Renamed f result'.grammar := by
  obtain ⟨hg, hle, rfl⟩ := normalize_eq_ok hresult
  obtain ⟨hh, hle', rfl⟩ := normalize_eq_ok hresult'
  obtain ⟨_, m⟩ := hsame.exists_matches hg hh g.nonterminals
  obtain ⟨_, hnormal⟩ := m.exists_normal hg hh hle hle' (fun _ hname => hname)
    fun _ hname => hsame.nonterminals_eq ▸ hname
  exact hnormal.exists_renamed (Grammar.selfContained_normal hg hle)
    (Grammar.selfContained_normal hh hle')

/-- The sample of expressions, and the same with the alternatives of each rule in
reverse and twice, under an alphabet of small letters. -/
theorem normalize_unique_arithmetic :
    ∃ h result result', Sample.arithmetic.grammar.SameSets h ∧ Sample.arithmetic.grammar ≠ h ∧
      normalize .standard Sample.arithmetic.grammar = .ok result ∧
      normalize ⟨⟨"abcdefgh".toList, 0⟩, .refuse⟩ h = .ok result' ∧
      ∃ f, (∀ name ∈ Sample.arithmetic.grammar.nonterminals, f name = name ∧
          (name ∈ result.grammar.nonterminals ↔ name ∈ result'.grammar.nonterminals)) ∧
        result.grammar.Renamed f result'.grammar := by
  obtain ⟨rules, hrules⟩ : ∃ rules : Rules, rules = Sample.arithmetic.grammar.rules.mapEntries
      fun _ (ps : List Phrase) => ps.reverse ++ ps := ⟨_, rfl⟩
  have hsame : Sample.arithmetic.grammar.SameSets { Sample.arithmetic.grammar with rules } := by
    subst hrules
    refine ⟨rfl, rfl, rfl, rfl, (NameMap.keys_mapEntries _ _).symm, fun lhs p => ?_⟩
    rw [Rules.alternatives_mapEntries rfl, List.mem_append, List.mem_reverse, or_self]
  obtain ⟨result, hresult⟩ : ∃ result, normalize .standard Sample.arithmetic.grammar = .ok result :=
    ⟨_, rfl⟩
  obtain ⟨result', hresult'⟩ : ∃ result', normalize ⟨⟨"abcdefgh".toList, 0⟩, .refuse⟩
      { Sample.arithmetic.grammar with rules } = .ok result' := by
    subst hrules
    exact ⟨_, rfl⟩
  refine ⟨_, result, result', hsame, ?_, hresult, hresult',
    normalize_unique hsame hresult hresult'⟩
  subst hrules
  decide

end Chomsky
