import Chomsky.Proofs.Normal.Naming
import Chomsky.Proofs.Normal.PairTable

/-!
# Long alternatives, split

A long alternative is replaced by its first symbol and the symbol for the end that
comes after it, and each end that has a name is replaced in the same way. All
results on the splitting are read off the table of strings that agrees with the
table of pairs.

## What this module delivers

- `Grammar.binarize_eq_ok`, `Grammar.binarize_eq_error`: the outcome, from the
  number of free names.
- `Grammar.mem_alternatives_binarized`: the alternatives afterwards.
- `Grammar.derives_binarized_iff`: the derived words.
- `Grammar.reaches_binarized`: every nonterminal is reachable, if it was before.
-/

set_option autoImplicit false

namespace Chomsky

namespace Grammar

variable {g : Grammar} {pool : NamePool} {lhs name : String} {p q k rest : Phrase}
  {s first second : Symbol}

/-! ## Outcome -/

/-- The number of names that splitting takes, one for each distinct end. -/
def pairDemand (g : Grammar) : Nat := (distinct g.rules.ends).length

/-- The grammar with its long alternatives split, by the names of a pool. -/
def binarized (g : Grammar) (pool : NamePool) : Grammar :=
  g.withNamed (g.rules.replaced (Phrase.binarize? (g.rules.pairTable pool)))
    (g.rules.pairTable pool) fun pair => [pair.1, pair.2]

section Guarded

variable (hpool : pool.Reserves g)

include hpool

theorem mirrors_pairTable : (g.rules.pairTable pool).Mirrors (g.rules.endTable pool) :=
  Rules.mirrors_pairTable fun _ _ hp => hpool.avoids hp

theorem avoids_of_mem_ends (hk : k ∈ distinct g.rules.ends) : k.Avoids pool := by
  obtain ⟨lhs, p, hp, hsuffix, -⟩ := Rules.mem_ends.1 (mem_distinct.1 hk)
  exact (hpool.avoids hp).of_suffix (hsuffix.trans (List.tail_suffix p))

/-- A long alternative is split into its first symbol and the symbol for the end
that comes after it. -/
theorem binarize?_eq (hp : first :: second :: rest ∈ g.rules.alternatives lhs) :
    Phrase.binarize? (g.rules.pairTable pool) (first :: second :: rest)
      = ((g.rules.endTable pool).standIn? (second :: rest)).map fun tail => [first, tail] := by
  have havoids : Phrase.Avoids (second :: rest) pool :=
    (hpool.avoids hp).of_suffix (List.suffix_cons _ _)
  rw [Phrase.binarize?, (mirrors_pairTable hpool).foldTail?_eq
    (fun k hk => avoids_of_mem_ends hpool hk) havoids]
  rfl

/-- An alternative of less than two symbols stays, and a longer one is replaced by
the pair that it is folded to. -/
theorem binarize?_eq_some_iff (hp : p ∈ g.rules.alternatives lhs) :
    p.binarize? (g.rules.pairTable pool) = some q ↔
      (p.length < 2 ∧ q = p) ∨
        ∃ pair, FoldedFrom (g.rules.endTable pool) pair p ∧ q = [pair.1, pair.2] := by
  rcases Nat.lt_or_ge p.length 2 with hlen | hlen
  · rw [Phrase.binarize?_of_lt hlen, Option.some_inj]
    constructor
    · exact fun h => Or.inl ⟨hlen, h.symm⟩
    · rintro (⟨-, rfl⟩ | ⟨pair, h, -⟩)
      · rfl
      · exact absurd hlen (Nat.not_lt.2 h.two_le)
  · obtain ⟨first, second, rest, rfl⟩ := Phrase.exists_eq_cons_cons hlen
    rw [binarize?_eq hpool hp, Option.map_eq_some_iff]
    constructor
    · rintro ⟨tail, htail, rfl⟩
      exact Or.inr ⟨(first, tail), ⟨second, rest, rfl, htail⟩, rfl⟩
    · rintro (⟨hshort, -⟩ | ⟨pair, ⟨second', rest', heq, htail⟩, rfl⟩)
      · exact absurd hshort (Nat.not_lt.2 hlen)
      · obtain ⟨rfl, hend⟩ := List.cons.inj heq
        rw [hend]
        exact ⟨pair.2, htail, rfl⟩

end Guarded

theorem find?_endTable_iff :
    (g.rules.endTable pool).find? k = some name ↔ (k, name) ∈ (g.rules.endTable pool).entries :=
  NameTable.find?_assigned_iff (nodup_distinct _)

/-- All ends are named exactly if there are enough free names. -/
theorem forall_isSome_endTable_iff :
    (∀ k ∈ g.rules.ends, ((g.rules.endTable pool).find? k).isSome = true) ↔
      g.pairDemand ≤ pool.free.length := by
  rw [Rules.endTable, pairDemand, ← NameTable.forall_isSome_find?_iff (nodup_distinct _)]
  simp only [mem_distinct]

theorem exists_standIn?_of_mem (h : g.pairDemand ≤ pool.free.length)
    (hp : p ∈ g.rules.alternatives lhs) (hk : k <:+ p.tail) (hne : k ≠ []) :
    ∃ s, (g.rules.endTable pool).standIn? k = some s := by
  match k with
  | [] => exact absurd rfl hne
  | [s] => exact ⟨s, rfl⟩
  | first :: second :: rest =>
    have hmem : first :: second :: rest ∈ g.rules.ends :=
      Rules.mem_ends.2 ⟨lhs, p, hp, hk, Nat.le_add_left 2 rest.length⟩
    obtain ⟨name, hname⟩ := Option.isSome_iff_exists.1 (forall_isSome_endTable_iff.2 h _ hmem)
    exact ⟨.nonterminal name, by rw [NameTable.standIn?_cons_cons, hname]; rfl⟩

section Guarded

variable (hpool : pool.Reserves g)

include hpool

theorem exists_binarize?_eq (h : g.pairDemand ≤ pool.free.length)
    (hp : p ∈ g.rules.alternatives lhs) : ∃ q, p.binarize? (g.rules.pairTable pool) = some q := by
  rcases Nat.lt_or_ge p.length 2 with hlen | hlen
  · exact ⟨p, Phrase.binarize?_of_lt hlen⟩
  · obtain ⟨first, second, rest, rfl⟩ := Phrase.exists_eq_cons_cons hlen
    obtain ⟨tail, htail⟩ := exists_standIn?_of_mem h hp (k := second :: rest) List.suffix_rfl
      (List.cons_ne_nil second rest)
    rw [binarize?_eq hpool hp, htail]
    exact ⟨[first, tail], rfl⟩

theorem pool_pairTable : (g.rules.pairTable pool).pool = pool.drawn g.pairDemand :=
  (mirrors_pairTable hpool).pool_eq

theorem binarize_eq_ok (h : g.pairDemand ≤ pool.free.length) :
    g.binarize pool = (.ok (g.binarized pool), pool.drawn g.pairDemand) := by
  have hreplace : g.rules.replace? (Phrase.binarize? (g.rules.pairTable pool))
      = some (g.rules.replaced (Phrase.binarize? (g.rules.pairTable pool))) := by
    refine Rules.replace?_eq_some fun lhs p hp => ?_
    obtain ⟨q, hq⟩ := exists_binarize?_eq hpool h hp
    rw [hq]
    rfl
  rw [binarize, hreplace, ← pool_pairTable hpool]
  rfl

theorem binarize_eq_error (h : pool.free.length < g.pairDemand) :
    g.binarize pool = (.error (.namesExhausted pool.scheme.capacity), pool.drawn g.pairDemand) := by
  obtain ⟨k, hk, hnone⟩ := NameTable.exists_find?_eq_none (nodup_distinct _) h
  rw [← Rules.endTable] at hnone
  obtain ⟨lhs, p, hp, hsuffix, hlen⟩ := Rules.mem_ends.1 (mem_distinct.1 hk)
  -- the alternative needs a symbol for its longest end, so for all its ends
  have hreplace : g.rules.replace? (Phrase.binarize? (g.rules.pairTable pool)) = none := by
    refine Rules.replace?_eq_none hp (Bool.eq_false_iff.2 fun hsome => ?_)
    have hlong : 2 ≤ p.length := Nat.le_trans hlen (hsuffix.trans (List.tail_suffix p)).length_le
    obtain ⟨first, second, rest, rfl⟩ := Phrase.exists_eq_cons_cons hlong
    rw [binarize?_eq hpool hp, Option.isSome_map] at hsome
    have hstand := (mirrors_pairTable hpool).isSome_standIn?_of_suffix hsome hsuffix
      (List.ne_nil_of_length_pos (Nat.lt_of_succ_lt hlen))
    rw [NameTable.standIn?_of_two_le hlen, hnone] at hstand
    exact Bool.false_ne_true hstand
  rw [binarize, hreplace, ← pool_pairTable hpool]

end Guarded

/-! ## The grammar afterwards -/

/-- A string with a name is an end of an alternative. -/
theorem exists_of_mem_endTable (hk : (k, name) ∈ (g.rules.endTable pool).entries) :
    ∃ lhs, ∃ p ∈ g.rules.alternatives lhs, k <:+ p := by
  obtain ⟨lhs, p, hp, hsuffix, -⟩ := Rules.mem_ends.1 (mem_distinct.1 (List.of_mem_zip hk).1)
  exact ⟨lhs, p, hp, hsuffix.trans (List.tail_suffix p)⟩

theorem declares_of_mem_endTable (hg : g.SelfContained)
    (hk : (k, name) ∈ (g.rules.endTable pool).entries) : ∀ s ∈ k, g.declares s = true := by
  obtain ⟨lhs, p, hp, hsuffix⟩ := exists_of_mem_endTable hk
  exact fun s hs => hg.declares lhs p hp s (hsuffix.subset hs)

/-- A symbol of a pair is a symbol of the string, or the name of an end. -/
theorem mem_of_foldedFrom {pair : Symbol × Symbol} (h : FoldedFrom (g.rules.endTable pool) pair k)
    (hs : s ∈ [pair.1, pair.2]) :
    s ∈ k ∨ ∃ name ∈ (g.rules.endTable pool).names, s = .nonterminal name := by
  obtain ⟨second, rest, rfl, htail⟩ := h
  rcases List.mem_cons.1 hs with rfl | hs
  · exact Or.inl List.mem_cons_self
  · rw [← List.mem_singleton.1 hs] at htail
    unfold NameTable.standIn? at htail
    split at htail
    · next heq =>
      obtain rfl := Option.some.inj htail
      rw [heq]
      exact Or.inl (List.mem_cons_of_mem _ (List.mem_singleton_self _))
    · obtain ⟨name, hname, rfl⟩ := Option.map_eq_some_iff.1 htail
      exact Or.inr ⟨name, NameTable.mem_names.2 ⟨_, find?_endTable_iff.1 hname⟩, rfl⟩

theorem newTo_endTable (hpool : pool.Guards g) : (g.rules.endTable pool).NewTo g :=
  hpool.newTo_assigned _

theorem stands_of_standIn? (hp : p.Avoids pool)
    (h : (g.rules.endTable pool).standIn? p = some s) :
    (g.rules.endTable pool).Stands id s p := by
  unfold NameTable.standIn? at h
  split at h
  · obtain rfl := Option.some.inj h
    exact .of_avoids hp (List.mem_singleton_self _)
  · obtain ⟨name, hname, rfl⟩ := Option.map_eq_some_iff.1 h
    exact .of_entry (find?_endTable_iff.1 hname)

theorem unfolds_of_foldedFrom {pair : Symbol × Symbol} (hk : k.Avoids pool)
    (h : FoldedFrom (g.rules.endTable pool) pair k) :
    Unfolds ((g.rules.endTable pool).Stands id) [pair.1, pair.2] k := by
  obtain ⟨second, rest, rfl, htail⟩ := h
  have hend : Phrase.Avoids (second :: rest) pool := hk.of_suffix (List.suffix_cons _ _)
  have hfirst : (g.rules.endTable pool).Stands id pair.1 [pair.1] :=
    .of_avoids hk List.mem_cons_self
  exact .cons hfirst (.single (stands_of_standIn? hend htail))

section Guarded

variable (hpool : pool.Reserves g)

include hpool

theorem avoids_of_mem_endTable (hk : (k, name) ∈ (g.rules.endTable pool).entries) :
    k.Avoids pool :=
  avoids_of_mem_ends hpool (List.of_mem_zip hk).1

theorem names_pairTable : (g.rules.pairTable pool).names = (g.rules.endTable pool).names :=
  (mirrors_pairTable hpool).names_eq

theorem names_pairTable_eq_take :
    (g.rules.pairTable pool).names = pool.free.take g.pairDemand := by
  rw [names_pairTable hpool, Rules.endTable, NameTable.names_assigned, pairDemand]

theorem notMem_names_pairTable (hlhs : lhs ∈ g.rules.keys) :
    lhs ∉ (g.rules.pairTable pool).names := by
  rw [names_pairTable_eq_take hpool]
  intro hname
  exact hpool.notMem_keys (List.mem_of_mem_take hname) hlhs

theorem newTo_pairTable : (g.rules.pairTable pool).NewTo g := by
  have hnew := newTo_endTable hpool.guards
  have hnames := names_pairTable hpool
  exact ⟨hnames ▸ hnew.nodup, hnames ▸ hnew.notMem_nonterminals, hnames ▸ hnew.notMem_terminals⟩

theorem mem_keys_binarized (lhs : String) :
    lhs ∈ (g.binarized pool).rules.keys ↔
      lhs ∈ g.rules.keys ∨ lhs ∈ pool.free.take g.pairDemand := by
  rw [binarized, mem_keys_withNamed, Rules.keys_replaced, names_pairTable_eq_take hpool]

theorem guards_binarized : (pool.drawn g.pairDemand).Guards (g.binarized pool) :=
  hpool.guards.withNamed (names_pairTable_eq_take hpool) _ _

/-- What takes the place of an alternative unfolds to it. -/
theorem unfolds_of_binarize? (hp : p ∈ g.rules.alternatives lhs)
    (h : p.binarize? (g.rules.pairTable pool) = some q) :
    Unfolds ((g.rules.endTable pool).Stands id) q p := by
  rcases (binarize?_eq_some_iff hpool hp).1 h with ⟨-, rfl⟩ | ⟨pair, hfolded, rfl⟩
  · exact .refl fun s hs => .of_avoids (hpool.avoids hp) hs
  · exact unfolds_of_foldedFrom (hpool.avoids hp) hfolded

/-- An alternative of the split grammar is a short alternative of before, or the pair
that an alternative of before, or the end with this name, is folded to. -/
theorem mem_alternatives_binarized :
    q ∈ (g.binarized pool).rules.alternatives lhs ↔
      (q ∈ g.rules.alternatives lhs ∧ q.length < 2) ∨
        ∃ pair k, (k ∈ g.rules.alternatives lhs ∨ (k, lhs) ∈ (g.rules.endTable pool).entries) ∧
          FoldedFrom (g.rules.endTable pool) pair k ∧ q = [pair.1, pair.2] := by
  have hnew := newTo_pairTable hpool
  rw [binarized, mem_alternatives_withNamed hnew.nodup, Rules.mem_replaced_iff]
  constructor
  · rintro (⟨-, p, hp, heq⟩ | ⟨pair, hpair, rfl⟩)
    · rcases (binarize?_eq_some_iff hpool hp).1 heq with ⟨hlen, rfl⟩ | ⟨pair, hfolded, rfl⟩
      · exact Or.inl ⟨hp, hlen⟩
      · exact Or.inr ⟨pair, p, Or.inl hp, hfolded, rfl⟩
    · obtain ⟨k, hk, hfolded⟩ := (mirrors_pairTable hpool).mem_entries_iff.1 hpair
      exact Or.inr ⟨pair, k, Or.inr hk, hfolded, rfl⟩
  · -- the left side of an old alternative is no new name
    have hold : ∀ {p : Phrase}, p ∈ g.rules.alternatives lhs →
        lhs ∉ (g.rules.pairTable pool).names := fun hp =>
      notMem_names_pairTable hpool (Rules.mem_keys_of_mem_alternatives hp)
    rintro (⟨hq, hlen⟩ | ⟨pair, k, hk | hk, hfolded, rfl⟩)
    · exact Or.inl ⟨hold hq, q, hq, Phrase.binarize?_of_lt hlen⟩
    · have heq := (binarize?_eq_some_iff hpool hk).2 (Or.inr ⟨pair, hfolded, rfl⟩)
      exact Or.inl ⟨hold hk, k, hk, heq⟩
    · exact Or.inr ⟨pair, (mirrors_pairTable hpool).mem_entries_iff.2 ⟨k, hk, hfolded⟩, rfl⟩

/-- The same, read off any end of an alternative of before. -/
theorem exists_of_mem_binarized (hq : q ∈ (g.binarized pool).rules.alternatives lhs) :
    (q ∈ g.rules.alternatives lhs ∧ q.length < 2) ∨
      ∃ pair k lhs', ∃ p ∈ g.rules.alternatives lhs', k <:+ p ∧
        FoldedFrom (g.rules.endTable pool) pair k ∧ q = [pair.1, pair.2] := by
  rcases (mem_alternatives_binarized hpool).1 hq with hshort | ⟨pair, k, hk | hk, hfolded, rfl⟩
  · exact Or.inl hshort
  · exact Or.inr ⟨pair, k, lhs, k, hk, List.suffix_rfl, hfolded, rfl⟩
  · obtain ⟨lhs', p, hp, hsuffix⟩ := exists_of_mem_endTable hk
    exact Or.inr ⟨pair, k, lhs', p, hp, hsuffix, hfolded, rfl⟩

/-! ## Well-formedness -/

theorem SelfContained.binarized (hg : g.SelfContained) : (g.binarized pool).SelfContained := by
  have hpair : ∀ {pair : Symbol × Symbol} {k : Phrase}, (∀ s ∈ k, g.declares s = true) →
      FoldedFrom (g.rules.endTable pool) pair k → ∀ s ∈ [pair.1, pair.2], g.declares s = true ∨
        ∃ name ∈ (g.rules.pairTable pool).names, s = .nonterminal name := by
    intro pair k hk hfolded s hs
    rw [names_pairTable hpool]
    exact (mem_of_foldedFrom hfolded hs).imp_left (hk s)
  refine hg.withNamed (newTo_pairTable hpool) ?_ ?_
  · intro lhs p hp q heq s hs
    rcases (binarize?_eq_some_iff hpool hp).1 heq with ⟨-, rfl⟩ | ⟨pair, hfolded, rfl⟩
    · exact Or.inl (hg.declares lhs q hp s hs)
    · exact hpair (hg.declares lhs p hp) hfolded s hs
  · intro e he s hs
    obtain ⟨k, hk, hfolded⟩ := (mirrors_pairTable hpool).mem_entries_iff.1 he
    exact hpair (declares_of_mem_endTable hg hk) hfolded s hs

/-- The symbol for a string of at least two symbols is a name, and its alternative is
the first symbol with the symbol for the others. -/
theorem exists_pair_of_standIn?
    (h : (g.rules.endTable pool).standIn? (first :: second :: rest) = some s) :
    ∃ name tail, s = .nonterminal name ∧
      (g.rules.endTable pool).find? (first :: second :: rest) = some name ∧
      (g.rules.endTable pool).standIn? (second :: rest) = some tail ∧
      [first, tail] ∈ (g.binarized pool).rules.alternatives name := by
  obtain ⟨name, hname, rfl⟩ := Option.map_eq_some_iff.1 h
  have hentry := find?_endTable_iff.1 hname
  obtain ⟨pair, -, second', rest', heq, htail⟩ := (mirrors_pairTable hpool).exists_pair hentry
  obtain ⟨rfl, hend⟩ := List.cons.inj heq
  rw [← hend] at htail
  refine ⟨name, pair.2, rfl, hname, htail, (mem_alternatives_binarized hpool).2 ?_⟩
  exact Or.inr ⟨pair, _, Or.inr hentry, ⟨second, rest, rfl, htail⟩, rfl⟩

/-! ## Derived words -/

/-- The symbol for a string derives what the string derives. -/
theorem yields_standIn? {u : List String}
    (h : (g.rules.endTable pool).standIn? (first :: rest) = some s)
    (hu : Yields (g.binarized pool).rules (first :: rest) u) :
    Yields (g.binarized pool).rules [s] u := by
  induction rest generalizing first s u with
  | nil =>
    obtain rfl := Option.some.inj h
    exact hu
  | cons second rest ih =>
    obtain ⟨name, tail, rfl, -, htail, hpair⟩ := exists_pair_of_standIn? hpool h
    obtain ⟨v, w, rfl, hv, hw⟩ := Yields.cons_iff.1 hu
    exact yields_nonterminal_iff.2 ⟨_, hpair, .append (p := [first]) hv (ih htail hw)⟩

theorem yields_of_foldedFrom {pair : Symbol × Symbol} {u : List String}
    (h : FoldedFrom (g.rules.endTable pool) pair k) (hu : Yields (g.binarized pool).rules k u) :
    Yields (g.binarized pool).rules [pair.1, pair.2] u := by
  obtain ⟨second, rest, rfl, htail⟩ := h
  obtain ⟨v, w, rfl, hv, hw⟩ := Yields.cons_iff.1 hu
  exact .append (p := [pair.1]) hv (yields_standIn? hpool htail hw)

/-- Splitting keeps the words of every name that was there before. -/
theorem derives_binarized_iff (h : g.pairDemand ≤ pool.free.length) (hlhs : lhs ∈ g.nonterminals)
    {w : List String} : (g.binarized pool).rules.Derives lhs w ↔ g.rules.Derives lhs w := by
  have hnew := newTo_pairTable hpool
  have hold : ∀ name ∈ g.nonterminals, name ∉ (g.rules.pairTable pool).names :=
    fun name hname hmem => hnew.notMem_nonterminals name hmem hname
  refine derives_withNamed_iff id hnew.nodup (names_pairTable hpool) ?_ ?_ ?_
    (fun lhs hkey => notMem_names_pairTable hpool hkey) (hold lhs hlhs)
  · intro pair name hpair k hk
    -- the pair with this name was folded from the string with this name
    obtain ⟨k', hk', hfolded⟩ := (mirrors_pairTable hpool).mem_entries_iff.1 hpair
    have heq := List.inj_on_of_nodup_map (newTo_endTable hpool.guards).nodup hk hk' rfl
    rw [(Prod.mk.inj heq).1]
    exact unfolds_of_foldedFrom (avoids_of_mem_endTable hpool hk') hfolded
  · intro lhs p hp q heq
    exact unfolds_of_binarize? hpool hp heq
  · intro lhs p hp
    -- there is a replacement, and it derives what the alternative does
    obtain ⟨q, hq⟩ := exists_binarize?_eq hpool h hp
    refine ⟨q, hq, fun u hu => ?_⟩
    rcases (binarize?_eq_some_iff hpool hp).1 hq with ⟨-, rfl⟩ | ⟨pair, hfolded, rfl⟩
    · exact hu
    · exact yields_of_foldedFrom hpool hfolded hu

theorem accepts_binarized_iff (hg : g.SelfContained) (h : g.pairDemand ≤ pool.free.length)
    {w : List String} : (g.binarized pool).Accepts w ↔ g.Accepts w := by
  rw [Accepts, Accepts, binarized, withNamed_start, withNamed_acceptsEmpty, ← binarized,
    derives_binarized_iff hpool h hg.start_mem]

/-! ## Reachability -/

/-- From the symbol for a string all symbols of the string and the names of all its
ends are reached. -/
theorem reaches_of_standIn? (h : (g.rules.endTable pool).standIn? (first :: rest) = some s)
    (hs : ∀ name, s = .nonterminal name → (g.binarized pool).Reaches name) :
    (∀ name, .nonterminal name ∈ first :: rest → (g.binarized pool).Reaches name) ∧
      ∀ k ∈ Phrase.ends (first :: rest), ∀ name, (k, name) ∈ (g.rules.endTable pool).entries →
        (g.binarized pool).Reaches name := by
  induction rest generalizing first s with
  | nil =>
    obtain rfl := Option.some.inj h
    refine ⟨fun name hname => hs name (List.mem_singleton.1 hname).symm, ?_⟩
    exact fun k hk => absurd hk List.not_mem_nil
  | cons second rest ih =>
    obtain ⟨n, tail, rfl, hn, htail, hpair⟩ := exists_pair_of_standIn? hpool h
    have hreach := hs n rfl
    -- what the symbol for the others reaches is reached through the pair
    obtain ⟨hsymbols, hends⟩ := ih htail fun name heq =>
      hreach.step hpair (heq ▸ List.mem_cons_of_mem _ (List.mem_singleton_self _))
    constructor
    · intro name hname
      rcases List.mem_cons.1 hname with heq | hname
      · exact hreach.step hpair (heq ▸ List.mem_cons_self)
      · exact hsymbols name hname
    · intro k hk name hname
      rcases List.mem_append.1 hk with hk | hk
      · exact hends k hk name hname
      · rw [List.mem_singleton.1 hk, ← find?_endTable_iff, hn] at hname
        obtain rfl := Option.some.inj hname
        exact hreach

/-- What one alternative of before makes reachable is still reachable. -/
theorem reaches_of_alternative (h : g.pairDemand ≤ pool.free.length)
    (hlhs : (g.binarized pool).Reaches lhs) (hp : p ∈ g.rules.alternatives lhs) :
    (∀ name, .nonterminal name ∈ p → (g.binarized pool).Reaches name) ∧
      ∀ k ∈ Phrase.ends p.tail, ∀ name, (k, name) ∈ (g.rules.endTable pool).entries →
        (g.binarized pool).Reaches name := by
  rcases Nat.lt_or_ge p.length 2 with hlen | hlen
  · have hmem : p ∈ (g.binarized pool).rules.alternatives lhs :=
      (mem_alternatives_binarized hpool).2 (Or.inl ⟨hp, hlen⟩)
    refine ⟨fun name hname => hlhs.step hmem hname, fun k hk => ?_⟩
    obtain ⟨hsuffix, htwo⟩ := Phrase.mem_ends.1 hk
    have := Nat.le_trans htwo (hsuffix.trans (List.tail_suffix p)).length_le
    omega
  · obtain ⟨first, second, rest, rfl⟩ := Phrase.exists_eq_cons_cons hlen
    -- a longer alternative leads to its first symbol and to the symbol for its end
    obtain ⟨tail, htail⟩ := exists_standIn?_of_mem h hp (k := second :: rest) List.suffix_rfl
      (List.cons_ne_nil second rest)
    have hmem : [first, tail] ∈ (g.binarized pool).rules.alternatives lhs :=
      (mem_alternatives_binarized hpool).2
        (Or.inr ⟨(first, tail), _, Or.inl hp, ⟨second, rest, rfl, htail⟩, rfl⟩)
    obtain ⟨hsymbols, hends⟩ := reaches_of_standIn? hpool htail fun name heq =>
      hlhs.step hmem (heq ▸ List.mem_cons_of_mem _ (List.mem_singleton_self _))
    refine ⟨fun name hname => ?_, hends⟩
    rcases List.mem_cons.1 hname with heq | hname
    · exact hlhs.step hmem (heq ▸ List.mem_cons_self)
    · exact hsymbols name hname

/-- Splitting strands no nonterminal, and reaches every new one. -/
theorem reaches_binarized (hg : g.SelfContained) (h : g.pairDemand ≤ pool.free.length)
    (hreach : ∀ name ∈ g.nonterminals, g.Reaches name) :
    ∀ name ∈ (g.binarized pool).nonterminals, (g.binarized pool).Reaches name := by
  have hold : ∀ name ∈ g.nonterminals, (g.binarized pool).Reaches name := fun name hname =>
    reaches_withNamed (fun lhs hlhs p hp => (reaches_of_alternative hpool h hlhs hp).1)
      (hreach name hname)
  intro name hname
  rcases mem_nonterminals_withNamed.1 hname with hname | hname
  · rw [names_pairTable hpool] at hname
    -- the new name stands behind an alternative of a name that was reached before
    obtain ⟨k, hk⟩ := NameTable.mem_names.1 hname
    obtain ⟨lhs, p, hp, hends⟩ := Rules.mem_ends.1 (mem_distinct.1 (List.of_mem_zip hk).1)
    have hlhs := hold lhs (hg.lhs_mem lhs (Rules.mem_keys_of_mem_alternatives hp))
    exact (reaches_of_alternative hpool h hlhs hp).2 k (Phrase.mem_ends.2 hends) name hk
  · exact hold name hname

end Guarded

end Grammar

end Chomsky
