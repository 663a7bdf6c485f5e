import Chomsky.Normal.Naming
import Chomsky.Proofs.Normal.IsolatedStart
import Chomsky.Proofs.Name.Table
import Chomsky.Proofs.Analysis.Reachable

/-!
# Grammars with named parts

The two phases that invent nonterminals do it in one way: a table names some
keys, every alternative is replaced by look-up, and each name gets one
alternative, read off its key. What holds of both is proved here, for any
replacement and any way to read an alternative off a key.

## What this module delivers

- `Rules.replace?_eq_some`, `Rules.replace?_eq_none` and `mem_replaced_iff`.
- `NameTable.Stands`: what the symbols stand for, names for phrases.
- `Grammar.alternatives_withNamed_of_mem`, `Grammar.alternatives_withNamed_of_notMem`.
- `SelfContained.withNamed`: the grammar still holds together.
- `Grammar.derives_withNamed_iff`: names that are not new derive what they did, if
  replaced alternatives unfold to what they replace.
-/

set_option autoImplicit false

namespace Chomsky

namespace Rules

variable {r : Rules} {f : Phrase → Option Phrase}

/-- All alternatives replaced, where there is a replacement for each of them. -/
def replaced (r : Rules) (f : Phrase → Option Phrase) : Rules :=
  r.mapEntries fun _ alternatives => distinct (alternatives.filterMap f)

theorem replace?_eq_some (h : ∀ lhs, ∀ p ∈ r.alternatives lhs, (f p).isSome = true) :
    r.replace? f = some (r.replaced f) := by
  refine if_pos (List.all_eq_true.2 fun p hp => ?_)
  obtain ⟨lhs, hmem⟩ := mem_phrases_iff.1 hp
  exact h lhs p hmem

theorem replace?_eq_none {lhs : String} {p : Phrase} (hp : p ∈ r.alternatives lhs)
    (h : (f p).isSome = false) : r.replace? f = none := by
  apply if_neg
  intro hall
  rw [List.all_eq_true.1 hall p (mem_phrases_iff.2 ⟨lhs, hp⟩)] at h
  exact Bool.noConfusion h

@[simp] theorem keys_replaced (r : Rules) (f : Phrase → Option Phrase) :
    (r.replaced f).keys = r.keys := NameMap.keys_mapEntries _ _

theorem alternatives_replaced (r : Rules) (f : Phrase → Option Phrase) (lhs : String) :
    (r.replaced f).alternatives lhs = distinct ((r.alternatives lhs).filterMap f) :=
  alternatives_mapEntries rfl

theorem mem_replaced_iff {lhs : String} {q : Phrase} :
    q ∈ (r.replaced f).alternatives lhs ↔ ∃ p ∈ r.alternatives lhs, f p = some q := by
  rw [alternatives_replaced, mem_distinct, List.mem_filterMap]

theorem nodup_alternatives_replaced (r : Rules) (f : Phrase → Option Phrase) (lhs : String) :
    ((r.replaced f).alternatives lhs).Nodup := by
  rw [alternatives_replaced]
  exact nodup_distinct _

end Rules

namespace NameTable

variable {κ : Type}

/-- The names are pairwise different and unknown to the grammar. -/
structure NewTo (t : NameTable κ) (g : Grammar) : Prop where
  /-- No name is given twice. -/
  nodup : t.names.Nodup
  /-- No name is a nonterminal of the grammar. -/
  notMem_nonterminals : ∀ name ∈ t.names, name ∉ g.nonterminals
  /-- No name is a terminal of the grammar. -/
  notMem_terminals : ∀ name ∈ t.names, name ∉ g.terminals

/-- What a symbol stands for: a name of the table for the phrase of its key, and any
other symbol for itself. -/
def Stands (t : NameTable κ) (phrase : κ → Phrase) (s : Symbol) (p : Phrase) : Prop :=
  ((∀ name ∈ t.names, s ≠ .nonterminal name) ∧ p = [s]) ∨
    ∃ key name, (key, name) ∈ t.entries ∧ s = .nonterminal name ∧ p = phrase key

section Stands

variable {t : NameTable κ} {phrase : κ → Phrase} {name : String} {s : Symbol} {p : Phrase}

theorem Stands.of_entry {key : κ} (h : (key, name) ∈ t.entries) :
    t.Stands phrase (.nonterminal name) (phrase key) := Or.inr ⟨key, name, h, rfl, rfl⟩

/-- The symbols of a phrase that avoids a pool stand for themselves, whatever the pool
assigns. -/
theorem Stands.of_avoids [DecidableEq κ] {pool : NamePool} {keys : List κ} (hp : p.Avoids pool)
    (hs : s ∈ p) : (assigned pool keys).Stands phrase s [s] := by
  refine Or.inl ⟨?_, rfl⟩
  rintro name hname rfl
  rw [names_assigned] at hname
  exact hp name (List.mem_of_mem_take hname) hs

theorem stands_terminal (t : NameTable κ) (phrase : κ → Phrase) (name : String) :
    t.Stands phrase (.terminal name) [.terminal name] :=
  Or.inl ⟨fun _ _ heq => Symbol.noConfusion heq, rfl⟩

theorem Stands.terminal {name : String} (h : t.Stands phrase (.terminal name) p) :
    p = [.terminal name] := by
  rcases h with ⟨-, h⟩ | ⟨key, other, -, heq, -⟩
  · exact h
  · exact absurd heq Symbol.noConfusion

theorem Stands.of_notMem (h : t.Stands phrase (.nonterminal name) p) (hname : name ∉ t.names) :
    p = [.nonterminal name] := by
  rcases h with ⟨-, h⟩ | ⟨key, other, hmem, heq, -⟩
  · exact h
  · rw [Symbol.nonterminal.inj heq] at hname
    exact absurd (mem_names.2 ⟨key, hmem⟩) hname

theorem Stands.of_mem (h : t.Stands phrase (.nonterminal name) p) (hname : name ∈ t.names) :
    ∃ key, (key, name) ∈ t.entries ∧ p = phrase key := by
  rcases h with ⟨hne, -⟩ | ⟨key, other, hmem, heq, h⟩
  · exact absurd rfl (hne name hname)
  · obtain rfl := Symbol.nonterminal.inj heq
    exact ⟨key, hmem, h⟩

end Stands

end NameTable

namespace Grammar

variable {κ : Type} {g : Grammar} {rules : Rules} {table : NameTable κ} {alternative : κ → Phrase}
  {name lhs : String} {key : κ} {p q : Phrase}

@[simp] theorem withNamed_terminals (g : Grammar) (rules : Rules) (table : NameTable κ)
    (alternative : κ → Phrase) :
    (g.withNamed rules table alternative).terminals = g.terminals := rfl

@[simp] theorem withNamed_start (g : Grammar) (rules : Rules) (table : NameTable κ)
    (alternative : κ → Phrase) : (g.withNamed rules table alternative).start = g.start := rfl

@[simp] theorem withNamed_acceptsEmpty (g : Grammar) (rules : Rules) (table : NameTable κ)
    (alternative : κ → Phrase) :
    (g.withNamed rules table alternative).acceptsEmpty = g.acceptsEmpty := rfl

theorem mem_nonterminals_withNamed :
    name ∈ (g.withNamed rules table alternative).nonterminals ↔
      name ∈ table.names ∨ name ∈ g.nonterminals := NameSet.mem_insertMany

theorem map_fst_namedEntries (table : NameTable κ) (alternative : κ → Phrase) :
    (table.entries.map fun e => (e.2, [alternative e.1])).map Prod.fst = table.names := by
  rw [List.map_map]
  rfl

theorem mem_keys_withNamed :
    lhs ∈ (g.withNamed rules table alternative).rules.keys ↔
      lhs ∈ rules.keys ∨ lhs ∈ table.names := by
  rw [withNamed, NameMap.mem_keys_insertMany, map_fst_namedEntries]

theorem alternatives_withNamed_of_notMem (h : lhs ∉ table.names) :
    (g.withNamed rules table alternative).rules.alternatives lhs = rules.alternatives lhs :=
  Rules.alternatives_insertMany_of_notMem (by rwa [map_fst_namedEntries])

/-- A new name has the alternative of its key and no other. -/
theorem alternatives_withNamed_of_mem (hnodup : table.names.Nodup)
    (h : (key, name) ∈ table.entries) :
    (g.withNamed rules table alternative).rules.alternatives name = [alternative key] :=
  Rules.alternatives_insertMany_of_mem (by rwa [map_fst_namedEntries])
    (List.mem_map.2 ⟨(key, name), h, rfl⟩)

theorem mem_alternatives_withNamed (hnodup : table.names.Nodup) :
    q ∈ (g.withNamed rules table alternative).rules.alternatives lhs ↔
      (lhs ∉ table.names ∧ q ∈ rules.alternatives lhs) ∨
        ∃ key, (key, lhs) ∈ table.entries ∧ q = alternative key := by
  by_cases h : lhs ∈ table.names
  · obtain ⟨key, hkey⟩ := NameTable.mem_names.1 h
    rw [alternatives_withNamed_of_mem hnodup hkey, List.mem_singleton]
    constructor
    · exact fun hq => Or.inr ⟨key, hkey, hq⟩
    · rintro (⟨hout, -⟩ | ⟨other, hother, rfl⟩)
      · exact absurd h hout
      · -- a name is given to one key only
        have heq := List.inj_on_of_nodup_map hnodup hkey hother rfl
        rw [(Prod.mk.inj heq).1]
  · rw [alternatives_withNamed_of_notMem h]
    constructor
    · exact fun hq => Or.inl ⟨h, hq⟩
    · rintro (⟨-, hq⟩ | ⟨key, hkey, -⟩)
      · exact hq
      · exact absurd (NameTable.mem_names.2 ⟨key, hkey⟩) h

theorem nodup_alternatives_withNamed (hnodup : table.names.Nodup)
    (h : (rules.alternatives lhs).Nodup) :
    ((g.withNamed rules table alternative).rules.alternatives lhs).Nodup := by
  by_cases hmem : lhs ∈ table.names
  · obtain ⟨key, hkey⟩ := NameTable.mem_names.1 hmem
    rw [alternatives_withNamed_of_mem hnodup hkey]
    exact List.nodup_singleton _
  · rwa [alternatives_withNamed_of_notMem hmem]

/-- A symbol is declared after the naming if it was before, or if it is one of the
new names. -/
theorem declares_withNamed {s : Symbol} :
    (g.withNamed rules table alternative).declares s = true ↔
      g.declares s = true ∨ ∃ name ∈ table.names, s = .nonterminal name := by
  cases s with
  | terminal t => simp
  | nonterminal n => simp [mem_nonterminals_withNamed, or_comm]

variable {f : Phrase → Option Phrase}

/-- The replaced grammar holds together if replacements and new alternatives use
declared symbols and new names only. -/
theorem SelfContained.withNamed (hg : g.SelfContained) (hnew : table.NewTo g)
    (hreplaced : ∀ lhs, ∀ p ∈ g.rules.alternatives lhs, ∀ q, f p = some q → ∀ s ∈ q,
      g.declares s = true ∨ ∃ name ∈ table.names, s = .nonterminal name)
    (hnamed : ∀ e ∈ table.entries, ∀ s ∈ alternative e.1,
      g.declares s = true ∨ ∃ name ∈ table.names, s = .nonterminal name) :
    (g.withNamed (g.rules.replaced f) table alternative).SelfContained where
  start_mem := mem_nonterminals_withNamed.2 (Or.inr hg.start_mem)
  notMem_terminals name hname := by
    rcases mem_nonterminals_withNamed.1 hname with hname | hname
    · exact hnew.notMem_terminals name hname
    · exact hg.notMem_terminals name hname
  lhs_mem lhs hlhs := by
    rcases mem_keys_withNamed.1 hlhs with hlhs | hlhs
    · rw [Rules.keys_replaced] at hlhs
      exact mem_nonterminals_withNamed.2 (Or.inr (hg.lhs_mem lhs hlhs))
    · exact mem_nonterminals_withNamed.2 (Or.inl hlhs)
  declares lhs q hq s hs := by
    rw [declares_withNamed]
    rcases (mem_alternatives_withNamed hnew.nodup).1 hq with ⟨-, hq⟩ | ⟨key, hkey, rfl⟩
    · obtain ⟨p, hp, hf⟩ := Rules.mem_replaced_iff.1 hq
      exact hreplaced lhs p hp q hf s hs
    · exact hnamed _ hkey s hs

/-- A name that is not new derives what it did, provided that the new names stand for
phrases, that a replacement unfolds to what it replaces, and that it derives all
that this derives. -/
theorem derives_withNamed_iff {κ' : Type} {strings : NameTable κ'} (phrase : κ' → Phrase)
    {w : List String} (hnodup : table.names.Nodup) (hnames : table.names = strings.names)
    (hnamed : ∀ key name, (key, name) ∈ table.entries → ∀ key', (key', name) ∈ strings.entries →
      Unfolds (strings.Stands phrase) (alternative key) (phrase key'))
    (hunfold : ∀ lhs, ∀ p ∈ g.rules.alternatives lhs, ∀ q, f p = some q →
      Unfolds (strings.Stands phrase) q p)
    (hreplaced : ∀ lhs, ∀ p ∈ g.rules.alternatives lhs, ∃ q, f p = some q ∧ ∀ u,
      Yields (g.withNamed (g.rules.replaced f) table alternative).rules p u →
        Yields (g.withNamed (g.rules.replaced f) table alternative).rules q u)
    (hkeys : ∀ lhs ∈ g.rules.keys, lhs ∉ table.names) (hlhs : lhs ∉ table.names) :
    (g.withNamed (g.rules.replaced f) table alternative).rules.Derives lhs w ↔
      g.rules.Derives lhs w := by
  -- an old left side has its replaced alternatives and no others
  have hmem : ∀ {lhs : String} {p q : Phrase}, p ∈ g.rules.alternatives lhs → f p = some q →
      q ∈ (g.withNamed (g.rules.replaced f) table alternative).rules.alternatives lhs := by
    intro lhs p q hp hf
    rw [alternatives_withNamed_of_notMem (hkeys lhs (Rules.mem_keys_of_mem_alternatives hp))]
    exact Rules.mem_replaced_iff.2 ⟨p, hp, hf⟩
  constructor
  · rintro ⟨q, hq, hyields⟩
    rw [alternatives_withNamed_of_notMem hlhs] at hq
    obtain ⟨p, hp, hf⟩ := Rules.mem_replaced_iff.1 hq
    refine ⟨p, hp, hyields.unfold (fun t p' h => h.terminal) (fun name p' hstands q' hq' => ?_)
      (hunfold lhs p hp q hf)⟩
    rcases (mem_alternatives_withNamed hnodup).1 hq' with ⟨hout, hq'⟩ | ⟨key, hkey, rfl⟩
    · -- the alternative of an old name replaces one that it had
      obtain ⟨p'', hp'', hf'⟩ := Rules.mem_replaced_iff.1 hq'
      rw [hnames] at hout
      exact Or.inr ⟨hstands.of_notMem hout, p'', hp'', hunfold name p'' hp'' q' hf'⟩
    · -- the alternative of a new name unfolds to what the name stands for
      left
      have hname : name ∈ strings.names := hnames ▸ NameTable.mem_names.2 ⟨key, hkey⟩
      obtain ⟨key', hkey', rfl⟩ := hstands.of_mem hname
      exact hnamed key name hkey key' hkey'
  · rintro ⟨p, hp, hyields⟩
    -- the old derivation carries over first, and is then made through the replacement
    obtain ⟨q, hf, hq⟩ := hreplaced lhs p hp
    refine ⟨q, hmem hp hf, hq w (hyields.transfer fun lhs p' hp' u hu => ?_)⟩
    obtain ⟨q', hf', hq'⟩ := hreplaced lhs p' hp'
    exact ⟨q', hmem hp' hf', hq' u hu⟩

/-- Whatever was reachable still is, if each step from an alternative can be made
after the naming as well. -/
theorem reaches_withNamed {rules : Rules}
    (hstep : ∀ lhs, (g.withNamed rules table alternative).Reaches lhs →
      ∀ p ∈ g.rules.alternatives lhs, ∀ name, .nonterminal name ∈ p →
        (g.withNamed rules table alternative).Reaches name)
    (h : g.Reaches name) : (g.withNamed rules table alternative).Reaches name := by
  induction h with
  | seed hseed => exact .seed hseed
  | step _ hmem ih =>
    obtain ⟨p, hp, hname⟩ := Rules.mem_successors.1 hmem
    exact hstep _ ih p hp _ hname

end Grammar

namespace NamePool

variable {κ : Type} {pool : NamePool} {g : Grammar} {keys : List κ}

/-- The names that a pool assigns are new to a grammar that it guards. -/
theorem Guards.newTo_assigned (h : pool.Guards g) (keys : List κ) :
    (NameTable.assigned pool keys).NewTo g where
  nodup := NameTable.nodup_names_assigned pool keys
  notMem_nonterminals name hname := by
    rw [NameTable.names_assigned] at hname
    exact (h.notMem (List.mem_of_mem_take hname)).1
  notMem_terminals name hname := by
    rw [NameTable.names_assigned] at hname
    exact (h.notMem (List.mem_of_mem_take hname)).2

/-- After the names were handed out, the pool guards the grammar that has them. -/
theorem Guards.withNamed {table : NameTable κ} {count : Nat} (h : pool.Guards g)
    (hnames : table.names = pool.free.take count) (rules : Rules) (alternative : κ → Phrase) :
    (pool.drawn count).Guards (g.withNamed rules table alternative) := by
  intro name hname
  rw [inUse_drawn]
  rcases hname with hname | hname
  · rcases Grammar.mem_nonterminals_withNamed.1 hname with hname | hname
    · exact Or.inr (hnames ▸ hname)
    · exact Or.inl (h name (Or.inl hname))
  · exact Or.inl (h name (Or.inr hname))

end NamePool

end Chomsky
