import Chomsky.Proofs.Normal.Naming
import Mathlib.Algebra.GroupWithZero.Nat
import Mathlib.Logic.Relation

/-!
# Undoing abbreviations

A fresh name abbreviates a phrase. Wherever it occurs it can be replaced by its only
alternative, which may contain other fresh names. This is a rewriting of phrases, one
occurrence at a time and in any order.

What a symbol abbreviates in the end is its meaning, and a step keeps the meaning of the
phrase. Names inside an alternative mean less than the name it belongs to, so steps come to
an end. A phrase without steps has no names any more and means itself, so every way to
replace the names ends with the meaning.

If alternatives are replaced by phrases that mean them, the replacement can be undone: the
names lead back to the old alternatives, in their old order.

## What this module delivers

- `Rules.Expands` and `Rules.ExpandsFully`, a step and all steps.
- `Rules.Abbreviates`, names with a meaning, with `Abbreviates.wellFounded_expands` and
  `Abbreviates.expandsFully_iff`.
- `Rules.Restores`, with `Grammar.abbreviates_withNamed` and `Grammar.restores_withNamed`:
  what a naming does to the alternatives is undone.
-/

set_option autoImplicit false

namespace Chomsky

/-! ## Replacing names -/

namespace Rules

/-- One occurrence of one of the names gives way to an alternative of the name. -/
inductive Expands (r : Rules) (names : List String) : Phrase → Phrase → Prop where
  | replace {name : String} {alternative : Phrase} (before after : Phrase) :
      name ∈ names → alternative ∈ r.alternatives name →
        Expands r names (before ++ .nonterminal name :: after) (before ++ alternative ++ after)

/-- The second phrase comes from the first by any number of such steps, and no step is left
to be made. -/
def ExpandsFully (r : Rules) (names : List String) (p q : Phrase) : Prop :=
  Relation.ReflTransGen (r.Expands names) p q ∧ ∀ q', ¬ r.Expands names q q'

/-- Replacing the names comes to an end, in whatever order it is done. It leads from the
alternatives of each left side of the old rules to those that it had, without repetitions
and in the order that they had. -/
structure Restores (r' : Rules) (names : List String) (r : Rules) : Prop where
  /-- There is no infinite sequence of steps. -/
  terminates : WellFounded fun q p => r'.Expands names p q
  /-- A new alternative expands to the old one in its place, and to nothing else. -/
  restores : ∀ lhs ∈ r.keys, List.Forall₂ (fun q p => ∀ p', r'.ExpandsFully names q p' ↔ p' = p)
    (r'.alternatives lhs) (distinct (r.alternatives lhs))

end Rules

/-! ## Names with a meaning -/

/-- The length of what a symbol means if it is one of the names; other symbols count for
nothing. -/
def Symbol.weight (names : List String) (meaning : Symbol → Phrase) : Symbol → Nat
  | .terminal _ => 0
  | .nonterminal name => if name ∈ names then (meaning (.nonterminal name)).length else 0

/-- The weights of all symbols of a phrase together. -/
def Phrase.weight (names : List String) (meaning : Symbol → Phrase) (p : Phrase) : Nat :=
  (p.map (Symbol.weight names meaning)).sum

section Weight

variable {names : List String} {meaning : Symbol → Phrase} {name : String} {s : Symbol}

theorem Symbol.weight_of_mem (h : name ∈ names) :
    Symbol.weight names meaning (.nonterminal name) = (meaning (.nonterminal name)).length :=
  if_pos h

theorem Symbol.weight_of_forall_ne (h : ∀ name ∈ names, s ≠ .nonterminal name) :
    s.weight names meaning = 0 := by
  cases s with
  | terminal t => rfl
  | nonterminal name => exact if_neg fun hmem => h name hmem rfl

theorem Symbol.weight_le : s.weight names meaning ≤ (meaning s).length := by
  cases s with
  | terminal t => exact Nat.zero_le _
  | nonterminal name =>
    rw [Symbol.weight]
    split
    · exact Nat.le_refl _
    · exact Nat.zero_le _

@[simp] theorem Phrase.weight_nil : Phrase.weight names meaning [] = 0 := rfl

@[simp] theorem Phrase.weight_cons (s : Symbol) (p : Phrase) :
    Phrase.weight names meaning (s :: p) = s.weight names meaning + p.weight names meaning := by
  simp [Phrase.weight]

@[simp] theorem Phrase.weight_append (p q : Phrase) :
    Phrase.weight names meaning (p ++ q) = p.weight names meaning + q.weight names meaning := by
  simp [Phrase.weight]

end Weight

namespace Rules

/-- The names abbreviate phrases: the alternatives of a name mean what the name does, and
the names inside them mean less. -/
structure Abbreviates (r : Rules) (names : List String) (meaning : Symbol → Phrase) : Prop where
  /-- A symbol that is none of the names means itself. -/
  meaning_eq : ∀ s, (∀ name ∈ names, s ≠ .nonterminal name) → meaning s = [s]
  /-- Each name has an alternative. -/
  exists_alternative : ∀ name ∈ names, ∃ p, p ∈ r.alternatives name
  /-- An alternative means what its name does. -/
  flatMap_eq : ∀ name ∈ names, ∀ p ∈ r.alternatives name,
    p.flatMap meaning = meaning (.nonterminal name)
  /-- The names in an alternative weigh less than its own name. -/
  weight_lt : ∀ name ∈ names, ∀ p ∈ r.alternatives name,
    p.weight names meaning < (meaning (.nonterminal name)).length

namespace Abbreviates

variable {r : Rules} {names : List String} {meaning : Symbol → Phrase} {p q : Phrase}
  (h : r.Abbreviates names meaning)

include h

theorem flatMap_eq_of_expands (hstep : r.Expands names p q) :
    q.flatMap meaning = p.flatMap meaning := by
  cases hstep with
  | replace before after hname hp => simp [h.flatMap_eq _ hname _ hp]

theorem weight_lt_of_expands (hstep : r.Expands names p q) :
    q.weight names meaning < p.weight names meaning := by
  cases hstep with
  | replace before after hname hp =>
    have hlt := h.weight_lt _ hname _ hp
    simp only [Phrase.weight_append, Phrase.weight_cons, Symbol.weight_of_mem hname]
    omega

/-- Steps come to an end, since each makes the phrase weigh less. -/
theorem wellFounded_expands : WellFounded fun q p => r.Expands names p q :=
  Subrelation.wf (fun hstep => h.weight_lt_of_expands hstep)
    (measure (Phrase.weight names meaning)).wf

/-- A phrase without steps means itself. -/
theorem flatMap_eq_self (hstep : ∀ q, ¬ r.Expands names p q) : p.flatMap meaning = p := by
  have hself : ∀ s ∈ p, meaning s = [s] := by
    intro s hs
    apply h.meaning_eq
    rintro name hname rfl
    -- an occurrence of a name could be replaced
    obtain ⟨before, after, rfl⟩ := List.append_of_mem hs
    obtain ⟨alternative, halternative⟩ := h.exists_alternative name hname
    exact hstep _ (.replace before after hname halternative)
  calc p.flatMap meaning = p.flatMap fun s => [s] := List.flatMap_congr hself
    _ = p := List.flatMap_singleton' p

theorem flatMap_eq_of_reflTransGen (hsteps : Relation.ReflTransGen (r.Expands names) p q) :
    q.flatMap meaning = p.flatMap meaning := by
  induction hsteps with
  | refl => rfl
  | tail _ hstep ih => exact (h.flatMap_eq_of_expands hstep).trans ih

theorem eq_flatMap_of_expandsFully (hfully : r.ExpandsFully names p q) :
    q = p.flatMap meaning := by
  obtain ⟨hsteps, hlast⟩ := hfully
  rw [← h.flatMap_eq_of_reflTransGen hsteps, h.flatMap_eq_self hlast]

/-- All ways to replace the names end with the meaning of the phrase. -/
theorem expandsFully_iff : r.ExpandsFully names p q ↔ q = p.flatMap meaning := by
  refine ⟨h.eq_flatMap_of_expandsFully, ?_⟩
  rintro rfl
  -- by induction along the steps, there is a way that ends
  have hexists : ∃ q, r.ExpandsFully names p q := by
    induction p using h.wellFounded_expands.induction with
    | _ p ih =>
      by_cases hstep : ∃ q, r.Expands names p q
      · obtain ⟨q, hpq⟩ := hstep
        obtain ⟨last, hsteps, hlast⟩ := ih q hpq
        exact ⟨last, .head hpq hsteps, hlast⟩
      · exact ⟨p, .refl, fun q hpq => hstep ⟨q, hpq⟩⟩
  obtain ⟨q, hfully⟩ := hexists
  rwa [← h.eq_flatMap_of_expandsFully hfully]

end Abbreviates

end Rules

/-! ## The meaning that a table gives -/

namespace NameTable

variable {κ : Type} {t : NameTable κ} {phrase : κ → Phrase} {s : Symbol} {p q : Phrase}

/-- The phrase that a symbol stands for. -/
def meaning (t : NameTable κ) (phrase : κ → Phrase) : Symbol → Phrase
  | .terminal name => [.terminal name]
  | .nonterminal name =>
    match t.entries.find? fun e => e.2 == name with
    | some e => phrase e.1
    | none => [.nonterminal name]

theorem Stands.meaning_eq (h : t.Stands phrase s p) (hnodup : t.names.Nodup) :
    t.meaning phrase s = p := by
  rcases h with ⟨hne, rfl⟩ | ⟨key, name, hmem, rfl, rfl⟩
  · cases s with
    | terminal name => rfl
    | nonterminal name =>
      have hnone : (t.entries.find? fun e => e.2 == name) = none := by
        simp only [List.find?_eq_none, beq_iff_eq]
        rintro ⟨key, other⟩ hmem rfl
        exact hne other (mem_names.2 ⟨key, hmem⟩) rfl
      rw [meaning, hnone]
  · cases hfind : t.entries.find? fun e => e.2 == name with
    | none =>
      have hne := List.find?_eq_none.1 hfind _ hmem
      exact absurd (beq_self_eq_true name) hne
    | some e =>
      have hname : e.2 = name := by simpa using List.find?_some hfind
      -- a name is given to one key only
      have heq := List.inj_on_of_nodup_map hnodup (List.mem_of_find?_eq_some hfind) hmem hname
      rw [meaning, hfind, heq]

theorem flatMap_meaning_of_unfolds (h : Unfolds (t.Stands phrase) q p)
    (hnodup : t.names.Nodup) : q.flatMap (t.meaning phrase) = p := by
  induction h with
  | nil => rfl
  | cons hs _ ih => rw [List.flatMap_cons, hs.meaning_eq hnodup, ih]

theorem meaning_of_forall_ne (h : ∀ name ∈ t.names, s ≠ .nonterminal name)
    (hnodup : t.names.Nodup) : t.meaning phrase s = [s] :=
  Stands.meaning_eq (Or.inl ⟨h, rfl⟩) hnodup

end NameTable

/-! ## Naming, undone -/

namespace Grammar

variable {κ : Type} {g : Grammar} {table : NameTable κ} {alternative : κ → Phrase}
  {f : Phrase → Option Phrase} {meaning : Symbol → Phrase} {lhs : String}

/-- The names of a table abbreviate what the same names stand for in another one, if the
alternatives of the names unfold to that and the names inside them weigh less. -/
theorem abbreviates_withNamed {κ' : Type} {strings : NameTable κ'} {phrase : κ' → Phrase}
    {rules : Rules} (hnodup : table.names.Nodup) (hnames : table.names = strings.names)
    (hnamed : ∀ key name, (key, name) ∈ table.entries → ∃ key', (key', name) ∈ strings.entries ∧
      Unfolds (strings.Stands phrase) (alternative key) (phrase key') ∧
        (alternative key).weight table.names (strings.meaning phrase) < (phrase key').length) :
    (g.withNamed rules table alternative).rules.Abbreviates table.names
      (strings.meaning phrase) := by
  have hnodup' : strings.names.Nodup := hnames ▸ hnodup
  -- the only alternative of a name, with what the name means
  have hname : ∀ name ∈ table.names, ∃ p,
      (g.withNamed rules table alternative).rules.alternatives name = [p] ∧
        p.flatMap (strings.meaning phrase) = strings.meaning phrase (.nonterminal name) ∧
          p.weight table.names (strings.meaning phrase)
            < (strings.meaning phrase (.nonterminal name)).length := by
    intro name hname
    obtain ⟨key, hkey⟩ := NameTable.mem_names.1 hname
    obtain ⟨key', hkey', hunfolds, hweight⟩ := hnamed key name hkey
    have hmeaning : strings.meaning phrase (.nonterminal name) = phrase key' :=
      (NameTable.Stands.of_entry hkey').meaning_eq hnodup'
    refine ⟨alternative key, alternatives_withNamed_of_mem hnodup hkey, ?_, hmeaning ▸ hweight⟩
    rw [hmeaning]
    exact NameTable.flatMap_meaning_of_unfolds hunfolds hnodup'
  refine ⟨fun s hs => NameTable.meaning_of_forall_ne (hnames ▸ hs) hnodup', ?_, ?_, ?_⟩
  · intro name hmem
    obtain ⟨p, heq, -, -⟩ := hname name hmem
    exact ⟨p, heq ▸ List.mem_singleton_self p⟩
  · intro name hmem q hq
    obtain ⟨p, heq, hmeans, -⟩ := hname name hmem
    rw [heq, List.mem_singleton] at hq
    rw [hq, hmeans]
  · intro name hmem q hq
    obtain ⟨p, heq, -, hweight⟩ := hname name hmem
    rw [heq, List.mem_singleton] at hq
    rwa [hq]

/-- Where replacements mean what they replace, the new alternatives are those of the old
ones that are left without repetitions, each in its place. -/
theorem forall₂_alternatives_withNamed
    (hreplaced : ∀ p ∈ g.rules.alternatives lhs, ∃ q, f p = some q ∧ q.flatMap meaning = p)
    (hlhs : lhs ∉ table.names) :
    List.Forall₂ (fun q p => p ∈ g.rules.alternatives lhs ∧ f p = some q)
      ((g.withNamed (g.rules.replaced f) table alternative).rules.alternatives lhs)
      (distinct (g.rules.alternatives lhs)) := by
  rw [alternatives_withNamed_of_notMem hlhs, Rules.alternatives_replaced]
  exact forall₂_distinct_filterMap hreplaced

/-- Replacing the names gives back the old alternatives. -/
theorem restores_withNamed
    (h : (g.withNamed (g.rules.replaced f) table alternative).rules.Abbreviates table.names
      meaning)
    (hreplaced : ∀ lhs, ∀ p ∈ g.rules.alternatives lhs, ∃ q, f p = some q ∧ q.flatMap meaning = p)
    (hkeys : ∀ lhs ∈ g.rules.keys, lhs ∉ table.names) :
    (g.withNamed (g.rules.replaced f) table alternative).rules.Restores table.names g.rules where
  terminates := h.wellFounded_expands
  restores lhs hlhs := by
    apply (forall₂_alternatives_withNamed (hreplaced lhs) (hkeys lhs hlhs)).imp
    rintro q p ⟨hp, hf⟩ p'
    obtain ⟨q', hf', rfl⟩ := hreplaced lhs p hp
    obtain rfl := Option.some.inj (hf.symm.trans hf')
    exact h.expandsFully_iff

end Grammar

end Chomsky
