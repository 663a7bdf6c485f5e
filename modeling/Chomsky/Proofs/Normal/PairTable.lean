import Chomsky.Normal.Binary
import Chomsky.Proofs.Name.Table
import Chomsky.Proofs.Normal.Known

/-!
# Pairs and the strings they are folded from

A pair gets a name for the string that it was folded from. So the table of pairs
is, entry by entry, a table of strings: one that learns the ends of at least two
symbols of every alternative less its first symbol, the shortest end first. Both
hand out the same names, because two strings are folded to one symbol only if
they are the same string.

## What this module delivers

- `Phrase.ends` and `Rules.endTable`, the strings that are named and their table.
- `NameTable.standIn?`, the symbol for a string, and `FoldedFrom`, the string for a
  pair.
- `PairTable.Mirrors` and `PairTable.Mirrors.foldTail?_eq`: where the tables agree,
  folding a string gives the symbol for it.
- `Rules.mirrors_pairTable`: the tables of the rules agree.
-/

set_option autoImplicit false

namespace Chomsky

/-! ## The ends of a phrase -/

/-- The ends of at least two symbols, the shortest first. -/
def Phrase.ends : Phrase → List Phrase
  | first :: second :: rest => Phrase.ends (second :: rest) ++ [first :: second :: rest]
  | _ => []

theorem Phrase.mem_ends {p k : Phrase} : k ∈ p.ends ↔ k <:+ p ∧ 2 ≤ k.length := by
  induction p with
  | nil =>
    constructor
    · exact fun h => absurd h List.not_mem_nil
    · rintro ⟨h, hlen⟩
      exact absurd (Nat.le_trans hlen h.length_le) (Nat.not_succ_le_zero 1)
  | cons first p ih =>
    cases p with
    | nil =>
      constructor
      · exact fun h => absurd h List.not_mem_nil
      · rintro ⟨h, hlen⟩
        exact absurd (Nat.le_trans hlen h.length_le) (Nat.not_succ_le_self 1)
    | cons second rest =>
      -- the longest end is the phrase itself
      rw [Phrase.ends, List.mem_append, List.mem_singleton, ih,
        List.suffix_cons_iff (a := first)]
      constructor
      · rintro (⟨h, hlen⟩ | rfl)
        · exact ⟨Or.inr h, hlen⟩
        · exact ⟨Or.inl rfl, by simp⟩
      · rintro ⟨rfl | h, hlen⟩
        · exact Or.inr rfl
        · exact Or.inl ⟨h, hlen⟩

theorem Phrase.length_ends (p : Phrase) : p.ends.length = p.length - 1 := by
  induction p with
  | nil => rfl
  | cons first p ih =>
    cases p with
    | nil => rfl
    | cons second rest => simp [Phrase.ends, ih]

/-- The ends of a phrase have different lengths. -/
theorem Phrase.nodup_ends (p : Phrase) : p.ends.Nodup := by
  induction p with
  | nil => exact List.nodup_nil
  | cons first p ih =>
    cases p with
    | nil => exact List.nodup_nil
    | cons second rest =>
      have hlonger : first :: second :: rest ∉ Phrase.ends (second :: rest) := by
        intro hmem
        have hle := (Phrase.mem_ends.1 hmem).1.length_le
        exact Nat.not_succ_le_self _ hle
      rw [Phrase.ends, List.nodup_append]
      exact ⟨ih, List.nodup_singleton _, fun k hk l hl heq =>
        hlonger (List.mem_singleton.1 hl ▸ heq ▸ hk)⟩

theorem Phrase.exists_eq_cons_cons {p : Phrase} (h : 2 ≤ p.length) :
    ∃ first second rest, p = first :: second :: rest := by
  match p with
  | [] => exact absurd h (Nat.not_succ_le_zero 1)
  | [_] => exact absurd h (Nat.not_succ_le_self 1)
  | first :: second :: rest => exact ⟨first, second, rest, rfl⟩

theorem Phrase.binarize?_of_lt {table : PairTable} {p : Phrase} (h : p.length < 2) :
    p.binarize? table = some p := by
  match p with
  | [] => rfl
  | [_] => rfl
  | _ :: _ :: rest => exact absurd h (Nat.not_lt.2 (Nat.le_add_left 2 rest.length))

/-- The strings that are named when the alternatives are split. -/
def Rules.ends (r : Rules) : List Phrase := r.phrases.flatMap fun p => Phrase.ends p.tail

theorem Rules.mem_ends {r : Rules} {k : Phrase} :
    k ∈ r.ends ↔ ∃ lhs, ∃ p ∈ r.alternatives lhs, k <:+ p.tail ∧ 2 ≤ k.length := by
  simp only [Rules.ends, List.mem_flatMap, Rules.mem_phrases_iff, Phrase.mem_ends]
  constructor
  · rintro ⟨p, ⟨lhs, hp⟩, hk⟩
    exact ⟨lhs, p, hp, hk⟩
  · rintro ⟨lhs, p, hp, hk⟩
    exact ⟨p, ⟨lhs, hp⟩, hk⟩

/-! ## Tables of strings -/

namespace NameTable

variable {κ : Type} [DecidableEq κ]

/-- The symbol that stands for a string: a single symbol for itself, and for a
longer string the name of it. -/
def standIn? (table : NameTable Phrase) : Phrase → Option Symbol
  | [s] => some s
  | p => (table.find? p).map .nonterminal

variable {table : NameTable Phrase} {pool : NamePool} {keys : List Phrase} {p q : Phrase}
  {s : Symbol}

theorem standIn?_cons_cons (first second : Symbol) (rest : Phrase) :
    table.standIn? (first :: second :: rest)
      = (table.find? (first :: second :: rest)).map .nonterminal := rfl

theorem standIn?_of_two_le (h : 2 ≤ p.length) :
    table.standIn? p = (table.find? p).map .nonterminal := by
  obtain ⟨first, second, rest, rfl⟩ := Phrase.exists_eq_cons_cons h
  rfl

/-- Strings without fresh names have different symbols. -/
theorem standIn?_injective (hp : p.Avoids pool) (hq : q.Avoids pool)
    (h : (assigned pool keys).standIn? p = some s) (h' : (assigned pool keys).standIn? q = some s) :
    p = q := by
  -- no string has a name that occurs in a string without fresh names
  have hsingle : ∀ {x : Symbol} {k : Phrase}, Phrase.Avoids [x] pool →
      ((assigned pool keys).find? k).map .nonterminal ≠ some x := by
    intro x k hx heq
    obtain ⟨name, hname, rfl⟩ := Option.map_eq_some_iff.1 heq
    exact hx name (mem_free_of_find? hname) (List.mem_singleton_self _)
  unfold standIn? at h h'
  split at h <;> split at h'
  · rw [Option.some.inj h, Option.some.inj h']
  · exact absurd (h'.trans h.symm) (hsingle hp)
  · exact absurd (h.trans h'.symm) (hsingle hq)
  · obtain ⟨name, hname, rfl⟩ := Option.map_eq_some_iff.1 h
    obtain ⟨other, hother, heq⟩ := Option.map_eq_some_iff.1 h'
    rw [Symbol.nonterminal.inj heq] at hother
    exact find?_injective hname hother

theorem standIn?_learn {k : Phrase} (h : table.standIn? p = some s) :
    (table.learn k).standIn? p = some s := by
  unfold standIn? at h ⊢
  split at h
  · exact h
  · obtain ⟨name, hname, rfl⟩ := Option.map_eq_some_iff.1 h
    rw [find?_learn hname]
    rfl

end NameTable

/-- Look-up of two keys in related lists, if related entries have the same name and
agree on these keys. -/
theorem lookup_eq_of_forall₂ {κ κ' : Type} [DecidableEq κ] [DecidableEq κ'] {k : κ} {k' : κ'}
    {related : κ × String → κ' × String → Prop} {l : List (κ × String)} {l' : List (κ' × String)}
    (h : List.Forall₂ related l l')
    (hrelated : ∀ e, ∀ e' ∈ l', related e e' → e.2 = e'.2 ∧ (k = e.1 ↔ k' = e'.1)) :
    l.lookup k = l'.lookup k' := by
  induction h with
  | nil => rfl
  | @cons e e' _ _ hhead _ ih =>
    obtain ⟨hname, hkey⟩ := hrelated e e' List.mem_cons_self hhead
    have hbeq : (k == e.1) = (k' == e'.1) := by
      rw [Bool.eq_iff_iff, beq_iff_eq, beq_iff_eq]
      exact hkey
    have hrest := ih fun x x' hx' => hrelated x x' (List.mem_cons_of_mem e' hx')
    rw [List.lookup_cons, List.lookup_cons, hbeq, hrest, hname]

/-! ## Pairs and strings -/

/-- The pair was folded from the string: it consists of the first symbol and of
what stands for the others. -/
def FoldedFrom (table : NameTable Phrase) (pair : Symbol × Symbol) (k : Phrase) : Prop :=
  ∃ second rest, k = pair.1 :: second :: rest ∧ table.standIn? (second :: rest) = some pair.2

theorem FoldedFrom.two_le {table : NameTable Phrase} {pair : Symbol × Symbol} {k : Phrase}
    (h : FoldedFrom table pair k) : 2 ≤ k.length := by
  obtain ⟨second, rest, rfl, -⟩ := h
  exact Nat.le_add_left 2 rest.length

theorem FoldedFrom.learn {table : NameTable Phrase} {pair : Symbol × Symbol} {k : Phrase}
    (h : FoldedFrom table pair k) (key : Phrase) : FoldedFrom (table.learn key) pair k := by
  obtain ⟨second, rest, hk, htail⟩ := h
  exact ⟨second, rest, hk, NameTable.standIn?_learn htail⟩

/-- A string is folded to one pair only. -/
theorem FoldedFrom.unique {table : NameTable Phrase} {pair pair' : Symbol × Symbol} {k : Phrase}
    (h : FoldedFrom table pair k) (h' : FoldedFrom table pair' k) : pair = pair' := by
  obtain ⟨second, rest, rfl, htail⟩ := h
  obtain ⟨second', rest', hk, htail'⟩ := h'
  obtain ⟨hfirst, hend⟩ := List.cons.inj hk
  rw [← hend, htail] at htail'
  exact Prod.ext hfirst (Option.some.inj htail')

/-- The pairs are the strings of the other table, folded, with the same names. -/
structure PairTable.Mirrors (t : PairTable) (table : NameTable Phrase) : Prop where
  /-- Both have the same names left. -/
  pool_eq : t.pool = table.pool
  /-- Each pair was folded from the string with its name. -/
  folded : List.Forall₂ (fun e e' => e.2 = e'.2 ∧ FoldedFrom table e.1 e'.1) t.entries
    table.entries

namespace PairTable.Mirrors

variable {t : PairTable} {pool : NamePool} {keys : List Phrase} {first second : Symbol}
  {rest k : Phrase} {tail : Symbol} {table : NameTable Phrase} {name : String}
  {pair : Symbol × Symbol}

theorem exists_pair (h : t.Mirrors table) (hk : (k, name) ∈ table.entries) :
    ∃ pair, (pair, name) ∈ t.entries ∧ FoldedFrom table pair k := by
  obtain ⟨⟨pair, n⟩, hmem, rfl, hfolded⟩ := (exists_mem_of_forall₂ h.folded).2 _ hk
  exact ⟨pair, hmem, hfolded⟩

theorem mem_entries_iff (h : t.Mirrors table) :
    (pair, name) ∈ t.entries ↔ ∃ k, (k, name) ∈ table.entries ∧ FoldedFrom table pair k := by
  constructor
  · intro hpair
    obtain ⟨⟨k, n⟩, hmem, rfl, hfolded⟩ := (exists_mem_of_forall₂ h.folded).1 _ hpair
    exact ⟨k, hmem, hfolded⟩
  · rintro ⟨k, hk, hfolded⟩
    obtain ⟨pair', hmem, hfolded'⟩ := h.exists_pair hk
    rwa [hfolded.unique hfolded']

theorem names_eq (h : t.Mirrors table) : t.names = table.names := by
  rw [NameTable.names, NameTable.names, ← List.forall₂_eq_eq_eq (α := String),
    List.forall₂_map_left_iff, List.forall₂_map_right_iff]
  exact h.folded.imp fun _ _ hboth => hboth.1

/-- A string whose end has no symbol is not in the table itself. -/
theorem find?_eq_none (h : t.Mirrors table) (hnone : table.standIn? (second :: rest) = none) :
    table.find? (first :: second :: rest) = none := by
  cases hfind : table.find? (first :: second :: rest) with
  | none => rfl
  | some name =>
    obtain ⟨pair, -, second', rest', heq, htail⟩ :=
      h.exists_pair (NameTable.mem_of_lookup_eq_some hfind)
    rw [(List.cons.inj heq).2] at hnone
    exact absurd (htail.symm.trans hnone) (Option.some_ne_none _)

/-- All ends of a string that has a symbol have one. -/
theorem isSome_standIn?_of_suffix (h : t.Mirrors table) {p : Phrase}
    (hp : (table.standIn? p).isSome = true) (hk : k <:+ p) (hne : k ≠ []) :
    (table.standIn? k).isSome = true := by
  induction p with
  | nil => exact absurd (List.suffix_nil.1 hk) hne
  | cons first p ih =>
    rcases List.suffix_cons_iff.1 hk with rfl | hk
    · exact hp
    · cases p with
      | nil => exact absurd (List.suffix_nil.1 hk) hne
      | cons second rest =>
        refine ih ?_ hk
        cases htail : table.standIn? (second :: rest) with
        | some tail => rfl
        | none =>
          rw [NameTable.standIn?_cons_cons, h.find?_eq_none htail] at hp
          exact absurd hp Bool.false_ne_true

/-- A pair has the name of the string that it was folded from. -/
theorem find?_eq (first : Symbol) (h : t.Mirrors (.assigned pool keys))
    (hkeys : ∀ k ∈ keys, k.Avoids pool)
    (hrest : Phrase.Avoids (second :: rest) pool)
    (htail : (NameTable.assigned pool keys).standIn? (second :: rest) = some tail) :
    t.find? (first, tail) = (NameTable.assigned pool keys).find? (first :: second :: rest) := by
  apply lookup_eq_of_forall₂ h.folded
  rintro ⟨⟨first', tail'⟩, name⟩ ⟨k, name'⟩ hmem ⟨hname, second', rest', hk, htail'⟩
  subst hk
  refine ⟨hname, ?_⟩
  have hrest' : Phrase.Avoids (second' :: rest') pool :=
    (hkeys _ (List.of_mem_zip hmem).1).of_suffix (List.suffix_cons _ _)
  -- equal pairs have equal first symbols and equal strings behind them
  constructor
  · intro heq
    obtain ⟨rfl, rfl⟩ := Prod.mk.inj heq
    rw [NameTable.standIn?_injective hrest hrest' htail htail']
  · intro heq
    obtain ⟨rfl, hends⟩ := List.cons.inj heq
    rw [hends] at htail
    exact congrArg _ (Option.some.inj (htail.symm.trans htail'))

/-- Folding a string gives the symbol that stands for it. -/
theorem foldTail?_eq (h : t.Mirrors (.assigned pool keys)) (hkeys : ∀ k ∈ keys, k.Avoids pool)
    (hp : Phrase.Avoids (first :: rest) pool) :
    foldTail? t first rest = (NameTable.assigned pool keys).standIn? (first :: rest) := by
  induction rest generalizing first with
  | nil => rfl
  | cons second rest ih =>
    have hrest : Phrase.Avoids (second :: rest) pool := hp.of_suffix (List.suffix_cons _ _)
    rw [foldTail?, ih hrest, NameTable.standIn?_cons_cons first]
    cases htail : (NameTable.assigned pool keys).standIn? (second :: rest) with
    | none => rw [h.find?_eq_none htail, Option.map_none]
    | some tail =>
      exact congrArg (Option.map Symbol.nonterminal) (h.find?_eq first hkeys hrest htail)

/-! ### Learning -/

/-- Learning a pair keeps pace with learning the string that it is folded from. -/
theorem learn (h : t.Mirrors (.assigned pool keys)) (hkeys : ∀ k ∈ keys, k.Avoids pool)
    (hrest : Phrase.Avoids (second :: rest) pool)
    (htail : (NameTable.assigned pool keys).standIn? (second :: rest) = some tail) :
    PairTable.Mirrors (NameTable.learn t (first, tail))
      ((NameTable.assigned pool keys).learn (first :: second :: rest)) := by
  have hfind := h.find?_eq first hkeys hrest htail
  cases hknown : (NameTable.assigned pool keys).find? (first :: second :: rest) with
  -- the string is known, and so is the pair
  | some name =>
    rw [NameTable.learn_of_find?_eq_some hknown,
      NameTable.learn_of_find?_eq_some (hfind.trans hknown)]
    exact h
  | none =>
    cases hfresh : (NameTable.assigned pool keys).pool.fresh with
    | none =>
      rw [NameTable.learn_of_fresh_eq_none hfresh,
        NameTable.learn_of_fresh_eq_none (h.pool_eq ▸ hfresh)]
      exact h
    | some drawn =>
      -- both draw the same name, and all earlier pairs keep theirs
      have hnew : FoldedFrom ((NameTable.assigned pool keys).learn (first :: second :: rest))
          (first, tail) (first :: second :: rest) := .learn ⟨second, rest, rfl, htail⟩ _
      have hold := h.folded.imp fun _ _ hboth =>
        And.imp_right (·.learn (first :: second :: rest)) hboth
      rw [NameTable.learn_of_fresh_eq_some hknown hfresh] at hnew hold ⊢
      rw [NameTable.learn_of_fresh_eq_some (hfind.trans hknown) (h.pool_eq ▸ hfresh)]
      exact ⟨rfl, List.rel_append hold (.cons ⟨rfl, hnew⟩ .nil)⟩

theorem learnTail (h : t.Mirrors (.assigned pool keys)) (hkeys : ∀ k ∈ keys, k.Avoids pool)
    (hp : Phrase.Avoids (first :: rest) pool) :
    (learnTail t first rest).Mirrors
      (.assigned pool (pushAll keys (Phrase.ends (first :: rest)))) := by
  induction rest generalizing first with
  | nil => exact h
  | cons second rest ih =>
    have hrest : Phrase.Avoids (second :: rest) pool := hp.of_suffix (List.suffix_cons _ _)
    -- the shorter ends are learned first
    have hends : ∀ k ∈ pushAll keys (Phrase.ends (second :: rest)), k.Avoids pool := by
      intro k hk
      rcases mem_pushAll.1 hk with hk | hk
      · exact hkeys k hk
      · exact hrest.of_suffix (Phrase.mem_ends.1 hk).1
    have hbefore := ih hrest
    rw [Chomsky.learnTail, hbefore.foldTail?_eq hends hrest, Phrase.ends, pushAll_append,
      pushAll_cons, pushAll_nil, ← NameTable.learn_assigned]
    cases htail : (NameTable.assigned pool (pushAll keys (Phrase.ends (second :: rest)))).standIn?
        (second :: rest) with
    | none =>
      -- the end was learned just now, so it lacks a name only if no names are left
      have hlong : 2 ≤ (second :: rest).length := by
        cases rest with
        | nil => exact absurd htail (Option.some_ne_none _)
        | cons third rest => exact Nat.le_add_left 2 rest.length
      have hmem : second :: rest ∈ pushAll keys (Phrase.ends (second :: rest)) :=
        mem_pushAll.2 (Or.inr (Phrase.mem_ends.2 ⟨List.suffix_rfl, hlong⟩))
      rw [NameTable.standIn?_of_two_le hlong, Option.map_eq_none_iff] at htail
      rw [NameTable.learn_of_fresh_eq_none (NameTable.fresh_eq_none_of_find?_eq_none hmem htail)]
      exact hbefore
    | some tail => exact hbefore.learn hends hrest htail

theorem learnPhrase (h : t.Mirrors (.assigned pool keys)) (hkeys : ∀ k ∈ keys, k.Avoids pool)
    (hp : k.Avoids pool) :
    (t.learnPhrase k).Mirrors (.assigned pool (pushAll keys (Phrase.ends k.tail))) := by
  match k, hp with
  | [], _ => exact h
  | [_], _ => exact h
  | _ :: second :: rest, hp => exact h.learnTail hkeys (hp.of_suffix (List.suffix_cons _ _))

end PairTable.Mirrors

/-- The table of the strings that are named. -/
def Rules.endTable (r : Rules) (pool : NamePool) : NameTable Phrase :=
  .assigned pool (distinct r.ends)

theorem PairTable.mirrors_foldl {t : PairTable} {pool : NamePool} {keys ps : List Phrase}
    (h : t.Mirrors (.assigned pool keys)) (hkeys : ∀ k ∈ keys, k.Avoids pool)
    (hps : ∀ p ∈ ps, p.Avoids pool) :
    (ps.foldl PairTable.learnPhrase t).Mirrors
      (.assigned pool (pushAll keys (ps.flatMap fun p => Phrase.ends p.tail))) := by
  induction ps generalizing t keys with
  | nil => exact h
  | cons p ps ih =>
    have hp : p.Avoids pool := hps p List.mem_cons_self
    rw [List.foldl_cons, List.flatMap_cons, pushAll_append]
    refine ih (h.learnPhrase hkeys hp) ?_ fun q hq => hps q (List.mem_cons_of_mem p hq)
    intro k hk
    rcases mem_pushAll.1 hk with hk | hk
    · exact hkeys k hk
    · exact hp.of_suffix ((Phrase.mem_ends.1 hk).1.trans (List.tail_suffix p))

/-- The table of pairs names the ends of the alternatives. -/
theorem Rules.mirrors_pairTable {r : Rules} {pool : NamePool}
    (h : ∀ lhs, ∀ p ∈ r.alternatives lhs, p.Avoids pool) :
    (r.pairTable pool).Mirrors (r.endTable pool) := by
  have hempty : PairTable.Mirrors (.ofPool pool) (.assigned pool []) := ⟨by
    rw [NameTable.assigned, List.length_nil, NamePool.drawn_zero]
    rfl, .nil⟩
  refine PairTable.mirrors_foldl hempty (fun k hk => absurd hk List.not_mem_nil) fun p hp => ?_
  obtain ⟨lhs, hmem⟩ := Rules.mem_phrases_iff.1 hp
  exact h lhs p hmem

end Chomsky
