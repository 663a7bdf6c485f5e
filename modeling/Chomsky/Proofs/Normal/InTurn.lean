import Chomsky.Normal.Binary
import Chomsky.Normal.IsolatedTerminals
import Chomsky.Proofs.Name.Inquiry
import Chomsky.Proofs.Normal.Naming

/-!
# Names drawn alternative by alternative

The two phases that name parts of alternatives learn all names first and replace afterwards.
They can also be carried out in one walk: rule by rule, alternative by alternative and symbol
by symbol, a name being drawn where it is needed, and the walk breaking off where the names
run out. The outcome is the same, and so is the pool, for every grammar and every pool.

The walk shows more of what happens. It is one inquiry, so what holds of all inquiries holds
of both phases, also where a grammar does not hold together.

## What this module delivers

- `Phrase.isolating` and `Phrase.binarizing`, the walks through one alternative, and
  `Rules.replacing`, the walk through all rules.
- `Grammar.namedBy`, the outcome of a walk for the grammar.
- `Grammar.isolateTerminals_eq_namedBy` and `Grammar.binarize_eq_namedBy`: the phases are
  walks.
-/

set_option autoImplicit false

namespace Chomsky

/-! ## The walk through all rules -/

/-- The entries of a map make up the map. -/
theorem NameMap.ofList_entries {α : Type} (m : NameMap α) : ofList m.entries = m := by
  apply NameMap.ext
  intro k
  cases hget : m.get? k with
  | some v =>
    exact get?_insertMany_of_mem (NameSet.nodup_toList m.keys) (mem_entries_iff.2 hget)
  | none =>
    have hkey : k ∉ m.entries.map Prod.fst := get?_eq_none_iff.1 hget
    exact get?_insertMany_of_notMem hkey

namespace Rules

variable {κ : Type}

/-- The walk through one rule that replaces its alternatives. Of those that have come to be
the same the first one is kept. -/
def replacingRule (f : Phrase → Inquiry κ Phrase) (e : String × List Phrase) :
    Inquiry κ (String × List Phrase) :=
  (Inquiry.forEach f e.2).bind fun ps => .done (e.1, distinct ps)

/-- The walk through all rules, in the order of their names. -/
def replacing (r : Rules) (f : Phrase → Inquiry κ Phrase) : Inquiry κ Rules :=
  (Inquiry.forEach (replacingRule f) r.entries).bind fun es => .done (NameMap.ofList es)

variable [DecidableEq κ] {f : Phrase → Inquiry κ Phrase} {t : NameTable κ}

theorem read_replacingRule (e : String × List Phrase) : (replacingRule f e).read t =
    (e.2.mapM fun p => (f p).read t).map fun ps => (e.1, distinct ps) := by
  rw [replacingRule, Inquiry.read_bind, Inquiry.read_forEach, Option.map_eq_bind]
  rfl

/-- With the names of a table, the walk replaces by look-up. -/
theorem read_replacing (r : Rules) (f : Phrase → Inquiry κ Phrase) (t : NameTable κ) :
    (r.replacing f).read t = r.replace? fun p => (f p).read t := by
  rw [replacing, Inquiry.read_bind, Inquiry.read_forEach]
  by_cases h : ∀ lhs, ∀ p ∈ r.alternatives lhs, ((f p).read t).isSome = true
  · have hrule : ∀ e ∈ r.entries, (replacingRule f e).read t =
        some (e.1, distinct (e.2.filterMap fun p => (f p).read t)) := by
      rintro ⟨lhs, ps⟩ he
      have hps : ∀ p ∈ ps, ((f p).read t).isSome = true := fun p hp =>
        h lhs p (mem_alternatives_iff.2 ⟨ps, NameMap.mem_entries_iff.1 he, hp⟩)
      rw [read_replacingRule, mapM_eq_some hps]
      rfl
    have hrules : r.entries.mapM (fun e => (replacingRule f e).read t)
        = some (r.replaced fun p => (f p).read t).entries := by
      rw [mapM_eq_some fun e he => by rw [hrule e he]; rfl, List.filterMap_congr hrule,
        List.filterMap_eq_map']
      rfl
    rw [hrules, replace?_eq_some h]
    exact congrArg some (NameMap.ofList_entries _)
  · push Not at h
    obtain ⟨lhs, p, hp, hnone⟩ := h
    obtain ⟨ps, hget, hmem⟩ := mem_alternatives_iff.1 hp
    have hrule : (replacingRule f (lhs, ps)).read t = none := by
      rw [read_replacingRule, mapM_eq_none hmem (Option.not_isSome_iff_eq_none.1 hnone)]
      rfl
    rw [mapM_eq_none (NameMap.mem_entries_iff.2 hget) hrule,
      replace?_eq_none hp (Bool.eq_false_iff.2 hnone)]
    rfl

/-- The table after the walk has learned what each alternative asks for. -/
theorem snd_run_replacing (r : Rules) (f : Phrase → Inquiry κ Phrase) (t : NameTable κ) :
    ((r.replacing f).run t).2 = r.phrases.foldl (fun t p => ((f p).run t).2) t := by
  have hrule : ∀ (t : NameTable κ) (e : String × List Phrase),
      ((replacingRule f e).run t).2 = e.2.foldl (fun t p => ((f p).run t).2) t := by
    intro t e
    rw [replacingRule, Inquiry.snd_run_bind_done, Inquiry.snd_run_forEach]
  rw [replacing, Inquiry.snd_run_bind_done, Inquiry.snd_run_forEach, phrases, NameMap.values,
    List.foldl_flatten, List.foldl_map]
  simp only [hrule]

end Rules

namespace Grammar

variable {κ : Type} [DecidableEq κ]

/-- What becomes of a grammar when a walk through its rules draws the names of a pool. -/
def namedBy (g : Grammar) (f : Phrase → Inquiry κ Phrase) (alternative : κ → Phrase)
    (pool : NamePool) : Except NormalizationError Grammar × NamePool :=
  let answer := (g.rules.replacing f).run (.ofPool pool)
  match answer.1 with
  | some rules => (.ok (g.withNamed rules answer.2 alternative), answer.2.pool)
  | none => (.error (.namesExhausted pool.scheme.capacity), answer.2.pool)

/-- The outcome can be read off the table that has learned from all alternatives. -/
theorem namedBy_eq {g : Grammar} {f : Phrase → Inquiry κ Phrase} {alternative : κ → Phrase}
    {pool : NamePool} {table : NameTable κ}
    (h : g.rules.phrases.foldl (fun t p => ((f p).run t).2) (.ofPool pool) = table) :
    g.namedBy f alternative pool =
      match g.rules.replace? fun p => (f p).read table with
      | some rules => (.ok (g.withNamed rules table alternative), table.pool)
      | none => (.error (.namesExhausted pool.scheme.capacity), table.pool) := by
  simp only [namedBy, Inquiry.fst_run, Rules.read_replacing, Rules.snd_run_replacing, h]

end Grammar

/-! ## Isolating terminals -/

/-- A terminal gives way to its name. -/
def Symbol.isolating : Symbol → Inquiry String Symbol
  | .terminal name => .ask name fun fresh => .done (.nonterminal fresh)
  | .nonterminal name => .done (.nonterminal name)

/-- The walk through one alternative that isolates its terminals. -/
def Phrase.isolating (p : Phrase) : Inquiry String Phrase :=
  if 2 ≤ p.length then .forEach Symbol.isolating p else .done p

theorem Phrase.read_isolating (p : Phrase) (t : NameTable String) :
    p.isolating.read t = p.isolate? t := by
  have hsymbol : ∀ s : Symbol, s.isolating.read t = s.isolate? t := by
    intro s
    cases s with
    | nonterminal name => rfl
    | terminal name =>
      rw [Symbol.isolate?, Option.map_eq_bind]
      rfl
  unfold Phrase.isolating Phrase.isolate?
  split
  · rw [Inquiry.read_forEach]
    simp only [hsymbol]
  · rfl

theorem Phrase.snd_run_isolating (p : Phrase) (t : NameTable String) :
    (p.isolating.run t).2 = if 2 ≤ p.length then t.learnAll p.terminals else t := by
  have hsymbol : ∀ (t : NameTable String) (s : Symbol),
      (s.isolating.run t).2 = s.terminal?.elim t t.learn := by
    intro t s
    cases s with
    | nonterminal name => rfl
    | terminal name => exact Inquiry.snd_run_ask_done name Symbol.nonterminal t
  unfold Phrase.isolating
  split
  · rw [Inquiry.snd_run_forEach, NameTable.learnAll, Phrase.terminals, List.foldl_filterMap]
    congr 1
    funext t s
    rw [hsymbol]
    cases s.terminal? <;> rfl
  · rfl

theorem Rules.foldl_isolating (r : Rules) (pool : NamePool) :
    r.phrases.foldl (fun t p => (p.isolating.run t).2) (.ofPool pool) = r.terminalTable pool := by
  rw [terminalTable, terminalsToIsolate, NameTable.learnAll, List.foldl_flatMap, List.foldl_filter]
  simp only [Phrase.snd_run_isolating, decide_eq_true_eq, NameTable.learnAll]

/-- Isolating terminals is a walk. -/
theorem Grammar.isolateTerminals_eq_namedBy (g : Grammar) (pool : NamePool) :
    g.isolateTerminals pool = g.namedBy Phrase.isolating (fun name => [.terminal name]) pool := by
  rw [namedBy_eq (g.rules.foldl_isolating pool)]
  simp only [Phrase.read_isolating]
  rfl

/-! ## Splitting alternatives -/

/-- The walk through `first :: rest` that folds it from its end, the last pair first. -/
def folding : (first : Symbol) → (rest : Phrase) → Inquiry (Symbol × Symbol) Symbol
  | first, [] => .done first
  | first, second :: rest =>
      (folding second rest).bind fun tail =>
        .ask (first, tail) fun fresh => .done (.nonterminal fresh)

/-- The walk through one alternative that folds all symbols after its first one. -/
def Phrase.binarizing : Phrase → Inquiry (Symbol × Symbol) Phrase
  | first :: second :: rest => (folding second rest).bind fun tail => .done [first, tail]
  | p => .done p

theorem read_folding (first : Symbol) (rest : Phrase) (t : PairTable) :
    (folding first rest).read t = foldTail? t first rest := by
  induction rest generalizing first with
  | nil => rfl
  | cons second rest ih =>
    rw [folding, Inquiry.read_bind, ih, foldTail?]
    cases foldTail? t second rest with
    | none => rfl
    | some tail => exact Option.map_eq_bind.symm

theorem snd_run_folding (first : Symbol) (rest : Phrase) (t : PairTable) :
    ((folding first rest).run t).2 = learnTail t first rest := by
  induction rest generalizing first with
  | nil => rfl
  | cons second rest ih =>
    have hresult := Inquiry.fst_run (folding second rest) t
    rw [read_folding, ih] at hresult
    rw [folding, learnTail]
    cases htail : foldTail? (learnTail t second rest) second rest with
    | none =>
      rw [htail] at hresult
      rw [Inquiry.run_bind_of_none hresult, ih]
    | some tail =>
      rw [htail] at hresult
      rw [Inquiry.run_bind_of_some hresult, Inquiry.snd_run_ask_done, ih]

theorem Phrase.read_binarizing (p : Phrase) (t : PairTable) :
    p.binarizing.read t = p.binarize? t := by
  match p with
  | [] => rfl
  | [_] => rfl
  | first :: second :: rest =>
    rw [binarizing, Inquiry.read_bind, read_folding, binarize?, Option.map_eq_bind]
    rfl

theorem Phrase.snd_run_binarizing (p : Phrase) (t : PairTable) :
    (p.binarizing.run t).2 = t.learnPhrase p := by
  match p with
  | [] => rfl
  | [_] => rfl
  | first :: second :: rest =>
    rw [binarizing, Inquiry.snd_run_bind_done, snd_run_folding]
    rfl

/-- Splitting alternatives is a walk. -/
theorem Grammar.binarize_eq_namedBy (g : Grammar) (pool : NamePool) :
    g.binarize pool = g.namedBy Phrase.binarizing (fun pair => [pair.1, pair.2]) pool := by
  have htable : g.rules.phrases.foldl (fun t p => (p.binarizing.run t).2) (.ofPool pool)
      = g.rules.pairTable pool := by
    simp only [Phrase.snd_run_binarizing]
    rfl
  rw [namedBy_eq htable]
  simp only [Phrase.read_binarizing]
  rfl

end Chomsky
