import Chomsky.Proofs.Normal.NormalForm

/-!
# What a run leaves alone

Each phase leaves a grammar as it is, to the order of its alternatives, when there
is nothing for it to do and no rule has an alternative twice. A grammar in normal
form gives none of the phases anything to do, so a second run ends with the grammar
that the first one ended with, whatever its settings are.

## What this module delivers

- One lemma for each phase, with the weakest condition under which it changes
  nothing: `Grammar.isolateStart_eq_self`, `Grammar.removeNull_eq_self`,
  `Grammar.removeUnits_eq_self`, `Grammar.prune_eq_self`,
  `Grammar.isolateTerminals_eq_self` and `Grammar.binarize_eq_self`.
- `normalize_eq_self`: a grammar in normal form that holds together is its own
  normal form.
- `normalize_idempotent`: so the result of a run is.
-/

set_option autoImplicit false

namespace Chomsky

variable {g : Grammar} {pool : NamePool}

/-! ## Empty alternatives -/

/-- Without empty alternatives no name is nullable. -/
theorem Rules.nullable_eq_empty {r : Rules} (h : ∀ lhs, [] ∉ r.alternatives lhs) :
    r.nullable = ∅ := by
  apply NameSet.ext
  intro name
  rw [Rules.mem_nullable_iff]
  constructor
  · rintro ⟨p, hp, hyields⟩
    have hne : p ≠ [] := by
      rintro rfl
      exact h name hp
    exact absurd rfl (hyields.ne_nil h hne)
  · intro hname
    exact absurd hname (NameSet.not_mem_empty name)

/-- Where no name is nullable there is nothing to leave out. -/
theorem Phrase.removals_empty (p : Phrase) : p.removals ∅ = [] := by
  have hnone : ∀ s : Symbol, s.isNullable ∅ = false := by
    intro s
    cases s with
    | terminal t => rfl
    | nonterminal name => exact decide_eq_false (NameSet.not_mem_empty name)
  have hpositions : p.nullablePositions ∅ = [] := by
    simp [Phrase.nullablePositions, hnone]
  rw [Phrase.removals, hpositions]
  rfl

theorem alternativesWithoutNull_eq_self {ps : List Phrase} (hnil : [] ∉ ps) (hnodup : ps.Nodup) :
    alternativesWithoutNull ∅ ps = ps := by
  have hkept : ps.filter (fun p => !p.isEmpty) = ps := by
    apply List.filter_eq_self.2
    intro p hp
    cases p with
    | nil => exact absurd hp hnil
    | cons s p => rfl
  have hremovals : ps.flatMap (Phrase.removals ∅) = [] :=
    List.flatMap_eq_nil_iff.2 fun p _ => Phrase.removals_empty p
  rw [alternativesWithoutNull, hkept, distinct_eq_self hnodup, hremovals, List.filter_nil,
    pushAll_nil]

/-! ## Unit alternatives -/

/-- A pass over alternatives without units pushes them one after the other. -/
theorem Splicing.foldl_take_of_forall_none {lookup : String → List Phrase} {s : Splicing}
    {ps : List Phrase} (h : ∀ p ∈ ps, p.unitTarget? = none) :
    ps.foldl (Splicing.take lookup) s = { s with alternatives := pushAll s.alternatives ps } := by
  induction ps generalizing s with
  | nil => rfl
  | cons p ps ih =>
    have hrest : ∀ q ∈ ps, q.unitTarget? = none := fun q hq => h q (List.mem_cons_of_mem p hq)
    rw [List.foldl_cons, Splicing.take_of_none (h p List.mem_cons_self), ih hrest, pushAll_cons]

/-- Without units no pass changes the alternatives of any name. -/
theorem Rules.alternatives_splicing_eq_self {r : Rules}
    (hunit : ∀ lhs name, [.nonterminal name] ∉ r.alternatives lhs)
    (hnodup : ∀ lhs, (r.alternatives lhs).Nodup) (passes : Nat) (lhs : String) :
    (r.splicing passes lhs).alternatives = r.alternatives lhs := by
  have hnone : ∀ p ∈ r.alternatives lhs, p.unitTarget? = none := by
    intro p hp
    cases htarget : p.unitTarget? with
    | none => rfl
    | some name =>
      obtain rfl := Phrase.unitTarget?_eq_some_iff.1 htarget
      exact absurd hp (hunit lhs name)
  induction passes with
  | zero =>
    rw [Rules.splicing_zero]
    apply List.filter_eq_self.2
    intro p hp
    rw [hnone p hp]
    rfl
  | succ passes ih =>
    -- the pass starts with no alternatives and pushes those of before
    rw [Rules.splicing_succ, Splicing.next, ih, Splicing.foldl_take_of_forall_none hnone]
    exact distinct_eq_self (hnodup lhs)

/-! ## Replaced alternatives -/

/-- A replacement of every alternative by itself changes nothing. -/
theorem Rules.replace?_eq_self {r : Rules} {f : Phrase → Option Phrase}
    (h : ∀ lhs, ∀ p ∈ r.alternatives lhs, f p = some p)
    (hnodup : ∀ lhs, (r.alternatives lhs).Nodup) : r.replace? f = some r := by
  have hsome : ∀ lhs, ∀ p ∈ r.alternatives lhs, (f p).isSome = true := by
    intro lhs p hp
    rw [h lhs p hp]
    rfl
  have hsame : ∀ lhs, (r.alternatives lhs).filterMap f = r.alternatives lhs := by
    intro lhs
    rw [List.filterMap_congr (h lhs)]
    exact List.filterMap_some
  rw [Rules.replace?_eq_some hsome, Option.some_inj]
  apply Rules.ext_alternatives
  · intro lhs
    rw [Rules.keys_replaced]
  · intro lhs
    rw [Rules.alternatives_replaced, hsame, distinct_eq_self (hnodup lhs)]

theorem Grammar.withNamed_ofPool {κ : Type} (g : Grammar) (pool : NamePool)
    (alternative : κ → Phrase) : g.withNamed g.rules (.ofPool pool) alternative = g := rfl

/-- Alternatives of at most two symbols have no pairs to name. -/
theorem Rules.pairTable_eq_ofPool {r : Rules}
    (h : ∀ lhs, ∀ p ∈ r.alternatives lhs, p.length ≤ 2) : r.pairTable pool = .ofPool pool := by
  have hphrases : ∀ p ∈ r.phrases, p.length ≤ 2 := by
    intro p hp
    obtain ⟨lhs, hmem⟩ := Rules.mem_phrases_iff.1 hp
    exact h lhs p hmem
  rw [Rules.pairTable]
  generalize r.phrases = ps at hphrases
  induction ps with
  | nil => rfl
  | cons p ps ih =>
    have hstep : PairTable.learnPhrase (.ofPool pool) p = .ofPool pool := by
      match p, hphrases p List.mem_cons_self with
      | [], _ => rfl
      | [_], _ => rfl
      | [_, _], _ => rfl
    rw [List.foldl_cons, hstep]
    exact ih fun q hq => hphrases q (List.mem_cons_of_mem p hq)

/-! ## The six phases -/

namespace Grammar

/-- A start symbol that occurs in no alternative needs no other in front of it. -/
theorem isolateStart_eq_self
    (h : ∀ lhs, ∀ p ∈ g.rules.alternatives lhs, .nonterminal g.start ∉ p) :
    g.isolateStart pool = (.ok g, pool) := by
  have hoccurs : g.startOccurs ≠ true := by
    intro hoccurs
    obtain ⟨lhs, p, hp, hmem⟩ := startOccurs_iff.1 hoccurs
    exact h lhs p hp hmem
  rw [isolateStart, if_neg hoccurs]

theorem removeNull_eq_self (hnil : ∀ lhs, [] ∉ g.rules.alternatives lhs)
    (hnodup : ∀ lhs, (g.rules.alternatives lhs).Nodup) : g.removeNull = g := by
  have hnullable : g.rules.nullable = ∅ := Rules.nullable_eq_empty hnil
  have hrules : g.removeNull.rules = g.rules := by
    apply Rules.ext_alternatives
    · intro lhs
      rw [keys_removeNull]
    · intro lhs
      rw [alternatives_removeNull, hnullable]
      exact alternativesWithoutNull_eq_self (hnil lhs) (hnodup lhs)
  have hempty : g.removeNull.acceptsEmpty = g.acceptsEmpty := by
    rw [removeNull, hnullable, decide_eq_false (NameSet.not_mem_empty g.start)]
    exact Bool.or_false _
  calc g.removeNull
      = { g with rules := g.removeNull.rules, acceptsEmpty := g.removeNull.acceptsEmpty } := rfl
    _ = g := by rw [hrules, hempty]

theorem splice_eq_self (hunit : ∀ lhs name, [.nonterminal name] ∉ g.rules.alternatives lhs)
    (hnodup : ∀ lhs, (g.rules.alternatives lhs).Nodup) : g.splice = g := by
  have hrules : g.splice.rules = g.rules := by
    apply Rules.ext_alternatives
    · intro lhs
      rw [keys_splice]
    · intro lhs
      obtain ⟨passes, -, heq⟩ := g.exists_alternatives_splice
      rw [heq, Rules.alternatives_splicing_eq_self hunit hnodup]
  calc g.splice = { g with rules := g.splice.rules } := rfl
    _ = g := by rw [hrules]

/-- Without unit alternatives there is no cycle to refuse either. -/
theorem removeUnits_eq_self (policy : CyclePolicy)
    (hunit : ∀ lhs name, [.nonterminal name] ∉ g.rules.alternatives lhs)
    (hnodup : ∀ lhs, (g.rules.alternatives lhs).Nodup) : g.removeUnits policy = .ok g := by
  rw [removeUnits_of_not_refuses, splice_eq_self hunit hnodup]
  rintro ⟨-, cycle, hcycle, -⟩
  -- a cycle has a step, and a step is a unit alternative
  obtain ⟨name, -, hreturns⟩ := hcycle.exists_transGen
  obtain ⟨target, hstep, -⟩ := Relation.TransGen.head'_iff.1 hreturns
  exact hunit name target hstep

theorem prune_eq_self (hnonterminals : ∀ name ∈ g.nonterminals, g.Reaches name)
    (hkeys : ∀ lhs ∈ g.rules.keys, g.Reaches lhs) : g.prune = g := by
  have hnames : g.prune.nonterminals = g.nonterminals := by
    apply NameSet.ext
    intro name
    rw [mem_nonterminals_prune, and_iff_left_of_imp (hnonterminals name)]
  have hmem : ∀ lhs, lhs ∈ g.prune.rules.keys ↔ lhs ∈ g.rules.keys := by
    intro lhs
    rw [mem_keys_prune, and_iff_left_of_imp (hkeys lhs)]
  have hrules : g.prune.rules = g.rules := by
    apply Rules.ext_alternatives hmem
    intro lhs
    by_cases hlhs : lhs ∈ g.rules.keys
    · exact alternatives_prune (hkeys lhs hlhs)
    · rw [Rules.alternatives_of_notMem_keys hlhs,
        Rules.alternatives_of_notMem_keys fun h => hlhs ((hmem lhs).1 h)]
  calc g.prune = { g with nonterminals := g.prune.nonterminals, rules := g.prune.rules } := rfl
    _ = g := by rw [hnames, hrules]

/-- Where longer alternatives have no terminals, no name is drawn for one. -/
theorem isolateTerminals_eq_self
    (h : ∀ lhs, ∀ p ∈ g.rules.alternatives lhs, 2 ≤ p.length → ∀ t, .terminal t ∉ p)
    (hnodup : ∀ lhs, (g.rules.alternatives lhs).Nodup) :
    g.isolateTerminals pool = (.ok g, pool) := by
  have hnone : g.rules.terminalsToIsolate = [] := by
    apply List.eq_nil_iff_forall_not_mem.2
    intro t ht
    obtain ⟨lhs, p, hp, hlen, hmem⟩ := Rules.mem_terminalsToIsolate.1 ht
    exact h lhs p hp hlen t hmem
  have htable : g.rules.terminalTable pool = .ofPool pool := by
    rw [Rules.terminalTable, hnone]
    rfl
  have hsame : ∀ lhs, ∀ p ∈ g.rules.alternatives lhs,
      p.isolate? (NameTable.ofPool pool) = some p := by
    intro lhs p hp
    have hsymbol : ∀ s ∈ p, 2 ≤ p.length → s.isolated (.ofPool pool) = s := by
      intro s hs hlen
      cases s with
      | nonterminal name => rfl
      | terminal t => exact absurd hs (h lhs p hp hlen t)
    have hnamed : 2 ≤ p.length → p.Named (.ofPool pool) := fun hlen t ht =>
      absurd ht (h lhs p hp hlen t)
    rw [Phrase.isolate?_eq hnamed, Phrase.isolated]
    split
    · next hlen => rw [List.map_congr_left fun s hs => hsymbol s hs hlen, List.map_id']
    · rfl
  simp only [isolateTerminals, htable, Rules.replace?_eq_self hsame hnodup, withNamed_ofPool]
  rfl

theorem binarize_eq_self (h : ∀ lhs, ∀ p ∈ g.rules.alternatives lhs, p.length ≤ 2)
    (hnodup : ∀ lhs, (g.rules.alternatives lhs).Nodup) : g.binarize pool = (.ok g, pool) := by
  have hsame : ∀ lhs, ∀ p ∈ g.rules.alternatives lhs,
      p.binarize? (NameTable.ofPool pool) = some p := by
    intro lhs p hp
    match p, h lhs p hp with
    | [], _ => rfl
    | [_], _ => rfl
    | [_, _], _ => rfl
  simp only [binarize, Rules.pairTable_eq_ofPool h, Rules.replace?_eq_self hsame hnodup,
    withNamed_ofPool]
  rfl

end Grammar

/-! ## A second run -/

/-- A grammar in normal form that holds together is its own normal form, under all
settings, and takes no name. -/
theorem normalize_eq_self (settings : Settings) (hg : g.WellFormed) (h : g.InNormalForm) :
    normalize settings g = .ok ⟨g, .ofReserved settings.scheme g.declared⟩ := by
  have hfaults : g.malformations = [] := hg
  have hself := Grammar.wellFormed_iff.1 hg
  have hterminals : ∀ lhs, ∀ p ∈ g.rules.alternatives lhs, 2 ≤ p.length → ∀ t, .terminal t ∉ p := by
    intro lhs p hp hlen t ht
    rcases h.shape lhs p hp with ⟨u, rfl⟩ | ⟨a, b, rfl⟩
    · exact absurd hlen (Nat.not_succ_le_self 1)
    · simp at ht
  have hlength : ∀ lhs, ∀ p ∈ g.rules.alternatives lhs, p.length ≤ 2 := by
    intro lhs p hp
    rcases h.shape lhs p hp with ⟨u, rfl⟩ | ⟨a, b, rfl⟩
    · exact Nat.le_succ 1
    · exact Nat.le_refl 2
  have hprune : g.prune = g :=
    Grammar.prune_eq_self h.reaches fun lhs hlhs => h.reaches lhs (hself.lhs_mem lhs hlhs)
  have hreduced : g.reduced settings.unitCycles = .ok g := by
    rw [Grammar.reduced, Grammar.removeNull_eq_self h.nil_notMem h.nodup,
      Grammar.removeUnits_eq_self _ h.unit_notMem h.nodup, Except.map, hprune]
  simp only [normalize, if_pos hfaults, Grammar.isolateStart_eq_self h.start_notMem, hreduced,
    Grammar.isolateTerminals_eq_self hterminals h.nodup, Grammar.binarize_eq_self hlength h.nodup]

/-- Normalization is idempotent: under any other settings the result of a run is its
own normal form, to the order of alternatives, and the second run hands out no
name. -/
theorem normalize_idempotent {settings : Settings} {result : Workbench}
    (h : normalize settings g = .ok result) (settings' : Settings) :
    ∃ pool, normalize settings' result.grammar = .ok ⟨result.grammar, pool⟩ ∧
      pool.allocated = [] := by
  obtain ⟨hg, hdemand, rfl⟩ := normalize_eq_ok h
  have hform := Grammar.inNormalForm_normal hg hdemand
  have hwell := Grammar.wellFormed_iff.2 (Grammar.selfContained_normal hg hdemand)
  exact ⟨_, normalize_eq_self settings' hwell hform, rfl⟩

/-- The sample with a cycle of unit alternatives, collapsed at first: the second run
refuses cycles and has no names at all. -/
theorem normalize_idempotent_unitCycle :
    ∃ result, normalize .standard Sample.unitCycle.grammar = .ok result ∧
      ∃ pool, normalize ⟨⟨[], 0⟩, .refuse⟩ result.grammar = .ok ⟨result.grammar, pool⟩ ∧
        pool.allocated = [] := by
  obtain ⟨result, h⟩ : ∃ result, normalize .standard Sample.unitCycle.grammar = .ok result :=
    ⟨_, rfl⟩
  exact ⟨result, h, normalize_idempotent h ⟨⟨[], 0⟩, .refuse⟩⟩

end Chomsky
