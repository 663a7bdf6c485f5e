import Chomsky.Grammar.Samples
import Chomsky.Proofs.Normal.Stages

/-!
# The shape of the normal form

No phase is run twice, so what one phase establishes has to last to the end. The
conditions are carried through the run together: after pruning there are no empty
and no unit alternatives, every name is reachable and the start symbol occurs
nowhere; after the isolation of terminals an alternative is a terminal or a string
of at least two nonterminals; splitting turns these into pairs.

## What this module delivers

- `Grammar.InNormalForm`, the conditions on the last grammar.
- `Grammar.inNormalForm_normal`: they hold.
- `normalize_inNormalForm`: and the names of the last grammar are those that are
  left and those that were handed out.
-/

set_option autoImplicit false

namespace Chomsky

/-- The conditions that a run establishes. -/
structure Grammar.InNormalForm (g : Grammar) : Prop where
  /-- The start symbol occurs in no alternative. -/
  start_notMem : ∀ lhs, ∀ p ∈ g.rules.alternatives lhs, .nonterminal g.start ∉ p
  /-- No alternative is empty. -/
  nil_notMem : ∀ lhs, [] ∉ g.rules.alternatives lhs
  /-- No alternative is a single nonterminal. -/
  unit_notMem : ∀ lhs name, [.nonterminal name] ∉ g.rules.alternatives lhs
  /-- Every alternative is one terminal or two nonterminals. -/
  shape : ∀ lhs, ∀ p ∈ g.rules.alternatives lhs,
    (∃ t, p = [.terminal t]) ∨ ∃ a b, p = [.nonterminal a, .nonterminal b]
  /-- Every nonterminal is reachable from the start symbol. -/
  reaches : ∀ name ∈ g.nonterminals, g.Reaches name
  /-- No rule has an alternative twice. -/
  nodup : ∀ lhs, (g.rules.alternatives lhs).Nodup

namespace Grammar

variable {g : Grammar} {scheme : NameScheme} {lhs : String} {p : Phrase}

/-! ## After pruning -/

section Stripped

theorem nil_notMem_stripped : [] ∉ (g.stripped scheme).rules.alternatives lhs := by
  intro h
  obtain ⟨-, source, -, hmem⟩ := mem_alternatives_splice.1 (mem_alternatives_prune.1 h).1
  exact nil_notMem_alternatives_removeNull _ source hmem

theorem unit_notMem_stripped {name : String} :
    [.nonterminal name] ∉ (g.stripped scheme).rules.alternatives lhs := fun h =>
  unit_notMem_alternatives_splice _ lhs name (mem_alternatives_prune.1 h).1

/-- An alternative of less than two symbols is a terminal. -/
theorem exists_eq_terminal_of_mem_stripped
    (hp : p ∈ (g.stripped scheme).rules.alternatives lhs) (hlen : p.length < 2) :
    ∃ t, p = [.terminal t] := by
  match p, hp with
  | [], hp => exact absurd hp nil_notMem_stripped
  | [.terminal t], _ => exact ⟨t, rfl⟩
  | [.nonterminal name], hp => exact absurd hp unit_notMem_stripped
  | _ :: _ :: rest, _ => exact absurd hlen (Nat.not_lt.2 (Nat.le_add_left 2 rest.length))

theorem reaches_stripped {name : String} (h : name ∈ (g.stripped scheme).nonterminals) :
    (g.stripped scheme).Reaches name := reaches_prune_iff.2 (mem_nonterminals_prune.1 h).2

variable (hg : g.SelfContained) (hstart : g.startDemand ≤ (g.pool scheme).free.length)

include hg hstart

theorem start_notMem_stripped (hp : p ∈ (g.stripped scheme).rules.alternatives lhs) :
    .nonterminal (g.stripped scheme).start ∉ p := by
  intro hmem
  -- every alternative comes from one of before by leaving symbols out
  obtain ⟨-, source, -, hsource⟩ := mem_alternatives_splice.1 (mem_alternatives_prune.1 hp).1
  obtain ⟨-, p', hp', hremoves⟩ := mem_alternatives_removeNull.1 hsource
  exact start_notMem_withStartIsolated hg guards_pool hstart hp' (hremoves.mem hmem)

/-- The names after pruning are those of before that it left, and the new start
symbol, if there is one. -/
theorem mem_nonterminals_stripped_iff {name : String} :
    name ∈ (g.stripped scheme).nonterminals ↔
      (name ∈ g.nonterminals ∧ name ∈ (g.stripped scheme).nonterminals) ∨
        name ∈ (g.pool scheme).free.take g.startDemand := by
  constructor
  · intro hname
    have hstarted : name ∈ (g.started scheme).nonterminals := (mem_nonterminals_prune.1 hname).1
    rcases (mem_nonterminals_withStartIsolated hstart).1 hstarted with hdrawn | hold
    · exact Or.inr hdrawn
    · exact Or.inl ⟨hold, hname⟩
  · rintro (⟨-, hname⟩ | hdrawn)
    · exact hname
    · -- pruning leaves the start symbol
      rw [← start_withStartIsolated hstart hdrawn]
      exact (selfContained_stripped hg hstart).start_mem

end Stripped

/-! ## After the isolation of terminals -/

section Isolated

variable (hg : g.SelfContained)
  (h : g.startDemand + (g.stripped scheme).terminalDemand ≤ (g.pool scheme).free.length)

include hg h

theorem mem_alternatives_isolated :
    p ∈ (g.isolated scheme).rules.alternatives lhs ↔
      (∃ q ∈ (g.stripped scheme).rules.alternatives lhs, p = q.isolated
        ((g.stripped scheme).rules.terminalTable ((g.pool scheme).drawn g.startDemand))) ∨
        ∃ t, (t, lhs) ∈ ((g.stripped scheme).rules.terminalTable
          ((g.pool scheme).drawn g.startDemand)).entries ∧ p = [.terminal t] := by
  have hstart := Nat.le_trans (Nat.le_add_right _ _) h
  exact mem_alternatives_terminalsIsolated
    ((guards_stripped hstart).reserves (selfContained_stripped hg hstart)) (terminalDemand_le h)

/-- An isolated alternative is a terminal or a longer string of nonterminals. -/
theorem shape_isolated (hp : p ∈ (g.isolated scheme).rules.alternatives lhs) :
    (∃ t, p = [.terminal t]) ∨ (2 ≤ p.length ∧ ∀ s ∈ p, ∃ name, s = .nonterminal name) := by
  rcases (mem_alternatives_isolated hg h).1 hp with ⟨q, hq, rfl⟩ | ⟨t, -, rfl⟩
  · rcases Nat.lt_or_ge q.length 2 with hlen | hlen
    · rw [Phrase.isolated_of_lt hlen]
      exact Or.inl (exists_eq_terminal_of_mem_stripped hq hlen)
    · right
      rw [Phrase.length_isolated]
      have hnamed := named_of_mem (terminalDemand_le h) hq hlen
      exact ⟨hlen, fun s hs => hnamed.exists_eq_nonterminal hlen hs⟩
  · exact Or.inl ⟨t, rfl⟩

theorem start_notMem_isolated (hp : p ∈ (g.isolated scheme).rules.alternatives lhs) :
    .nonterminal (g.isolated scheme).start ∉ p := by
  have hstart := Nat.le_trans (Nat.le_add_right _ _) h
  rw [start_isolated]
  intro hmem
  rcases (mem_alternatives_isolated hg h).1 hp with ⟨q, hq, rfl⟩ | ⟨t, -, rfl⟩
  · rcases exists_of_mem_isolated hmem with hmem | ⟨t, name, -, hname, heq⟩
    · exact start_notMem_stripped hg hstart hq hmem
    · -- the start symbol is no new name
      have hnew := newTo_terminalTable (guards_stripped hstart)
      refine hnew.notMem_nonterminals name
        (NameTable.mem_names.2 ⟨t, find?_terminalTable_iff.1 hname⟩) ?_
      rw [← Symbol.nonterminal.inj heq]
      exact (selfContained_stripped hg hstart).start_mem
  · exact absurd (List.mem_singleton.1 hmem) Symbol.noConfusion

theorem reaches_isolated {name : String} (hname : name ∈ (g.isolated scheme).nonterminals) :
    (g.isolated scheme).Reaches name := by
  have hstart := Nat.le_trans (Nat.le_add_right _ _) h
  exact reaches_terminalsIsolated (selfContained_stripped hg hstart) (guards_stripped hstart)
    (terminalDemand_le h) (fun _ => reaches_stripped) name hname

end Isolated

/-! ## At the end -/

section Normal

variable (hg : g.SelfContained)
  (h : g.startDemand + (g.stripped scheme).terminalDemand + (g.stripped scheme).pairDemand
    ≤ (g.pool scheme).free.length)

include hg h

theorem shape_normal (hp : p ∈ (g.normal scheme).rules.alternatives lhs) :
    (∃ t, p = [.terminal t]) ∨ ∃ a b, p = [.nonterminal a, .nonterminal b] := by
  have hterminals := Nat.le_trans (Nat.le_add_right _ _) h
  rcases exists_of_mem_binarized (reserves_isolated hg hterminals) hp with
    ⟨hp, hlen⟩ | ⟨pair, k, lhs', q, hq, hsuffix, hfolded, rfl⟩
  · rcases shape_isolated hg hterminals hp with hshape | ⟨hlong, -⟩
    · exact Or.inl hshape
    · exact absurd hlen (Nat.not_lt.2 hlong)
  · right
    rcases shape_isolated hg hterminals hq with ⟨t, rfl⟩ | ⟨-, hnonterminals⟩
    · exact absurd (Nat.le_trans hfolded.two_le hsuffix.length_le) (Nat.not_succ_le_self 1)
    · -- both symbols of the pair are symbols of the string or new names
      have hsymbol : ∀ s ∈ [pair.1, pair.2], ∃ name, s = .nonterminal name := by
        intro s hs
        rcases mem_of_foldedFrom hfolded hs with hs | ⟨name, -, rfl⟩
        · exact hnonterminals s (hsuffix.subset hs)
        · exact ⟨name, rfl⟩
      obtain ⟨a, ha⟩ := hsymbol pair.1 List.mem_cons_self
      obtain ⟨b, hb⟩ := hsymbol pair.2 (List.mem_cons_of_mem _ (List.mem_singleton_self _))
      exact ⟨a, b, by rw [ha, hb]⟩

theorem start_notMem_normal (hp : p ∈ (g.normal scheme).rules.alternatives lhs) :
    .nonterminal (g.normal scheme).start ∉ p := by
  have hterminals := Nat.le_trans (Nat.le_add_right _ _) h
  rw [start_normal]
  intro hmem
  rcases exists_of_mem_binarized (reserves_isolated hg hterminals) hp with
    ⟨hp, -⟩ | ⟨pair, k, lhs', q, hq, hsuffix, hfolded, rfl⟩
  · exact start_notMem_isolated hg hterminals hp hmem
  · rcases mem_of_foldedFrom hfolded hmem with hmem | ⟨name, hname, heq⟩
    · exact start_notMem_isolated hg hterminals hq (hsuffix.subset hmem)
    · apply (newTo_endTable (guards_isolated hterminals)).notMem_nonterminals name hname
      rw [← Symbol.nonterminal.inj heq]
      exact (selfContained_isolated hg hterminals).start_mem

theorem reaches_normal {name : String} (hname : name ∈ (g.normal scheme).nonterminals) :
    (g.normal scheme).Reaches name := by
  have hterminals := Nat.le_trans (Nat.le_add_right _ _) h
  exact reaches_binarized (reserves_isolated hg hterminals) (selfContained_isolated hg hterminals)
    (pairDemand_le hg hterminals h) (fun _ => reaches_isolated hg hterminals) name hname

theorem nodup_alternatives_normal : ((g.normal scheme).rules.alternatives lhs).Nodup := by
  have hterminals := Nat.le_trans (Nat.le_add_right _ _) h
  have hnew := newTo_pairTable (reserves_isolated hg hterminals)
  rw [normal, binarized]
  exact nodup_alternatives_withNamed hnew.nodup (Rules.nodup_alternatives_replaced _ _ lhs)

theorem selfContained_normal : (g.normal scheme).SelfContained := by
  have hterminals := Nat.le_trans (Nat.le_add_right _ _) h
  exact (selfContained_isolated hg hterminals).binarized (reserves_isolated hg hterminals)

theorem inNormalForm_normal : (g.normal scheme).InNormalForm where
  start_notMem _ _ hp := start_notMem_normal hg h hp
  nil_notMem _ hp := by
    rcases shape_normal hg h hp with ⟨t, heq⟩ | ⟨a, b, heq⟩ <;> exact List.cons_ne_nil _ _ heq.symm
  unit_notMem _ _ hp := by
    rcases shape_normal hg h hp with ⟨t, heq⟩ | ⟨a, b, heq⟩
    · exact Symbol.noConfusion (List.cons.inj heq).1
    · exact List.cons_ne_nil _ _ (List.cons.inj heq).2.symm
  shape _ _ hp := shape_normal hg h hp
  reaches _ hname := reaches_normal hg h hname
  nodup _ := nodup_alternatives_normal hg h

/-- The names of the last grammar are the names of the first that pruning left, and
all names that the run drew. -/
theorem mem_nonterminals_normal_iff {name : String} :
    name ∈ (g.normal scheme).nonterminals ↔
      (name ∈ g.nonterminals ∧ name ∈ (g.stripped scheme).nonterminals) ∨
        name ∈ (g.pool scheme).free.take (g.startDemand + (g.stripped scheme).terminalDemand
          + (g.stripped scheme).pairDemand) := by
  have hterminals := Nat.le_trans (Nat.le_add_right _ _) h
  have hstart := Nat.le_trans (Nat.le_add_right _ _) hterminals
  have hstripped : name ∈ (g.stripped scheme).nonterminals ↔ _ :=
    mem_nonterminals_stripped_iff hg hstart
  -- the names are drawn in three turns, and those of the first come from pruning
  rw [mem_nonterminals_normal hg hterminals, mem_nonterminals_isolated, NamePool.free_drawn,
    NamePool.free_drawn, List.take_add, List.take_add, List.mem_append, List.mem_append, or_assoc,
    or_assoc, ← or_assoc (c := _ ∨ _)]
  exact or_congr_left hstripped

end Normal

end Grammar

/-- A run without failure ends with a grammar in normal form that holds together and
has the terminals of before. Its nonterminals are those of before that pruning left,
together with exactly the names that the pool handed out. -/
theorem normalize_inNormalForm {settings : Settings} {g : Grammar} {result : Workbench}
    (h : normalize settings g = .ok result) :
    result.grammar.InNormalForm ∧ result.grammar.WellFormed ∧
      result.grammar.terminals = g.terminals ∧
      ∀ name, name ∈ result.grammar.nonterminals ↔
        (name ∈ g.nonterminals ∧ name ∈ (g.stripped settings.scheme).nonterminals) ∨
          name ∈ result.pool.allocated := by
  obtain ⟨hg, hdemand, rfl⟩ := normalize_eq_ok h
  have hstart : g.startDemand ≤ (g.pool settings.scheme).free.length := by omega
  have hself := Grammar.selfContained_normal hg hdemand
  refine ⟨Grammar.inNormalForm_normal hg hdemand, Grammar.wellFormed_iff.2 hself,
    Grammar.terminals_normal hstart, fun name => ?_⟩
  rw [Grammar.mem_nonterminals_normal_iff hg hdemand, Grammar.allocated_drawn_pool]

/-- The sample of expressions, which takes names for terminals and for ends. -/
theorem normalize_inNormalForm_arithmetic :
    ∃ result, normalize .standard Sample.arithmetic.grammar = .ok result ∧
      result.grammar.InNormalForm ∧ result.grammar.WellFormed ∧
        result.grammar.terminals = Sample.arithmetic.grammar.terminals ∧
          ("A" ∈ result.grammar.nonterminals ↔
            ("A" ∈ Sample.arithmetic.grammar.nonterminals ∧
              "A" ∈ (Sample.arithmetic.grammar.stripped .standard).nonterminals) ∨
                "A" ∈ result.pool.allocated) := by
  obtain ⟨result, h⟩ : ∃ result, normalize .standard Sample.arithmetic.grammar = .ok result :=
    ⟨_, rfl⟩
  obtain ⟨hform, hwell, hterminals, hnames⟩ := normalize_inNormalForm h
  exact ⟨result, h, hform, hwell, hterminals, hnames "A"⟩

end Chomsky
