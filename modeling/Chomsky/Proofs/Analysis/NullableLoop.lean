import Chomsky.Grammar.Samples
import Chomsky.Proofs.Analysis.Nullable

/-!
# Growing the set of nullable nonterminals

The set need not be grown from nothing in a number of rounds that is fixed beforehand. It
may begin with the left sides of the empty alternatives, and be joined, round by round, by
all left sides outside of it that have an alternative of its members only, until a round
finds none. No bound is given to this.

At any time the members derive the empty word, whatever cycles the rules form. A round
that finds nothing leaves a closed set, and a set that is sound and closed is exact. The
rounds end because each of them but the last adds a left side.

## What this module delivers

- `Rules.nullSeeds`, `Rules.nullGrown` and `Rules.GrowsTo`, the rounds without a bound.
- `Rules.mem_nullGrown`, what a round finds, and `Rules.NullSound.grown`, what it keeps.
- `Rules.nullable_exact`: the rounds end with the nullable nonterminals, which are the left
  sides that derive the empty word.
-/

set_option autoImplicit false

namespace Chomsky

namespace Rules

/-! ## The rounds -/

/-- The left sides with an empty alternative. -/
def nullSeeds (r : Rules) : NameSet :=
  NameSet.ofList ((r.entries.filter fun e => e.2.any List.isEmpty).map Prod.fst)

/-- The left sides outside of the set with an alternative of its members only. -/
def nullGrown (r : Rules) (nullable : NameSet) : List String :=
  ((r.entries.filter fun e => !decide (e.1 ∈ nullable)).filter
    fun e => e.2.any (Phrase.isNullable nullable)).map Prod.fst

/-- The rounds from a set on, up to the first one that finds nothing. -/
inductive GrowsTo (r : Rules) : NameSet → NameSet → Prop where
  | done {nullable : NameSet} : r.nullGrown nullable = [] → GrowsTo r nullable nullable
  | again {nullable result : NameSet} : r.nullGrown nullable ≠ [] →
      GrowsTo r (nullable.insertMany (r.nullGrown nullable)) result → GrowsTo r nullable result

variable {r : Rules} {nullable result : NameSet} {name : String}

theorem mem_nullSeeds : name ∈ r.nullSeeds ↔ [] ∈ r.alternatives name := by
  simp only [nullSeeds, NameSet.mem_ofList, List.mem_map, List.mem_filter, List.any_eq_true,
    List.isEmpty_iff, exists_eq_right, mem_alternatives_iff]
  constructor
  · rintro ⟨⟨lhs, ps⟩, ⟨hentry, hnil⟩, rfl⟩
    exact ⟨ps, NameMap.mem_entries_iff.1 hentry, hnil⟩
  · rintro ⟨ps, hget, hnil⟩
    exact ⟨(name, ps), ⟨NameMap.mem_entries_iff.2 hget, hnil⟩, rfl⟩

/-- A round finds what one that looks at all left sides would find outside of the set. -/
theorem mem_nullGrown :
    name ∈ r.nullGrown nullable ↔ name ∉ nullable ∧ name ∈ r.nullableStep nullable := by
  simp only [nullGrown, nullableStep, List.mem_map, List.mem_filter, Bool.not_eq_true',
    decide_eq_false_iff_not]
  constructor
  · rintro ⟨e, ⟨⟨hentry, hnew⟩, hnull⟩, rfl⟩
    exact ⟨hnew, e, ⟨hentry, hnull⟩, rfl⟩
  · rintro ⟨hnew, e, ⟨hentry, hnull⟩, rfl⟩
    exact ⟨e, ⟨⟨hentry, hnew⟩, hnull⟩, rfl⟩

/-! ## What the rounds keep -/

theorem NullSound.seeds (r : Rules) : r.NullSound r.nullSeeds := fun _ hname =>
  ⟨[], mem_nullSeeds.1 hname, .nil⟩

/-- What a round adds derives the empty word if the members did. -/
theorem NullSound.grown (h : r.NullSound nullable) :
    r.NullSound (nullable.insertMany (r.nullGrown nullable)) := by
  intro name hname
  rcases NameSet.mem_insertMany.1 hname with hnew | hold
  · obtain ⟨p, hp, hnull⟩ := mem_nullableStep.1 (mem_nullGrown.1 hnew).2
    exact ⟨p, hp, yields_nil_of_isNullable h hnull⟩
  · exact h name hold

/-- A round that finds nothing leaves nothing to be found. -/
theorem nullClosed_of_nullGrown_eq_nil (h : r.nullGrown nullable = []) :
    r.NullClosed nullable := by
  intro lhs p hp hnull
  refine Classical.byContradiction fun hout => ?_
  have hfound : lhs ∈ r.nullGrown nullable :=
    mem_nullGrown.2 ⟨hout, mem_nullableStep.2 ⟨p, hp, hnull⟩⟩
  rw [h] at hfound
  exact absurd hfound List.not_mem_nil

/-- Wherever sound rounds end, they end with the same set. -/
theorem GrowsTo.eq_nullable (h : r.GrowsTo nullable result) (hsound : r.NullSound nullable) :
    result = r.nullable := by
  induction h with
  | done hnone =>
    apply NameSet.ext
    intro name
    rw [mem_iff_derives_nil hsound (nullClosed_of_nullGrown_eq_nil hnone), mem_nullable_iff]
  | again _ _ ih => exact ih hsound.grown

/-! ## The rounds end -/

/-- Each round but the last adds a left side, so there are no more than left sides. -/
theorem exists_growsTo {rounds : Nat} (hsound : r.NullSound nullable)
    (hrounds : r.size ≤ rounds + nullable.size) : ∃ result, r.GrowsTo nullable result := by
  induction rounds generalizing nullable with
  | zero =>
    refine ⟨nullable, .done (List.eq_nil_iff_forall_not_mem.2 fun name hname => ?_)⟩
    -- a name that were found now would be one left side more than there are
    obtain ⟨hnew, hstep⟩ := mem_nullGrown.1 hname
    have hle := length_le_of_nodup_of_subset (m := r.keys.toList)
      (List.nodup_cons.2 ⟨hnew, nullable.nodup_toList⟩) fun other hother => by
        rcases List.mem_cons.1 hother with rfl | hother
        · exact mem_keys_of_mem_nullableStep hstep
        · obtain ⟨p, hp, -⟩ := hsound other hother
          exact mem_keys_of_mem_alternatives hp
    rw [List.length_cons, ← NameMap.size_eq_length_keys] at hle
    rw [Nat.zero_add] at hrounds
    exact absurd (Nat.le_trans hle hrounds) (Nat.not_succ_le_self _)
  | succ rounds ih =>
    by_cases hnone : r.nullGrown nullable = []
    · exact ⟨nullable, .done hnone⟩
    · have hgrown : nullable.insertMany (r.nullGrown nullable) ≠ nullable := by
        intro hsame
        obtain ⟨name, hname⟩ := List.exists_mem_of_ne_nil _ hnone
        refine (mem_nullGrown.1 hname).1 ?_
        rw [← hsame, NameSet.mem_insertMany]
        exact Or.inl hname
      have hlt := size_lt_size_insertMany hgrown
      obtain ⟨result, hrest⟩ := ih hsound.grown (by omega)
      exact ⟨result, .again hnone hrest⟩

/-- The rounds end, and they end with the nullable nonterminals. -/
theorem growsTo_iff (r : Rules) (result : NameSet) :
    r.GrowsTo r.nullSeeds result ↔ result = r.nullable := by
  have heq : ∀ result, r.GrowsTo r.nullSeeds result → result = r.nullable :=
    fun _ h => h.eq_nullable (NullSound.seeds r)
  constructor
  · exact heq result
  · rintro rfl
    obtain ⟨result, h⟩ := exists_growsTo (NullSound.seeds r) (Nat.le_add_right _ _)
    exact heq result h ▸ h

/-- A phrase consists of nullable nonterminals exactly if it derives the empty word. -/
theorem isNullable_nullable_iff {p : Phrase} :
    p.isNullable r.nullable = true ↔ Yields r p [] := by
  obtain ⟨hsound, hclosed⟩ := r.nullable_spec
  exact ⟨yields_nil_of_isNullable hsound, fun h => isNullable_of_yields_nil hclosed h rfl⟩

/-- Whatever recursion the rules contain, the rounds that grow the set end, in one way
only, with the nullable nonterminals. These are exactly the names that have a rule and
derive the empty word. Of the symbols, the nonterminals among them are nullable and nothing
else is, so a terminal never is, and a phrase is nullable exactly if it derives the empty
word. -/
theorem nullable_exact (r : Rules) :
    (∀ result, r.GrowsTo r.nullSeeds result ↔ result = r.nullable) ∧
    (∀ name, name ∈ r.nullable ↔ name ∈ r.keys ∧ r.Derives name []) ∧
    (∀ name, (Symbol.nonterminal name).isNullable r.nullable = true ↔ name ∈ r.nullable) ∧
    (∀ name, (Symbol.terminal name).isNullable r.nullable = false) ∧
    ∀ p : Phrase, p.isNullable r.nullable = true ↔ Yields r p [] := by
  refine ⟨r.growsTo_iff, fun name => ?_, fun name => decide_eq_true_iff, fun _ => rfl,
    fun _ => isNullable_nullable_iff⟩
  rw [mem_nullable_iff]
  constructor
  · rintro ⟨p, hp, hyields⟩
    exact ⟨mem_keys_of_mem_alternatives hp, p, hp, hyields⟩
  · exact And.right

/-- In the sample whose start symbol derives the empty word, it does so through `A`. -/
example : Sample.nullableStart.grammar.rules.nullable.toList = ["A", "S"] := by decide

end Rules

end Chomsky
