import Chomsky.Proofs.Analysis.Height

/-!
# Lowering heights in place

Heights need not be found in rounds that start from the last one. The rules may be
walked through in order, lowering the height of a left side as soon as its alternatives
allow it, so that later rules already see the new height, until a walk changes nothing.
At any time the heights are those of trees, and after `n` walks they are exact for the
trees of height at most `n`. So this ends as well, whatever it finds on the way, and it
ends with the same heights.

## What this module delivers

- `Rules.lowerAt` and `Rules.lowerAll`, one step and one walk.
- `Rules.LowersTo`, the walks up to the one that changes nothing, without a bound.
- `Rules.Lowered`, what holds after a number of walks, with `Lowered.step`.
- `Rules.lowersTo_iff`: the walks end, and they end with `Rules.heights`.
-/

set_option autoImplicit false

namespace Chomsky

namespace Rules

variable {r : Rules} {heights heights' result : NameMap Nat}

/-! ## One step -/

/-- Lowers the height of a left side to what its alternatives allow. A name without a
height gets one. -/
def lowerAt (heights : NameMap Nat) (rule : String × List Phrase) : NameMap Nat :=
  match leastHeight? heights rule.2 with
  | none => heights
  | some h => if (heights.get? rule.1).all (h < ·) then heights.insert rule.1 h else heights

/-- A step changes the height of the left side only, to the lower one of two. -/
theorem within_lowerAt {rule : String × List Phrase} {name : String} {bound : Nat} :
    HeightWithin bound ((lowerAt heights rule).get? name) ↔
      HeightWithin bound (heights.get? name) ∨
        name = rule.1 ∧ HeightWithin bound (leastHeight? heights rule.2) := by
  unfold lowerAt
  cases leastHeight? heights rule.2 with
  | none =>
    constructor
    · exact Or.inl
    · rintro (h | ⟨-, h⟩)
      · exact h
      · exact absurd h not_heightWithin_none
  | some h =>
    dsimp only
    by_cases hname : name = rule.1
    · subst hname
      cases hget : heights.get? rule.1 with
      | none => simp [HeightWithin]
      | some old =>
        by_cases hlt : h < old
        · simp only [Option.all_some, decide_eq_true hlt, ite_true, NameMap.get?_insert,
            heightWithin_some, true_and]
          omega
        · simp only [Option.all_some, decide_eq_false hlt, Bool.false_eq_true, ite_false, hget,
            heightWithin_some, true_and]
          omega
    · split
      · rw [NameMap.get?_insert, if_neg hname]
        simp [hname]
      · simp [hname]

/-- Lower heights of names allow lower trees. -/
theorem within_leastHeight?_mono {ps : List Phrase} {bound : Nat}
    (hlower : ∀ name bound, HeightWithin bound (heights.get? name) →
      HeightWithin bound (heights'.get? name))
    (h : HeightWithin bound (leastHeight? heights ps)) :
    HeightWithin bound (leastHeight? heights' ps) := by
  cases bound with
  | zero => exact absurd h not_within_leastHeight?_zero
  | succ bound =>
    obtain ⟨p, hp, hnames⟩ := within_leastHeight?_succ.1 h
    refine within_leastHeight?_succ.2 ⟨p, hp, fun name hname => ?_⟩
    exact hlower name bound (hnames name hname)

/-- The heights are those of trees. -/
def Grounded (r : Rules) (heights : NameMap Nat) : Prop :=
  ∀ name bound, HeightWithin bound (heights.get? name) → r.FinishesIn bound name

theorem Grounded.lowerAt {rule : String × List Phrase} (h : r.Grounded heights)
    (hrule : rule ∈ r.entries) : r.Grounded (lowerAt heights rule) := by
  intro name bound hwithin
  rcases within_lowerAt.1 hwithin with hold | ⟨rfl, hleast⟩
  · exact h name bound hold
  · cases bound with
    | zero => exact absurd hleast not_within_leastHeight?_zero
    | succ bound =>
      obtain ⟨p, hp, hnames⟩ := within_leastHeight?_succ.1 hleast
      refine ⟨p, mem_alternatives_iff.2 ⟨rule.2, NameMap.mem_entries_iff.1 hrule, hp⟩, ?_⟩
      exact fun other hother => h other bound (hnames other hother)

/-! ## One walk -/

/-- Lowers the heights rule by rule. -/
def lowerAll (r : Rules) (heights : NameMap Nat) : NameMap Nat := r.entries.foldl lowerAt heights

section Walk

variable {rules : List (String × List Phrase)} {name : String} {bound : Nat}

/-- No height gets larger. -/
theorem within_foldl_lowerAt (h : HeightWithin bound (heights.get? name)) :
    HeightWithin bound ((rules.foldl lowerAt heights).get? name) := by
  induction rules generalizing heights with
  | nil => exact h
  | cons rule rules ih => exact ih (within_lowerAt.2 (Or.inl h))

/-- A left side is no higher afterwards than its alternatives allowed before. -/
theorem within_foldl_lowerAt_of_mem {ps : List Phrase} (hmem : (name, ps) ∈ rules)
    (h : HeightWithin bound (leastHeight? heights ps)) :
    HeightWithin bound ((rules.foldl lowerAt heights).get? name) := by
  induction rules generalizing heights with
  | nil => exact absurd hmem List.not_mem_nil
  | cons rule rules ih =>
    rcases List.mem_cons.1 hmem with rfl | hmem
    · have hhead : HeightWithin bound ((lowerAt heights (name, ps)).get? name) :=
        within_lowerAt.2 (Or.inr ⟨rfl, h⟩)
      rw [List.foldl_cons]
      exact within_foldl_lowerAt hhead
    · -- the steps before only lower the heights of the nonterminals of the alternatives
      refine ih hmem (within_leastHeight?_mono ?_ h)
      exact fun _ _ hwithin => within_lowerAt.2 (Or.inl hwithin)

theorem Grounded.foldl_lowerAt (h : r.Grounded heights) (hrules : ∀ rule ∈ rules, rule ∈ r.entries) :
    r.Grounded (rules.foldl Rules.lowerAt heights) := by
  induction rules generalizing heights with
  | nil => exact h
  | cons rule rules ih =>
    have hhead := h.lowerAt (hrules rule List.mem_cons_self)
    exact ih hhead fun other hother => hrules other (List.mem_cons_of_mem rule hother)

end Walk

/-! ## All walks -/

/-- What holds of the heights after a number of walks: they are those of trees, and they
are exact for the trees that are no higher than the number of walks. -/
structure Lowered (r : Rules) (walks : Nat) (heights : NameMap Nat) : Prop where
  /-- A height is that of a tree. -/
  grounded : r.Grounded heights
  /-- A tree that is not too high is known. -/
  within : ∀ name bound, bound ≤ walks → r.FinishesIn bound name →
    HeightWithin bound (heights.get? name)

namespace Lowered

variable {walks : Nat}

theorem zero (r : Rules) : r.Lowered 0 ∅ where
  grounded := by
    intro name bound hwithin
    rw [NameMap.get?_empty] at hwithin
    exact absurd hwithin not_heightWithin_none
  within := by
    intro name bound hbound hfinishes
    obtain rfl := Nat.le_zero.1 hbound
    exact absurd hfinishes not_false

/-- One walk more knows the trees that are one higher. -/
theorem step (h : r.Lowered walks heights) : r.Lowered (walks + 1) (r.lowerAll heights) where
  grounded := h.grounded.foldl_lowerAt fun _ hrule => hrule
  within := by
    intro name bound hbound hfinishes
    cases bound with
    | zero => exact absurd hfinishes not_false
    | succ bound =>
      obtain ⟨p, hp, hothers⟩ := hfinishes
      obtain ⟨ps, hps, hmem⟩ := mem_alternatives_iff.1 hp
      refine within_foldl_lowerAt_of_mem (NameMap.mem_entries_iff.2 hps) ?_
      refine within_leastHeight?_succ.2 ⟨p, hmem, fun other hother => ?_⟩
      exact h.within other bound (Nat.le_of_succ_le_succ hbound) (hothers other hother)

/-- As many walks as there are rules find all heights. -/
theorem eq_heights (h : r.Lowered walks heights) (hwalks : r.size ≤ walks) :
    heights = r.heights := by
  apply NameMap.ext
  intro name
  apply HeightWithin.ext
  intro bound
  constructor
  · intro hwithin
    exact within_heights_iff.2 (h.grounded name bound hwithin)
  · rintro ⟨k, hk, hget⟩
    have hfinishes := within_heights_iff.1 ⟨k, Nat.le_refl k, hget⟩
    have hsize := Nat.le_trans (le_size_of_get?_heights hget) hwalks
    exact (h.within name k hsize hfinishes).mono hk

/-- Heights that a walk does not change are all heights. -/
theorem eq_heights_of_fixed (h : r.Lowered walks heights) (hfixed : r.lowerAll heights = heights) :
    heights = r.heights := by
  have hall : ∀ more, r.Lowered (walks + more) heights := by
    intro more
    induction more with
    | zero => exact h
    | succ more ih =>
      have hstep := ih.step
      rwa [hfixed] at hstep
  exact (hall r.size).eq_heights (Nat.le_add_left _ _)

end Lowered

/-- A walk does not change the heights. -/
theorem lowerAll_heights (r : Rules) : r.lowerAll r.heights = r.heights := by
  have hall : r.Lowered r.size r.heights := {
    grounded := fun _ _ => within_heights_iff.1
    within := fun _ _ _ => within_heights_iff.2 }
  exact hall.step.eq_heights (Nat.le_succ _)

/-- The walks through the rules, up to the first one that changes nothing. -/
inductive LowersTo (r : Rules) : NameMap Nat → NameMap Nat → Prop where
  | done {heights : NameMap Nat} : r.lowerAll heights = heights → LowersTo r heights heights
  | again {heights result : NameMap Nat} : r.lowerAll heights ≠ heights →
      LowersTo r (r.lowerAll heights) result → LowersTo r heights result

theorem LowersTo.eq_heights {walks : Nat} (h : r.LowersTo heights result)
    (hlowered : r.Lowered walks heights) : result = r.heights := by
  induction h generalizing walks with
  | done hfixed => exact hlowered.eq_heights_of_fixed hfixed
  | again _ _ ih => exact ih hlowered.step

theorem lowersTo_heights {walks more : Nat} (h : r.Lowered walks heights)
    (hmore : r.size ≤ more + walks) : r.LowersTo heights r.heights := by
  induction more generalizing walks heights with
  | zero =>
    rw [Nat.zero_add] at hmore
    rw [h.eq_heights hmore]
    exact .done r.lowerAll_heights
  | succ more ih =>
    by_cases hfixed : r.lowerAll heights = heights
    · rw [h.eq_heights_of_fixed hfixed]
      exact .done r.lowerAll_heights
    · exact .again hfixed (ih h.step (by omega))

/-- Lowering heights in place ends, and it ends with the heights. -/
theorem lowersTo_iff (r : Rules) (result : NameMap Nat) :
    r.LowersTo ∅ result ↔ result = r.heights := by
  constructor
  · intro h
    exact h.eq_heights (Lowered.zero r)
  · rintro rfl
    exact lowersTo_heights (Lowered.zero r) (Nat.le_refl r.size)

end Rules

end Chomsky
