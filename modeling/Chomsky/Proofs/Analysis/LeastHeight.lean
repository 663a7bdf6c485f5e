import Chomsky.Grammar.Samples
import Chomsky.Grammar.Tree
import Chomsky.Proofs.Analysis.HeightLoop
import Mathlib.Order.Bounds.Defs

/-!
# Heights of trees

The heights that are found are those of derivation trees, and no tree is lower. A tree of
terminals only below its root has height one, like a tree with nothing below it, and any
other tree is one higher than the highest of the trees below.

The walks that lower heights in place need not compare the heights before and after. It is
enough to note whether any height was lowered on the way, because a height that was lowered
once stays below what it was before.

## What this module delivers

- `Rules.HeightWalk`, `Rules.heightWalk` and `Rules.WalksTo`: the walks that note whether
  they changed anything, without a bound on their number.
- `Rules.changed_heightWalk_iff` and `Rules.walksTo_iff`: what is noted, and how the walks
  end.
- `Forest.Follows` and `Rules.finishesIn_iff`: the trees that the bounds on heights are
  about.
- `Rules.heights_exact`: which names have a height, and that it is the least.
-/

set_option autoImplicit false

namespace Chomsky

namespace Rules

variable {r : Rules} {start heights result : NameMap Nat}

/-! ## Walks that note what they do -/

/-- The heights in the middle of a walk, and whether any was lowered so far. -/
structure HeightWalk where
  /-- The heights as they are now. -/
  heights : NameMap Nat
  /-- Whether a step of this walk has lowered a height. -/
  changed : Bool

/-- Lowers the height of a left side to what its alternatives allow, and notes if it does.
A name without a height gets one. -/
def HeightWalk.lower (w : HeightWalk) (rule : String × List Phrase) : HeightWalk :=
  match leastHeight? w.heights rule.2 with
  | none => w
  | some h =>
      if (w.heights.get? rule.1).all (h < ·) then ⟨w.heights.insert rule.1 h, true⟩ else w

/-- One walk through all rules. -/
def heightWalk (r : Rules) (heights : NameMap Nat) : HeightWalk :=
  r.entries.foldl HeightWalk.lower ⟨heights, false⟩

/-- The walks from some heights on, up to the first one that lowers none. -/
inductive WalksTo (r : Rules) : NameMap Nat → NameMap Nat → Prop where
  | last {heights : NameMap Nat} : (r.heightWalk heights).changed = false →
      WalksTo r heights (r.heightWalk heights).heights
  | again {heights result : NameMap Nat} : (r.heightWalk heights).changed = true →
      WalksTo r (r.heightWalk heights).heights result → WalksTo r heights result

theorem heights_lower (w : HeightWalk) (rule : String × List Phrase) :
    (w.lower rule).heights = lowerAt w.heights rule := by
  unfold HeightWalk.lower lowerAt
  cases leastHeight? w.heights rule.2 with
  | none => rfl
  | some h =>
    dsimp only
    split <;> rfl

theorem heights_foldl_lower (rules : List (String × List Phrase)) (w : HeightWalk) :
    (rules.foldl HeightWalk.lower w).heights = rules.foldl lowerAt w.heights := by
  induction rules generalizing w with
  | nil => rfl
  | cons rule rules ih => rw [List.foldl_cons, ih, heights_lower, List.foldl_cons]

theorem heights_heightWalk (r : Rules) (heights : NameMap Nat) :
    (r.heightWalk heights).heights = r.lowerAll heights :=
  heights_foldl_lower r.entries ⟨heights, false⟩

/-- What is noted on the way from the heights at the start: no height has become larger,
and one has become lower exactly if this was noted. -/
structure HeightWalk.Notes (start : NameMap Nat) (w : HeightWalk) : Prop where
  /-- No height has become larger. -/
  lower : ∀ name bound, HeightWithin bound (start.get? name) →
    HeightWithin bound (w.heights.get? name)
  /-- A difference is noted, and nothing else is. -/
  changed_iff : w.changed = true ↔ w.heights ≠ start

theorem HeightWalk.Notes.step {w : HeightWalk} (h : w.Notes start) (rule : String × List Phrase) :
    (w.lower rule).Notes start := by
  refine ⟨fun name bound hwithin => ?_, ?_⟩
  · rw [heights_lower, within_lowerAt]
    exact Or.inl (h.lower name bound hwithin)
  · unfold HeightWalk.lower
    cases leastHeight? w.heights rule.2 with
    | none => exact h.changed_iff
    | some new =>
      dsimp only
      split
      · next hlower =>
        refine iff_of_true rfl fun hsame => ?_
        -- the new height was out of reach before, so it was at the start
        have hwithin : HeightWithin new (start.get? rule.1) := by
          rw [← hsame, NameMap.get?_insert, if_pos rfl]
          exact ⟨new, Nat.le_refl new, rfl⟩
        obtain ⟨old, hold, hget⟩ := h.lower rule.1 new hwithin
        rw [hget, Option.all_some, decide_eq_true_eq] at hlower
        exact absurd hlower (Nat.not_lt.2 hold)
      · exact h.changed_iff

theorem HeightWalk.Notes.foldl {w : HeightWalk} (h : w.Notes start)
    (rules : List (String × List Phrase)) : (rules.foldl HeightWalk.lower w).Notes start := by
  induction rules generalizing w with
  | nil => exact h
  | cons rule rules ih => exact ih (h.step rule)

/-- A walk notes a change exactly if the heights are different after it. -/
theorem changed_heightWalk_iff :
    (r.heightWalk heights).changed = true ↔ r.lowerAll heights ≠ heights := by
  have hstart : HeightWalk.Notes heights ⟨heights, false⟩ :=
    ⟨fun _ _ => id, iff_of_false Bool.false_ne_true (not_not.2 rfl)⟩
  rw [← heights_heightWalk]
  exact (hstart.foldl r.entries).changed_iff

theorem walksTo_iff_lowersTo : r.WalksTo heights result ↔ r.LowersTo heights result := by
  constructor
  · intro h
    induction h with
    | @last heights hquiet =>
      have hfixed : r.lowerAll heights = heights := by
        refine not_not.1 fun hne => ?_
        exact absurd (hquiet.symm.trans (changed_heightWalk_iff.2 hne)) Bool.false_ne_true
      rw [heights_heightWalk, hfixed]
      exact .done hfixed
    | again hchanged _ ih =>
      rw [heights_heightWalk] at ih
      exact .again (changed_heightWalk_iff.1 hchanged) ih
  · intro h
    induction h with
    | @done heights hfixed =>
      have hquiet : (r.heightWalk heights).changed = false :=
        Bool.eq_false_iff.2 fun hchanged => changed_heightWalk_iff.1 hchanged hfixed
      have hlast := WalksTo.last hquiet
      rwa [heights_heightWalk, hfixed] at hlast
    | again hne _ ih =>
      rw [← heights_heightWalk] at ih
      exact .again (changed_heightWalk_iff.2 hne) ih

/-- The walks end, and they end with the heights. -/
theorem walksTo_iff (r : Rules) (result : NameMap Nat) :
    r.WalksTo ∅ result ↔ result = r.heights := by
  rw [walksTo_iff_lowersTo, lowersTo_iff]

end Rules

/-! ## Trees and their heights -/

namespace Forest

variable {rules : Rules} {f : Forest} {name : String}

/-- The trees use alternatives of the rules. -/
def Follows (rules : Rules) (f : Forest) : Prop :=
  f.Nodes (fun _ lhs p => p ∈ rules.alternatives lhs) 0

/-- The depth of a node does not matter for the alternatives that can be used there. -/
theorem follows_iff_nodes (depth : Nat) :
    f.Follows rules ↔ f.Nodes (fun _ lhs p => p ∈ rules.alternatives lhs) depth := by
  have hshift : ∀ (f : Forest) (depth depth' : Nat),
      f.Nodes (fun _ lhs p => p ∈ rules.alternatives lhs) depth →
        f.Nodes (fun _ lhs p => p ∈ rules.alternatives lhs) depth' := by
    intro f
    induction f with
    | nil => exact fun _ _ _ => trivial
    | terminal t rest ih => exact ih
    | nonterminal name below rest ihbelow ihrest =>
      rintro depth depth' ⟨hhere, hbelow, hrest⟩
      exact ⟨hhere, ihbelow _ _ hbelow, ihrest _ _ hrest⟩
  exact ⟨hshift f 0 depth, hshift f depth 0⟩

theorem follows_nonterminal {below rest : Forest} :
    (nonterminal name below rest).Follows rules ↔
      below.roots ∈ rules.alternatives name ∧ below.Follows rules ∧ rest.Follows rules := by
  rw [follows_iff_nodes (f := below) 1]
  exact Iff.rfl

theorem follows_tree {below : Forest} : (tree name below).Follows rules ↔
    below.roots ∈ rules.alternatives name ∧ below.Follows rules := by
  rw [tree, follows_nonterminal]
  exact and_congr_right fun _ => and_iff_left trivial

theorem height_tree (name : String) (below : Forest) :
    (tree name below).height = below.height + 1 := Nat.max_zero _

/-- A tree of the row is no higher than the row. -/
theorem Follows.finishesIn (h : f.Follows rules) {other : String}
    (hother : .nonterminal other ∈ f.roots) : rules.FinishesIn f.height other := by
  induction f generalizing other with
  | nil => exact absurd hother List.not_mem_nil
  | terminal t rest ih => exact ih h ((List.mem_cons.1 hother).resolve_left Symbol.noConfusion)
  | nonterminal name below rest ihbelow ihrest =>
    obtain ⟨hhere, hbelow, hrest⟩ := follows_nonterminal.1 h
    rcases List.mem_cons.1 hother with heq | hother
    · have hname : rules.FinishesIn (below.height + 1) name :=
        ⟨below.roots, hhere, fun _ => ihbelow hbelow⟩
      rw [Symbol.nonterminal.inj heq]
      exact hname.mono (Nat.le_max_left _ _)
    · exact (ihrest hrest hother).mono (Nat.le_max_right _ _)

/-- Trees for all nonterminals of a phrase can be put in a row. -/
theorem exists_row {p : Phrase} {bound : Nat}
    (h : ∀ other, .nonterminal other ∈ p →
      ∃ below, (tree other below).Follows rules ∧ (tree other below).height ≤ bound) :
    ∃ f : Forest, f.roots = p ∧ f.Follows rules ∧ f.height ≤ bound := by
  induction p with
  | nil => exact ⟨.nil, rfl, trivial, Nat.zero_le bound⟩
  | cons s p ih =>
    obtain ⟨rest, rfl, hrest, hheight⟩ :=
      ih fun other hother => h other (List.mem_cons_of_mem s hother)
    cases s with
    | terminal t => exact ⟨.terminal t rest, rfl, hrest, hheight⟩
    | nonterminal name =>
      obtain ⟨below, hbelow, hle⟩ := h name List.mem_cons_self
      obtain ⟨hhere, hbelow⟩ := follows_tree.1 hbelow
      rw [height_tree] at hle
      exact ⟨.nonterminal name below rest, rfl, follows_nonterminal.2 ⟨hhere, hbelow, hrest⟩,
        Nat.max_le.2 ⟨hle, hheight⟩⟩

end Forest

namespace Rules

variable {r : Rules} {name : String}

/-- A name finishes within a height exactly if it has a tree that is no higher. -/
theorem finishesIn_iff {bound : Nat} : r.FinishesIn bound name ↔
    ∃ below, (Forest.tree name below).Follows r ∧ (Forest.tree name below).height ≤ bound := by
  constructor
  · intro h
    induction bound generalizing name with
    | zero => exact absurd h not_false
    | succ bound ih =>
      obtain ⟨p, hp, hothers⟩ := h
      obtain ⟨below, rfl, hbelow, hheight⟩ :=
        Forest.exists_row fun other hother => ih (hothers other hother)
      refine ⟨below, Forest.follows_tree.2 ⟨hp, hbelow⟩, ?_⟩
      rw [Forest.height_tree]
      exact Nat.succ_le_succ hheight
  · rintro ⟨below, hfollows, hheight⟩
    exact (hfollows.finishesIn List.mem_cons_self).mono hheight

/-- The height of a name is the least height of its trees. -/
theorem get?_heights_eq_some_iff {h : Nat} : r.heights.get? name = some h ↔
    IsLeast {n | ∃ below, (Forest.tree name below).Follows r ∧
      (Forest.tree name below).height = n} h := by
  have hwithin : ∀ bound, HeightWithin bound (r.heights.get? name) ↔
      ∃ below, (Forest.tree name below).Follows r ∧ (Forest.tree name below).height ≤ bound :=
    fun bound => within_heights_iff.trans finishesIn_iff
  constructor
  · intro hget
    simp only [hget, heightWithin_some] at hwithin
    have hleast : ∀ below, (Forest.tree name below).Follows r →
        h ≤ (Forest.tree name below).height :=
      fun below hfollows => (hwithin _).2 ⟨below, hfollows, Nat.le_refl _⟩
    obtain ⟨below, hfollows, hle⟩ := (hwithin h).1 (Nat.le_refl h)
    refine ⟨⟨below, hfollows, Nat.le_antisymm hle (hleast below hfollows)⟩, ?_⟩
    rintro _ ⟨other, hother, rfl⟩
    exact hleast other hother
  · rintro ⟨⟨below, hfollows, rfl⟩, hleast⟩
    obtain ⟨h, hle, hget⟩ := (hwithin _).2 ⟨below, hfollows, Nat.le_refl _⟩
    -- the height is that of a tree as well, so the least one is no higher
    obtain ⟨other, hother, hheight⟩ := (hwithin h).1 ⟨h, Nat.le_refl h, hget⟩
    have hge := Nat.le_trans (hleast ⟨other, hother, rfl⟩) hheight
    rw [hget, Nat.le_antisymm hle hge]

/-- Whatever the grammar, the walks that lower heights in place end, in one way only, with
the heights. A name has a height exactly if it has a rule and derives a word. Its height is
the least height of a derivation tree from it, and the least height of its alternatives. -/
theorem heights_exact (g : Grammar) :
    (∀ result, g.rules.WalksTo ∅ result ↔ result = g.rules.heights) ∧
    (∀ name, name ∈ g.rules.heights.keys ↔ name ∈ g.rules.keys ∧ ∃ w, g.rules.Derives name w) ∧
    (∀ name h, g.rules.heights.get? name = some h ↔
      IsLeast {n | ∃ below, (Forest.tree name below).Follows g.rules ∧
        (Forest.tree name below).height = n} h) ∧
    ∀ name h, g.rules.heights.get? name = some h ↔
      IsLeast {n | ∃ p ∈ g.rules.alternatives name, p.height? g.rules.heights = some n} h := by
  refine ⟨g.rules.walksTo_iff, fun name => ?_, fun name h => get?_heights_eq_some_iff,
    fun name h => ?_⟩
  · rw [NameMap.mem_keys, exists_get?_heights_iff]
    constructor
    · rintro ⟨w, p, hp, hw⟩
      exact ⟨mem_keys_of_mem_alternatives hp, w, p, hp, hw⟩
    · exact And.right
  · rw [get?_heights_eq, leastHeight?_eq_some_iff]
    refine and_congr_right fun _ => ⟨?_, ?_⟩
    · rintro hleast n ⟨p, hp, hheight⟩
      exact hleast p hp n hheight
    · intro hleast p hp n hheight
      exact hleast ⟨p, hp, hheight⟩

/-- In the sample of expressions a factor can be a variable, and a sum is at least that. -/
example : ["F", "T", "E"].map Sample.arithmetic.grammar.rules.heights.get? =
    [some 1, some 2, some 3] := by
  decide

end Rules

end Chomsky
