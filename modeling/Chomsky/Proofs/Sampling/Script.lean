import Chomsky.Grammar.Samples
import Chomsky.Grammar.Tree
import Chomsky.Proofs.Sampling.Sentence

/-!
# Which sentences can be sampled

Near the root every alternative that can be finished can be picked: some draw is spread
to its index, and that draw counts. Deeper down there is no choice, and the quickest
alternative is used. So the sentences that scripts of draws lead to are the words at the
leaves of the derivation trees that use the quickest alternatives from the depth limit
on. The script for such a tree lists one draw for each node above the limit, in the
order in which the symbols are worked off: a node comes before the trees below it, and
these come before the trees to its right.

A subtree shows that what is used above it can be finished, so no tree is left out for
the height of its alternatives. And whatever the choices are made by, nothing else is
ever returned.

## What this module delivers

- `Draw.exists_index?_eq`: each index has a draw that counts.
- `IsQuickest` and `quickest?_eq_some_iff`: what the quickest alternative is.
- `Forest.exists_samplesWith` and `Rules.Samples.exists_forest`: from a tree to its
  script, and from a run to its tree.
- `Grammar.sampleFrom_shallow`: every shallow tree can be sampled, and every sentence is
  that of a tree that is the quickest from the depth limit on.
-/

set_option autoImplicit false

namespace Chomsky

/-! ## Draws -/

/-- A draw that is spread to a given index, and that counts. -/
theorem Draw.exists_index?_eq {n i : Nat} (hi : i < n) (hn : n < UInt32.size) :
    ∃ draw, index? n draw = some i := by
  -- the first draw whose product is large enough exceeds the index by less than `n`
  obtain ⟨v, low, hlow, hproduct⟩ : ∃ v low, low < n ∧ v * n = i * UInt32.size + low := by
    have hdiv := Nat.div_add_mod (i * UInt32.size + (n - 1)) n
    have hmod := Nat.mod_lt (i * UInt32.size + (n - 1)) (Nat.zero_lt_of_lt hi)
    refine ⟨(i * UInt32.size + (n - 1)) / n, n - 1 - (i * UInt32.size + (n - 1)) % n, ?_, ?_⟩
    · omega
    · rw [Nat.mul_comm]
      omega
  have hsize : low < UInt32.size := Nat.lt_trans hlow hn
  have hdraw : v < UInt32.size := by
    apply Nat.lt_of_mul_lt_mul_right (a := n)
    have hindex : (i + 1) * UInt32.size ≤ n * UInt32.size := Nat.mul_le_mul_right _ hi
    rw [Nat.succ_mul] at hindex
    rw [hproduct, Nat.mul_comm UInt32.size]
    omega
  have hzone : low ≤ zone n := by
    have hshift : n ≤ n <<< (31 - n.log2) := by
      rw [Nat.shiftLeft_eq]
      exact Nat.le_mul_of_pos_right n (Nat.two_pow_pos _)
    unfold zone
    omega
  refine ⟨UInt32.ofNat v, ?_⟩
  have hquotient : (i * UInt32.size + low) / UInt32.size = i := by
    rw [Nat.mul_comm, Nat.mul_add_div (by decide), Nat.div_eq_of_lt hsize, Nat.add_zero]
  have hremainder : (i * UInt32.size + low) % UInt32.size = low := by
    rw [Nat.mul_comm, Nat.mul_add_mod, Nat.mod_eq_of_lt hsize]
  unfold index?
  rw [UInt32.toNat_ofNat_of_lt' hdraw, hproduct]
  dsimp only
  rw [hremainder, hquotient, if_pos hzone]

/-- A draw of a script that counts is the choice. -/
theorem Script.choose_cons {n i : Nat} {draw : UInt32} (hn : 0 < n)
    (h : Draw.index? n draw = some i) (rest : List UInt32) (used : Nat) :
    source.chooser.choose n hn ⟨draw :: rest, used⟩
      = (⟨i, Draw.lt_of_index?_eq_some hn h⟩, ⟨rest, used + 1⟩) := by
  have hnext : source.next ⟨draw :: rest, used⟩ = (draw, ⟨rest, used + 1⟩) := rfl
  change source.chooseFrom n hn (rest.length + 1 + 1) ⟨draw :: rest, used⟩ = _
  rw [DrawSource.chooseFrom]
  split
  · next j hj =>
    rw [hnext] at hj
    obtain rfl := Option.some.inj (hj.symm.trans h)
    rfl
  · next hnone =>
    rw [hnext] at hnone
    exact absurd (h.symm.trans hnone) (Option.some_ne_none i)

/-! ## Picking a given alternative -/

section Pick

variable {heights : NameMap Nat} {alternatives : List Phrase} {p : Phrase} {depth : Nat}

/-- The first alternative of least height: it can be finished, and of the others that can
be finished those before it are higher and those after it are no lower. -/
def IsQuickest (heights : NameMap Nat) (alternatives : List Phrase) (p : Phrase) : Prop :=
  ∃ before after h, alternatives = before ++ p :: after ∧ p.height? heights = some h ∧
    (∀ q ∈ before, ∀ k, q.height? heights = some k → h < k) ∧
    ∀ q ∈ after, ∀ k, q.height? heights = some k → h ≤ k

theorem quickest?_eq_some_iff :
    quickest? heights alternatives = some p ↔ IsQuickest heights alternatives p := by
  rw [quickest?, List.find?_eq_some_iff_append]
  simp only [Bool.and_eq_true, Option.isSome_iff_exists, beq_iff_eq]
  constructor
  · rintro ⟨⟨⟨h, hp⟩, hleast⟩, before, after, rfl, hbefore⟩
    obtain ⟨-, hmin⟩ := Rules.leastHeight?_eq_some_iff.1 (hleast.symm.trans hp)
    refine ⟨before, after, h, rfl, hp, fun q hq k hk => ?_, fun q hq k hk => ?_⟩
    · -- an alternative before it of the same height would have been found
      have hle := hmin q (List.mem_append_left _ hq) k hk
      refine Nat.lt_of_le_of_ne hle ?_
      rintro rfl
      have hfails := hbefore q hq
      rw [hk, ← hleast, hp] at hfails
      exact absurd hfails (by simp)
    · exact hmin q (List.mem_append_right _ (List.mem_cons_of_mem p hq)) k hk
  · rintro ⟨before, after, h, rfl, hp, hbefore, hafter⟩
    have hleast : Rules.leastHeight? heights (before ++ p :: after) = some h := by
      refine Rules.leastHeight?_eq_some_iff.2 ⟨⟨p, by simp, hp⟩, fun q hq k hk => ?_⟩
      rcases List.mem_append.1 hq with hq | hq
      · exact Nat.le_of_lt (hbefore q hq k hk)
      · rcases List.mem_cons.1 hq with rfl | hq
        · exact Nat.le_of_eq (Option.some.inj (hp.symm.trans hk))
        · exact hafter q hq k hk
    refine ⟨⟨⟨h, hp⟩, hp.trans hleast.symm⟩, before, after, rfl, fun q hq => ?_⟩
    cases hk : q.height? heights with
    | none => rfl
    | some k =>
      have hne : k ≠ h := Nat.ne_of_gt (hbefore q hq k hk)
      simpa [hleast] using hne

/-- Draws with which a given alternative is picked, and which are used up by this: one
draw near the root, and none from the depth limit on. -/
theorem Rules.exists_draws_pick {h : Nat} (hp : p ∈ alternatives)
    (hheight : p.height? heights = some h) (hsmall : alternatives.length < UInt32.size)
    (hdeep : depthLimit ≤ depth → IsQuickest heights alternatives p) :
    ∃ draws, ∀ rest used, Rules.pick Script.source.chooser heights depth alternatives
      ⟨draws ++ rest, used⟩ = (some p, ⟨rest, used + draws.length⟩) := by
  rcases Nat.lt_or_ge depth depthLimit with hearly | hlate
  · obtain ⟨i, hi, hget⟩ := List.getElem_of_mem (mem_finishing.2 ⟨hp, h, hheight⟩)
    have hlength : (finishing heights alternatives).length < UInt32.size :=
      Nat.lt_of_le_of_lt (List.length_filter_le _ _) hsmall
    obtain ⟨draw, hdraw⟩ := Draw.exists_index?_eq hi hlength
    have hpos := Nat.zero_lt_of_lt hi
    refine ⟨[draw], fun rest used => ?_⟩
    rw [Rules.pick, if_pos hearly]
    simp only [dif_pos hpos, List.singleton_append, Script.choose_cons hpos hdraw,
      Fin.getElem_fin, hget, List.length_singleton]
  · refine ⟨[], fun rest used => ?_⟩
    rw [Rules.pick, if_neg (Nat.not_lt.2 hlate), quickest?_eq_some_iff.2 (hdeep hlate)]
    rfl

end Pick

/-! ## From a tree to its script -/

namespace Rules

variable {rules : Rules} {limit depth : Nat} {name : String} {p rest : Phrase} {u w : List String}
  {draws more : List UInt32}

/-- A phrase that derives a word can be finished. -/
theorem exists_height?_of_yields (h : Yields rules p w) :
    ∃ k, p.height? rules.heights = some k := by
  obtain ⟨n, hn⟩ := exists_finishesIn_of_yields h
  have hwithin : HeightWithin (n + 1) (p.height? rules.heights) :=
    Phrase.within_height?_succ.2 fun name hname => within_heights_iff.2 (hn name hname)
  obtain ⟨k, -, hk⟩ := hwithin
  exact ⟨k, hk⟩

/-- What can be used at a node of a tree: an alternative of its name, and from the depth
limit on the quickest one. -/
def Uses (rules : Rules) (depth : Nat) (name : String) (p : Phrase) : Prop :=
  p ∈ rules.alternatives name ∧
    (depthLimit ≤ depth → IsQuickest rules.heights (rules.alternatives name) p)

/-- The task ends with the word after exactly these draws, whatever draws follow. -/
def SamplesWith (rules : Rules) (limit depth : Nat) (task : SamplingTask) (draws : List UInt32)
    (w : List String) : Prop :=
  ∀ rest used, rules.Samples Script.source.chooser rules.heights limit depth task
    ⟨draws ++ rest, used⟩ (.ok w) ⟨rest, used + draws.length⟩

namespace SamplesWith

theorem nil : rules.SamplesWith limit depth (.phrase []) [] [] := fun _ _ => .nil

theorem terminal (t : String) (h : rules.SamplesWith limit depth (.phrase rest) draws w) :
    rules.SamplesWith limit depth (.phrase (.terminal t :: rest)) draws (t :: w) :=
  fun _ _ => .terminal t (h _ _)

/-- The draws for a nonterminal come before those for what is to its right. -/
theorem nonterminal (hname : rules.SamplesWith limit depth (.name name) draws u)
    (hrest : rules.SamplesWith limit depth (.phrase rest) more w) :
    rules.SamplesWith limit depth (.phrase (.nonterminal name :: rest)) (draws ++ more)
      (u ++ w) := by
  intro after used
  rw [List.append_assoc, List.length_append, ← Nat.add_assoc]
  exact .nonterminal (hname _ _) (hrest _ _)

/-- The draws for what is below a nonterminal come after those for its alternative. That
there are trees below shows that the alternative can be finished. -/
theorem picked {below : Forest} (hsmall : (rules.alternatives name).length < UInt32.size)
    (huses : rules.Uses depth name below.roots) (hnodes : below.Nodes rules.Uses (depth + 1))
    (hdepth : depth < limit)
    (hbelow : rules.SamplesWith limit (depth + 1) (.phrase below.roots) more below.word) :
    ∃ draws, rules.SamplesWith limit depth (.name name) draws below.word := by
  have hyields : Yields rules below.roots below.word := hnodes.yields fun _ _ _ h => h.1
  obtain ⟨h, hheight⟩ := exists_height?_of_yields hyields
  obtain ⟨draws, hpick⟩ := exists_draws_pick huses.1 hheight hsmall huses.2
  refine ⟨draws ++ more, fun after used => ?_⟩
  rw [List.append_assoc, List.length_append, ← Nat.add_assoc]
  have hrule := get?_of_mem_keys (mem_keys_of_mem_alternatives huses.1)
  exact .picked hdepth hrule (hpick _ _) (hbelow _ _)

end SamplesWith

end Rules

/-- The symbols at the roots of a row of trees are worked off as the trees tell, if the
right draws are made. -/
theorem Forest.exists_samplesWith {rules : Rules} {limit depth : Nat} {f : Forest}
    (hsmall : ∀ name, (rules.alternatives name).length < UInt32.size)
    (hnodes : f.Nodes rules.Uses depth) (hlimit : depth + f.height ≤ limit) :
    ∃ draws, rules.SamplesWith limit depth (.phrase f.roots) draws f.word := by
  induction f generalizing depth with
  | nil => exact ⟨[], .nil⟩
  | terminal t rest ih =>
    obtain ⟨draws, hrest⟩ := ih hnodes hlimit
    exact ⟨draws, hrest.terminal t⟩
  | nonterminal name below rest ihbelow ihrest =>
    obtain ⟨huses, hbelow, hrest⟩ := hnodes
    rw [height] at hlimit
    obtain ⟨more, hmore⟩ := ihbelow hbelow (by omega)
    obtain ⟨draws, hname⟩ :=
      Rules.SamplesWith.picked (hsmall name) huses hbelow (by omega) hmore
    obtain ⟨others, hothers⟩ := ihrest hrest (by omega)
    exact ⟨draws ++ others, hname.nonterminal hothers⟩

/-! ## From a run to its tree -/

section Run

variable {σ : Type} {rules : Rules} {chooser : Chooser σ} {limit depth : Nat} {name : String}
  {alternatives : List Phrase} {p : Phrase} {s s' : σ} {w : List String}

/-- What is picked for a name can be used at a node. -/
theorem Rules.uses_of_pick (hget : rules.get? name = some alternatives)
    (hpick : (pick chooser rules.heights depth alternatives s).1 = some p) :
    rules.Uses depth name p := by
  have halternatives : rules.alternatives name = alternatives := by
    rw [Rules.alternatives, hget]
    rfl
  rw [Uses, halternatives]
  refine ⟨(of_pick_eq_some hpick).1, fun hlate => ?_⟩
  rw [pick, if_neg (Nat.not_lt.2 hlate)] at hpick
  exact quickest?_eq_some_iff.1 hpick

/-- What is made of a task is at the leaves of trees that use what can be used. -/
theorem Rules.Samples.exists_forest {task : SamplingTask}
    {answer : Except SamplingError (List String)}
    (h : rules.Samples chooser rules.heights limit depth task s answer s') (hok : answer = .ok w) :
    ∃ f : Forest, f.roots = task.toPhrase ∧ f.word = w ∧ f.Nodes rules.Uses depth := by
  induction h generalizing w with
  | undefined => cases hok
  | endless => cases hok
  | @picked depth name alternatives p s₁ _ _ _ _ hget hpick _ ih =>
    obtain ⟨below, hroots, hword, hnodes⟩ := ih hok
    have hpicked : (pick chooser rules.heights depth alternatives s₁).1 = some p := by rw [hpick]
    have huses : rules.Uses depth name below.roots := hroots ▸ uses_of_pick hget hpicked
    exact ⟨.tree name below, rfl, (below.word_tree name).trans hword,
      Forest.nodes_tree.2 ⟨huses, hnodes⟩⟩
  | nil =>
    obtain rfl := Except.ok.inj hok
    exact ⟨.nil, rfl, rfl, trivial⟩
  | @terminal _ t _ _ _ answer _ ih =>
    cases answer with
    | error cause => cases hok
    | ok v =>
      obtain rfl := Except.ok.inj hok
      obtain ⟨rest, hroots, hword, hnodes⟩ := ih rfl
      exact ⟨.terminal t rest, congrArg _ hroots, congrArg _ hword, hnodes⟩
  | @nonterminal _ name _ u _ _ _ answer _ _ ihname ihrest =>
    cases answer with
    | error cause => cases hok
    | ok v =>
      obtain rfl := Except.ok.inj hok
      obtain ⟨f, hroot, rfl, hnodes⟩ := ihname rfl
      obtain ⟨below, rfl⟩ := Forest.exists_eq_tree hroot
      obtain ⟨huses, hbelow⟩ := Forest.nodes_tree.1 hnodes
      obtain ⟨rest, hroots, rfl, hrest⟩ := ihrest rfl
      rw [Forest.word_tree]
      exact ⟨.nonterminal name below rest, congrArg _ hroots, rfl, huses, hbelow, hrest⟩
  | failed => cases hok

end Run

/-! ## The sentences of a grammar -/

namespace Grammar

variable {σ : Type} {g : Grammar} {name : String}

/-- A tree that is the quickest from the depth limit on has a script. -/
theorem exists_script {below : Forest}
    (hsmall : ∀ lhs, (g.rules.alternatives lhs).length < UInt32.size)
    (hnodes : (Forest.tree name below).Nodes g.rules.Uses 0) :
    ∃ draws, g.sampleFrom Script.source.chooser name ⟨draws, 0⟩
      = (.ok below.word, ⟨[], draws.length⟩) := by
  obtain ⟨huses, hbelow⟩ := Forest.nodes_tree.1 hnodes
  obtain ⟨more, hmore⟩ := Forest.exists_samplesWith hsmall hbelow (Nat.le_refl _)
  obtain ⟨draws, hdraws⟩ := Rules.SamplesWith.picked (hsmall name) huses hbelow (by omega) hmore
  -- the computation is the one run that there is with these draws
  obtain ⟨answer, s', heq, -, hsamples⟩ :=
    samples_sampleFrom g Script.source.chooser name ⟨draws, 0⟩
  have hrun := hdraws [] 0
  rw [List.append_nil, Nat.zero_add draws.length] at hrun
  obtain ⟨rfl, rfl⟩ := hsamples.unique hrun
  exact ⟨draws, heq⟩

/-- Whatever the choices are made by, a sentence has a tree that is the quickest from the
depth limit on. -/
theorem exists_tree_of_sampleFrom {chooser : Chooser σ} {s : σ} {w : List String}
    (h : (g.sampleFrom chooser name s).1 = .ok w) :
    ∃ below, (Forest.tree name below).Nodes g.rules.Uses 0 ∧ below.word = w := by
  obtain ⟨answer, s', heq, -, hsamples⟩ := samples_sampleFrom g chooser name s
  rw [heq] at h
  obtain ⟨f, hroot, rfl, hnodes⟩ := hsamples.exists_forest h
  obtain ⟨below, rfl⟩ := Forest.exists_eq_tree hroot
  exact ⟨below, hnodes, (below.word_tree name).symm⟩

/-- Every derivation tree whose nonterminals are at depth 7 at most can be sampled: a
script of draws, which is used up, leads to the word at its leaves. And every sentence,
whatever the choices are made by, is the word at the leaves of a derivation tree in which
each nonterminal at depth 8 or more uses the first alternative of least height. -/
theorem sampleFrom_shallow (g : Grammar) (name : String)
    (hsmall : ∀ rule ∈ g.rules.entries, rule.2.length < UInt32.size) :
    (∀ below : Forest,
      (Forest.tree name below).Nodes
        (fun depth lhs p => p ∈ g.rules.alternatives lhs ∧ depth ≤ 7) 0 →
      ∃ draws, g.sampleFrom Script.source.chooser name ⟨draws, 0⟩
        = (.ok (Forest.tree name below).word, ⟨[], draws.length⟩)) ∧
    (∀ (σ : Type) (chooser : Chooser σ) (s : σ) (w : List String),
      (g.sampleFrom chooser name s).1 = .ok w →
      ∃ below : Forest, (Forest.tree name below).word = w ∧
        (Forest.tree name below).Nodes
          (fun depth lhs p => p ∈ g.rules.alternatives lhs ∧
            (8 ≤ depth → IsQuickest g.rules.heights (g.rules.alternatives lhs) p)) 0) := by
  have hlength : ∀ lhs, (g.rules.alternatives lhs).length < UInt32.size := by
    intro lhs
    by_cases hkey : lhs ∈ g.rules.keys
    · exact hsmall _ (NameMap.mem_entries_iff.2 (Rules.get?_of_mem_keys hkey))
    · rw [Rules.alternatives_of_notMem_keys hkey]
      decide
  refine ⟨fun below hshallow => ?_, fun σ chooser s w hw => ?_⟩
  · rw [Forest.word_tree]
    refine exists_script hlength (hshallow.imp fun depth lhs p hp => ⟨hp.1, fun hdeep => ?_⟩)
    -- no node is as deep as this
    exact absurd (Nat.le_trans hdeep hp.2) (by decide)
  · obtain ⟨below, hnodes, rfl⟩ := exists_tree_of_sampleFrom hw
    exact ⟨below, below.word_tree name, hnodes⟩

/-- The tree of a sum in the sample of expressions, and the sentence that it makes. -/
theorem sampleFrom_shallow_arithmetic :
    let g := Sample.arithmetic.grammar
    let variableBelow := Forest.tree "F" (.terminal "x" .nil)
    let below := Forest.nonterminal "E" (.tree "T" variableBelow)
      (.terminal "+" (.tree "T" variableBelow))
    let shallow := fun depth lhs p => p ∈ g.rules.alternatives lhs ∧ depth ≤ 7
    let quick := fun depth lhs p => p ∈ g.rules.alternatives lhs ∧
      (8 ≤ depth → IsQuickest g.rules.heights (g.rules.alternatives lhs) p)
    (∀ rule ∈ g.rules.entries, rule.2.length < UInt32.size) ∧
      (Forest.tree "E" below).Nodes shallow 0 ∧
      ∃ draws s', g.sampleFrom Script.source.chooser "E" ⟨draws, 0⟩ = (.ok ["x", "+", "x"], s') ∧
        ∃ other : Forest, (Forest.tree "E" other).word = ["x", "+", "x"] ∧
          (Forest.tree "E" other).Nodes quick 0 := by
  intro g variableBelow below shallow quick
  have hsmall : ∀ rule ∈ g.rules.entries, rule.2.length < UInt32.size := by decide
  have hshallow : (Forest.tree "E" below).Nodes shallow 0 := by decide
  obtain ⟨hscript, htree⟩ := sampleFrom_shallow g "E" hsmall
  obtain ⟨draws, hdraws⟩ := hscript below hshallow
  have hword : (Forest.tree "E" below).word = ["x", "+", "x"] := rfl
  rw [hword] at hdraws
  obtain ⟨other, hother⟩ :=
    htree Script Script.source.chooser ⟨draws, 0⟩ _ (congrArg Prod.fst hdraws)
  exact ⟨hsmall, hshallow, draws, _, hdraws, other, hother⟩

end Grammar

end Chomsky
