import Chomsky.Proofs.Analysis.HeightLoop
import Chomsky.Sampling.Sentence

/-!
# Sampling always ends

The process that makes a sentence is written as a relation: a nonterminal is replaced
by the alternative that is picked for it, and the symbols of an alternative are worked
off from left to right, until the first failure. Nothing is counted down in it, but it
tells how deep the calls are. The number of levels that the computation is given is then
shown to be no restriction.

Near the root any alternative that can be finished may be picked, so nothing gets
smaller there. But the heights of its nonterminals are no greater than the number of
rules, and from the depth limit on the height gets smaller with every level. So depth
and height together never exceed the depth limit and the number of rules. An
alternative that can be finished has no nonterminals without a height, so the only
call that can fail is the first one.

## What this module delivers

- `Rules.pick_eq_none_iff` and `Rules.of_pick_eq_some`: which alternative is picked.
- `Rules.Samples`, the process, with `Samples.unique` and `Samples.yields`.
- `Rules.samples_sample`: a nonterminal with a height has a sentence within the levels
  that are left.
- `Grammar.sampleFrom_outcome`: the three ways to end, each with its exact condition.
-/

set_option autoImplicit false

namespace Chomsky

variable {σ : Type} {rules : Rules} {chooser : Chooser σ} {heights : NameMap Nat}

/-! ## Picking an alternative -/

section Pick

variable {depth : Nat} {alternatives : List Phrase} {s : σ} {p : Phrase}

theorem mem_finishing : p ∈ finishing heights alternatives ↔
    p ∈ alternatives ∧ ∃ h, p.height? heights = some h := by
  rw [finishing, List.mem_filter, Option.isSome_iff_exists]

theorem finishing_eq_nil_iff : finishing heights alternatives = [] ↔
    Rules.leastHeight? heights alternatives = none := by
  rw [Rules.leastHeight?_eq_none_iff, finishing, List.filter_eq_nil_iff]
  simp only [Bool.not_eq_true, Option.isSome_eq_false_iff, Option.isNone_iff_eq_none]

theorem of_quickest?_eq_some (h : quickest? heights alternatives = some p) :
    p ∈ alternatives ∧ ∃ h, p.height? heights = some h ∧
      Rules.leastHeight? heights alternatives = some h := by
  refine ⟨List.mem_of_find?_eq_some h, ?_⟩
  have hp := List.find?_some h
  rw [Bool.and_eq_true, Option.isSome_iff_exists, beq_iff_eq] at hp
  obtain ⟨⟨k, hk⟩, hleast⟩ := hp
  exact ⟨k, hk, hleast.symm.trans hk⟩

theorem quickest?_eq_none_iff : quickest? heights alternatives = none ↔
    Rules.leastHeight? heights alternatives = none := by
  constructor
  · intro hnone
    cases hleast : Rules.leastHeight? heights alternatives with
    | none => rfl
    | some h =>
      -- an alternative of least height would have been found
      obtain ⟨⟨q, hq, hheight⟩, -⟩ := Rules.leastHeight?_eq_some_iff.1 hleast
      have hfails := List.find?_eq_none.1 hnone q hq
      rw [hheight, hleast] at hfails
      exact absurd (by simp) hfails
  · intro hleast
    cases hquickest : quickest? heights alternatives with
    | none => rfl
    | some q =>
      obtain ⟨-, h, -, hsome⟩ := of_quickest?_eq_some hquickest
      exact absurd (hleast.symm.trans hsome).symm (Option.some_ne_none h)

/-- No alternative is picked exactly if none can be finished. -/
theorem Rules.pick_eq_none_iff : (Rules.pick chooser heights depth alternatives s).1 = none ↔
    Rules.leastHeight? heights alternatives = none := by
  unfold Rules.pick
  split
  · rw [← finishing_eq_nil_iff]
    dsimp only
    split
    · next hpos => exact iff_of_false (Option.some_ne_none _) (List.ne_nil_of_length_pos hpos)
    · next hzero => exact iff_of_true rfl (List.length_eq_zero_iff.1 (Nat.eq_zero_of_not_pos hzero))
  · exact quickest?_eq_none_iff

/-- What is picked is an alternative that can be finished, and from the depth limit on
one of least height. -/
theorem Rules.of_pick_eq_some (h : (Rules.pick chooser heights depth alternatives s).1 = some p) :
    p ∈ alternatives ∧ ∃ h, p.height? heights = some h ∧
      (depthLimit ≤ depth → Rules.leastHeight? heights alternatives = some h) := by
  unfold Rules.pick at h
  split at h
  · next hearly =>
    dsimp only at h
    split at h
    · next hpos =>
      obtain rfl := Option.some.inj h
      obtain ⟨hmem, k, hk⟩ := mem_finishing.1
        (List.getElem_mem (chooser.choose (finishing heights alternatives).length hpos s).1.isLt)
      exact ⟨hmem, k, hk, fun hlate => absurd hearly (Nat.not_lt.2 hlate)⟩
    · exact absurd h.symm (Option.some_ne_none p)
  · obtain ⟨hmem, k, hk, hleast⟩ := of_quickest?_eq_some h
    exact ⟨hmem, k, hk, fun _ => hleast⟩

end Pick

/-! ## The process -/

/-- What a sentence is made of: a nonterminal, or the symbols of a phrase. -/
inductive SamplingTask where
  | name (name : String)
  | phrase (p : Phrase)

/-- The phrase that has to be derived. -/
def SamplingTask.toPhrase : SamplingTask → Phrase
  | name n => [.nonterminal n]
  | phrase p => p

/-- The process of making a sentence, from a state of the chooser to another one. The
task `name` at a depth is a call at this depth, and all calls are made at depths below
the limit. -/
inductive Rules.Samples (rules : Rules) (chooser : Chooser σ) (heights : NameMap Nat)
    (limit : Nat) : (depth : Nat) → SamplingTask → σ → Except SamplingError (List String) → σ →
      Prop where
  /-- A name without a rule fails. -/
  | undefined {depth : Nat} {name : String} {s : σ} : depth < limit → rules.get? name = none →
      Samples rules chooser heights limit depth (.name name) s
        (.error (.undefinedNonterminal name)) s
  /-- A name none of whose alternatives can be finished fails. -/
  | endless {depth : Nat} {name : String} {alternatives : List Phrase} {s s' : σ} :
      depth < limit → rules.get? name = some alternatives →
      Rules.pick chooser heights depth alternatives s = (none, s') →
      Samples rules chooser heights limit depth (.name name) s (.error (.nonTerminating name)) s'
  /-- Any other name goes on with the alternative that is picked, one level below. -/
  | picked {depth : Nat} {name : String} {alternatives : List Phrase} {p : Phrase}
      {s s' s'' : σ} {answer : Except SamplingError (List String)} :
      depth < limit → rules.get? name = some alternatives →
      Rules.pick chooser heights depth alternatives s = (some p, s') →
      Samples rules chooser heights limit (depth + 1) (.phrase p) s' answer s'' →
      Samples rules chooser heights limit depth (.name name) s answer s''
  | nil {depth : Nat} {s : σ} :
      Samples rules chooser heights limit depth (.phrase []) s (.ok []) s
  | terminal {depth : Nat} (t : String) {rest : Phrase} {s s' : σ}
      {answer : Except SamplingError (List String)} :
      Samples rules chooser heights limit depth (.phrase rest) s answer s' →
      Samples rules chooser heights limit depth (.phrase (.terminal t :: rest)) s
        (answer.map (t :: ·)) s'
  | nonterminal {depth : Nat} {name : String} {rest : Phrase} {u : List String} {s s' s'' : σ}
      {answer : Except SamplingError (List String)} :
      Samples rules chooser heights limit depth (.name name) s (.ok u) s' →
      Samples rules chooser heights limit depth (.phrase rest) s' answer s'' →
      Samples rules chooser heights limit depth (.phrase (.nonterminal name :: rest)) s
        (answer.map (u ++ ·)) s''
  /-- After a failure nothing more is done. -/
  | failed {depth : Nat} {name : String} {rest : Phrase} {s s' : σ} {cause : SamplingError} :
      Samples rules chooser heights limit depth (.name name) s (.error cause) s' →
      Samples rules chooser heights limit depth (.phrase (.nonterminal name :: rest)) s
        (.error cause) s'

namespace Rules

variable {limit limit' depth : Nat} {task : SamplingTask} {s s' s'' : σ}
  {answer answer' : Except SamplingError (List String)}

/-- The process has at most one outcome, whatever the limits. -/
theorem Samples.unique (h : rules.Samples chooser heights limit depth task s answer s')
    (h' : rules.Samples chooser heights limit' depth task s answer' s'') :
    answer = answer' ∧ s' = s'' := by
  induction h generalizing answer' s'' with
  | undefined _ hget =>
    cases h' with
    | undefined => exact ⟨rfl, rfl⟩
    | endless _ hget' => exact absurd (hget'.symm.trans hget) (Option.some_ne_none _)
    | picked _ hget' => exact absurd (hget'.symm.trans hget) (Option.some_ne_none _)
  | endless _ hget hpick =>
    cases h' with
    | undefined _ hget' => exact absurd (hget.symm.trans hget') (Option.some_ne_none _)
    | endless _ hget' hpick' =>
      obtain rfl := Option.some.inj (hget.symm.trans hget')
      exact ⟨rfl, (Prod.mk.inj (hpick.symm.trans hpick')).2⟩
    | picked _ hget' hpick' =>
      obtain rfl := Option.some.inj (hget.symm.trans hget')
      exact absurd (Prod.mk.inj (hpick'.symm.trans hpick)).1 (Option.some_ne_none _)
  | picked _ hget hpick _ ih =>
    cases h' with
    | undefined _ hget' => exact absurd (hget.symm.trans hget') (Option.some_ne_none _)
    | endless _ hget' hpick' =>
      obtain rfl := Option.some.inj (hget.symm.trans hget')
      exact absurd (Prod.mk.inj (hpick.symm.trans hpick')).1 (Option.some_ne_none _)
    | picked _ hget' hpick' hrest =>
      obtain rfl := Option.some.inj (hget.symm.trans hget')
      obtain ⟨hp, rfl⟩ := Prod.mk.inj (hpick.symm.trans hpick')
      obtain rfl := Option.some.inj hp
      exact ih hrest
  | nil =>
    cases h'
    exact ⟨rfl, rfl⟩
  | terminal t _ ih =>
    cases h' with
    | terminal _ hrest =>
      obtain ⟨rfl, rfl⟩ := ih hrest
      exact ⟨rfl, rfl⟩
  | nonterminal _ _ ihname ihrest =>
    cases h' with
    | nonterminal hname hrest =>
      obtain ⟨hu, rfl⟩ := ihname hname
      obtain rfl := Except.ok.inj hu
      obtain ⟨rfl, rfl⟩ := ihrest hrest
      exact ⟨rfl, rfl⟩
    | failed hname => cases (ihname hname).1
  | failed _ ih =>
    cases h' with
    | nonterminal hname => cases (ih hname).1
    | failed hname => exact ih hname

/-- A sentence is derived by what it was made of. -/
theorem Samples.yields {w : List String}
    (h : rules.Samples chooser heights limit depth task s answer s') (hok : answer = .ok w) :
    Yields rules task.toPhrase w := by
  induction h generalizing w with
  | undefined => cases hok
  | endless => cases hok
  | @picked depth _ alternatives p s₁ _ _ _ _ hget hpick _ ih =>
    have hpicked : (pick chooser heights depth alternatives s₁).1 = some p := by rw [hpick]
    have hmem := (of_pick_eq_some hpicked).1
    exact yields_nonterminal_iff.2 ⟨p, mem_alternatives_iff.2 ⟨alternatives, hget, hmem⟩, ih hok⟩
  | nil =>
    obtain rfl := Except.ok.inj hok
    exact .nil
  | @terminal _ t _ _ _ answer _ ih =>
    cases answer with
    | error cause => cases hok
    | ok v =>
      obtain rfl := Except.ok.inj hok
      exact .terminal t (ih rfl)
  | @nonterminal _ _ _ u _ _ _ answer _ _ ihname ihrest =>
    cases answer with
    | error cause => cases hok
    | ok v =>
      obtain rfl := Except.ok.inj hok
      exact Yields.append (ihname rfl) (ihrest rfl)
  | failed => cases hok

/-! ## The computation follows the process -/

/-- If all nonterminals of a phrase have sentences, so has the phrase. -/
theorem samples_samplePhrase
    {ofName : String → σ → Except SamplingError (List String) × σ} {p : Phrase} (s : σ)
    (h : ∀ name, .nonterminal name ∈ p → ∀ s, ∃ w s', ofName name s = (.ok w, s') ∧
      rules.Samples chooser heights limit depth (.name name) s (.ok w) s') :
    ∃ w s', samplePhrase ofName p s = (.ok w, s') ∧
      rules.Samples chooser heights limit depth (.phrase p) s (.ok w) s' := by
  induction p generalizing s with
  | nil => exact ⟨[], s, rfl, .nil⟩
  | cons x p ih =>
    have hrest := fun name hname => h name (List.mem_cons_of_mem x hname)
    cases x with
    | terminal t =>
      obtain ⟨w, s', hw, hsamples⟩ := ih s hrest
      refine ⟨t :: w, s', ?_, .terminal t hsamples⟩
      rw [samplePhrase, hw]
    | nonterminal name =>
      obtain ⟨u, s', hu, hname⟩ := h name List.mem_cons_self s
      -- the chooser goes on from where the first sentence left it
      obtain ⟨w, s'', hw, hsamples⟩ := ih s' hrest
      refine ⟨u ++ w, s'', ?_, .nonterminal hname hsamples⟩
      rw [samplePhrase, hu]
      dsimp only
      rw [hw]

/-- The nonterminals of an alternative that is picked are no higher than the levels below. -/
theorem exists_height_of_pick {levels depth h : Nat} {alternatives : List Phrase} {p : Phrase}
    {other : String} (hlevels : levels + 1 + depth = depthLimit + rules.size)
    (hleast : leastHeight? rules.heights alternatives = some h) (hle : h ≤ levels + 1)
    (hpick : (pick chooser rules.heights depth alternatives s).1 = some p)
    (hother : .nonterminal other ∈ p) : ∃ m, rules.heights.get? other = some m ∧ m ≤ levels := by
  obtain ⟨-, k, hk, hlate⟩ := of_pick_eq_some hpick
  have hwithin : HeightWithin k (p.height? rules.heights) := ⟨k, Nat.le_refl k, hk⟩
  cases k with
  | zero => exact absurd hwithin Phrase.not_within_height?_zero
  | succ k =>
    obtain ⟨m, hm, hget⟩ := Phrase.within_height?_succ.1 hwithin other hother
    refine ⟨m, hget, ?_⟩
    rcases Nat.lt_or_ge depth depthLimit with hearly | hdeep
    · -- near the root the number of rules bounds every height
      have hsize := le_size_of_get?_heights hget
      omega
    · have hh : h = k + 1 := Option.some.inj (hleast.symm.trans (hlate hdeep))
      omega

/-- A name with a height has a sentence, if the levels that are left are no fewer. -/
theorem samples_sample {levels depth h : Nat} {name : String} (s : σ)
    (hlevels : levels + depth = depthLimit + rules.size)
    (hget : rules.heights.get? name = some h) (hle : h ≤ levels) :
    ∃ w s', rules.sample chooser rules.heights levels depth name s = (.ok w, s') ∧
      rules.Samples chooser rules.heights (depthLimit + rules.size) depth (.name name) s
        (.ok w) s' := by
  induction levels generalizing depth name h s with
  | zero => exact absurd (within_heights_iff.1 ⟨h, hle, hget⟩) not_false
  | succ levels ih =>
    have hdepth : depth < depthLimit + rules.size := by omega
    have hrule := get?_of_mem_keys (within_heights_iff.1 ⟨h, hle, hget⟩).mem_keys
    have hleast : leastHeight? rules.heights (rules.alternatives name) = some h :=
      (get?_heights_eq rules name).symm.trans hget
    cases hpick : pick chooser rules.heights depth (rules.alternatives name) s with
    | mk choice s' =>
      cases choice with
      | none =>
        have hnone := pick_eq_none_iff.1 (congrArg Prod.fst hpick)
        exact absurd (hleast.symm.trans hnone) (Option.some_ne_none h)
      | some p =>
        obtain ⟨w, s'', hw, hsamples⟩ := samples_samplePhrase s' fun other hother s => by
          obtain ⟨m, hm, hmle⟩ :=
            exists_height_of_pick hlevels hleast hle (congrArg Prod.fst hpick) hother
          have hbelow : levels + (depth + 1) = depthLimit + rules.size := by omega
          exact ih s hbelow hm hmle
        refine ⟨w, s'', ?_, .picked hdepth hrule hpick hsamples⟩
        rw [sample, hrule]
        dsimp only
        rw [hpick]
        exact hw

end Rules

/-! ## The ways to end -/

namespace Grammar

/-- The ways in which sampling from a name can end. -/
inductive SamplingOutcome (g : Grammar) (name : String) :
    Except SamplingError (List String) → Prop where
  /-- The name has no rule. -/
  | undefined : name ∉ g.rules.keys → SamplingOutcome g name (.error (.undefinedNonterminal name))
  /-- The name has a rule and derives nothing. -/
  | endless : name ∈ g.rules.keys → (∀ w, ¬ g.rules.Derives name w) →
      SamplingOutcome g name (.error (.nonTerminating name))
  /-- The sentence is a word that the name derives. -/
  | sentence {w : List String} : g.rules.Derives name w → SamplingOutcome g name (.ok w)

/-- Each of the ways has its own condition, and the conditions exclude each other. -/
theorem SamplingOutcome.spec {g : Grammar} {name : String}
    {answer : Except SamplingError (List String)} (h : SamplingOutcome g name answer) :
    (answer = .error (.undefinedNonterminal name) ↔ name ∉ g.rules.keys) ∧
    (answer = .error (.nonTerminating name) ↔
      name ∈ g.rules.keys ∧ ∀ w, ¬ g.rules.Derives name w) ∧
    ((∃ w, answer = .ok w) ↔ ∃ w, g.rules.Derives name w) ∧
    (∀ w, answer = .ok w → g.rules.Derives name w) ∧
    (∀ cause, answer = .error cause →
      cause = .undefinedNonterminal name ∨ cause = .nonTerminating name) := by
  cases h with
  | undefined hname =>
    have hnothing : ¬ ∃ w, g.rules.Derives name w := by
      rintro ⟨w, p, hp, -⟩
      exact hname (Rules.mem_keys_of_mem_alternatives hp)
    refine ⟨iff_of_true rfl hname, iff_of_false nofun fun h => hname h.1,
      iff_of_false ?_ hnothing, nofun, ?_⟩
    · rintro ⟨w, heq⟩
      cases heq
    · intro cause heq
      exact Or.inl (Except.error.inj heq).symm
  | endless hname hnothing =>
    refine ⟨iff_of_false nofun (not_not_intro hname), iff_of_true rfl ⟨hname, hnothing⟩,
      iff_of_false ?_ (not_exists.2 hnothing), nofun, ?_⟩
    · rintro ⟨w, heq⟩
      cases heq
    · intro cause heq
      exact Or.inr (Except.error.inj heq).symm
  | @sentence w hw =>
    have hkey : name ∈ g.rules.keys := by
      obtain ⟨p, hp, -⟩ := hw
      exact Rules.mem_keys_of_mem_alternatives hp
    refine ⟨iff_of_false nofun (not_not_intro hkey), iff_of_false nofun fun h => h.2 w hw,
      iff_of_true ⟨w, rfl⟩ ⟨w, hw⟩, ?_, nofun⟩
    intro v heq
    obtain rfl := Except.ok.inj heq
    exact hw

variable (g : Grammar) (chooser : Chooser σ) (name : String) (s : σ)

/-- The computation ends as the process does, in one of these ways. -/
theorem samples_sampleFrom :
    ∃ answer s', g.sampleFrom chooser name s = (answer, s') ∧ SamplingOutcome g name answer ∧
      g.rules.Samples chooser g.rules.heights (depthLimit + g.rules.size) 0 (.name name) s
        answer s' := by
  have hfirst : 0 < depthLimit + g.rules.size := Nat.lt_add_right _ (by decide)
  have hbound : g.rules.levelBound = depthLimit + g.rules.size := rfl
  cases hheight : g.rules.heights.get? name with
  | some h =>
    have hle : h ≤ depthLimit + g.rules.size :=
      Nat.le_add_left_of_le (Rules.le_size_of_get?_heights hheight)
    obtain ⟨w, s', hw, hsamples⟩ := Rules.samples_sample s (Nat.add_zero _) hheight hle
    exact ⟨.ok w, s', hw, .sentence (yields_nonterminal_iff.1 (hsamples.yields rfl)), hsamples⟩
  | none =>
    have hendless : ∀ w, ¬ g.rules.Derives name w := by
      intro w hw
      obtain ⟨h, hsome⟩ := Rules.exists_get?_heights_iff.2 ⟨w, hw⟩
      exact absurd (hsome.symm.trans hheight) (Option.some_ne_none h)
    obtain ⟨levels, hlevels⟩ := Nat.exists_eq_succ_of_ne_zero (Nat.ne_of_gt hfirst)
    rw [sampleFrom, hbound, hlevels, Rules.sample]
    by_cases hname : name ∈ g.rules.keys
    · have hrule := Rules.get?_of_mem_keys hname
      have hleast : Rules.leastHeight? g.rules.heights (g.rules.alternatives name) = none :=
        (Rules.get?_heights_eq g.rules name).symm.trans hheight
      cases hpick : Rules.pick chooser g.rules.heights 0 (g.rules.alternatives name) s with
      | mk choice s' =>
        have hnone : (Rules.pick chooser g.rules.heights 0 (g.rules.alternatives name) s).1 = none :=
          Rules.pick_eq_none_iff.2 hleast
        rw [hpick] at hnone
        obtain rfl : choice = none := hnone
        refine ⟨_, s', ?_, .endless hname hendless, .endless (Nat.succ_pos levels) hrule hpick⟩
        rw [hrule]
        dsimp only
        rw [hpick]
    · have hrule := NameMap.get?_eq_none_iff.2 hname
      refine ⟨_, s, ?_, .undefined hname, .undefined (Nat.succ_pos levels) hrule⟩
      rw [hrule]

/-- Sampling always ends. It fails only for a name without a rule and for a name that
derives nothing, and the cause is this name. Otherwise the sentence is a word that the
name derives. The heights are what lowering in place ends with, the computation is what
the process does, and no call is as deep as the depth limit and the number of rules. -/
theorem sampleFrom_outcome :
    ((g.sampleFrom chooser name s).1 = .error (.undefinedNonterminal name) ↔
      name ∉ g.rules.keys) ∧
    ((g.sampleFrom chooser name s).1 = .error (.nonTerminating name) ↔
      name ∈ g.rules.keys ∧ ∀ w, ¬ g.rules.Derives name w) ∧
    ((∃ w, (g.sampleFrom chooser name s).1 = .ok w) ↔ ∃ w, g.rules.Derives name w) ∧
    (∀ w, (g.sampleFrom chooser name s).1 = .ok w → g.rules.Derives name w) ∧
    (∀ cause, (g.sampleFrom chooser name s).1 = .error cause →
      cause = .undefinedNonterminal name ∨ cause = .nonTerminating name) ∧
    (∀ heights, g.rules.LowersTo ∅ heights ↔ heights = g.rules.heights) ∧
    (∀ answer s', g.sampleFrom chooser name s = (answer, s') ↔
      ∃ limit, g.rules.Samples chooser g.rules.heights limit 0 (.name name) s answer s') ∧
    g.rules.Samples chooser g.rules.heights (depthLimit + g.rules.size) 0 (.name name) s
      (g.sampleFrom chooser name s).1 (g.sampleFrom chooser name s).2 := by
  obtain ⟨answer, s', heq, houtcome, hsamples⟩ := samples_sampleFrom g chooser name s
  have hprocess : ∀ answer' s'', (answer, s') = (answer', s'') ↔
      ∃ limit, g.rules.Samples chooser g.rules.heights limit 0 (.name name) s answer' s'' := by
    intro answer' s''
    constructor
    · intro hpair
      obtain ⟨rfl, rfl⟩ := Prod.mk.inj hpair
      exact ⟨_, hsamples⟩
    · rintro ⟨limit, hsamples'⟩
      obtain ⟨rfl, rfl⟩ := hsamples.unique hsamples'
      rfl
  rw [heq]
  obtain ⟨hundefined, hendless, hexists, hword, hcause⟩ := houtcome.spec
  exact ⟨hundefined, hendless, hexists, hword, hcause, Rules.lowersTo_iff g.rules, hprocess,
    hsamples⟩

end Grammar

end Chomsky
