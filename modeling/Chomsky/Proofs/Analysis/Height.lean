import Chomsky.Analysis.Height
import Chomsky.Grammar.Derivation
import Chomsky.Proofs.Grammar.Lookup
import Chomsky.Proofs.Name.Distinct

/-!
# Heights are exact

After `n` rounds the heights of the trees of height at most `n` are known, and they are
the least ones. A round that changes anything gives a height to a name that had none,
so the rounds end within the number of rules, and the heights they end with are a fixed
point: the height of a name is the least that its alternatives allow.

## What this module delivers

- `HeightWithin` and `Rules.within_leastHeight?_succ`: the least height that alternatives
  allow, said by bounds.
- `Rules.FinishesIn`: a name has a derivation tree of at most a given height.
- `Rules.exists_finishesIn_iff`: such a tree exists exactly if the name derives a word.
- `Rules.Ranked`, what holds after a number of rounds, and `Rules.heights_spec`.
- `Rules.within_heights_iff`, `Rules.get?_heights_eq`, `Rules.le_size_of_get?_heights` and
  `Rules.exists_get?_heights_iff`: what the heights say.
-/

set_option autoImplicit false

namespace Chomsky

/-- There is a height, and it is at most the bound. -/
def HeightWithin (bound : Nat) (height? : Option Nat) : Prop := ∃ h ≤ bound, height? = some h

theorem HeightWithin.mono {bound bound' : Nat} {height? : Option Nat}
    (h : HeightWithin bound height?) (hle : bound ≤ bound') : HeightWithin bound' height? := by
  obtain ⟨n, hn, heq⟩ := h
  exact ⟨n, Nat.le_trans hn hle, heq⟩

theorem heightWithin_some {bound h : Nat} : HeightWithin bound (some h) ↔ h ≤ bound := by
  constructor
  · rintro ⟨n, hn, heq⟩
    exact Option.some.inj heq ▸ hn
  · intro h
    exact ⟨_, h, rfl⟩

theorem not_heightWithin_none {bound : Nat} : ¬ HeightWithin bound none := by
  rintro ⟨h, -, heq⟩
  exact absurd heq.symm (Option.some_ne_none h)

/-- A height is known by the bounds that it keeps to. -/
theorem HeightWithin.ext {a b : Option Nat}
    (h : ∀ bound, HeightWithin bound a ↔ HeightWithin bound b) : a = b := by
  have hsome : ∀ n, a = some n → b = some n := by
    rintro n rfl
    obtain ⟨m, hm, rfl⟩ := (h n).1 ⟨n, Nat.le_refl n, rfl⟩
    have hn := heightWithin_some.1 ((h m).2 ⟨m, Nat.le_refl m, rfl⟩)
    rw [Nat.le_antisymm hm hn]
  cases a with
  | some n => exact (hsome n rfl).symm
  | none =>
    cases b with
    | none => rfl
    | some m =>
      exact absurd ((h m).2 ⟨m, Nat.le_refl m, rfl⟩) not_heightWithin_none

/-! ## Heights of phrases -/

section Phrase

variable {heights : NameMap Nat} {p : Phrase} {ps : List Phrase} {bound : Nat}

theorem Symbol.within_height? {s : Symbol} : HeightWithin bound (s.height? heights) ↔
    ∀ name, s = .nonterminal name → HeightWithin bound (heights.get? name) := by
  cases s with
  | terminal t =>
    apply iff_of_true
    · exact ⟨0, Nat.zero_le _, rfl⟩
    · intro name heq
      exact absurd heq Symbol.noConfusion
  | nonterminal n =>
    constructor
    · rintro h _ ⟨⟩
      exact h
    · intro h
      exact h n rfl

theorem Phrase.within_symbolHeight?_cons {s : Symbol} :
    HeightWithin bound (Phrase.symbolHeight? heights (s :: p)) ↔
      HeightWithin bound (s.height? heights) ∧ HeightWithin bound (p.symbolHeight? heights) := by
  rw [Phrase.symbolHeight?]
  cases s.height? heights with
  | none => simp [not_heightWithin_none]
  | some h =>
    cases p.symbolHeight? heights with
    | none => simp [not_heightWithin_none]
    | some k =>
      simp only [heightWithin_some]
      exact Nat.max_le

/-- A phrase is as high as the highest of its nonterminals. -/
theorem Phrase.within_symbolHeight? : HeightWithin bound (p.symbolHeight? heights) ↔
    ∀ name, .nonterminal name ∈ p → HeightWithin bound (heights.get? name) := by
  induction p with
  | nil =>
    apply iff_of_true
    · exact ⟨0, Nat.zero_le _, rfl⟩
    · intro name hname
      exact absurd hname List.not_mem_nil
  | cons s p ih =>
    rw [Phrase.within_symbolHeight?_cons, Symbol.within_height?, ih]
    constructor
    · rintro ⟨hs, hp⟩ name hname
      rcases List.mem_cons.1 hname with heq | hname
      · exact hs name heq.symm
      · exact hp name hname
    · intro h
      constructor
      · rintro name rfl
        exact h name List.mem_cons_self
      · intro name hname
        exact h name (List.mem_cons_of_mem s hname)

theorem Phrase.within_height?_succ : HeightWithin (bound + 1) (p.height? heights) ↔
    ∀ name, .nonterminal name ∈ p → HeightWithin bound (heights.get? name) := by
  rw [← Phrase.within_symbolHeight?, Phrase.height?]
  cases p.symbolHeight? heights <;> simp [HeightWithin]

theorem Phrase.not_within_height?_zero : ¬ HeightWithin 0 (p.height? heights) := by
  rw [Phrase.height?]
  cases p.symbolHeight? heights <;> simp [HeightWithin]

theorem Rules.leastHeight?_eq_some_iff {h : Nat} : Rules.leastHeight? heights ps = some h ↔
    (∃ p ∈ ps, p.height? heights = some h) ∧
      ∀ p ∈ ps, ∀ k, p.height? heights = some k → h ≤ k := by
  rw [Rules.leastHeight?, List.min?_eq_some_iff, List.mem_filterMap]
  apply and_congr_right
  intro _
  constructor
  · intro hleast p hp k hk
    exact hleast k (List.mem_filterMap.2 ⟨p, hp, hk⟩)
  · intro hleast k hk
    obtain ⟨p, hp, hheight⟩ := List.mem_filterMap.1 hk
    exact hleast p hp k hheight

theorem Rules.leastHeight?_eq_none_iff :
    Rules.leastHeight? heights ps = none ↔ ∀ p ∈ ps, p.height? heights = none := by
  rw [Rules.leastHeight?, List.min?_eq_none_iff, List.filterMap_eq_nil_iff]

theorem Rules.within_leastHeight? : HeightWithin bound (Rules.leastHeight? heights ps) ↔
    ∃ p ∈ ps, HeightWithin bound (p.height? heights) := by
  cases hleast : Rules.leastHeight? heights ps with
  | none =>
    have hnone := Rules.leastHeight?_eq_none_iff.1 hleast
    apply iff_of_false not_heightWithin_none
    rintro ⟨p, hp, hwithin⟩
    rw [hnone p hp] at hwithin
    exact not_heightWithin_none hwithin
  | some h =>
    obtain ⟨⟨p, hp, hheight⟩, hle⟩ := Rules.leastHeight?_eq_some_iff.1 hleast
    rw [heightWithin_some]
    constructor
    · intro hbound
      exact ⟨p, hp, h, hbound, hheight⟩
    · rintro ⟨q, hq, k, hk, hheight'⟩
      exact Nat.le_trans (hle q hq k hheight') hk

/-- Alternatives allow a height if those below the nonterminals of one of them are less. -/
theorem Rules.within_leastHeight?_succ :
    HeightWithin (bound + 1) (Rules.leastHeight? heights ps) ↔
      ∃ p ∈ ps, ∀ name, .nonterminal name ∈ p → HeightWithin bound (heights.get? name) := by
  rw [Rules.within_leastHeight?]
  apply exists_congr
  intro p
  rw [Phrase.within_height?_succ]

theorem Rules.not_within_leastHeight?_zero :
    ¬ HeightWithin 0 (Rules.leastHeight? heights ps) := by
  intro h
  obtain ⟨p, -, hwithin⟩ := Rules.within_leastHeight?.1 h
  exact Phrase.not_within_height?_zero hwithin

end Phrase

namespace Rules

variable {r : Rules} {heights : NameMap Nat} {name : String}

/-- A round gives every name the least height that its alternatives allow. -/
theorem get?_heightStep (r : Rules) (heights : NameMap Nat) (name : String) :
    (r.heightStep heights).get? name = leastHeight? heights (r.alternatives name) := by
  have hentry : ∀ h, (name, h) ∈ (r.entries.filterMap fun e =>
      (leastHeight? heights e.2).map fun h => (e.1, h)) ↔
        leastHeight? heights (r.alternatives name) = some h := by
    intro h
    rw [List.mem_filterMap]
    constructor
    · rintro ⟨⟨lhs, ps⟩, hmem, heq⟩
      obtain ⟨k, hk, hpair⟩ := Option.map_eq_some_iff.1 heq
      obtain ⟨rfl, rfl⟩ := Prod.mk.inj hpair
      rw [alternatives, NameMap.mem_entries_iff.1 hmem]
      exact hk
    · intro hh
      obtain ⟨⟨p, hp, -⟩, -⟩ := leastHeight?_eq_some_iff.1 hh
      have hkey := get?_of_mem_keys (mem_keys_of_mem_alternatives hp)
      refine ⟨(name, r.alternatives name), NameMap.mem_entries_iff.2 hkey, ?_⟩
      rw [hh]
      rfl
  have hnodup : ((r.entries.filterMap fun e =>
      (leastHeight? heights e.2).map fun h => (e.1, h)).map Prod.fst).Nodup := by
    -- the names are left sides, in the order of the rules
    refine r.keys.nodup_toList.sublist ?_
    show List.Sublist _ (r.entries.map Prod.fst)
    induction r.entries with
    | nil => exact List.Sublist.refl _
    | cons e es ih =>
      rw [List.filterMap_cons]
      cases leastHeight? heights e.2 with
      | none => exact ih.cons _
      | some h => exact ih.cons_cons _
  rw [heightStep, NameMap.ofList]
  cases hleast : leastHeight? heights (r.alternatives name) with
  | some h => exact NameMap.get?_insertMany_of_mem hnodup ((hentry h).2 hleast)
  | none =>
    rw [NameMap.get?_insertMany_of_notMem, NameMap.get?_empty]
    intro hmem
    obtain ⟨e, he, rfl⟩ := List.mem_map.1 hmem
    have hsome := (hentry e.2).1 he
    rw [hleast] at hsome
    exact absurd hsome.symm (Option.some_ne_none e.2)

/-! ## Trees of a height -/

/-- The name has a derivation tree of at most the given height. -/
def FinishesIn (r : Rules) : (height : Nat) → (name : String) → Prop
  | 0, _ => False
  | height + 1, name =>
      ∃ p ∈ r.alternatives name, ∀ other, .nonterminal other ∈ p → r.FinishesIn height other

theorem FinishesIn.mono {n m : Nat} (h : r.FinishesIn n name) (hle : n ≤ m) :
    r.FinishesIn m name := by
  induction n generalizing m name with
  | zero => exact absurd h not_false
  | succ n ih =>
    obtain ⟨p, hp, hothers⟩ := h
    cases m with
    | zero => exact absurd hle (Nat.not_succ_le_zero n)
    | succ m =>
      exact ⟨p, hp, fun other hother => ih (hothers other hother) (Nat.le_of_succ_le_succ hle)⟩

theorem FinishesIn.mem_keys {n : Nat} (h : r.FinishesIn n name) : name ∈ r.keys := by
  cases n with
  | zero => exact absurd h not_false
  | succ n =>
    obtain ⟨p, hp, -⟩ := h
    exact mem_keys_of_mem_alternatives hp

/-- A phrase whose nonterminals derive words derives one. -/
theorem exists_yields {p : Phrase} (h : ∀ other, .nonterminal other ∈ p → ∃ w, r.Derives other w) :
    ∃ w, Yields r p w := by
  induction p with
  | nil => exact ⟨[], .nil⟩
  | cons s p ih =>
    obtain ⟨w, hw⟩ := ih fun other hother => h other (List.mem_cons_of_mem s hother)
    cases s with
    | terminal t => exact ⟨t :: w, .terminal t hw⟩
    | nonterminal other =>
      obtain ⟨u, q, hq, hu⟩ := h other List.mem_cons_self
      exact ⟨u ++ w, .nonterminal hq hu hw⟩

theorem FinishesIn.exists_derives {n : Nat} (h : r.FinishesIn n name) : ∃ w, r.Derives name w := by
  induction n generalizing name with
  | zero => exact absurd h not_false
  | succ n ih =>
    obtain ⟨p, hp, hothers⟩ := h
    obtain ⟨w, hw⟩ := exists_yields fun other hother => ih (hothers other hother)
    exact ⟨w, p, hp, hw⟩

/-- The nonterminals of a phrase that derives a word all have trees of one height. -/
theorem exists_finishesIn_of_yields {p : Phrase} {w : List String} (h : Yields r p w) :
    ∃ n, ∀ other, .nonterminal other ∈ p → r.FinishesIn n other := by
  induction h with
  | nil => exact ⟨0, fun other hother => absurd hother List.not_mem_nil⟩
  | terminal t _ ih =>
    obtain ⟨n, hn⟩ := ih
    refine ⟨n, fun other hother => hn other ?_⟩
    exact (List.mem_cons.1 hother).resolve_left Symbol.noConfusion
  | @nonterminal name q _ _ _ hmem _ _ ihu ihw =>
    obtain ⟨n, hn⟩ := ihu
    obtain ⟨m, hm⟩ := ihw
    have hname : r.FinishesIn (n + 1) name := ⟨q, hmem, hn⟩
    refine ⟨max (n + 1) m, fun other hother => ?_⟩
    rcases List.mem_cons.1 hother with heq | hother
    · rw [Symbol.nonterminal.inj heq]
      exact hname.mono (Nat.le_max_left _ _)
    · exact (hm other hother).mono (Nat.le_max_right _ _)

/-- A name has a derivation tree exactly if it derives a word. -/
theorem exists_finishesIn_iff : (∃ n, r.FinishesIn n name) ↔ ∃ w, r.Derives name w := by
  constructor
  · rintro ⟨n, hn⟩
    exact hn.exists_derives
  · rintro ⟨w, p, hp, hyields⟩
    obtain ⟨n, hn⟩ := exists_finishesIn_of_yields hyields
    exact ⟨n + 1, p, hp, hn⟩

/-! ## Rounds -/

/-- What holds of the heights after `rounds` rounds: they are those of the trees of at
most this height. -/
def Ranked (r : Rules) (rounds : Nat) (heights : NameMap Nat) : Prop :=
  ∀ name bound, HeightWithin bound (heights.get? name) ↔ r.FinishesIn (min rounds bound) name

theorem ranked_zero (r : Rules) : r.Ranked 0 ∅ := by
  intro name bound
  rw [NameMap.get?_empty, Nat.zero_min]
  exact iff_of_false not_heightWithin_none not_false

/-- One round more knows the trees that are one higher. -/
theorem Ranked.step {rounds : Nat} (h : r.Ranked rounds heights) :
    r.Ranked (rounds + 1) (r.heightStep heights) := by
  intro name bound
  rw [get?_heightStep]
  cases bound with
  | zero =>
    rw [Nat.min_zero]
    exact iff_of_false not_within_leastHeight?_zero not_false
  | succ bound =>
    rw [Nat.add_min_add_right, within_leastHeight?_succ]
    apply exists_congr
    intro p
    exact and_congr_right fun _ => forall₂_congr fun other _ => h other bound

namespace Ranked

variable {rounds : Nat} {h : Nat}

/-- A height that is known is that of a tree, and no tree is lower. -/
theorem spec (hr : r.Ranked rounds heights) (hget : heights.get? name = some h) :
    h ≤ rounds ∧ r.FinishesIn h name ∧ ∀ k, r.FinishesIn k name → h ≤ k := by
  have hmin : ∀ k, r.FinishesIn (min rounds k) name → h ≤ k := by
    intro k hk
    have hwithin := (hr name k).2 hk
    rwa [hget, heightWithin_some] at hwithin
  have hfinishes : r.FinishesIn (min rounds h) name := (hr name h).1 ⟨h, Nat.le_refl h, hget⟩
  have hle : h ≤ rounds := by
    have := hmin (min rounds h) (by rwa [← Nat.min_assoc, Nat.min_self])
    exact Nat.le_trans this (Nat.min_le_left _ _)
  rw [Nat.min_eq_right hle] at hfinishes
  refine ⟨hle, hfinishes, fun k hk => ?_⟩
  rcases Nat.le_total rounds k with hrounds | hrounds
  · exact Nat.le_trans hle hrounds
  · exact hmin k (by rwa [Nat.min_eq_right hrounds])

/-- What is known stays as it is. -/
theorem get?_step (hr : r.Ranked rounds heights) (hget : heights.get? name = some h) :
    (r.heightStep heights).get? name = some h := by
  obtain ⟨hle, hfinishes, hleast⟩ := hr.spec hget
  have hwithin : HeightWithin h ((r.heightStep heights).get? name) := by
    rw [hr.step name h, Nat.min_eq_right (Nat.le_succ_of_le hle)]
    exact hfinishes
  obtain ⟨k, hk, hstep⟩ := hwithin
  -- the new height is that of a tree too, so it is no lower
  have hback := hleast k (hr.step.spec hstep).2.1
  rw [hstep, Nat.le_antisymm hk hback]

theorem mem_keys (hr : r.Ranked rounds heights) (hname : name ∈ heights.keys) : name ∈ r.keys := by
  obtain ⟨h, hget⟩ := NameMap.mem_keys.1 hname
  exact (hr.spec hget).2.1.mem_keys

theorem size_le (hr : r.Ranked rounds heights) : heights.size ≤ r.size := by
  rw [NameMap.size_eq_length_keys, NameMap.size_eq_length_keys]
  exact length_le_of_nodup_of_subset heights.keys.nodup_toList fun _ => hr.mem_keys

/-- A round that changes anything knows one name more. -/
theorem size_lt_step (hr : r.Ranked rounds heights) (hne : r.heightStep heights ≠ heights) :
    heights.size < (r.heightStep heights).size := by
  have hnew : ∃ name ∈ (r.heightStep heights).keys, name ∉ heights.keys := by
    refine Classical.byContradiction fun hnone => hne ?_
    apply NameMap.ext
    intro name
    cases hget : heights.get? name with
    | some h => exact hr.get?_step hget
    | none =>
      rw [NameMap.get?_eq_none_iff] at hget ⊢
      exact fun hmem => hnone ⟨name, hmem, hget⟩
  obtain ⟨name, hmem, hout⟩ := hnew
  rw [NameMap.size_eq_length_keys, NameMap.size_eq_length_keys]
  have hnodup : (name :: heights.keys.toList).Nodup :=
    List.nodup_cons.2 ⟨hout, heights.keys.nodup_toList⟩
  apply length_le_of_nodup_of_subset hnodup
  intro other hother
  rcases List.mem_cons.1 hother with rfl | hother
  · exact hmem
  · obtain ⟨h, hget⟩ := NameMap.mem_keys.1 hother
    exact NameMap.mem_keys.2 ⟨h, hr.get?_step hget⟩

end Ranked

/-- The rounds end with a fixed point, if there are as many as there are rules. -/
theorem heightsFrom_spec {rounds before : Nat} (h : r.Ranked before heights)
    (hbefore : before ≤ heights.size) (hrounds : r.size ≤ rounds + before) :
    r.heightStep (r.heightsFrom rounds heights) = r.heightsFrom rounds heights ∧
      ∃ n ≤ r.size, r.Ranked n (r.heightsFrom rounds heights) := by
  induction rounds generalizing before heights with
  | zero =>
    rw [heightsFrom]
    refine ⟨Classical.byContradiction fun hne => ?_, before, Nat.le_trans hbefore h.size_le, h⟩
    -- all left sides have a height already
    have hlt := h.size_lt_step hne
    have hle := h.step.size_le
    omega
  | succ rounds ih =>
    rw [heightsFrom]
    split
    · next hsame => exact ⟨hsame, before, Nat.le_trans hbefore h.size_le, h⟩
    · next hne =>
      have hlt := h.size_lt_step hne
      exact ih h.step (by omega) (by omega)

theorem heights_spec (r : Rules) :
    r.heightStep r.heights = r.heights ∧ ∃ n ≤ r.size, r.Ranked n r.heights :=
  heightsFrom_spec r.ranked_zero (Nat.zero_le _) (Nat.le_refl _)

/-! ## What the heights say -/

/-- The height of a name is the least that its alternatives allow. -/
theorem get?_heights_eq (r : Rules) (name : String) :
    r.heights.get? name = leastHeight? r.heights (r.alternatives name) := by
  have hstep := get?_heightStep r r.heights name
  rwa [(heights_spec r).1] at hstep

/-- A height is at most a bound exactly if there is a tree of at most this height. -/
theorem within_heights_iff {bound : Nat} :
    HeightWithin bound (r.heights.get? name) ↔ r.FinishesIn bound name := by
  obtain ⟨hfixed, n, -, hranked⟩ := heights_spec r
  -- at a fixed point any number of rounds has been made
  have hall : ∀ more, r.Ranked (n + more) r.heights := by
    intro more
    induction more with
    | zero => exact hranked
    | succ more ih =>
      have hstep := ih.step
      rwa [hfixed] at hstep
  rw [hall bound name bound, Nat.min_eq_right (Nat.le_add_left bound n)]

theorem le_size_of_get?_heights {h : Nat} (hget : r.heights.get? name = some h) : h ≤ r.size := by
  obtain ⟨-, n, hn, hranked⟩ := heights_spec r
  exact Nat.le_trans (hranked.spec hget).1 hn

/-- A name has a height exactly if it derives a word. -/
theorem exists_get?_heights_iff :
    (∃ h, r.heights.get? name = some h) ↔ ∃ w, r.Derives name w := by
  rw [← exists_finishesIn_iff]
  constructor
  · rintro ⟨h, hget⟩
    exact ⟨h, within_heights_iff.1 ⟨h, Nat.le_refl h, hget⟩⟩
  · rintro ⟨n, hn⟩
    obtain ⟨h, -, hget⟩ := within_heights_iff.2 hn
    exact ⟨h, hget⟩

end Rules

end Chomsky
