import Chomsky.Proofs.Analysis.Reachable
import Chomsky.Proofs.Grammar.Simulation
import Chomsky.Proofs.Grammar.WellFormed
import Chomsky.Proofs.Name.Table
import Mathlib.Data.Set.Function

/-!
# Grammars that differ in names only

Two grammars are compared by pairing their nonterminals. Everything is said in one
direction, that the second grammar has what the first one has, and the other direction
is the same statement on the flipped pairs. So what is proved of one direction is
proved of both, and nothing has to be inverted on the way. Only at the end the pairs
are read as a function.

## What this module delivers

- `Phrase.Paired` and `Grammar.Covers`: the pairing of phrases, and one direction of the
  comparison.
- `Grammar.Covers.yields` and `Grammar.Covers.exists_reaches`: derived words and
  reachable names go with the pairs.
- `Grammar.Matches`: both directions.
- `Grammar.Renamed` and `Grammar.Matches.exists_renamed`: the pairs are a bijection that
  takes one grammar to the other.
-/

set_option autoImplicit false

namespace Chomsky

/-- Which name goes with which. -/
abbrev Pairing := String → String → Prop

variable {pairs pairs' : Pairing}

/-! ## Pairs of symbols and of phrases -/

/-- The symbols are the same terminal, or nonterminals that go together. -/
inductive Symbol.Paired (pairs : Pairing) : Symbol → Symbol → Prop where
  | terminal (t : String) : Paired pairs (.terminal t) (.terminal t)
  | nonterminal {a b : String} : pairs a b → Paired pairs (.nonterminal a) (.nonterminal b)

/-- The phrases are paired symbol by symbol. -/
abbrev Phrase.Paired (pairs : Pairing) : Phrase → Phrase → Prop :=
  List.Forall₂ (Symbol.Paired pairs)

namespace Symbol.Paired

variable {s x y : Symbol}

theorem mono (hsub : ∀ a b, pairs a b → pairs' a b) (h : Symbol.Paired pairs s x) :
    Symbol.Paired pairs' s x := by
  cases h with
  | terminal t => exact .terminal t
  | nonterminal hab => exact .nonterminal (hsub _ _ hab)

theorem symm (h : Symbol.Paired pairs s x) : Symbol.Paired (flip pairs) x s := by
  cases h with
  | terminal t => exact .terminal t
  | nonterminal hab => exact .nonterminal hab

theorem unique (hunique : ∀ a b b', pairs a b → pairs a b' → b = b') (h : Symbol.Paired pairs s x)
    (h' : Symbol.Paired pairs s y) : x = y := by
  cases h with
  | terminal t =>
    cases h'
    rfl
  | nonterminal hab =>
    cases h' with
    | nonterminal hab' => rw [hunique _ _ _ hab hab']

end Symbol.Paired

namespace Phrase.Paired

variable {p q q' : Phrase}

theorem mono (hsub : ∀ a b, pairs a b → pairs' a b) (h : Phrase.Paired pairs p q) :
    Phrase.Paired pairs' p q := h.imp fun _ _ => Symbol.Paired.mono hsub

theorem symm (h : Phrase.Paired pairs p q) : Phrase.Paired (flip pairs) q p :=
  (h.imp fun _ _ => Symbol.Paired.symm).flip

/-- The pairing of two phrases may use which symbols they have. -/
theorem imp_of_mem {related : Symbol → Symbol → Prop} (h : Phrase.Paired pairs p q)
    (hsymbol : ∀ s ∈ p, ∀ x ∈ q, Symbol.Paired pairs s x → related s x) :
    List.Forall₂ related p q := by
  induction h with
  | nil => exact .nil
  | cons hhead _ ih =>
    apply List.Forall₂.cons (hsymbol _ List.mem_cons_self _ List.mem_cons_self hhead)
    exact ih fun s hs x hx =>
      hsymbol s (List.mem_cons_of_mem _ hs) x (List.mem_cons_of_mem _ hx)

theorem exists_nonterminal (h : Phrase.Paired pairs p q) {a : String}
    (ha : .nonterminal a ∈ p) : ∃ b, pairs a b ∧ .nonterminal b ∈ q := by
  obtain ⟨x, hx, hpaired⟩ := (exists_mem_of_forall₂ h).1 _ ha
  cases hpaired with
  | nonterminal hab => exact ⟨_, hab, hx⟩

theorem mem_terminal (h : Phrase.Paired pairs p q) {t : String} (ht : .terminal t ∈ p) :
    .terminal t ∈ q := by
  obtain ⟨x, hx, hpaired⟩ := (exists_mem_of_forall₂ h).1 _ ht
  cases hpaired
  exact hx

theorem unique (hunique : ∀ a b b', pairs a b → pairs a b' → b = b')
    (h : Phrase.Paired pairs p q) (h' : Phrase.Paired pairs p q') : q = q' := by
  induction h generalizing q' with
  | nil =>
    cases h'
    rfl
  | cons hhead _ ih =>
    cases h' with
    | cons hhead' htail' => rw [hhead.unique hunique hhead', ih htail']

/-- What is paired with an end of a phrase is an end of what is paired with the phrase. -/
theorem exists_suffix (h : Phrase.Paired pairs p q) {k : Phrase} (hk : k <:+ p) :
    ∃ l, l <:+ q ∧ Phrase.Paired pairs k l := by
  induction h with
  | nil =>
    rw [List.suffix_nil.1 hk]
    exact ⟨[], List.suffix_rfl, .nil⟩
  | cons hhead htail ih =>
    rcases List.suffix_cons_iff.1 hk with rfl | hk
    · exact ⟨_, List.suffix_rfl, .cons hhead htail⟩
    · obtain ⟨l, hl, hpaired⟩ := ih hk
      exact ⟨l, hl.trans (List.suffix_cons _ _), hpaired⟩

end Phrase.Paired

/-! ## Pairs as functions -/

/-- The pairs are those of a function on the names inside. -/
structure Pairing.FunctionOn (pairs : Pairing) (inside : String → Prop) : Prop where
  /-- Names outside have no partner. -/
  mem : ∀ {a b}, pairs a b → inside a
  /-- Names inside have one. -/
  exists_pair : ∀ {a}, inside a → ∃ b, pairs a b
  /-- No name has two. -/
  unique : ∀ {a b b'}, pairs a b → pairs a b' → b = b'

namespace Pairing

variable {inside outside inside' : String → Prop}

theorem FunctionOn.congr (h : pairs.FunctionOn inside) (hpairs : ∀ a b, pairs a b ↔ pairs' a b)
    (hinside : ∀ a, inside a ↔ inside' a) : Pairing.FunctionOn pairs' inside' := by
  obtain rfl : pairs = pairs' := funext₂ fun a b => propext (hpairs a b)
  obtain rfl : inside = inside' := funext fun a => propext (hinside a)
  exact h

/-- Two functions on separate sets of names make one. -/
theorem FunctionOn.or (h : pairs.FunctionOn inside) (h' : Pairing.FunctionOn pairs' outside)
    (hseparate : ∀ a, inside a → ¬ outside a) :
    Pairing.FunctionOn (fun a b => pairs a b ∨ pairs' a b) (fun a => inside a ∨ outside a) where
  mem hab := hab.imp h.mem h'.mem
  exists_pair ha := by
    rcases ha with ha | ha
    · obtain ⟨b, hab⟩ := h.exists_pair ha
      exact ⟨b, Or.inl hab⟩
    · obtain ⟨b, hab⟩ := h'.exists_pair ha
      exact ⟨b, Or.inr hab⟩
  unique hab hab' := by
    rcases hab with hab | hab <;> rcases hab' with hab' | hab'
    · exact h.unique hab hab'
    · exact absurd (h'.mem hab') (hseparate _ (h.mem hab))
    · exact absurd (h'.mem hab) (hseparate _ (h.mem hab'))
    · exact h'.unique hab hab'

theorem FunctionOn.and (h : pairs.FunctionOn inside) (kept : String → Prop) :
    Pairing.FunctionOn (fun a b => pairs a b ∧ kept a) (fun a => inside a ∧ kept a) where
  mem hab := ⟨h.mem hab.1, hab.2⟩
  exists_pair ha := by
    obtain ⟨b, hab⟩ := h.exists_pair ha.1
    exact ⟨b, hab, ha.2⟩
  unique hab hab' := h.unique hab.1 hab'.1

open Classical in
/-- The partner of a name; a name without one is its own. -/
noncomputable def partner (pairs : Pairing) (a : String) : String :=
  if h : ∃ b, pairs a b then h.choose else a

theorem FunctionOn.partner_eq (h : pairs.FunctionOn inside) {a b : String} (hab : pairs a b) :
    pairs.partner a = b := by
  have hexists : ∃ b, pairs a b := ⟨b, hab⟩
  rw [partner, dif_pos hexists]
  exact h.unique hexists.choose_spec hab

theorem partner_eq_self {a : String} (h : ∀ b, pairs a b → b = a) : pairs.partner a = a := by
  by_cases hexists : ∃ b, pairs a b
  · rw [partner, dif_pos hexists]
    exact h _ hexists.choose_spec
  · rw [partner, dif_neg hexists]

end Pairing

/-! ## One direction -/

namespace Grammar

/-- The second grammar has all that the first one has, at the names that go with those
of the first. A fixed name goes with itself. -/
structure Covers (fixed : NameSet) (pairs : Pairing) (g h : Grammar) : Prop where
  /-- Every nonterminal of the first grammar goes with one name. -/
  names : pairs.FunctionOn (· ∈ g.nonterminals)
  /-- Fixed names go with themselves. -/
  fixes : ∀ {a b}, pairs a b → a ∈ fixed → b = a
  /-- The start symbols go together. -/
  start : pairs g.start h.start
  /-- The terminals are the same. -/
  terminals_eq : g.terminals = h.terminals
  /-- If the first accepts the empty word, so does the second. -/
  acceptsEmpty : g.acceptsEmpty = true → h.acceptsEmpty = true
  /-- A left side of the first goes with a left side of the second. -/
  keys : ∀ {a b}, pairs a b → a ∈ g.rules.keys → b ∈ h.rules.keys
  /-- An alternative of the first is paired with one of the second. -/
  alternatives : ∀ {a b}, pairs a b → ∀ p ∈ g.rules.alternatives a,
    ∃ q ∈ h.rules.alternatives b, Phrase.Paired pairs p q

variable {fixed : NameSet} {g h : Grammar} {a b : String}

namespace Covers

theorem congr (hc : Covers fixed pairs g h) (hpairs : ∀ a b, pairs a b ↔ pairs' a b) :
    Covers fixed pairs' g h := by
  obtain rfl : pairs = pairs' := funext₂ fun a b => propext (hpairs a b)
  exact hc

/-- What a phrase derives, the phrase paired with it derives. -/
theorem yields (hc : Covers fixed pairs g h) {p q : Phrase} {w : List String}
    (hp : Yields g.rules p w) (hpaired : Phrase.Paired pairs p q) : Yields h.rules q w := by
  induction hp generalizing q with
  | nil =>
    cases hpaired
    exact .nil
  | terminal t _ ih =>
    cases hpaired with
    | cons hhead htail =>
      cases hhead
      exact .terminal t (ih htail)
  | nonterminal hmem _ _ ihu ihw =>
    cases hpaired with
    | cons hhead htail =>
      cases hhead with
      | nonterminal hab =>
        obtain ⟨q', hq', hpaired'⟩ := hc.alternatives hab _ hmem
        exact .nonterminal hq' (ihu hpaired') (ihw htail)

theorem derives (hc : Covers fixed pairs g h) (hab : pairs a b) {w : List String}
    (ha : g.rules.Derives a w) : h.rules.Derives b w := by
  obtain ⟨p, hp, hyields⟩ := ha
  obtain ⟨q, hq, hpaired⟩ := hc.alternatives hab p hp
  exact ⟨q, hq, hc.yields hyields hpaired⟩

/-- A reachable name goes with a reachable name. -/
theorem exists_reaches (hc : Covers fixed pairs g h) (ha : g.Reaches a) :
    ∃ b, pairs a b ∧ h.Reaches b := by
  induction ha with
  | seed hseed =>
    rw [List.mem_singleton.1 hseed]
    exact ⟨h.start, hc.start, h.reaches_start⟩
  | step _ hstep ih =>
    obtain ⟨lhs', hlhs, hreach⟩ := ih
    obtain ⟨p, hp, hmem⟩ := Rules.mem_successors.1 hstep
    obtain ⟨q, hq, hpaired⟩ := hc.alternatives hlhs p hp
    obtain ⟨b, hab, hmem'⟩ := hpaired.exists_nonterminal hmem
    exact ⟨b, hab, hreach.step hq hmem'⟩

theorem reaches (hc : Covers fixed pairs g h) (hab : pairs a b) (ha : g.Reaches a) :
    h.Reaches b := by
  obtain ⟨b', hab', hreach⟩ := hc.exists_reaches ha
  rwa [hc.names.unique hab hab']

/-- The name of a left side goes with some name, and each alternative of the one is
paired with an alternative of the other. -/
theorem exists_alternatives (hc : Covers fixed pairs g h) (hg : g.SelfContained) {lhs : String}
    {p : Phrase} (hp : p ∈ g.rules.alternatives lhs) :
    ∃ lhs', pairs lhs lhs' ∧ ∃ q ∈ h.rules.alternatives lhs', Phrase.Paired pairs p q := by
  obtain ⟨lhs', hlhs⟩ := hc.names.exists_pair
    (hg.lhs_mem lhs (Rules.mem_keys_of_mem_alternatives hp))
  exact ⟨lhs', hlhs, hc.alternatives hlhs p hp⟩

end Covers

/-! ## Both directions -/

/-- Each grammar has what the other has, at the names that go together. -/
structure Matches (fixed : NameSet) (pairs : Pairing) (g h : Grammar) : Prop where
  /-- The second has what the first has. -/
  forth : Covers fixed pairs g h
  /-- The first has what the second has. -/
  back : Covers fixed (flip pairs) h g

theorem Matches.symm (m : Matches fixed pairs g h) : Matches fixed (flip pairs) h g :=
  ⟨m.back, m.forth⟩

end Grammar

/-! ## Renamings -/

/-- The symbol with its name replaced, if it is a nonterminal. -/
def Symbol.rename (f : String → String) : Symbol → Symbol
  | .terminal t => .terminal t
  | .nonterminal name => .nonterminal (f name)

/-- The phrase with its nonterminals replaced. -/
def Phrase.rename (f : String → String) (p : Phrase) : Phrase := p.map (Symbol.rename f)

/-- The function takes the nonterminals of the first grammar to those of the second,
one to one, and with them all that the grammar says about them. -/
structure Grammar.Renamed (f : String → String) (g h : Grammar) : Prop where
  /-- The nonterminals correspond. -/
  bijOn : Set.BijOn f {name | name ∈ g.nonterminals} {name | name ∈ h.nonterminals}
  /-- The start symbol is taken to the start symbol. -/
  start_eq : f g.start = h.start
  /-- The terminals are the same. -/
  terminals_eq : g.terminals = h.terminals
  /-- Both accept the empty word, or none of them. -/
  acceptsEmpty_eq : g.acceptsEmpty = h.acceptsEmpty
  /-- The left sides correspond. -/
  image_keys : f '' {lhs | lhs ∈ g.rules.keys} = {lhs | lhs ∈ h.rules.keys}
  /-- The alternatives of a left side are taken to those of the left side it is taken to. -/
  image_alternatives : ∀ lhs ∈ g.rules.keys,
    Phrase.rename f '' {p | p ∈ g.rules.alternatives lhs}
      = {q | q ∈ h.rules.alternatives (f lhs)}

theorem Phrase.Paired.rename_eq {inside : String → Prop} (hfun : pairs.FunctionOn inside)
    {p q : Phrase} (h : Phrase.Paired pairs p q) : p.rename pairs.partner = q := by
  induction h with
  | nil => rfl
  | @cons s x _ _ hhead _ ih =>
    have hsymbol : s.rename pairs.partner = x := by
      cases hhead with
      | terminal t => rfl
      | nonterminal hab => rw [Symbol.rename, hfun.partner_eq hab]
    rw [Phrase.rename, List.map_cons, hsymbol, ← Phrase.rename, ih]

/-- The pairs of grammars that match are a renaming of one to the other, which leaves
all fixed names as they are; both grammars have the same of these. -/
theorem Grammar.Matches.exists_renamed {fixed : NameSet} {g h : Grammar}
    (m : Matches fixed pairs g h) (hg : g.SelfContained) (hh : h.SelfContained) :
    ∃ f, (∀ name ∈ fixed, f name = name ∧ (name ∈ g.nonterminals ↔ name ∈ h.nonterminals)) ∧
      g.Renamed f h := by
  have hnames := m.forth.names
  refine ⟨pairs.partner, fun name hname => ⟨?_, ?_, ?_⟩, ?_⟩
  · exact Pairing.partner_eq_self fun b hab => m.forth.fixes hab hname
  · intro hmem
    obtain ⟨b, hab⟩ := hnames.exists_pair hmem
    exact m.forth.fixes hab hname ▸ m.back.names.mem hab
  · intro hmem
    obtain ⟨a, hab⟩ := m.back.names.exists_pair hmem
    exact m.back.fixes hab hname ▸ hnames.mem hab
  constructor
  case bijOn =>
    refine ⟨?mapsTo, ?injOn, ?surjOn⟩
    case mapsTo =>
      intro a ha
      obtain ⟨b, hab⟩ := hnames.exists_pair ha
      rw [hnames.partner_eq hab]
      exact m.back.names.mem hab
    case injOn =>
      intro a ha a' ha' heq
      obtain ⟨b, hab⟩ := hnames.exists_pair ha
      obtain ⟨b', hab'⟩ := hnames.exists_pair ha'
      rw [hnames.partner_eq hab, hnames.partner_eq hab'] at heq
      subst heq
      exact m.back.names.unique hab hab'
    case surjOn =>
      intro b hb
      obtain ⟨a, hab⟩ := m.back.names.exists_pair hb
      exact ⟨a, hnames.mem hab, hnames.partner_eq hab⟩
  case start_eq => exact hnames.partner_eq m.forth.start
  case terminals_eq => exact m.forth.terminals_eq
  case acceptsEmpty_eq =>
    rw [Bool.eq_iff_iff]
    exact ⟨m.forth.acceptsEmpty, m.back.acceptsEmpty⟩
  case image_keys =>
    apply Set.Subset.antisymm
    · rintro _ ⟨a, ha, rfl⟩
      obtain ⟨b, hab⟩ := hnames.exists_pair (hg.lhs_mem a ha)
      rw [hnames.partner_eq hab]
      exact m.forth.keys hab ha
    · intro b hb
      obtain ⟨a, hab⟩ := m.back.names.exists_pair (hh.lhs_mem b hb)
      exact ⟨a, m.back.keys hab hb, hnames.partner_eq hab⟩
  case image_alternatives =>
    intro a ha
    obtain ⟨b, hab⟩ := hnames.exists_pair (hg.lhs_mem a ha)
    rw [hnames.partner_eq hab]
    apply Set.Subset.antisymm
    · rintro _ ⟨p, hp, rfl⟩
      obtain ⟨q, hq, hpaired⟩ := m.forth.alternatives hab p hp
      rw [hpaired.rename_eq hnames]
      exact hq
    · intro q hq
      obtain ⟨p, hp, hpaired⟩ := m.back.alternatives hab q hq
      exact ⟨p, hp, hpaired.symm.rename_eq hnames⟩

end Chomsky
