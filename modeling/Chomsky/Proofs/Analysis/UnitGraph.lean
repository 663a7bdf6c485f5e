import Chomsky.Analysis.UnitGraph
import Chomsky.Proofs.Grammar.Lookup
import Chomsky.Proofs.Name.Distinct
import Mathlib.Data.List.Chain
import Mathlib.Logic.Relation

/-!
# The search for a unit cycle

The search is exact: it ends with a cycle if there is one, and what it ends with
is a cycle. Two facts carry the proof. The path to a name is a chain without
repetition, so meeting one of its names again closes a cycle, and the path cannot
grow beyond the number of rules. The names that are finished lead to finished
names only and lie on no cycle; when a name is finished, all it leads to was
finished before it.

## What this module delivers

- `IsCycle`, and `Settled`, the invariant of the finished names.
- `Rules.walk_answers`: what a walk from one name ends with.
- `Rules.isCycle_of_unitCycle?`, `Rules.exists_unitCycle?_iff`: the search over
  all rules.
-/

set_option autoImplicit false

namespace Chomsky

open Relation (ReflTransGen TransGen)

theorem Phrase.unitTarget?_eq_some_iff {p : Phrase} {target : String} :
    p.unitTarget? = some target ↔ p = [.nonterminal target] := by
  constructor
  · intro h
    match p, h with
    | [.nonterminal name], h => rw [Option.some.inj h]
  · rintro rfl
    rfl

/-- Different names, each of which leads to the next and the last to the first. -/
structure IsCycle (leads : String → String → Prop) (cycle : List String) : Prop where
  /-- There is a first name. -/
  ne_nil : cycle ≠ []
  /-- The names are different. -/
  nodup : cycle.Nodup
  /-- Each name leads to the next, and the last to the first. -/
  chain : (cycle ++ cycle.head?.toList).IsChain leads

theorem IsCycle.mono {leads leads' : String → String → Prop} {cycle : List String}
    (h : IsCycle leads cycle) (hsub : ∀ a b, leads a b → leads' a b) : IsCycle leads' cycle :=
  ⟨h.ne_nil, h.nodup, h.chain.imp fun {a b} => hsub a b⟩

theorem transGen_of_isChain {leads : String → String → Prop} {first last : String}
    {names : List String} (h : (first :: (names ++ [last])).IsChain leads) :
    TransGen leads first last := by
  induction names generalizing first with
  | nil => exact .single (List.isChain_cons_cons.1 h).1
  | cons name names ih =>
    obtain ⟨hfirst, hrest⟩ := List.isChain_cons_cons.1 h
    exact .head hfirst (ih hrest)

/-- The first name of a cycle leads back to itself. -/
theorem IsCycle.exists_transGen {leads : String → String → Prop} {cycle : List String}
    (h : IsCycle leads cycle) : ∃ name ∈ cycle, TransGen leads name name := by
  cases cycle with
  | nil => exact absurd rfl h.ne_nil
  | cons first names => exact ⟨first, List.mem_cons_self, transGen_of_isChain h.chain⟩

namespace Rules

variable {next : String → List String} {path finished names : List String} {name : String}

/-! ## Finished names -/

/-- The first name has the second among those that it leads to. -/
def Leads (next : String → List String) (a b : String) : Prop := b ∈ next a

/-- The names lead to each other only, and none of them lies on a cycle. -/
structure Settled (next : String → List String) (finished : List String) : Prop where
  /-- They lead to each other only. -/
  closed : ∀ a ∈ finished, ∀ b ∈ next a, b ∈ finished
  /-- None of them leads back to itself. -/
  acyclic : ∀ a ∈ finished, ¬ TransGen (Leads next) a a

theorem Settled.mem_of_reach {a b : String} (h : Settled next finished) (ha : a ∈ finished)
    (hreach : ReflTransGen (Leads next) a b) : b ∈ finished := by
  induction hreach with
  | refl => exact ha
  | tail _ hstep ih => exact h.closed _ ih _ hstep

/-- A name that leads to finished names is finished after them. -/
theorem Settled.concat (h : Settled next finished) (hnext : ∀ b ∈ next name, b ∈ finished)
    (hname : name ∉ finished) : Settled next (finished ++ [name]) where
  closed a ha b hb := by
    apply List.mem_append_left [name]
    rcases List.mem_append.1 ha with ha | ha
    · exact h.closed a ha b hb
    · exact hnext b (List.mem_singleton.1 ha ▸ hb)
  acyclic a ha hcycle := by
    rcases List.mem_append.1 ha with ha | ha
    · exact h.acyclic a ha hcycle
    · -- the way back would stay among the names finished before
      rw [List.mem_singleton] at ha
      subst ha
      obtain ⟨b, hb, hreach⟩ := TransGen.head'_iff.1 hcycle
      exact hname (h.mem_of_reach (hnext b hb) hreach)

/-! ## One walk -/

/-- What a search that starts from some names may end with: a cycle, or more settled
names. The names on the path to where it starts are finished by no part of it. -/
def Answers (next : String → List String) (path finished names : List String) :
    Except (List String) (List String) → Prop
  | .error cycle => IsCycle (Leads next) cycle
  | .ok more => Settled next more ∧ finished ⊆ more ∧ names ⊆ more ∧
      ∀ a ∈ path, a ∈ more → a ∈ finished

theorem dropWhile_ne_of_mem (h : name ∈ path) :
    ∃ rest, path.dropWhile (· != name) = name :: rest := by
  induction path with
  | nil => exact absurd h List.not_mem_nil
  | cons a path ih =>
    by_cases ha : a = name
    · subst ha
      exact ⟨path, List.dropWhile_cons_of_neg (by simp)⟩
    · have hskip : (a != name) = true := bne_iff_ne.2 ha
      rw [List.dropWhile_cons, if_pos hskip]
      exact ih ((List.mem_cons.1 h).resolve_left (Ne.symm ha))

/-- A name that is met on its own path closes a cycle. -/
theorem isCycle_dropWhile (hmem : name ∈ path) (hnodup : path.Nodup)
    (hchain : (path ++ [name]).IsChain (Leads next)) :
    IsCycle (Leads next) (path.dropWhile (· != name)) := by
  obtain ⟨rest, hrest⟩ := dropWhile_ne_of_mem hmem
  -- the path from the name on ends with what leads back to it
  have hsuffix : name :: rest <:+ path := hrest ▸ List.dropWhile_suffix _
  rw [hrest]
  refine ⟨List.cons_ne_nil name rest, hnodup.sublist hsuffix.sublist, ?_⟩
  obtain ⟨before, rfl⟩ := hsuffix
  rw [List.append_assoc] at hchain
  exact hchain.right_of_append

/-- Searches from several names, one after the other. -/
theorem answers_foldlM {search : List String → String → Except (List String) (List String)}
    (hsearch : ∀ name ∈ names, ∀ finished, Settled next finished →
      Answers next path finished [name] (search finished name))
    (h : Settled next finished) :
    Answers next path finished names (names.foldlM search finished) := by
  induction names generalizing finished with
  | nil => exact ⟨h, fun _ ha => ha, List.nil_subset _, fun _ _ ha => ha⟩
  | cons name names ih =>
    have hfirst := hsearch name List.mem_cons_self finished h
    rw [List.foldlM_cons]
    cases hcase : search finished name with
    | error cycle =>
      rw [hcase] at hfirst
      exact hfirst
    | ok more =>
      rw [hcase] at hfirst
      obtain ⟨hsettled, hsub, hname, hpath⟩ := hfirst
      -- the other searches start from what the first one finished
      have hrest := ih (fun n hn => hsearch n (List.mem_cons_of_mem name hn)) hsettled
      show Answers next path finished (name :: names) (names.foldlM search more)
      cases hcase' : names.foldlM search more with
      | error cycle =>
        rw [hcase'] at hrest
        exact hrest
      | ok most =>
        rw [hcase'] at hrest
        obtain ⟨hsettled', hsub', hnames, hpath'⟩ := hrest
        refine ⟨hsettled', fun a ha => hsub' (hsub ha), ?_, fun a ha hmost =>
          hpath a ha (hpath' a ha hmost)⟩
        exact List.cons_subset.2 ⟨hsub' (hname List.mem_cons_self), hnames⟩

/-- A path goes on to whatever its last name leads to. -/
theorem isChain_concat {b : String} (hchain : (path ++ [name]).IsChain (Leads next))
    (hb : b ∈ next name) : (path ++ [name] ++ [b]).IsChain (Leads next) := by
  refine List.isChain_append.2 ⟨hchain, List.isChain_singleton b, ?_⟩
  intro a ha c hc
  rw [List.getLast?_concat] at ha
  obtain rfl := Option.some.inj ha
  obtain rfl := Option.some.inj hc
  exact hb

/-- A name is finished after the search through all that it leads to. -/
theorem Answers.finish {more : List String} (honPath : name ∉ path) (hknown : name ∉ finished)
    (h : Answers next (path ++ [name]) finished (next name) (.ok more)) :
    Answers next path finished [name] (.ok (more ++ [name])) := by
  obtain ⟨hsettled, hsub, hnames, hold⟩ := h
  -- the search itself does not finish a name of its path
  have hname : name ∉ more := fun hmore =>
    hknown (hold name (List.mem_append_right path (List.mem_singleton_self name)) hmore)
  refine ⟨hsettled.concat (fun b hb => hnames hb) hname,
    fun a ha => List.mem_append_left _ (hsub ha), List.subset_append_right _ _, ?_⟩
  intro a ha hmore
  rcases List.mem_append.1 hmore with hmore | hmore
  · exact hold a (List.mem_append_left _ ha) hmore
  · exact absurd (List.mem_singleton.1 hmore ▸ ha) honPath

/-- A walk from a name ends with a cycle, or finishes the name. The depth is what the
path still lacks to be longer than there are nodes, so it never runs out. -/
theorem walk_answers (nodes : List String) (hnodes : ∀ a b, b ∈ next a → a ∈ nodes) {depth : Nat}
    (hdepth : path.length + depth = nodes.length + 1) (hnodup : path.Nodup)
    (hpath : path ⊆ nodes) (hchain : (path ++ [name]).IsChain (Leads next))
    (h : Settled next finished) :
    Answers next path finished [name] (walk next depth path finished name) := by
  induction depth generalizing path finished name with
  | zero =>
    -- a path without repetition is no longer than there are nodes
    have := length_le_of_nodup_of_subset hnodup fun a ha => hpath ha
    omega
  | succ depth ih =>
    rw [walk]
    by_cases honPath : name ∈ path
    · rw [if_pos honPath]
      exact isCycle_dropWhile honPath hnodup hchain
    · rw [if_neg honPath]
      by_cases hknown : name ∈ finished
      · rw [if_pos hknown]
        exact ⟨h, fun _ ha => ha, List.cons_subset.2 ⟨hknown, List.nil_subset _⟩, fun _ _ ha => ha⟩
      · rw [if_neg hknown]
        have hnodup' : (path ++ [name]).Nodup :=
          List.nodup_append.2 ⟨hnodup, List.nodup_singleton name, by
            rintro a ha b hb rfl
            exact honPath (List.mem_singleton.1 hb ▸ ha)⟩
        -- every search from here has the name on its path
        have hnext : ∀ b ∈ next name, ∀ finished, Settled next finished →
            Answers next (path ++ [name]) finished [b]
              (walk next depth (path ++ [name]) finished b) := by
          intro b hb finished hsettled
          refine ih ?_ hnodup' ?_ (isChain_concat hchain hb) hsettled
          · rw [List.length_append, List.length_singleton]
            omega
          · exact List.append_subset.2
              ⟨hpath, List.cons_subset.2 ⟨hnodes name b hb, List.nil_subset _⟩⟩
        have hall := answers_foldlM hnext h
        cases hcase : (next name).foldlM (walk next depth (path ++ [name])) finished with
        | error cycle =>
          rw [hcase] at hall
          exact hall
        | ok more =>
          rw [hcase] at hall
          exact hall.finish honPath hknown

/-! ## The search -/

variable {r : Rules}

/-- The first name has a unit alternative to the second. -/
def UnitStep (r : Rules) (a b : String) : Prop := [.nonterminal b] ∈ r.alternatives a

theorem mem_unitTargets {a b : String} : b ∈ r.unitTargets a ↔ r.UnitStep a b ∧ b ≠ a := by
  rw [unitTargets, List.mem_filter, List.mem_filterMap, bne_iff_ne]
  apply and_congr_left
  intro _
  constructor
  · rintro ⟨p, hp, heq⟩
    obtain rfl := Phrase.unitTarget?_eq_some_iff.1 heq
    exact hp
  · exact fun h => ⟨_, h, rfl⟩

theorem mem_keys_of_mem_unitTargets {a b : String} (h : b ∈ r.unitTargets a) : a ∈ r.keys.toList :=
  mem_keys_of_mem_alternatives (mem_unitTargets.1 h).1

/-- Loops can be left out on the way from one name to another. -/
theorem reach_unitTargets {a b : String} (h : ReflTransGen r.UnitStep a b) :
    ReflTransGen (Leads r.unitTargets) a b := by
  induction h with
  | refl => exact .refl
  | @tail b c _ hstep ih =>
    by_cases heq : c = b
    · rw [heq]
      exact ih
    · exact ih.tail (mem_unitTargets.2 ⟨hstep, heq⟩)

theorem unitCycle?_answers (r : Rules) :
    Answers r.unitTargets [] [] r.keys.toList
      (r.keys.toList.foldlM (walk r.unitTargets (r.size + 1) []) []) := by
  have hnothing : Settled r.unitTargets [] :=
    ⟨fun a ha => absurd ha List.not_mem_nil, fun a ha => absurd ha List.not_mem_nil⟩
  refine answers_foldlM (fun name _ finished h => ?_) hnothing
  refine walk_answers r.keys.toList (fun a b => mem_keys_of_mem_unitTargets) ?_
    List.nodup_nil (List.nil_subset _) (List.isChain_singleton name) h
  rw [NameMap.size_eq_length_keys, List.length_nil, Nat.zero_add]

/-- What the search finds is a cycle of at least two names. -/
theorem isCycle_of_unitCycle? {cycle : List String} (h : r.unitCycle? = some cycle) :
    IsCycle r.UnitStep cycle ∧ 2 ≤ cycle.length := by
  have hanswers := r.unitCycle?_answers
  unfold unitCycle? at h
  split at h
  · next found heq =>
    obtain rfl := Option.some.inj h
    rw [heq] at hanswers
    have hcycle : IsCycle (Leads r.unitTargets) found := hanswers
    refine ⟨hcycle.mono fun a b hab => (mem_unitTargets.1 hab).1, ?_⟩
    match found, hcycle with
    | [], hcycle => exact absurd rfl hcycle.ne_nil
    | [a], hcycle =>
      -- a loop is no step of the search
      have hloop : Leads r.unitTargets a a := (List.isChain_cons_cons.1 hcycle.chain).1
      exact absurd rfl (mem_unitTargets.1 hloop).2
    | _ :: _ :: rest, _ => exact Nat.le_add_left 2 rest.length
  · exact absurd h (Option.some_ne_none _).symm

/-- A search that finds nothing shows that no name leads back to itself. -/
theorem not_transGen_of_unitCycle? (h : r.unitCycle? = none) (a : String) :
    ¬ TransGen (Leads r.unitTargets) a a := by
  have hanswers := r.unitCycle?_answers
  unfold unitCycle? at h
  split at h
  · exact absurd h (Option.some_ne_none _)
  · next finished heq =>
    rw [heq] at hanswers
    obtain ⟨hsettled, -, hkeys, -⟩ := hanswers
    intro hcycle
    obtain ⟨b, hb, -⟩ := TransGen.head'_iff.1 hcycle
    exact hsettled.acyclic a (hkeys (mem_keys_of_mem_unitTargets hb)) hcycle

/-- A cycle of at least two names has a name that the search sees lead back to itself. -/
theorem exists_transGen_of_isCycle {cycle : List String} (h : IsCycle r.UnitStep cycle)
    (hlen : 2 ≤ cycle.length) : ∃ name, TransGen (Leads r.unitTargets) name name := by
  match cycle, hlen with
  | a :: b :: rest, _ =>
    -- the first two names differ, so the way around is a cycle of the search as well
    have hchain : (a :: b :: (rest ++ [a])).IsChain r.UnitStep := h.chain
    obtain ⟨hab, hback⟩ := List.isChain_cons_cons.1 hchain
    have hne : b ≠ a := fun heq =>
      (List.nodup_cons.1 h.nodup).1 (heq ▸ List.mem_cons_self)
    have hreach := reach_unitTargets (transGen_of_isChain hback).to_reflTransGen
    exact ⟨a, TransGen.head' (mem_unitTargets.2 ⟨hab, hne⟩) hreach⟩

/-- The search finds a cycle exactly if some name leads back to itself, loops left out. -/
theorem exists_unitCycle?_iff_transGen :
    (∃ cycle, r.unitCycle? = some cycle) ↔
      ∃ name, TransGen (Leads r.unitTargets) name name := by
  constructor
  · rintro ⟨cycle, h⟩
    obtain ⟨hcycle, hlen⟩ := isCycle_of_unitCycle? h
    exact exists_transGen_of_isCycle hcycle hlen
  · rintro ⟨name, hloop⟩
    cases hcase : r.unitCycle? with
    | some found => exact ⟨found, rfl⟩
    | none => exact absurd hloop (not_transGen_of_unitCycle? hcase name)

/-- The search finds a cycle exactly if there is one of at least two names. -/
theorem exists_unitCycle?_iff :
    (∃ cycle, r.unitCycle? = some cycle) ↔
      ∃ cycle, IsCycle r.UnitStep cycle ∧ 2 ≤ cycle.length := by
  constructor
  · rintro ⟨cycle, h⟩
    exact ⟨cycle, isCycle_of_unitCycle? h⟩
  · rintro ⟨cycle, hcycle, hlen⟩
    exact exists_unitCycle?_iff_transGen.2 (exists_transGen_of_isCycle hcycle hlen)

end Rules

end Chomsky
