import Chomsky.Proofs.Analysis.Reachable
import Mathlib.Logic.Relation

/-!
# The search with a queue

What is reached from a name can also be found without layers. A queue holds the names
that were found and not yet followed; the first of them is taken out, and whatever it
leads to and was not found before is found now and goes to the end of the queue. The
search ends with an empty queue, and no bound is given to it.

At any time a name that was found is in the queue, or all that it leads to was found.
So nothing is missing when the queue is empty. The search ends because every name is
queued once: the names in the queue and those that could still be found get fewer by
one with each name that is taken out.

## What this module delivers

- `Rules.LeadsTo` and `Grammar.reaches_iff`: the chains of occurrences that the search
  is about.
- `Search` and `Explores`, the search with a queue as a relation.
- `Search.Kept`, what holds at any time, with `Search.Kept.visit`.
- `Grammar.explores_iff`: the search ends, and it finds the reachable nonterminals.
-/

set_option autoImplicit false

namespace Chomsky

/-! ## Chains of occurrences -/

/-- The name occurs as a nonterminal in an alternative of the left side. -/
def Rules.LeadsTo (r : Rules) (lhs name : String) : Prop :=
  ∃ p ∈ r.alternatives lhs, .nonterminal name ∈ p

namespace Grammar

variable {g : Grammar} {name : String}

theorem Reaches.leadsTo {lhs : String} (h : g.Reaches lhs) (hleads : g.rules.LeadsTo lhs name) :
    g.Reaches name := by
  obtain ⟨p, hp, hname⟩ := hleads
  exact h.step hp hname

/-- A name is reached exactly if a chain of occurrences leads to it. -/
theorem reaches_iff : g.Reaches name ↔ Relation.ReflTransGen g.rules.LeadsTo g.start name := by
  constructor
  · intro h
    induction h with
    | seed hseed =>
      obtain rfl := List.mem_singleton.1 hseed
      exact .refl
    | step _ hstep ih => exact ih.tail (Rules.mem_successors.1 hstep)
  · intro h
    induction h with
    | refl => exact g.reaches_start
    | tail _ hleads ih => exact ih.leadsTo hleads

end Grammar

/-! ## The search -/

/-- The names found so far, and those among them that were not yet followed. -/
structure Search where
  /-- The names to be followed, the next one first. -/
  queue : List String
  /-- The names found so far. -/
  found : NameSet

namespace Search

/-- The search that begins at a name. -/
def start (name : String) : Search := ⟨[name], NameSet.ofList [name]⟩

/-- Meets a name, which is found and queued unless it was found before. -/
def meet (s : Search) (name : String) : Search :=
  if name ∈ s.found then s else ⟨s.queue ++ [name], s.found.insert name⟩

/-- Meets names one after the other. -/
def meetAll (s : Search) (names : List String) : Search := names.foldl meet s

end Search

/-- The search from a state on, up to an empty queue, and the names found by then. -/
inductive Explores (next : String → List String) : Search → NameSet → Prop where
  /-- No name is left to be followed. -/
  | done {found : NameSet} : Explores next ⟨[], found⟩ found
  /-- The first name of the queue is taken out and followed. -/
  | visit {name : String} {queue : List String} {found result : NameSet} :
      Explores next (Search.meetAll ⟨queue, found⟩ (next name)) result →
      Explores next ⟨name :: queue, found⟩ result

namespace Search

variable {s : Search} {names : List String} {x name : String}

theorem mem_found_meet : x ∈ (s.meet name).found ↔ x = name ∨ x ∈ s.found := by
  unfold meet
  split
  · next hfound =>
    refine ⟨Or.inr, ?_⟩
    rintro (rfl | h)
    · exact hfound
    · exact h
  · exact NameSet.mem_insert

theorem mem_queue_meet :
    x ∈ (s.meet name).queue ↔ x ∈ s.queue ∨ x = name ∧ x ∉ s.found := by
  unfold meet
  split
  · next hfound =>
    refine ⟨Or.inl, ?_⟩
    rintro (h | ⟨rfl, hnew⟩)
    · exact h
    · exact absurd hfound hnew
  · next hnew =>
    rw [List.mem_append, List.mem_singleton]
    refine or_congr_right ⟨?_, And.left⟩
    rintro rfl
    exact ⟨rfl, hnew⟩

theorem mem_found_meetAll : x ∈ (s.meetAll names).found ↔ x ∈ names ∨ x ∈ s.found := by
  induction names generalizing s with
  | nil => simp [meetAll]
  | cons name names ih =>
    rw [meetAll, List.foldl_cons, ← meetAll, ih, mem_found_meet, List.mem_cons, or_left_comm,
      or_assoc]

theorem mem_queue_meetAll :
    x ∈ (s.meetAll names).queue ↔ x ∈ s.queue ∨ x ∈ names ∧ x ∉ s.found := by
  induction names generalizing s with
  | nil => simp [meetAll]
  | cons name names ih =>
    rw [meetAll, List.foldl_cons, ← meetAll, ih, mem_queue_meet, mem_found_meet, List.mem_cons,
      not_or, or_assoc]
    -- a name that is met twice is queued at the first time
    by_cases hx : x = name
    · simp [hx]
    · simp [hx]

/-- A name that is queued is found at the same time. -/
theorem length_queue_meet_le (s : Search) (name : String) :
    (s.meet name).queue.length + s.found.size ≤ s.queue.length + (s.meet name).found.size := by
  unfold meet
  split
  · exact Nat.le_refl _
  · next hnew =>
    have hsize : s.found.size + 1 ≤ (s.found.insert name).size := by
      have hnodup := List.nodup_cons.2 ⟨hnew, s.found.nodup_toList⟩
      refine length_le_of_nodup_of_subset hnodup fun other hother => ?_
      exact NameSet.mem_insert.2 (List.mem_cons.1 hother)
    dsimp only
    rw [List.length_append, List.length_singleton]
    omega

theorem length_queue_meetAll_le (s : Search) (names : List String) :
    (s.meetAll names).queue.length + s.found.size
      ≤ s.queue.length + (s.meetAll names).found.size := by
  induction names generalizing s with
  | nil => exact Nat.le_refl _
  | cons name names ih =>
    have hmeet := length_queue_meet_le s name
    have hrest := ih (s.meet name)
    rw [meetAll, List.foldl_cons, ← meetAll]
    omega

/-- What holds at any time of the search: all that was found is reached, and a name that
is no longer in the queue was followed. -/
structure Kept (next : String → List String) (seeds : List String) (s : Search) : Prop where
  /-- The queue holds names that were found. -/
  queued : ∀ x ∈ s.queue, x ∈ s.found
  /-- Whatever was found is reached from the seeds. -/
  reached : ∀ x ∈ s.found, ReachedFrom next seeds x
  /-- The seeds were found. -/
  seed : ∀ x ∈ seeds, x ∈ s.found
  /-- What a name outside the queue leads to was found. -/
  followed : ∀ x ∈ s.found, x ∉ s.queue → ∀ y ∈ next x, y ∈ s.found

namespace Kept

variable {next : String → List String} {seeds queue : List String} {found result : NameSet}

theorem start (next : String → List String) (name : String) :
    Kept next [name] (Search.start name) where
  queued _ hx := NameSet.mem_ofList.2 hx
  reached _ hx := .seed (NameSet.mem_ofList.1 hx)
  seed _ hx := NameSet.mem_ofList.2 hx
  followed _ hx hout := absurd (NameSet.mem_ofList.1 hx) hout

/-- Following the first name of the queue. -/
theorem visit (h : Kept next seeds ⟨name :: queue, found⟩) :
    Kept next seeds (meetAll ⟨queue, found⟩ (next name)) where
  queued x hx := by
    rw [mem_found_meetAll]
    rcases mem_queue_meetAll.1 hx with hqueue | ⟨hnext, -⟩
    · exact Or.inr (h.queued x (List.mem_cons_of_mem name hqueue))
    · exact Or.inl hnext
  reached x hx := by
    rcases mem_found_meetAll.1 hx with hnext | hfound
    · exact .step (h.reached name (h.queued name List.mem_cons_self)) hnext
    · exact h.reached x hfound
  seed x hx := mem_found_meetAll.2 (Or.inr (h.seed x hx))
  followed x hx hout y hy := by
    rw [mem_queue_meetAll, not_or, not_and, not_not] at hout
    rw [mem_found_meetAll] at hx ⊢
    -- what was found just now is in the queue, so the name was found before
    have hfound : x ∈ found := hx.elim hout.2 id
    by_cases hname : x = name
    · exact Or.inl (hname ▸ hy)
    · refine Or.inr (h.followed x hfound ?_ y hy)
      exact fun hmem => (List.mem_cons.1 hmem).elim hname hout.1

/-- With an empty queue, the names found are those that are reached. -/
theorem mem_iff (h : Kept next seeds ⟨[], found⟩) : x ∈ found ↔ ReachedFrom next seeds x := by
  constructor
  · exact h.reached x
  · intro hx
    induction hx with
    | seed hseed => exact h.seed _ hseed
    | step _ hstep ih => exact h.followed _ ih List.not_mem_nil _ hstep

theorem mem_iff_of_explores (h : Kept next seeds s) (hrun : Explores next s result) :
    x ∈ result ↔ ReachedFrom next seeds x := by
  induction hrun with
  | done => exact h.mem_iff
  | visit _ ih => exact ih h.visit

/-- The search ends if all that it can find is among finitely many names. -/
theorem exists_explores {finite : List String} {visits : Nat} (h : Kept next seeds s)
    (hfinite : ∀ x, ReachedFrom next seeds x → x ∈ finite)
    (hvisits : s.queue.length + finite.length ≤ visits + s.found.size) :
    ∃ result, Explores next s result := by
  induction visits generalizing s with
  | zero =>
    -- everything was found, so nothing can be left in the queue
    have hsize : s.found.size ≤ finite.length :=
      length_le_of_nodup_of_subset s.found.nodup_toList fun x hx => hfinite x (h.reached x hx)
    have hqueue : s.queue = [] := List.length_eq_zero_iff.1 (by omega)
    obtain ⟨queue, found⟩ := s
    obtain rfl : queue = [] := hqueue
    exact ⟨found, .done⟩
  | succ visits ih =>
    obtain ⟨queue, found⟩ := s
    cases queue with
    | nil => exact ⟨found, .done⟩
    | cons name queue =>
      have hlength := length_queue_meetAll_le ⟨queue, found⟩ (next name)
      rw [List.length_cons] at hvisits
      obtain ⟨result, hrun⟩ := ih h.visit (by dsimp only at hlength hvisits; omega)
      exact ⟨result, .visit hrun⟩

end Kept

end Search

/-! ## Nonterminals of a grammar -/

/-- The search with a queue ends in every grammar, in one way only, and it finds the
reachable nonterminals. -/
theorem Grammar.explores_iff (g : Grammar) (result : NameSet) :
    Explores g.rules.successors (.start g.start) result ↔ result = g.reachable := by
  have hkept := Search.Kept.start g.rules.successors g.start
  have heq : ∀ result, Explores g.rules.successors (.start g.start) result →
      result = g.reachable := by
    intro result hrun
    apply NameSet.ext
    intro name
    rw [hkept.mem_iff_of_explores hrun, mem_reachable_iff]
  constructor
  · exact heq result
  · rintro rfl
    have hfinite : ∀ name, g.Reaches name → name ∈ g.reachable.toList := fun name hname =>
      mem_reachable_iff.2 hname
    obtain ⟨result, hrun⟩ := hkept.exists_explores hfinite (Nat.le_add_right _ _)
    exact heq result hrun ▸ hrun

end Chomsky
