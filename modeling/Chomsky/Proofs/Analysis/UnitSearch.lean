import Chomsky.Grammar.Samples
import Chomsky.Proofs.Analysis.UnitGraph

/-!
# The search for a unit cycle, without a bound

The search goes down from a name to all that it leads to, and needs no bound on its
depth: a path never repeats a name, and a name that leads anywhere has a rule, so no
path is longer than there are rules. The bound that the computation is given is larger
than this and cuts nothing off. So the search ends by itself, in one way only, and it
ends with what is computed.

## What this module delivers

- `Rules.Searches`, the search as a relation, with `Searches.unique`: there is one way
  for it to end.
- `Rules.searches_foldlM`: the computation with a bound is such a search.
- `unitCycle?_decides`: the search ends, finds a cycle exactly if there is one, and what
  it finds is a cycle.
-/

set_option autoImplicit false

namespace Chomsky

open Relation (TransGen)

namespace Rules

variable {r : Rules} {next : String → List String} {path finished names : List String}
  {name : String}

/-- The search from several names, one after the other, with no bound on its depth. The
names on the way to them are the path. It ends with the first cycle that is closed, or
with all names finished by then. -/
inductive Searches (next : String → List String) :
    (path finished names : List String) → Except (List String) (List String) → Prop where
  /-- No name is left to start from. -/
  | done {path finished : List String} : Searches next path finished [] (.ok finished)
  /-- A name on the path closes a cycle, which is the path from this name on. -/
  | closes {path finished names : List String} {name : String} : name ∈ path →
      Searches next path finished (name :: names) (.error (path.dropWhile (· != name)))
  /-- A finished name is passed over. -/
  | passes {path finished names : List String} {name : String}
      {answer : Except (List String) (List String)} : name ∉ path → name ∈ finished →
      Searches next path finished names answer →
      Searches next path finished (name :: names) answer
  /-- A cycle is closed somewhere below a new name. -/
  | finds {path finished names cycle : List String} {name : String} :
      name ∉ path → name ∉ finished →
      Searches next (path ++ [name]) finished (next name) (.error cycle) →
      Searches next path finished (name :: names) (.error cycle)
  /-- A new name is finished after all that it leads to. -/
  | finishes {path finished names more : List String} {name : String}
      {answer : Except (List String) (List String)} : name ∉ path → name ∉ finished →
      Searches next (path ++ [name]) finished (next name) (.ok more) →
      Searches next path (more ++ [name]) names answer →
      Searches next path finished (name :: names) answer

/-- There is one way for the search to end. -/
theorem Searches.unique {answer answer' : Except (List String) (List String)}
    (h : Searches next path finished names answer)
    (h' : Searches next path finished names answer') : answer = answer' := by
  induction h generalizing answer' with
  | done =>
    cases h'
    rfl
  | closes honPath =>
    cases h' with
    | closes _ => rfl
    | passes hout _ _ => exact absurd honPath hout
    | finds hout _ _ => exact absurd honPath hout
    | finishes hout _ _ _ => exact absurd honPath hout
  | passes hout hknown _ ih =>
    cases h' with
    | closes honPath => exact absurd honPath hout
    | passes _ _ hrest => exact ih hrest
    | finds _ hnew _ => exact absurd hknown hnew
    | finishes _ hnew _ _ => exact absurd hknown hnew
  | finds hout hnew _ ih =>
    cases h' with
    | closes honPath => exact absurd honPath hout
    | passes _ hknown _ => exact absurd hknown hnew
    | finds _ _ hbelow => exact ih hbelow
    | finishes _ _ hbelow _ => exact nomatch ih hbelow
  | finishes hout hnew _ _ ihbelow ihrest =>
    cases h' with
    | closes honPath => exact absurd honPath hout
    | passes _ hknown _ => exact absurd hknown hnew
    | finds _ _ hbelow => exact nomatch ihbelow hbelow
    | finishes _ _ hbelow hrest =>
      obtain rfl := Except.ok.inj (ihbelow hbelow)
      exact ihrest hrest

/-- The computation with a bound is a search, if the bound is what the path lacks to be
longer than there are nodes. -/
theorem searches_foldlM (nodes : List String) (hnodes : ∀ a b, b ∈ next a → a ∈ nodes)
    {depth : Nat} (hdepth : path.length + depth = nodes.length + 1) (hnodup : path.Nodup)
    (hpath : path ⊆ nodes) :
    Searches next path finished names (names.foldlM (walk next depth path) finished) := by
  induction depth generalizing path finished names with
  | zero =>
    -- a path without repetition is no longer than there are nodes
    have hle := length_le_of_nodup_of_subset hnodup fun a ha => hpath ha
    omega
  | succ depth ih =>
    induction names generalizing finished with
    | nil => exact .done
    | cons name names ihnames =>
      rw [List.foldlM_cons, walk]
      by_cases honPath : name ∈ path
      · rw [if_pos honPath]
        exact .closes honPath
      · rw [if_neg honPath]
        by_cases hknown : name ∈ finished
        · rw [if_pos hknown]
          exact .passes honPath hknown ihnames
        · rw [if_neg hknown]
          -- a name that leads nowhere is done at once, and any other is a node
          have hbelow : Searches next (path ++ [name]) finished (next name)
              ((next name).foldlM (walk next depth (path ++ [name])) finished) := by
            cases hnext : next name with
            | nil => exact .done
            | cons b rest =>
              have hname : name ∈ nodes := hnodes name b (hnext ▸ List.mem_cons_self)
              apply ih
              · rw [List.length_append, List.length_singleton]
                omega
              · exact List.nodup_append.2 ⟨hnodup, List.nodup_singleton name, by
                  rintro a ha b hb rfl
                  exact honPath (List.mem_singleton.1 hb ▸ ha)⟩
              · exact List.append_subset.2
                  ⟨hpath, List.cons_subset.2 ⟨hname, List.nil_subset _⟩⟩
          cases hcase : (next name).foldlM (walk next depth (path ++ [name])) finished with
          | error cycle =>
            rw [hcase] at hbelow
            exact .finds honPath hknown hbelow
          | ok more =>
            rw [hcase] at hbelow
            exact .finishes honPath hknown hbelow ihnames

/-- The search over all rules ends with what is computed, and with nothing else. -/
theorem searches_iff {answer : Except (List String) (List String)} :
    Searches r.unitTargets [] [] r.keys.toList answer ↔
      r.keys.toList.foldlM (walk r.unitTargets (r.size + 1) []) [] = answer := by
  have hends : Searches r.unitTargets [] [] r.keys.toList
      (r.keys.toList.foldlM (walk r.unitTargets (r.size + 1) []) []) := by
    apply searches_foldlM r.keys.toList fun a b => mem_keys_of_mem_unitTargets
    · rw [NameMap.size_eq_length_keys, List.length_nil, Nat.zero_add]
    · exact List.nodup_nil
    · exact List.nil_subset _
  constructor
  · intro h
    exact hends.unique h
  · rintro rfl
    exact hends

theorem searches_error_iff {cycle : List String} :
    Searches r.unitTargets [] [] r.keys.toList (.error cycle) ↔ r.unitCycle? = some cycle := by
  rw [searches_iff, unitCycle?]
  split
  · next heq => rw [heq, Except.error.injEq, Option.some_inj]
  · next heq => exact iff_of_false (fun h => nomatch heq.symm.trans h) nofun

theorem exists_searches_ok_iff :
    (∃ finished, Searches r.unitTargets [] [] r.keys.toList (.ok finished)) ↔
      r.unitCycle? = none := by
  simp only [searches_iff, unitCycle?]
  split
  · next heq =>
    rw [heq]
    exact iff_of_false (fun ⟨_, h⟩ => nomatch h) nofun
  · next finished heq => exact iff_of_true ⟨finished, heq⟩ rfl

end Rules

/-- Whatever the rules, the search for a cycle ends, in one way only, with a cycle or with
none found. It finds one exactly if the unit alternatives, loops left out, lead from some
name back to it. What it finds are at least two different names, each with a unit
alternative to the next, and the last with one to the first. -/
theorem unitCycle?_decides (r : Rules) :
    (∃! answer, Rules.Searches r.unitTargets [] [] r.keys.toList answer) ∧
    (∀ cycle, Rules.Searches r.unitTargets [] [] r.keys.toList (.error cycle) ↔
      r.unitCycle? = some cycle) ∧
    ((∃ finished, Rules.Searches r.unitTargets [] [] r.keys.toList (.ok finished)) ↔
      r.unitCycle? = none) ∧
    ((∃ cycle, r.unitCycle? = some cycle) ↔
      ∃ name, TransGen (fun a b => r.UnitStep a b ∧ b ≠ a) name name) ∧
    ∀ cycle, r.unitCycle? = some cycle → IsCycle r.UnitStep cycle ∧ 2 ≤ cycle.length := by
  have hsteps : Rules.Leads r.unitTargets = fun a b => r.UnitStep a b ∧ b ≠ a := by
    funext a b
    exact propext Rules.mem_unitTargets
  refine ⟨?_, fun _ => Rules.searches_error_iff, Rules.exists_searches_ok_iff, ?_, ?_⟩
  · exact ⟨_, Rules.searches_iff.2 rfl, fun _ h => (Rules.searches_iff.1 h).symm⟩
  · rw [← hsteps]
    exact Rules.exists_unitCycle?_iff_transGen
  · intro cycle h
    exact Rules.isCycle_of_unitCycle? h

/-- In the sample with a cycle `A` and `B` lead to each other, and `S` leads to both. -/
theorem unitCycle?_decides_sample :
    Sample.unitCycle.grammar.rules.unitCycle? = some ["A", "B"] ∧
      IsCycle Sample.unitCycle.grammar.rules.UnitStep ["A", "B"] := by
  have hfound : Sample.unitCycle.grammar.rules.unitCycle? = some ["A", "B"] := by decide
  obtain ⟨-, -, -, -, hcycle⟩ := unitCycle?_decides Sample.unitCycle.grammar.rules
  exact ⟨hfound, (hcycle _ hfound).1⟩

end Chomsky
