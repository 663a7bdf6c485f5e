import Chomsky.Grammar.Samples
import Chomsky.Normal.Pipeline
import Chomsky.Proofs.Name.Scheme
import Chomsky.Proofs.Normal.Failing

/-!
# More names

A scheme with a larger suffix has more names, and they come behind those that it had. As long
as the names do not run out, no name behind them is ever tried. So a pool with more names makes
every draw in the same way, and whatever is drawn from it one after the other comes out the
same, up to a normal form and the list of its fresh names.

## What this module delivers

- `NamePool.withScheme` and `NamePool.fresh_withScheme`: a draw that succeeds with some names
  returns the same one with more.
- `Inquiry.run_withScheme`: an inquiry that comes to its end does so in the same way.
- `Phase.apply_withScheme`: so does a phase, on every grammar.
- `normalize_eq_ok_iff`: the phases of a normalization that succeeds.
- `normalize_raise_suffix`: a larger suffix does not change a normal form.
-/

set_option autoImplicit false

namespace Chomsky

variable {s : NameScheme}

/-! ## Draws -/

namespace NamePool

/-- The pool with the names of another scheme. -/
def withScheme (p : NamePool) (s : NameScheme) : NamePool := { p with scheme := s }

variable {p q : NamePool} {name : String}

theorem fresh_withScheme (hs : p.scheme.names <+: s.names) (h : p.fresh = some (name, q)) :
    (p.withScheme s).fresh = some (name, q.withScheme s) := by
  obtain ⟨more, hmore⟩ := hs
  rw [fresh, NameScheme.firstFree_eq_find?, Option.map_eq_some_iff] at h
  obtain ⟨found, hfind, heq⟩ := h
  cases heq
  have hfound : s.names.find? (fun name => !p.inUse name) = some name := by
    rw [← hmore, List.find?_append, hfind, Option.some_or]
  rw [fresh, NameScheme.firstFree_eq_find?]
  show (s.names.find? fun name => !p.inUse name).map _ = _
  rw [hfound]
  rfl

end NamePool

/-! ## Tables and inquiries -/

namespace NameTable

variable {κ : Type} [DecidableEq κ] {t : NameTable κ} {key : κ} {name : String}

/-- The table with a pool that has the names of another scheme. -/
def withScheme (t : NameTable κ) (s : NameScheme) : NameTable κ :=
  { t with pool := t.pool.withScheme s }

@[simp] theorem find?_withScheme (t : NameTable κ) (s : NameScheme) (key : κ) :
    (t.withScheme s).find? key = t.find? key := rfl

theorem learn_withScheme (hs : t.pool.scheme.names <+: s.names)
    (h : (t.learn key).find? key = some name) :
    (t.withScheme s).learn key = (t.learn key).withScheme s := by
  cases hfind : t.find? key with
  | some old =>
    rw [learn_of_find?_eq_some hfind, learn_of_find?_eq_some ((t.find?_withScheme s key).trans hfind)]
  | none =>
    cases hfresh : t.pool.fresh with
    | none =>
      rw [learn_of_fresh_eq_none hfresh, hfind] at h
      cases h
    | some answer =>
      obtain ⟨first, pool⟩ := answer
      rw [learn_of_fresh_eq_some hfind hfresh]
      exact learn_of_fresh_eq_some hfind (NamePool.fresh_withScheme hs hfresh)

theorem scheme_learn (t : NameTable κ) (key : κ) : (t.learn key).pool.scheme = t.pool.scheme := by
  obtain ⟨count, hcount⟩ := t.pool_learn key
  rw [hcount, NamePool.drawn_scheme]

end NameTable

/-- Each key that gets a name gets it with more names, too. -/
theorem Inquiry.run_withScheme {κ α : Type} [DecidableEq κ] {x : Inquiry κ α} {t : NameTable κ}
    {a : α} (hs : t.pool.scheme.names <+: s.names) (h : (x.run t).1 = some a) :
    x.run (t.withScheme s) = (some a, (x.run t).2.withScheme s) := by
  induction x generalizing t with
  | done b =>
    cases h
    rfl
  | ask key next ih =>
    cases hfind : (t.learn key).find? key with
    | none =>
      rw [run_ask_of_none hfind] at h
      cases h
    | some name =>
      rw [run_ask_of_some hfind] at h ⊢
      have hlearn := NameTable.learn_withScheme hs hfind
      have hname : ((t.withScheme s).learn key).find? key = some name := by
        rw [hlearn, NameTable.find?_withScheme, hfind]
      rw [run_ask_of_some hname, hlearn]
      exact ih name (by rwa [NameTable.scheme_learn]) h

/-! ## Phases -/

variable {g g' : Grammar} {p q : NamePool}

namespace Grammar

theorem isolateStart_withScheme (hs : p.scheme.names <+: s.names)
    (h : g.isolateStart p = (.ok g', q)) :
    g.isolateStart (p.withScheme s) = (.ok g', q.withScheme s) := by
  unfold isolateStart NamePool.draw at h ⊢
  split at h
  · next hoccurs =>
    cases hfresh : p.fresh with
    | none =>
      rw [hfresh] at h
      cases h
    | some answer =>
      obtain ⟨name, pool⟩ := answer
      rw [hfresh] at h
      cases h
      rw [if_pos hoccurs, NamePool.fresh_withScheme hs hfresh]
  · next hoccurs =>
    cases h
    rw [if_neg hoccurs]

theorem namedBy_withScheme {κ : Type} [DecidableEq κ] {f : Phrase → Inquiry κ Phrase}
    {alternative : κ → Phrase} (hs : p.scheme.names <+: s.names)
    (h : g.namedBy f alternative p = (.ok g', q)) :
    g.namedBy f alternative (p.withScheme s) = (.ok g', q.withScheme s) := by
  rw [namedBy] at h
  cases hresult : ((g.rules.replacing f).run (.ofPool p)).1 with
  | none =>
    rw [hresult] at h
    cases h
  | some rules =>
    rw [hresult] at h
    cases h
    have hrun : (g.rules.replacing f).run (.ofPool (p.withScheme s)) = _ :=
      Inquiry.run_withScheme hs hresult
    rw [namedBy, hrun]
    rfl

end Grammar

/-- A phase that succeeds does the same with more names. -/
theorem Phase.apply_withScheme {phase : Phase} (hs : p.scheme.names <+: s.names)
    (h : phase.apply g p = (.ok g', q)) :
    phase.apply g (p.withScheme s) = (.ok g', q.withScheme s) := by
  cases phase with
  | isolateStart => exact Grammar.isolateStart_withScheme hs h
  | removeNull =>
    cases h
    rfl
  | prune =>
    cases h
    rfl
  | removeUnits policy =>
    rw [apply, Prod.mk.injEq] at h ⊢
    obtain ⟨hg, rfl⟩ := h
    exact ⟨hg, rfl⟩
  | isolateTerminals =>
    rw [apply, Grammar.isolateTerminals_eq_namedBy] at h ⊢
    exact Grammar.namedBy_withScheme hs h
  | binarize =>
    rw [apply, Grammar.binarize_eq_namedBy] at h ⊢
    exact Grammar.namedBy_withScheme hs h

theorem Phase.scheme_apply {phase : Phase} (h : phase.apply g p = (.ok g', q)) :
    q.scheme = p.scheme := by
  obtain ⟨count, hcount⟩ := phase.pool_apply g p
  rw [h] at hcount
  obtain rfl : q = p.drawn count := hcount
  rfl

/-- Applies phases one after the other, as long as none fails. -/
def Phase.applyAll : List Phase → Grammar → NamePool → Except NormalizationError Grammar × NamePool
  | [], g, pool => (.ok g, pool)
  | phase :: phases, g, pool =>
      match phase.apply g pool with
      | (.ok g, pool) => applyAll phases g pool
      | (.error cause, pool) => (.error cause, pool)

/-- Phases that all succeed do the same with more names. -/
theorem Phase.applyAll_withScheme {phases : List Phase} (hs : p.scheme.names <+: s.names)
    (h : applyAll phases g p = (.ok g', q)) :
    applyAll phases g (p.withScheme s) = (.ok g', q.withScheme s) := by
  induction phases generalizing g p with
  | nil =>
    cases h
    rfl
  | cons phase phases ih =>
    rw [applyAll] at h ⊢
    cases happly : phase.apply g p with
    | mk result pool =>
      rw [happly] at h
      cases result with
      | error cause => cases h
      | ok g₁ =>
        rw [apply_withScheme hs happly]
        exact ih (by rwa [scheme_apply happly]) h

/-! ## Normal forms -/

/-- The phases of a normalization, in their order. -/
def Phase.inOrder (policy : CyclePolicy) : List Phase :=
  [isolateStart, removeNull, removeUnits policy, prune, isolateTerminals, binarize]

/-- Normalization succeeds if the grammar holds together and no phase fails. -/
theorem normalize_eq_ok_iff {settings : Settings} {g : Grammar} {result : Workbench} :
    normalize settings g = .ok result ↔
      g.WellFormed ∧
        Phase.applyAll (Phase.inOrder settings.unitCycles) g (.ofReserved settings.scheme g.declared)
          = (.ok result.grammar, result.pool) := by
  unfold normalize
  split
  · next hfaults =>
    rw [iff_true_intro (show g.WellFormed from hfaults), true_and]
    simp only [Phase.inOrder, Phase.applyAll, Phase.apply, Grammar.reduced]
    -- where a phase fails, both sides fail
    rcases g.isolateStart (.ofReserved settings.scheme g.declared) with ⟨cause | started, pool₁⟩
    · simp
    rcases hunits : started.removeNull.removeUnits settings.unitCycles with cause | unitFree
    · simp [hunits, Except.map]
    rcases hterminals : unitFree.prune.isolateTerminals pool₁ with ⟨cause | isolated, pool₂⟩
    · simp [hunits, hterminals, Except.map]
    rcases hbinary : isolated.binarize pool₂ with ⟨cause | normal, pool₃⟩
    · simp [hunits, hterminals, hbinary, Except.map]
    cases result
    simp [hunits, hterminals, hbinary, Except.map]
  · next hfaults =>
    have hnot : ¬ g.WellFormed := hfaults
    simp [hnot]

/-- A normal form that the names of one scheme suffice for is the one that any scheme gives
which only adds names behind them. -/
theorem normalize_withScheme {scheme : NameScheme} {policy : CyclePolicy} {result : Workbench}
    (hs : scheme.names <+: s.names) (h : normalize ⟨scheme, policy⟩ g = .ok result) :
    normalize ⟨s, policy⟩ g = .ok ⟨result.grammar, result.pool.withScheme s⟩ := by
  obtain ⟨hwell, happly⟩ := normalize_eq_ok_iff.1 h
  exact normalize_eq_ok_iff.2 ⟨hwell, Phase.applyAll_withScheme hs happly⟩

end Chomsky
