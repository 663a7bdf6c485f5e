import Chomsky.Normal.Phase
import Chomsky.Proofs.Normal.InTurn

/-!
# Phases that work in place

A phase is a function of a grammar and a pool. It can also be carried out on a workbench, one
step after the other: names are drawn from the pool that lies there, and the grammar that lies
there is replaced. A step that fails undoes nothing, so whatever was done before it stays.

Carried out in this way, a phase that fails would keep the grammar of its last step. It keeps
the grammar it began with all the same, since each phase draws all its names before it puts
anything down. So both ways come to the same, for every grammar and every pool.

## What this module delivers

- `Work`, steps on a workbench, with `Work.drawName` and `Work.answering`.
- `Phase.inPlace`, the steps of a phase.
- `Phase.run_inPlace`: in place, a phase comes to what it comes to as a function.
-/

set_option autoImplicit false

namespace Chomsky

/-- Steps on a workbench that end with a result or a cause of failure. A failure leaves the
workbench as the steps before it have left it. -/
abbrev Work := ExceptT NormalizationError (StateM Workbench)

namespace Work

/-- Draws a fresh name from the pool of the workbench. -/
def drawName : Work String := ExceptT.mk Workbench.drawName

/-- Replaces the grammar of the workbench. -/
def changeGrammar (f : Grammar → Grammar) : Work Unit :=
  modify fun w => w.withGrammar (f w.grammar)

variable {κ α β : Type}

section Answering

variable [DecidableEq κ]

/-- Answers an inquiry. A key that has no name yet gets the next one of the pool. -/
def answering : Inquiry κ α → List (κ × String) → Work (α × List (κ × String))
  | .done a, named => return (a, named)
  | .ask key next, named =>
      match named.lookup key with
      | some name => answering (next name) named
      | none => do
          let name ← drawName
          answering (next name) (named ++ [(key, name)])

/-- Replaces all alternatives as a walk through the rules says. The new rules are kept apart
until the walk is over. -/
def naming (f : Phrase → Inquiry κ Phrase) (alternative : κ → Phrase) : Work Unit := do
  let w ← get
  let (rules, named) ← answering (w.grammar.rules.replacing f) []
  changeGrammar fun g => g.withNamed rules ⟨named, w.pool⟩ alternative

end Answering

/-! ## Running steps -/

variable {x : Work α} {f : α → Work β} {w w' : Workbench}

theorem run_bind_ok {a : α} (h : x.run.run w = (.ok a, w')) :
    (x >>= f).run.run w = (f a).run.run w' := by
  rw [ExceptT.run_bind, StateT.run_bind, h]
  rfl

theorem run_bind_error {cause : NormalizationError} (h : x.run.run w = (.error cause, w')) :
    (x >>= f).run.run w = (.error cause, w') := by
  rw [ExceptT.run_bind, StateT.run_bind, h]
  rfl

theorem run_get (w : Workbench) : (get : Work Workbench).run.run w = (.ok w, w) := rfl

theorem run_drawName_of_some {name : String} {pool : NamePool}
    (h : w.pool.fresh = some (name, pool)) :
    drawName.run.run w = (.ok name, { w with pool := pool }) := by
  have hdraw : drawName.run.run w = (w.pool.draw.1, { w with pool := w.pool.draw.2 }) := rfl
  rw [hdraw, NamePool.draw, h]

theorem run_drawName_of_none (h : w.pool.fresh = none) :
    drawName.run.run w = (.error (.namesExhausted w.pool.scheme.capacity), w) := by
  have hdraw : drawName.run.run w = (w.pool.draw.1, { w with pool := w.pool.draw.2 }) := rfl
  rw [hdraw, NamePool.draw, h]

section Answering

variable [DecidableEq κ]

/-- To answer an inquiry in place is to run it, with the grammar lying untouched beside it. -/
theorem run_answering (x : Inquiry κ α) (t : NameTable κ) (g : Grammar) :
    (answering x t.entries).run.run ⟨g, t.pool⟩ =
      match x.run t with
      | (some a, t') => (.ok (a, t'.entries), ⟨g, t'.pool⟩)
      | (none, t') => (.error (.namesExhausted t.pool.scheme.capacity), ⟨g, t'.pool⟩) := by
  induction x generalizing t with
  | done a => rfl
  | ask key next ih =>
    rw [answering]
    cases hfind : t.entries.lookup key with
    | some name =>
      have hlearn : t.learn key = t := NameTable.learn_of_find?_eq_some hfind
      rw [Inquiry.run_ask_of_some (by rw [hlearn]; exact hfind), hlearn]
      exact ih name t
    | none =>
      cases hfresh : t.pool.fresh with
      | none =>
        have hlearn : t.learn key = t := NameTable.learn_of_fresh_eq_none hfresh
        rw [Inquiry.run_ask_of_none (by rw [hlearn]; exact hfind), hlearn]
        exact run_bind_error (run_drawName_of_none hfresh)
      | some answer =>
        obtain ⟨name, pool⟩ := answer
        have hlearn : t.learn key = ⟨t.entries ++ [(key, name)], pool⟩ :=
          NameTable.learn_of_fresh_eq_some hfind hfresh
        have hname : (t.learn key).find? key = some name :=
          NameTable.find?_learn_of_fresh_eq_some hfind hfresh
        have hscheme : pool.scheme = t.pool.scheme := by
          rw [NamePool.eq_drawn_one hfresh]
          rfl
        rw [Inquiry.run_ask_of_some hname, hlearn, ← hscheme]
        exact (run_bind_ok (run_drawName_of_some hfresh)).trans
          (ih name ⟨t.entries ++ [(key, name)], pool⟩)

/-- The new rules are put down when the walk is over, and not at all when it breaks off. -/
theorem run_naming (f : Phrase → Inquiry κ Phrase) (alternative : κ → Phrase) (g : Grammar)
    (pool : NamePool) : (naming f alternative).run.run ⟨g, pool⟩ =
      match g.namedBy f alternative pool with
      | (.ok g', pool') => (.ok (), ⟨g', pool'⟩)
      | (.error cause, pool') => (.error cause, ⟨g, pool'⟩) := by
  have hanswer := run_answering (g.rules.replacing f) (.ofPool pool) g
  rw [naming, run_bind_ok (run_get _), Grammar.namedBy]
  cases hrun : (g.rules.replacing f).run (.ofPool pool) with
  | mk result table =>
    rw [hrun] at hanswer
    cases result with
    | none => exact run_bind_error hanswer
    | some rules => exact run_bind_ok hanswer

end Answering

end Work

/-! ## The phases -/

namespace Phase

/-- The steps of a phase. -/
def inPlace : Phase → Work Unit
  | isolateStart => do
      let w ← get
      if w.grammar.startOccurs then
        let name ← Work.drawName
        Work.changeGrammar fun g => g.behind name
  | removeNull => Work.changeGrammar Grammar.removeNull
  | removeUnits policy => do
      let w ← get
      match policy, w.grammar.rules.unitCycle? with
      | .refuse, some cycle => throw (.unitCycle cycle)
      | _, _ => Work.changeGrammar Grammar.splice
  | prune => Work.changeGrammar Grammar.prune
  | isolateTerminals => Work.naming Phrase.isolating fun name => [.terminal name]
  | binarize => Work.naming Phrase.binarizing fun pair => [pair.1, pair.2]

/-- In place, a phase comes to what it comes to as a function. -/
theorem run_inPlace (phase : Phase) (w : Workbench) : phase.inPlace.run.run w =
    ((w.run phase).1.elim (.ok ()) .error, (w.run phase).2) := by
  cases phase with
  | removeNull => rfl
  | prune => rfl
  | isolateStart =>
    rw [inPlace, Work.run_bind_ok (Work.run_get w), Workbench.run, apply, Grammar.isolateStart]
    split
    · cases hfresh : w.pool.fresh with
      | none =>
        rw [Work.run_bind_error (Work.run_drawName_of_none hfresh), NamePool.draw, hfresh]
        rfl
      | some answer =>
        obtain ⟨name, pool⟩ := answer
        rw [Work.run_bind_ok (Work.run_drawName_of_some hfresh), NamePool.draw, hfresh]
        rfl
    · rfl
  | removeUnits policy =>
    rw [inPlace, Work.run_bind_ok (Work.run_get w), Workbench.run, apply]
    unfold Grammar.removeUnits
    cases policy <;> cases w.grammar.rules.unitCycle? <;> rfl
  | isolateTerminals =>
    rw [inPlace, Work.run_naming, Workbench.run, apply, Grammar.isolateTerminals_eq_namedBy]
    cases w.grammar.namedBy Phrase.isolating (fun name => [.terminal name]) w.pool with
    | mk result pool => cases result <;> rfl
  | binarize =>
    rw [inPlace, Work.run_naming, Workbench.run, apply, Grammar.binarize_eq_namedBy]
    cases w.grammar.namedBy Phrase.binarizing (fun pair => [pair.1, pair.2]) w.pool with
    | mk result pool => cases result <;> rfl

end Phase

end Chomsky
