import Chomsky.Proofs.Name.Table

/-!
# Asking for names, one after the other

A table can be told all its keys first and be read afterwards. It can also be asked for one
name at a time by a computation that goes on with each answer, and stops at the first key for
which no name is left. An inquiry is such a computation, kept apart from any table.

Both ways come to the same. A name that was given is found ever after, so the result of an
inquiry can be read off the table in which it ends. And once an inquiry has stopped, no name
is left for any other key, so it makes no difference whether further keys are tried.

## What this module delivers

- `Inquiry`, with `Inquiry.run` for a table that learns and `Inquiry.read` for one that
  does not.
- `Inquiry.fst_run`: the result of a run is read off its last table.
- `Inquiry.pool_run` and `Inquiry.fresh_eq_none_of_run`: what a run takes from the pool, and
  that it stops only when the pool is exhausted.
- `Inquiry.forEach`, an inquiry for each element of a list, and its table and result.
-/

set_option autoImplicit false

namespace Chomsky

/-! ## One key -/

namespace NameTable

variable {κ : Type} [DecidableEq κ] {t : NameTable κ} {key : κ} {name : String}

/-- A table that is told a key draws one name or none. -/
theorem pool_learn (t : NameTable κ) (key : κ) :
    ∃ count, (t.learn key).pool = t.pool.drawn count := by
  cases hfind : t.find? key with
  | some name => exact ⟨0, by rw [learn_of_find?_eq_some hfind, NamePool.drawn_zero]⟩
  | none =>
    cases hfresh : t.pool.fresh with
    | none => exact ⟨0, by rw [learn_of_fresh_eq_none hfresh, NamePool.drawn_zero]⟩
    | some answer =>
      obtain ⟨name, pool⟩ := answer
      exact ⟨1, by rw [learn_of_fresh_eq_some hfind hfresh, NamePool.eq_drawn_one hfresh]⟩

/-- A new key has the name that was drawn for it. -/
theorem find?_learn_of_fresh_eq_some {pool : NamePool} (hfind : t.find? key = none)
    (hfresh : t.pool.fresh = some (name, pool)) : (t.learn key).find? key = some name := by
  rw [learn_of_fresh_eq_some hfind hfresh, find?, List.lookup_append, ← find?, hfind]
  simp

/-- A key that was told and has no name shows that the pool was exhausted before. -/
theorem fresh_eq_none_of_learn (h : (t.learn key).find? key = none) : t.pool.fresh = none := by
  cases hfresh : t.pool.fresh with
  | none => rfl
  | some answer =>
    obtain ⟨name, pool⟩ := answer
    cases hfind : t.find? key with
    | some old =>
      rw [find?_learn hfind] at h
      cases h
    | none =>
      rw [find?_learn_of_fresh_eq_some hfind hfresh] at h
      cases h

end NameTable

/-! ## Inquiries -/

/-- A computation that asks for the names of keys. -/
inductive Inquiry (κ α : Type) where
  /-- Nothing more is asked. -/
  | done (result : α)
  /-- The name of a key is needed to go on. -/
  | ask (key : κ) (next : String → Inquiry κ α)

namespace Inquiry

variable {κ α β : Type}

/-- The inquiry that goes on with the result of another one. -/
def bind (x : Inquiry κ α) (f : α → Inquiry κ β) : Inquiry κ β :=
  match x with
  | done a => f a
  | ask key next => ask key fun name => (next name).bind f

/-- An inquiry for each element of a list, the first one first. -/
def forEach (f : α → Inquiry κ β) : List α → Inquiry κ (List β)
  | [] => done []
  | a :: as => (f a).bind fun b => (forEach f as).bind fun bs => done (b :: bs)

variable [DecidableEq κ]

/-- Asks a table that learns the keys as they come. The inquiry stops at a key for which no
name is left. -/
def run : Inquiry κ α → NameTable κ → Option α × NameTable κ
  | done a, t => (some a, t)
  | ask key next, t =>
      match (t.learn key).find? key with
      | some name => (next name).run (t.learn key)
      | none => (none, t.learn key)

/-- Asks a table for the names that it has, and teaches it nothing. -/
def read : Inquiry κ α → NameTable κ → Option α
  | done a, _ => some a
  | ask key next, t => (t.find? key).bind fun name => (next name).read t

variable {x : Inquiry κ α} {f : α → Inquiry κ β} {t : NameTable κ} {key : κ} {name : String}

/-! ## Runs -/

theorem run_ask_of_some {next : String → Inquiry κ α} (h : (t.learn key).find? key = some name) :
    (ask key next).run t = (next name).run (t.learn key) := by
  rw [run, h]

theorem run_ask_of_none {next : String → Inquiry κ α} (h : (t.learn key).find? key = none) :
    (ask key next).run t = (none, t.learn key) := by
  rw [run, h]

/-- A run takes names from the pool in their order. -/
theorem pool_run (x : Inquiry κ α) (t : NameTable κ) :
    ∃ count, (x.run t).2.pool = t.pool.drawn count := by
  induction x generalizing t with
  | done a => exact ⟨0, t.pool.drawn_zero.symm⟩
  | ask key next ih =>
    obtain ⟨first, hfirst⟩ := t.pool_learn key
    cases hfind : (t.learn key).find? key with
    | none => exact ⟨first, by rw [run_ask_of_none hfind, hfirst]⟩
    | some name =>
      obtain ⟨more, hmore⟩ := ih name (t.learn key)
      exact ⟨first + more, by rw [run_ask_of_some hfind, hmore, hfirst, NamePool.drawn_drawn]⟩

/-- Names that were given before a run are found after it. -/
theorem find?_run (x : Inquiry κ α) (h : t.find? key = some name) :
    (x.run t).2.find? key = some name := by
  induction x generalizing t with
  | done a => exact h
  | ask other next ih =>
    have hlearn : (t.learn other).find? key = some name := NameTable.find?_learn h
    cases hfind : (t.learn other).find? other with
    | none => rwa [run_ask_of_none hfind]
    | some given =>
      rw [run_ask_of_some hfind]
      exact ih given hlearn

/-- A table without names left is not changed by any run. -/
theorem run_of_fresh_eq_none (x : Inquiry κ α) (h : t.pool.fresh = none) : (x.run t).2 = t := by
  induction x with
  | done a => rfl
  | ask key next ih =>
    have hlearn : t.learn key = t := NameTable.learn_of_fresh_eq_none h
    cases hfind : (t.learn key).find? key with
    | none => rw [run_ask_of_none hfind, hlearn]
    | some name => rw [run_ask_of_some hfind, hlearn, ih name]

/-- A run stops early only when no name is left. -/
theorem fresh_eq_none_of_run (h : (x.run t).1 = none) : (x.run t).2.pool.fresh = none := by
  induction x generalizing t with
  | done a => cases h
  | ask key next ih =>
    cases hfind : (t.learn key).find? key with
    | none =>
      have hfresh := NameTable.fresh_eq_none_of_learn hfind
      rwa [run_ask_of_none hfind, NameTable.learn_of_fresh_eq_none hfresh]
    | some name =>
      rw [run_ask_of_some hfind] at h ⊢
      exact ih name h

/-- The result of a run is what its last table is read for. -/
theorem fst_run (x : Inquiry κ α) (t : NameTable κ) : (x.run t).1 = x.read (x.run t).2 := by
  induction x generalizing t with
  | done a => rfl
  | ask key next ih =>
    cases hfind : (t.learn key).find? key with
    | none => rw [run_ask_of_none hfind, read, hfind, Option.bind_none]
    | some name =>
      -- the name is still found at the end
      rw [run_ask_of_some hfind, read, find?_run (next name) hfind, Option.bind_some, ih name]

/-! ## One inquiry after another -/

theorem read_bind (x : Inquiry κ α) (f : α → Inquiry κ β) (t : NameTable κ) :
    (x.bind f).read t = (x.read t).bind fun a => (f a).read t := by
  induction x with
  | done a => rfl
  | ask key next ih => simp only [bind, read, ih, Option.bind_assoc]

theorem run_bind_of_some {a : α} (h : (x.run t).1 = some a) :
    (x.bind f).run t = (f a).run (x.run t).2 := by
  induction x generalizing t with
  | done b =>
    obtain rfl := Option.some.inj h
    rfl
  | ask key next ih =>
    cases hfind : (t.learn key).find? key with
    | none =>
      rw [run_ask_of_none hfind] at h
      cases h
    | some name =>
      rw [run_ask_of_some hfind] at h ⊢
      rw [bind, run_ask_of_some hfind, ih name h]

theorem run_bind_of_none (h : (x.run t).1 = none) : (x.bind f).run t = (none, (x.run t).2) := by
  induction x generalizing t with
  | done b => cases h
  | ask key next ih =>
    cases hfind : (t.learn key).find? key with
    | none => rw [bind, run_ask_of_none hfind, run_ask_of_none hfind]
    | some name =>
      rw [run_ask_of_some hfind] at h ⊢
      rw [bind, run_ask_of_some hfind, ih name h]

/-- What a result is made into takes no name. -/
theorem snd_run_bind_done (x : Inquiry κ α) (f : α → β) (t : NameTable κ) :
    ((x.bind fun a => done (f a)).run t).2 = (x.run t).2 := by
  cases hresult : (x.run t).1 with
  | some a => rw [run_bind_of_some hresult, run]
  | none => rw [run_bind_of_none hresult]

/-- A single question teaches its key. -/
theorem snd_run_ask_done (key : κ) (f : String → α) (t : NameTable κ) :
    ((ask key fun name => done (f name)).run t).2 = t.learn key := by
  cases hfind : (t.learn key).find? key with
  | some name => rw [run_ask_of_some hfind, run]
  | none => rw [run_ask_of_none hfind]

theorem read_forEach (f : α → Inquiry κ β) (as : List α) (t : NameTable κ) :
    (forEach f as).read t = as.mapM fun a => (f a).read t := by
  induction as with
  | nil => rfl
  | cons a as ih =>
    rw [forEach, read_bind, List.mapM_cons]
    apply Option.bind_congr
    intro b _
    rw [read_bind, ih]
    rfl

/-- The elements can be gone through to the end, even if no name is left for one of them. -/
theorem snd_run_forEach (f : α → Inquiry κ β) (as : List α) (t : NameTable κ) :
    ((forEach f as).run t).2 = as.foldl (fun t a => ((f a).run t).2) t := by
  induction as generalizing t with
  | nil => rfl
  | cons a as ih =>
    rw [List.foldl_cons, ← ih]
    cases hresult : ((f a).run t).1 with
    | some b => rw [forEach, run_bind_of_some hresult, snd_run_bind_done]
    | none =>
      -- the elements behind it find a pool that is exhausted
      rw [forEach, run_bind_of_none hresult,
        run_of_fresh_eq_none _ (fresh_eq_none_of_run hresult)]

end Inquiry

end Chomsky
