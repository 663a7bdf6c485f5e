/-!
# Choosing an index from 32-bit draws

A draw `v` below 2^32 is spread over `n` indices by the product `v * n`: its
high 32 bits are the index. To keep the indices equally likely, a draw counts
only when the low 32 bits stay within a zone that holds the same number of
draws for each index; otherwise another draw is made.

## What this module delivers

- `Draw.zone` and `Draw.index?`, the rule for one draw.
- `DrawSource`, where draws come from, and `DrawSource.choose`, which repeats
  the rule until a draw counts.
- `Chooser`, any way of choosing an index, and the one made from draws.
-/

set_option autoImplicit false

namespace Chomsky

/-- A way of choosing among `n > 0` indices that goes through states. -/
structure Chooser (σ : Type) where
  /-- Chooses an index. -/
  choose : (n : Nat) → 0 < n → σ → Fin n × σ

namespace Draw

/-- The largest low half with which a draw counts: `n` shifted to the left until
it fills 32 bits, less one. -/
def zone (n : Nat) : Nat := n <<< (31 - n.log2) - 1

/-- The index of a draw, if the draw counts. -/
def index? (n : Nat) (draw : UInt32) : Option Nat :=
  let product := draw.toNat * n
  if product % UInt32.size ≤ zone n then some (product / UInt32.size) else none

theorem lt_of_index?_eq_some {n i : Nat} {draw : UInt32} (hn : 0 < n)
    (h : index? n draw = some i) : i < n := by
  unfold index? at h
  simp only at h
  split at h
  · rw [Option.some.injEq] at h
    subst h
    have hd : draw.toNat < UInt32.size := draw.toNat_lt
    rw [Nat.div_lt_iff_lt_mul (by decide), Nat.mul_comm n]
    exact Nat.mul_lt_mul_of_pos_right hd hn
  · exact absurd h (by simp)

end Draw

/-- A source of 32-bit draws. -/
structure DrawSource (σ : Type) where
  /-- The next draw. -/
  next : σ → UInt32 × σ
  /-- The number of draws in a row of which one is sure to count. -/
  patience : σ → Nat

namespace DrawSource

variable {σ : Type}

/-- Draws until a draw counts, at most `patience` times; index zero is chosen
when none does. -/
def chooseFrom (source : DrawSource σ) (n : Nat) (hn : 0 < n) :
    (patience : Nat) → σ → Fin n × σ
  | 0, s => (⟨0, hn⟩, s)
  | patience + 1, s =>
      match h : Draw.index? n (source.next s).1 with
      | some i => (⟨i, Draw.lt_of_index?_eq_some hn h⟩, (source.next s).2)
      | none => chooseFrom source n hn patience (source.next s).2

/-- The choice that a source of draws makes. -/
def chooser (source : DrawSource σ) : Chooser σ :=
  ⟨fun n hn s => source.chooseFrom n hn (source.patience s) s⟩

end DrawSource

/-! ## Scripted draws -/

/-- Draws written down in advance. After the last one, all draws are zero. -/
structure Script where
  /-- The draws still to be handed out. -/
  draws : List UInt32
  /-- The number of draws handed out so far, zeros after the end included. -/
  used : Nat

namespace Script

/-- The next draw of a script. -/
def next (s : Script) : UInt32 × Script :=
  match s.draws with
  | [] => (0, ⟨[], s.used + 1⟩)
  | draw :: rest => (draw, ⟨rest, s.used + 1⟩)

/-- A script as a source. Zero counts for every number of indices, so the first
draw after the end is sure to. -/
def source : DrawSource Script := ⟨next, fun s => s.draws.length + 1⟩

end Script

end Chomsky
