import Chomsky.Normal.Naming
import Chomsky.Proofs.Name.Supply

/-!
# All names of a scheme

A scheme tries its letters suffix by suffix. A letter can be repeated, and then its names are
listed again, or be a digit, and then it looks like part of a suffix. A name still tells its
letter, which comes first and is one character, and its suffix. So the different names of a
scheme are those of its different letters, and no others coincide.

A pool hands out just these names, without those that were reserved, one after the other. When
they have all been handed out, every further draw fails.

## What this module delivers

- `NameScheme.listing`, the different names of a scheme, and `NameScheme.distinct_names`.
- `NameScheme.lettered_injective`: a name tells its letter and its suffix.
- `NameScheme.names_prefix`: larger suffixes add names behind those that are there.
- `NamePool.drawMany_eq`: what any number of draws from a pool returns and leaves behind.
- `NamePool.drawMany_ofReserved`: the same for a pool that has handed out nothing, with the
  number of names in it.
-/

set_option autoImplicit false

namespace Chomsky

namespace NameScheme

/-! ## Names suffix by suffix -/

theorem rows_eq_flatMap (s : NameScheme) (count suffix : Nat) :
    s.rows count suffix = (List.range' suffix count).flatMap s.row := by
  induction count generalizing suffix with
  | zero => rfl
  | succ count ih => rw [rows, ih, List.range'_succ, List.flatMap_cons]

theorem names_eq_flatMap (s : NameScheme) :
    s.names = (List.range (s.maxSuffix + 1)).flatMap s.row := by
  rw [names, rows_eq_flatMap, List.range_eq_range']

/-- The names with larger suffixes come last. -/
theorem names_prefix (alphabet : List Char) {m n : Nat} (hle : m ≤ n) :
    names ⟨alphabet, m⟩ <+: names ⟨alphabet, n⟩ := by
  obtain ⟨more, rfl⟩ := Nat.exists_eq_add_of_le hle
  have hrange : List.range (m + more + 1)
      = List.range (m + 1) ++ (List.range more).map (m + 1 + ·) := by
    rw [Nat.add_right_comm, List.range_add]
  rw [names_eq_flatMap, names_eq_flatMap, hrange, List.flatMap_append]
  exact List.prefix_append _ _

/-- The letter comes first, and the digits of the suffix follow. -/
theorem toList_lettered (letter : Char) (suffix : Nat) : (lettered letter suffix).toList =
    letter :: if suffix = 0 then [] else Nat.toDigits 10 suffix := by
  unfold lettered
  split <;> simp [Nat.repr_eq_ofList_toDigits]

/-- A suffix is the value of its digits. No digits have the value zero. -/
theorem ofDigitChars_suffix (suffix : Nat) :
    Nat.ofDigitChars 10 (if suffix = 0 then [] else Nat.toDigits 10 suffix) 0 = suffix := by
  split
  · next hzero => exact hzero.symm
  · exact Nat.ofDigitChars_toDigits (by decide) (Nat.le_refl 10)

/-- A name tells its letter and its suffix. -/
theorem lettered_injective {a b : Char} {m n : Nat} (h : lettered a m = lettered b n) :
    a = b ∧ m = n := by
  have hchars := congrArg String.toList h
  rw [toList_lettered, toList_lettered] at hchars
  obtain ⟨hletter, hdigits⟩ := List.cons.inj hchars
  have hvalue := congrArg (fun digits => Nat.ofDigitChars 10 digits 0) hdigits
  simp only [ofDigitChars_suffix] at hvalue
  exact ⟨hletter, hvalue⟩

/-! ## The different names -/

/-- The names of a scheme, each once: suffix by suffix, and for each suffix the letters in the
order in which they first occur. -/
def listing (s : NameScheme) : List String :=
  (List.range (s.maxSuffix + 1)).flatMap fun suffix =>
    (distinct s.alphabet).map fun letter => lettered letter suffix

theorem distinct_row (s : NameScheme) (suffix : Nat) :
    distinct (s.row suffix) = (distinct s.alphabet).map fun letter => lettered letter suffix :=
  (map_distinct fun _ _ _ _ heq => (lettered_injective heq).1).symm

theorem disjoint_row (s : NameScheme) {m n : Nat} (hne : m ≠ n) :
    (s.row m).Disjoint (s.row n) := by
  intro name hm hn
  obtain ⟨a, -, rfl⟩ := List.mem_map.1 hm
  obtain ⟨b, -, heq⟩ := List.mem_map.1 hn
  exact hne (lettered_injective heq).2.symm

/-- The listing has the names of the scheme without repetition, in their order. -/
theorem distinct_names (s : NameScheme) : distinct s.names = s.listing := by
  have hdisjoint : (List.range (s.maxSuffix + 1)).Pairwise (Function.onFun List.Disjoint s.row) :=
    List.pairwise_lt_range.imp fun hlt => s.disjoint_row (Nat.ne_of_lt hlt)
  rw [names_eq_flatMap, distinct_flatMap hdisjoint, listing]
  simp only [distinct_row]

theorem nodup_listing (s : NameScheme) : s.listing.Nodup := s.distinct_names ▸ nodup_distinct _

theorem mem_listing {s : NameScheme} {name : String} : name ∈ s.listing ↔
    ∃ letter ∈ s.alphabet, ∃ suffix ≤ s.maxSuffix, name = lettered letter suffix := by
  simp only [listing, List.mem_flatMap, List.mem_range, Nat.lt_succ_iff, List.mem_map,
    mem_distinct]
  constructor
  · rintro ⟨suffix, hsuffix, letter, hletter, rfl⟩
    exact ⟨letter, hletter, suffix, hsuffix, rfl⟩
  · rintro ⟨letter, hletter, suffix, hsuffix, rfl⟩
    exact ⟨suffix, hsuffix, letter, hletter, rfl⟩

-- a digit can be a letter, and a letter that comes again adds nothing
example : listing ⟨['1', 'A', '1'], 1⟩ = ["1", "A", "11", "A1"] := by decide

/-- If no letter is repeated, no name is. -/
theorem length_listing {s : NameScheme} (h : s.alphabet.Nodup) : s.listing.length = s.capacity := by
  have hlisting : s.listing = s.names := by
    rw [listing, distinct_eq_self h, names_eq_flatMap]
    rfl
  rw [hlisting, length_names]

/-- The names of the listing that are not reserved. -/
def available (s : NameScheme) (reserved : NameSet) : List String :=
  s.listing.filter fun name => decide (name ∉ reserved)

/-- The reserved names that are not of the scheme do not count. -/
theorem length_available (s : NameScheme) (reserved : NameSet) :
    (s.available reserved).length + (reserved.filter fun name => decide (name ∈ s.listing)).size
      = s.listing.length := by
  have hreserved : ((reserved.filter fun name => decide (name ∈ s.listing)).toList).Perm
      (s.listing.filter fun name => !decide (name ∉ reserved)) := by
    apply (List.perm_ext_iff_of_nodup (NameSet.nodup_toList _) (s.nodup_listing.filter _)).2
    intro name
    rw [NameSet.mem_toList, NameSet.mem_filter, List.mem_filter]
    simp [and_comm]
  rw [NameSet.size, hreserved.length_eq, available, ← List.length_eq_length_filter_add]

end NameScheme

/-! ## Draws -/

namespace NamePool

theorem free_ofReserved (s : NameScheme) (reserved : NameSet) :
    (ofReserved s reserved).free = s.available reserved := by
  rw [free, distinct_filter]
  show (distinct s.names).filter _ = _
  rw [NameScheme.distinct_names, NameScheme.available]
  apply List.filter_congr
  intro name _
  rw [Bool.not_eq_eq_eq_not, Bool.eq_iff_iff, inUse_iff]
  simp [ofReserved]

theorem draw_of_free_nil {p : NamePool} (h : p.free = []) :
    p.draw = (.error (.namesExhausted p.scheme.capacity), p) := by
  rw [draw, fresh_of_free_nil h]

theorem draw_of_free_cons {p : NamePool} {name : String} {rest : List String}
    (h : p.free = name :: rest) : p.draw = (.ok name, p.drawn 1) := by
  have hfresh := fresh_of_free_cons h
  rw [draw, hfresh, eq_drawn_one hfresh]

/-- A number of draws returns the first free names, and fails from then on. -/
theorem drawMany_eq (p : NamePool) (count : Nat) : p.drawMany count =
    ((p.free.take count).map .ok ++
        List.replicate (count - p.free.length) (.error (.namesExhausted p.scheme.capacity)),
      p.drawn count) := by
  induction count generalizing p with
  | zero => simp [drawMany]
  | succ count ih =>
    cases hfree : p.free with
    | nil =>
      rw [drawMany, draw_of_free_nil hfree]
      simp only [ih p, hfree, drawn_of_free_nil hfree]
      simp [List.replicate_succ]
    | cons name rest =>
      have hrest : (p.drawn 1).free = rest := by rw [drawn_one hfree, free_handOut hfree]
      rw [drawMany, draw_of_free_cons hfree]
      simp only [ih (p.drawn 1), hrest, drawn_drawn]
      rw [Nat.add_comm]
      simp

/-- All draws from a pool that has handed out nothing. The names of the listing that are not
reserved come in order, and then every draw fails and leaves the pool as it is. If no letter is
repeated, the capacity is the number of names, and each of them is either available or
reserved. -/
theorem drawMany_ofReserved (s : NameScheme) (reserved : NameSet) (count : Nat) :
    s.listing.Nodup ∧
      (∀ name, name ∈ s.listing ↔
        ∃ letter ∈ s.alphabet, ∃ suffix ≤ s.maxSuffix, name = NameScheme.lettered letter suffix) ∧
      (ofReserved s reserved).drawMany count =
        (((s.available reserved).take count).map .ok ++
            List.replicate (count - (s.available reserved).length)
              (.error (.namesExhausted s.capacity)),
          ⟨s, reserved, (s.available reserved).take count⟩) ∧
      ((s.available reserved).length ≤ count →
        ((ofReserved s reserved).drawMany count).2.draw =
          (.error (.namesExhausted s.capacity), ((ofReserved s reserved).drawMany count).2)) ∧
      (s.alphabet.Nodup → s.listing.length = s.capacity ∧
        (s.available reserved).length
          + (reserved.filter fun name => decide (name ∈ s.listing)).size = s.capacity) := by
  have hdraws := drawMany_eq (ofReserved s reserved) count
  rw [free_ofReserved] at hdraws
  refine ⟨s.nodup_listing, fun name => NameScheme.mem_listing, ?_, fun hle => ?_,
    fun hnodup => ⟨NameScheme.length_listing hnodup, ?_⟩⟩
  · rw [hdraws, drawn, free_ofReserved]
    rfl
  · rw [hdraws]
    apply draw_of_free_nil
    rw [free_drawn, free_ofReserved, List.drop_eq_nil_of_le hle]
  · rw [s.length_available, NameScheme.length_listing hnodup]

/-- Of the four names one is reserved, with another name that is not of the scheme. The fourth
draw fails, and so does every draw after it. -/
theorem drawMany_ofReserved_digits :
    let s : NameScheme := ⟨['1', 'A'], 1⟩
    let reserved := NameSet.ofList ["A", "B"]
    let pool : NamePool := ⟨s, reserved, ["1", "11", "A1"]⟩
    (ofReserved s reserved).drawMany 4
        = ([.ok "1", .ok "11", .ok "A1", .error (.namesExhausted 4)], pool) ∧
      pool.draw = (.error (.namesExhausted 4), pool) ∧
      (s.available reserved).length = 3 ∧ s.capacity = 4 := by
  intro s reserved pool
  obtain ⟨-, -, hdraws, hexhausted, hcount⟩ := drawMany_ofReserved s reserved 4
  have havailable : s.available reserved = ["1", "11", "A1"] := by decide
  have hpool : ((ofReserved s reserved).drawMany 4).2 = pool := by rw [hdraws, havailable]; rfl
  have hdraw := hexhausted (by decide)
  rw [hpool] at hdraw
  obtain ⟨hcapacity, -⟩ := hcount (by decide)
  refine ⟨?_, hdraw, by rw [havailable]; rfl, hcapacity.symm.trans (by decide)⟩
  rw [hdraws, havailable]
  rfl

end NamePool

end Chomsky
