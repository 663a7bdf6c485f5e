import Chomsky.Grammar.Phrase

/-!
# Reading what was written

A literal phrase is one that a literal text can stand for: every name is a single
character, and a symbol is a nonterminal exactly if its name is declared as one. Such a
phrase is nothing but its characters, each read on its own, and its written form has
just these characters. So writing and reading undo each other, with one exception: the
epsilon sign on its own is read as the empty phrase, and no text stands for the phrase
of a single symbol with this name.

## What this module delivers

- `Phrase.IsLiteral.exists_eq_ofChars`: literal phrases are read from characters.
- `Phrase.format_ofChars` and `Phrase.ofLiteral_ofList`: what is written for characters,
  and what is read from them.
- `Phrase.literal_format_inverse`: writing and reading undo each other.
-/

set_option autoImplicit false

namespace Chomsky

namespace Phrase

variable {declared : NameSet} {p : Phrase} {c : Char} {cs : List Char}

/-! ## Literal phrases -/

/-- A phrase that a literal text can stand for, given the names declared as
nonterminals. -/
structure IsLiteral (declared : NameSet) (p : Phrase) : Prop where
  /-- Every name is a single character. -/
  length_name : ∀ s ∈ p, s.name.length = 1
  /-- The nonterminals are the symbols whose names are declared. -/
  nonterminal_iff : ∀ s ∈ p, s = .nonterminal s.name ↔ s.name ∈ declared

/-- The phrase of characters, each read on its own. -/
def ofChars (declared : NameSet) (cs : List Char) : Phrase := cs.map (symbolOfChar declared)

theorem name_symbolOfChar (declared : NameSet) (c : Char) :
    (symbolOfChar declared c).name = String.singleton c := by
  unfold symbolOfChar
  split
  · rfl
  · rfl

theorem symbolOfChar_eq_nonterminal_iff :
    symbolOfChar declared c = .nonterminal (String.singleton c) ↔
      String.singleton c ∈ declared := by
  unfold symbolOfChar
  split
  · next h => exact iff_of_true rfl h
  · next h => exact iff_of_false nofun h

/-- A symbol of a literal phrase is read from the character that its name consists of. -/
theorem exists_symbolOfChar_eq {s : Symbol} (hlength : s.name.length = 1)
    (hkind : s = .nonterminal s.name ↔ s.name ∈ declared) :
    ∃ c, symbolOfChar declared c = s := by
  rw [← String.length_toList, List.length_eq_one_iff] at hlength
  obtain ⟨c, hc⟩ := hlength
  have hname : s.name = String.singleton c := by
    rw [← String.toList_inj, hc, String.toList_singleton]
  refine ⟨c, ?_⟩
  rw [hname] at hkind
  cases s with
  | terminal t =>
    obtain rfl : t = String.singleton c := hname
    exact if_neg fun hmem => absurd (hkind.2 hmem) nofun
  | nonterminal n =>
    obtain rfl : n = String.singleton c := hname
    exact if_pos (hkind.1 rfl)

theorem isLiteral_ofChars (declared : NameSet) (cs : List Char) :
    (ofChars declared cs).IsLiteral declared where
  length_name s hs := by
    obtain ⟨c, -, rfl⟩ := List.mem_map.1 hs
    rw [name_symbolOfChar, String.length_singleton]
  nonterminal_iff s hs := by
    obtain ⟨c, -, rfl⟩ := List.mem_map.1 hs
    rw [name_symbolOfChar, symbolOfChar_eq_nonterminal_iff]

/-- A literal phrase is nothing but its characters. -/
theorem IsLiteral.exists_eq_ofChars (h : p.IsLiteral declared) : ∃ cs, p = ofChars declared cs := by
  induction p with
  | nil => exact ⟨[], rfl⟩
  | cons s p ih =>
    obtain ⟨c, rfl⟩ := exists_symbolOfChar_eq (h.length_name s List.mem_cons_self)
      (h.nonterminal_iff s List.mem_cons_self)
    obtain ⟨cs, rfl⟩ := ih ⟨fun x hx => h.length_name x (List.mem_cons_of_mem _ hx),
      fun x hx => h.nonterminal_iff x (List.mem_cons_of_mem _ hx)⟩
    exact ⟨c :: cs, rfl⟩

/-! ## Writing and reading -/

theorem map_name_ofChars (declared : NameSet) (cs : List Char) :
    (ofChars declared cs).map Symbol.name = cs.map String.singleton := by
  rw [ofChars, List.map_map]
  exact List.map_congr_left fun c _ => name_symbolOfChar declared c

/-- Only the epsilon sign is read as a single symbol of this name. -/
theorem map_name_ofChars_eq_iff :
    (ofChars declared cs).map Symbol.name = [epsilonSign] ↔ cs = ['ε'] := by
  rw [map_name_ofChars]
  constructor
  · intro h
    obtain ⟨c, rfl, hc⟩ := List.map_eq_singleton_iff.1 h
    rw [← String.toList_inj, String.toList_singleton] at hc
    exact hc
  · rintro rfl
    rfl

/-- The written form of characters is the text of these characters. -/
theorem format_ofChars (declared : NameSet) (hcs : cs ≠ []) :
    (ofChars declared cs).format = String.ofList cs := by
  have hsingle : (ofChars declared cs).all (fun s => s.name.length == 1) = true := by
    rw [List.all_eq_true]
    intro s hs
    exact beq_iff_eq.2 ((isLiteral_ofChars declared cs).length_name s hs)
  have hempty : ¬ (ofChars declared cs).isEmpty = true := by
    rwa [List.isEmpty_iff, ofChars, List.map_eq_nil_iff]
  rw [format, if_neg hempty, if_pos hsingle, map_name_ofChars, ← String.toList_inj,
    String.toList_join, String.toList_ofList, List.flatMap_map]
  simp only [String.toList_singleton, List.flatMap_singleton']

/-- Every character is read on its own, unless the epsilon sign is all there is. -/
theorem ofLiteral_ofList (declared : NameSet) (cs : List Char) :
    ofLiteral declared (String.ofList cs) = if cs = ['ε'] then [] else ofChars declared cs := by
  have hepsilon : String.ofList cs = epsilonSign ↔ cs = ['ε'] := by
    rw [← String.toList_inj, String.toList_ofList]
    rfl
  simp only [ofLiteral, hepsilon, String.toList_ofList, ofChars]

/-- Next to other characters the epsilon sign is a terminal like any other. -/
example : ofLiteral (NameSet.ofList ["B"]) "aεB"
    = [.terminal "a", .terminal "ε", .nonterminal "B"] := by decide

/-- A text that is not empty is what is written for the phrase read from it. -/
theorem format_ofLiteral {text : String} (htext : text ≠ "") :
    (ofLiteral declared text).format = text := by
  obtain ⟨cs, rfl⟩ : ∃ cs, text = String.ofList cs := ⟨text.toList, String.ofList_toList.symm⟩
  rw [ofLiteral_ofList]
  split
  · next h =>
    subst h
    rfl
  · apply format_ofChars
    rintro rfl
    exact htext rfl

/-- A literal phrase is what is read from its written form, with one exception. -/
theorem IsLiteral.ofLiteral_format (h : p.IsLiteral declared) :
    ofLiteral declared p.format = if p.map Symbol.name = [epsilonSign] then [] else p := by
  obtain ⟨cs, rfl⟩ := h.exists_eq_ofChars
  simp only [map_name_ofChars_eq_iff]
  cases cs with
  | nil => rfl
  | cons c cs => rw [format_ofChars declared (List.cons_ne_nil c cs), ofLiteral_ofList]

/-- Reading and writing undo each other. A text that is not empty is what is written for
the phrase read from it, and for the empty text the epsilon sign is written. A literal
phrase is what is read from its written form, unless it is a single symbol whose name is
the epsilon sign; then the empty phrase is read. -/
theorem literal_format_inverse (declared : NameSet) :
    (∀ text, text ≠ "" → (ofLiteral declared text).format = text) ∧
    (ofLiteral declared "").format = epsilonSign ∧
    (∀ p : Phrase, p.IsLiteral declared → p.map Symbol.name ≠ [epsilonSign] →
      ofLiteral declared p.format = p) ∧
    (∀ p : Phrase, p.IsLiteral declared → p.map Symbol.name = [epsilonSign] →
      ofLiteral declared p.format = []) := by
  refine ⟨fun text htext => format_ofLiteral htext, rfl, fun p hp hname => ?_,
    fun p hp hname => ?_⟩
  · rw [hp.ofLiteral_format, if_neg hname]
  · rw [hp.ofLiteral_format, if_pos hname]

end Phrase

end Chomsky
