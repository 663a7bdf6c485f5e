import Chomsky.Analysis.Nullable

/-!
# Membership by item sets

The recognizer of Earley works for every grammar. It keeps one set of items for
each position of the word. An item says that an alternative, begun at some
position, has been matched up to a dot by the tokens since then.

A set is filled while it is gone through: each item has its turn once, and what it
leads to by prediction or completion is pushed onto the end of the set, unless it is
there already. A completion that began at the present position finds the items that
are there so far and no later ones; nullable nonterminals are stepped over when
they are predicted, so that nothing is missed by it.

## What this module delivers

- `Item` and `Item.steps`, what an item leads to inside its set.
- `fill`, the way through one set.
- `chart`, the filled sets of all positions.
- `Grammar.derivesByItems`, the membership test.
-/

set_option autoImplicit false

namespace Chomsky

/-- An alternative in the course of being matched. -/
structure Item where
  /-- The position at which the alternative was begun. -/
  origin : Nat
  /-- The number of symbols matched. -/
  dot : Nat
  /-- The left side. -/
  lhs : String
  /-- The alternative. -/
  phrase : Phrase
deriving DecidableEq

namespace Item

/-- The symbol to be matched next; none when the alternative is complete. -/
def next? (i : Item) : Option Symbol := i.phrase[i.dot]?

/-- The item with its next symbol matched. -/
def advance (i : Item) : Item := { i with dot := i.dot + 1 }

/-- Whether the item waits for a symbol. -/
def awaits (i : Item) (s : Symbol) : Bool := i.next? == some s

/-- The items that begin the alternatives of a name at a position. -/
def begin (rules : Rules) (position : Nat) (name : String) : List Item :=
  (rules.alternatives name).map fun p => ⟨position, 0, name, p⟩

/-- What an item leads to inside its set, given the sets of all earlier positions and
the set itself as it is so far: a nonterminal is predicted, and stepped over if it is
nullable; a complete item advances the items that wait for it at its origin. -/
def steps (rules : Rules) (nullable : NameSet) (earlier : List (List Item)) (present : List Item)
    (i : Item) : List Item :=
  match i.next? with
  | some (.terminal _) => []
  | some (.nonterminal name) =>
      let predicted := begin rules earlier.length name
      if name ∈ nullable then predicted ++ [i.advance] else predicted
  | none =>
      let items := ((earlier ++ [present])[i.origin]?).getD []
      (items.filter fun j => j.awaits (.nonterminal i.lhs)).map advance

end Item

/-- A bound on the number of items of a set: origins up to its position, times
the places of a dot, one for each symbol of an alternative and one at its end. -/
def Rules.itemBound (rules : Rules) (position : Nat) : Nat :=
  (position + 1) * (rules.phrases.flatten.length + rules.phrases.length)

/-- Goes through a set from an index on. The item at the index has its turn, and what
it leads to is pushed onto the end of the set. The way ends behind the last item; it
takes one turn for each item of the filled set, and callers pass a bound on these. -/
def fill (steps : List Item → Item → List Item) :
    (turns : Nat) → (index : Nat) → (items : List Item) → List Item
  | 0, _, items => items
  | turns + 1, index, items =>
      match items[index]? with
      | none => items
      | some i => fill steps turns (index + 1) (pushAll items (steps items i))

/-- The set of a position, filled from the items it begins with. -/
def itemSet (rules : Rules) (nullable : NameSet) (earlier : List (List Item))
    (first : List Item) : List Item :=
  fill (Item.steps rules nullable earlier) (rules.itemBound earlier.length) 0 first

/-- The items that reading a token moves to the next position. -/
def scan (token : String) (items : List Item) : List Item :=
  (items.filter fun i => i.awaits (.terminal token)).map Item.advance

/-- Goes on from the sets of all earlier positions and the first items of the
present one. -/
def chartFrom (rules : Rules) (nullable : NameSet) :
    (earlier : List (List Item)) → (first : List Item) → (word : List String) → List (List Item)
  | earlier, first, [] => earlier ++ [itemSet rules nullable earlier first]
  | earlier, first, token :: word =>
      let items := itemSet rules nullable earlier first
      chartFrom rules nullable (earlier ++ [items]) (scan token items) word

/-- The item sets of all positions of a word, one more than it has tokens. -/
def chart (rules : Rules) (nullable : NameSet) (start : String) (word : List String) :
    List (List Item) :=
  chartFrom rules nullable [] (distinct (Item.begin rules 0 start)) word

/-- Whether a complete alternative of the start symbol spans the whole word. -/
def chartAccepts (rules : Rules) (nullable : NameSet) (start : String) (word : List String) :
    Bool :=
  (((chart rules nullable start word)[word.length]?).getD []).any fun i =>
    decide (i.origin = 0) && i.next?.isNone && decide (i.lhs = start)

/-- Whether the start symbol derives the word. -/
def Grammar.derivesByItems (g : Grammar) (word : List String) : Bool :=
  chartAccepts g.rules g.rules.nullable g.start word

end Chomsky
