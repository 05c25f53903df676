import Neologism.Grammar.Basic

/-! # Chart items

An item is a part of a derivation that starts at some position: a rule of which the symbols
up to a dot are accounted for, or a class that one token was read for. A column holds the
items that end at one position, in the order in which they were found, each with a weight.
Finding an item again adds to its weight. -/

namespace Neologism.Chart

/-- A piece of a derivation. -/
inductive Item where
  /-- A rule of `lhs` with `before` accounted for from `start` on and `after` still to come. -/
  | dotted (lhs : String) (before after : List Symbol) (start : Nat)
  /-- A token of the class was read at `start`. -/
  | scanned (cls : String) (start : Nat)
deriving DecidableEq, Repr

namespace Item

/-- The item with all symbols of a rule to come. -/
def ofRule (lhs : String) (rule : Rule) (start : Nat) : Item :=
  .dotted lhs [] rule.symbols start

/-- The symbol that has to come next, if any is missing. -/
def next? : Item → Option Symbol
  | .dotted _ _ after _ => after.head?
  | .scanned _ _ => none

/-- Whether nothing is missing. -/
def isComplete (item : Item) : Bool :=
  item.next?.isNone

/-- The position at which the item starts. -/
def start : Item → Nat
  | .dotted _ _ _ start => start
  | .scanned _ start => start

/-- The symbol that the item is an instance of once nothing is missing. -/
def symbol : Item → Symbol
  | .dotted lhs _ _ _ => .nonterminal lhs
  | .scanned cls _ => .cls cls

/-- Whether a parent waits for the symbol of a child. -/
def awaits (parent child : Item) : Bool :=
  parent.next? == some child.symbol

/-- Move the dot past the next symbol. -/
def advance : Item → Item
  | .dotted lhs before (symbol :: after) start => .dotted lhs (before ++ [symbol]) after start
  | item => item

/-- Whether the item is a whole derivation of `root` from the first position on. -/
def spans (root : String) (item : Item) : Bool :=
  item.isComplete && item.symbol == .nonterminal root && item.start == 0

end Item

/-- The items that end at one position, with their weights. -/
abbrev Column := OrderedMap Item Weight

end Neologism.Chart
