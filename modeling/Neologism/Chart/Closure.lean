import Neologism.Chart.Item

/-! # Closure of a column

A column is closed item by item, from the first to the last, and what is added on the way has
its turn too. An item that waits for a nonterminal brings in that nonterminal's rules. A
complete item moves the dot of every item that waits for it in the column where it starts.

A nonterminal that derives nothing starts and is complete in the column that is being closed,
perhaps before some of the items that wait for it are there. So an item that waits for a
nonterminal also looks back at the complete items of its own column. `combined` lists the
pairs of a parent and a child that were put together, so that this happens once for a pair
whichever of the two had its turn first.

`capacity` bounds the number of items in a column, so the walk gets to its end. -/

namespace Neologism.Chart

/-- A column that is being closed, and the pairs of parent and child combined so far. -/
structure Closure where
  column : Column
  combined : List (Item × Item) := []
deriving DecidableEq

namespace Closure

/-- The column at a position, given the one being closed and those before it, latest first.
Items start at positions that have a column, so the empty column is never the answer there. -/
def columnAt (earlier : List Column) (s : Closure) (position : Nat) : Column :=
  if position = earlier.length then s.column
  else (earlier[earlier.length - 1 - position]?).getD .empty

/-- Put parents together with their children: each parent moves past its child and takes over
the child's weight. -/
def combine (s : Closure) (pairs : List (Item × Item × Weight)) : Closure where
  column := pairs.foldl (fun column pair => column.add pair.1.advance pair.2.2) s.column
  combined := (pairs.map fun pair => (pair.1, pair.2.1)) ++ s.combined

/-- Bring in the rules of a nonterminal at the position `here`. -/
def predict (g : Grammar) (here : Nat) (nonterminal : String) (weight : Weight) (s : Closure) :
    Closure where
  column := (g.rules nonterminal).foldl
    (fun column rule => column.add (.ofRule nonterminal rule here) (weight * rule.weight)) s.column
  combined := s.combined

/-- Combine a complete item with all items that wait for it where it starts. -/
def complete (earlier : List Column) (child : Item) (weight : Weight) (s : Closure) : Closure :=
  let parents := (s.columnAt earlier child.start).keys.filter fun parent =>
    parent.awaits child &&
      (child.start != earlier.length || !s.combined.contains (parent, child))
  s.combine (parents.map (·, child, weight))

/-- Combine a waiting item with the complete items that start and end at the position `here`. -/
def completeEmpty (here : Nat) (parent : Item) (s : Closure) : Closure :=
  let children := s.column.entries.filter fun child =>
    child.1.isComplete && child.1.start == here && parent.awaits child.1 &&
      !s.combined.contains (parent, child.1)
  s.combine (children.map (parent, ·))

/-- Give one item of the column its turn. -/
def visit (g : Grammar) (earlier : List Column) (item : Item) (weight : Weight) (s : Closure) :
    Closure :=
  match item.next? with
  | none => s.complete earlier item weight
  | some (.nonterminal name) =>
      (s.predict g earlier.length name weight).completeEmpty earlier.length item
  | some (.cls _) => s

/-- Give the items from index `i` on their turns, `fuel` of them at most. -/
def walk (g : Grammar) (earlier : List Column) : (fuel i : Nat) → Closure → Closure
  | 0, _, s => s
  | fuel + 1, i, s =>
      match s.column.entries[i]? with
      | none => s
      | some (item, weight) => walk g earlier fuel (i + 1) (s.visit g earlier item weight)

end Closure

/-- A bound on the number of items at a position: a place for the dot in a rule and a start
for each dotted item, and a class for each scanned one. -/
def capacity (g : Grammar) (position : Nat) : Nat :=
  let rules := g.ruleSets.entries.flatMap Prod.snd
  let places := rules.foldr (fun rule n => rule.symbols.length + 1 + n) 0
  (position + 1) * places + g.symbols.length

/-- Close a column over the ones before it. -/
def close (g : Grammar) (earlier : List Column) (column : Column) : Closure :=
  Closure.walk g earlier (capacity g earlier.length) 0 ⟨column, []⟩

end Neologism.Chart
