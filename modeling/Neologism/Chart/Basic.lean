import Neologism.Chart.Closure

/-! # Incremental recognition

A chart reads a word token by token. After each token it tells which tokens may come next and
how likely each is, whether the word may end here, and how likely that is. A token that no
item waits for is refused and leaves the chart as it was; the last token can be taken back. -/

namespace Neologism

/-- A recognizer in some state: what it reads by, the column at its position, and the columns
at the positions before, latest first. -/
structure Chart where
  grammar : Grammar
  lexicon : Lexicon
  root : String
  current : Chart.Column
  earlier : List Chart.Column
deriving DecidableEq

namespace Chart

/-- The column of the rules of a root before anything was read. -/
def seed (g : Grammar) (root : String) : Column :=
  (g.rules root).foldl
    (fun column rule => column.add (.ofRule root rule 0) rule.weight) OrderedMap.empty

/-- The chart that has read nothing. -/
def ofRoot (g : Grammar) (lex : Lexicon) (root : String) : Chart where
  grammar := g
  lexicon := lex
  root := root
  current := (close g [] (seed g root)).column
  earlier := []

/-- The number of tokens that were read. -/
def position (ch : Chart) : Nat :=
  ch.earlier.length

/-- Whether what was read is a word of the root. -/
def isFinished (ch : Chart) : Bool :=
  ch.current.keys.any (Item.spans ch.root)

/-- The class that an item waits for, if it waits for one that is bound. -/
def awaitedClass (ch : Chart) (item : Item) : Option (String × CharClass) :=
  match item.next? with
  | some (.cls name) => (ch.lexicon.get? name).map (name, ·)
  | _ => none

/-- The classes that a token was waited for in, with the weights of the waiting items. -/
def scan (ch : Chart) (token : Token) : Column :=
  ch.current.entries.foldl
    (fun column e =>
      match ch.awaitedClass e.1 with
      | some (name, c) =>
          if c.contains token then column.add (.scanned name ch.position) e.2 else column
      | none => column)
    OrderedMap.empty

/-- Read a token, unless no item waits for a class with it. -/
def advance? (ch : Chart) (token : Token) : Option Chart :=
  let scanned := ch.scan token
  if scanned.isEmpty then none
  else
    let earlier := ch.current :: ch.earlier
    some { ch with current := (close ch.grammar earlier scanned).column, earlier := earlier }

/-- Take the last token back; a chart that has read nothing stays as it is. -/
def retreat (ch : Chart) : Chart :=
  match ch.earlier with
  | [] => ch
  | last :: before => { ch with current := last, earlier := before }

/-- The tokens that may come next: the weights of each class that an item waits for, rescaled
by the weight of the item and summed over the items. -/
def allowed (ch : Chart) : Table :=
  ch.current.entries.foldl
    (fun table e =>
      match ch.awaitedClass e.1 with
      | some (_, c) => c.entries.foldl (fun table t => table.add t.1 (t.2 * e.2)) table
      | none => table)
    OrderedMap.empty

/-- The sum of the weights of the items with a property. -/
def weightWhere (ch : Chart) (p : Item → Bool) : Weight :=
  ch.current.entries.foldl (fun sum e => if p e.1 then sum + e.2 else sum) 0.0

/-- The weight of the finished words over the weight of what could go on; one if nothing
could. -/
def termination (ch : Chart) : Weight :=
  let open? := ch.weightWhere fun item => !item.isComplete
  if 0.0 < open? then ch.weightWhere (Item.spans ch.root) / open? else 1.0

/-- A token is refused exactly when no class with it is waited for. -/
theorem advance?_eq_none_iff (ch : Chart) (token : Token) :
    ch.advance? token = none ↔ (ch.scan token).isEmpty = true := by
  simp only [advance?]
  split <;> simp_all

/-- What a chart was before it read a token is what is left when the token is taken back. -/
theorem retreat_of_advance? {ch next : Chart} {token : Token} (h : ch.advance? token = some next) :
    next.retreat = ch := by
  simp only [advance?] at h
  split at h
  · cases h
  · cases h
    rfl

theorem position_of_advance? {ch next : Chart} {token : Token}
    (h : ch.advance? token = some next) : next.position = ch.position + 1 := by
  simp only [advance?] at h
  split at h
  · cases h
  · cases h
    rfl

end Chart

end Neologism
