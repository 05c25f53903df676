import Neologism.CharClass

/-! # Named classes

A lexicon binds names to classes. Classes that were written without a name get the next free
decimal numeral: the counter only grows, so a numeral is never handed out twice, and numerals
that are bound already are passed over.

`freshNumber` looks at one more numeral than there are bound names, so it finds a free one
among them. -/

namespace Neologism

/-- Classes by name, and the last number that was handed out as a name. -/
structure Lexicon where
  classes : OrderedMap String CharClass := .empty
  counter : Nat := 0
deriving DecidableEq, Inhabited

namespace Lexicon

/-- Bind a name to a class, whatever it was bound to. -/
def define (lex : Lexicon) (name : String) (c : CharClass) : Lexicon :=
  { lex with classes := lex.classes.insert name c }

/-- The class of a name, if it is bound. -/
def get? (lex : Lexicon) (name : String) : Option CharClass :=
  lex.classes.get? name

/-- The class of a name, or the complaint that it has none. -/
def lookup (lex : Lexicon) (name : String) : Except ClassError CharClass :=
  match lex.get? name with
  | some c => .ok c
  | none => .error (.undefined name)

/-- Whether a name is bound. -/
def contains (lex : Lexicon) (name : String) : Bool :=
  lex.classes.contains name

/-- The number of bound names. -/
def size (lex : Lexicon) : Nat :=
  lex.classes.size

/-- The least number above the counter whose numeral is not bound. -/
def freshNumber (lex : Lexicon) : Nat :=
  ((List.range' (lex.counter + 1) (lex.size + 1)).find? fun n => !lex.contains (Nat.repr n)).getD 0

/-- Bind a class to a fresh numeral and answer the numeral. -/
def assign (lex : Lexicon) (c : CharClass) : String × Lexicon :=
  let n := lex.freshNumber
  (Nat.repr n, { classes := lex.classes.insert (Nat.repr n) c, counter := n })

/-- The class that is found after a definition. -/
theorem get?_define (lex : Lexicon) (name other : String) (c : CharClass) :
    (lex.define name c).get? other = if other = name then some c else lex.get? other :=
  lex.classes.get?_upsert name other _

/-- An assignment binds its numeral and leaves every other name alone. -/
theorem get?_assign (lex : Lexicon) (other : String) (c : CharClass) :
    (lex.assign c).2.get? other =
      if other = (lex.assign c).1 then some c else lex.get? other :=
  lex.classes.get?_upsert _ other _

end Lexicon

end Neologism
