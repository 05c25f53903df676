import Neologism.CharClass

/-! # Document nodes and formats

A document is a tree of nodes: numbers, texts, lists, maps, tuples, records and bare words. A
number is kept as it is written, because what it means depends on where it stands.

How a node is written and what a text is read as is up to a format, and so is how numbers are
written and read. What is written and read here goes through a format and knows no more of it. -/

namespace Neologism.Document

/-- A node of a document. -/
inductive Node where
  | number (lexeme : String)
  | text (value : String)
  | char (value : Char)
  | truth (value : Bool)
  /-- An optional value that is not there. -/
  | absent
  /-- An optional value that is there. -/
  | present (value : Node)
  | list (values : List Node)
  | map (entries : List (Node × Node))
  /-- Parentheses with nothing at all between them. -/
  | unit
  | tuple (name : Option String) (values : List Node)
  | record (name : Option String) (fields : List (String × Node))
  | word (name : String)
deriving Inhabited

namespace Node

/-- The text of a node. -/
def text? : Node → Option String
  | .text value => some value
  | _ => none

/-- The values of a list, each read in the same way. -/
def list? {α : Type} (read : Node → Option α) : Node → Option (List α)
  | .list values => values.mapM read
  | _ => none

/-- The one value of a named tuple. -/
def wrapped? (name : String) : Node → Option Node
  | .tuple (some other) [value] => if other = name then some value else none
  | _ => none

/-- What is left of a record without fields, which nothing tells from a tuple without values. -/
def hollow : Option String → Node
  | none => .unit
  | some name => .tuple (some name) []

end Node

/-- What a document comes to: whether optional values may stand bare, and its node. -/
structure Contents where
  implicitSome : Bool
  root : Node

/-- A way to write documents and to read them. -/
structure Format where
  /-- The text of a node. -/
  render : Node → String
  /-- Read a document. The names are those of the fields with optional values in case that its
  node is a record. -/
  read? : (optionals : List String) → String → Option Contents
  /-- The written form of a weight. -/
  weightLexeme : Weight → String
  weight? : String → Option Weight
  /-- The written form of a count of at most 64 bits. -/
  unsignedLexeme : UInt64 → String
  unsigned? : String → Option UInt64
  /-- Whether a node that nobody asked for and that stands so many levels deep is passed over. -/
  isIgnorable : (outer : Nat) → Node → Bool

end Neologism.Document
