import Neologism.Document.Format
import Neologism.Document.Hidden
import Neologism.Document.Lexeme

/-! # Written nodes

`render` writes a node without blanks. `nesting?` is what has to hold of a node that nobody
asked for: its numbers are numbers, and it is not nested too deeply. -/

namespace Neologism.Document

/-- The written form of a weight: a point stands in every finite one. -/
def weightLexeme (w : Weight) : String :=
  let s := Decimal.text w
  if w.isFinite ∧ ¬ s.toList.contains '.' then s ++ ".0" else s

/-- The hexadecimal digits of a number. -/
def hexDigits (n : Nat) : List Char :=
  Nat.toDigits 16 n

/-- The written form of a character in a text. -/
def writtenChar (c : Char) : List Char :=
  if c = '"' ∨ c = '\'' ∨ c = '\\' then ['\\', c]
  else if c = '\n' then ['\\', 'n']
  else if c = '\r' then ['\\', 'r']
  else if c = '\t' then ['\\', 't']
  else if c = '\x00' then ['\\', '0']
  else if isHidden c then '\\' :: 'u' :: '\x7b' :: (hexDigits c.toNat ++ ['\x7d'])
  else [c]

/-- The written form of a text. -/
def writtenText (s : String) : List Char :=
  '"' :: (s.toList.flatMap writtenChar ++ ['"'])

/-- The written form of an optional name. -/
def writtenName (name : Option String) : List Char :=
  (name.getD "").toList

mutual

/-- The written form of a node. -/
def Node.render : Node → List Char
  | .number lexeme => lexeme.toList
  | .text value => writtenText value
  | .char value => '\'' :: (writtenChar value ++ ['\''])
  | .truth value => (if value then "true" else "false").toList
  | .absent => "None".toList
  | .present value => "Some(".toList ++ value.render ++ [')']
  | .list values => '[' :: (renderValues values ++ [']'])
  | .map entries => '\x7b' :: (renderEntries entries ++ ['\x7d'])
  | .unit => "()".toList
  | .tuple name values => writtenName name ++ '(' :: (renderValues values ++ [')'])
  | .record name fields => writtenName name ++ '(' :: (renderFields fields ++ [')'])
  | .word name => name.toList

/-- The written forms of nodes with commas between them. -/
def renderValues : List Node → List Char
  | [] => []
  | [v] => v.render
  | v :: w :: vs => v.render ++ ',' :: renderValues (w :: vs)

/-- The written forms of the entries of a map. -/
def renderEntries : List (Node × Node) → List Char
  | [] => []
  | [(k, v)] => k.render ++ ':' :: v.render
  | (k, v) :: e :: es => k.render ++ ':' :: (v.render ++ ',' :: renderEntries (e :: es))

/-- The written forms of the fields of a record. -/
def renderFields : List (String × Node) → List Char
  | [] => []
  | [(k, v)] => k.toList ++ ':' :: v.render
  | (k, v) :: f :: fs => k.toList ++ ':' :: (v.render ++ ',' :: renderFields (f :: fs))

end

mutual

/-- How deeply a node is nested, if all its numbers are numbers. A part counts for one level
and what it stands in for another. -/
def Node.nesting? : Node → Option Nat
  | .number lexeme => if isNumber lexeme then some 0 else none
  | .text _ | .char _ | .truth _ | .absent | .unit | .word _ => some 0
  | .present value => value.nesting?.map (· + 1)
  | .list values | .tuple _ values => (valuesNesting? values).map (· + 1)
  | .map entries => (entriesNesting? entries).map (· + 1)
  | .record _ fields => (fieldsNesting? fields).map (· + 1)

/-- The nesting of the deepest of some nodes and of the level that they are. -/
def valuesNesting? : List Node → Option Nat
  | [] => some 0
  | v :: vs => do return max ((← v.nesting?) + 1) (← valuesNesting? vs)

/-- The nesting of the deepest key or value of a map and of the level that they are. -/
def entriesNesting? : List (Node × Node) → Option Nat
  | [] => some 0
  | (k, v) :: es => do
      return max (max ((← k.nesting?) + 1) ((← v.nesting?) + 1)) (← entriesNesting? es)

/-- The nesting of the deepest field of a record and of the level that they are. -/
def fieldsNesting? : List (String × Node) → Option Nat
  | [] => some 0
  | (_, v) :: fs => do return max ((← v.nesting?) + 1) (← fieldsNesting? fs)

end

/-- How deeply a document may be nested. -/
def nestingLimit : Nat :=
  128

/-- Whether a node that stands `outer` levels deep can be passed over. -/
def Node.isIgnorable (outer : Nat) (v : Node) : Bool :=
  v.nesting?.any fun n => n + outer ≤ nestingLimit

end Neologism.Document
