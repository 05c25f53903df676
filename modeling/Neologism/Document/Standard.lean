import Neologism.Document.Config
import Neologism.Document.Reader

/-! # The standard format

Documents are kept in the standard format: nodes are written without blanks and read with blanks,
comments and attributes, and numbers are decimal ones. What is said of written descriptions and
settings holds of any format that can be trusted with them, and the standard one is an instance. -/

namespace Neologism.Document

/-- The format that documents are kept in. -/
def Format.standard : Format where
  render v := String.ofList v.render
  read? := Document.read?
  weightLexeme := Document.weightLexeme
  weight? := Document.weight?
  unsignedLexeme n := Nat.repr n.toNat
  unsigned? := Document.unsigned?
  isIgnorable := Node.isIgnorable

/-- The text of a description. -/
def renderDescription (d : Description) : String :=
  Format.standard.renderDescription d

/-- Read the text of a description. -/
def readDescription? (text : String) : Option Description :=
  Format.standard.readDescription? text

/-- The text of settings. -/
def renderConfig (c : Config) : String :=
  Format.standard.renderConfig c

/-- Read the text of settings. -/
def readConfig? (text : String) : Option Config :=
  Format.standard.readConfig? text

/-- The text of some symbols of rules. -/
def renderSymbols (ss : List Symbol) : String :=
  Format.standard.renderSymbols ss

/-- Read the text of some symbols of rules. -/
def readSymbols? (text : String) : Option (List Symbol) :=
  Format.standard.readSymbols? text

end Neologism.Document
