import Neologism.Document.Description
import Neologism.Config

/-! # Written settings

Settings are written as a record. A field that is left out has its default, fields may stand in
any order, and fields of other names are passed over. -/

namespace Neologism.Document

/-- The names of the fields of settings. -/
def configFields : List String :=
  ["seed", "min_length", "max_length", "depth_limit", "boundary", "root"]

/-- The names of the fields whose values may be absent. -/
def optionalFields : List String :=
  ["seed", "root"]

/-- The node of an optional value. -/
def ofOption {α : Type} (write : α → Node) : Option α → Node
  | none => .absent
  | some a => .present (write a)

/-- Read an optional value. It may stand bare where the document says so. -/
def option? {α : Type} (implicitSome : Bool) (read : Node → Option α) : Node → Option (Option α)
  | .absent => some none
  | .present v => (read v).map some
  | v => if implicitSome then (read v).map some else none

/-- Read a field if it is there; a field that is left out has the given value. -/
def field? {α : Type} (fields : List (String × Node)) (name : String) (default : α)
    (read : Node → Option α) : Option α :=
  match fields.lookup name with
  | none => some default
  | some v => read v

namespace Format

variable (F : Format)

/-- The node of a count. -/
def ofUnsigned (n : UInt64) : Node :=
  .number (F.unsignedLexeme n)

/-- The fields of settings with their nodes. -/
def fieldsOfConfig (c : Config) : List (String × Node) :=
  [("seed", ofOption F.ofUnsigned c.seed), ("min_length", F.ofUnsigned c.minLength),
    ("max_length", F.ofUnsigned c.maxLength), ("depth_limit", F.ofUnsigned c.depthLimit),
    ("boundary", .text c.boundary), ("root", ofOption .text c.root)]

/-- The node of settings. -/
def ofConfig (c : Config) : Node :=
  .record none (F.fieldsOfConfig c)

/-- Read the fields of settings. A field stands two levels deep. -/
def configOfFields? (implicitSome : Bool) (fields : List (String × Node)) : Option Config :=
  if F.fieldsAreValid configFields 2 fields then do
    return {
      seed := ← field? fields "seed" none (option? implicitSome (Node.unsigned? F))
      minLength := ← field? fields "min_length" 0 (Node.unsigned? F)
      maxLength := ← field? fields "max_length" 0 (Node.unsigned? F)
      depthLimit := ← field? fields "depth_limit" 32 (Node.unsigned? F)
      boundary := ← field? fields "boundary" Context.defaultMarker Node.text?
      root := ← field? fields "root" none (option? implicitSome Node.text?) }
  else none

/-- Read settings: a record without a name or with the one for settings. -/
def config? (implicitSome : Bool) : Node → Option Config
  | .record name fields =>
      if name.getD "GeneratorConfig" = "GeneratorConfig" then F.configOfFields? implicitSome fields
      else none
  | .unit => some {}
  | .tuple name [] =>
      if name.getD "GeneratorConfig" = "GeneratorConfig" then some {} else none
  | _ => none

/-- The text of settings. -/
def renderConfig (c : Config) : String :=
  F.render (F.ofConfig c)

/-- Read the text of settings. -/
def readConfig? (text : String) : Option Config :=
  (F.read? optionalFields text).bind fun contents => F.config? contents.implicitSome contents.root

end Format

end Neologism.Document
