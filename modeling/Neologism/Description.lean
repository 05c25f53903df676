import Neologism.CharClass

/-! # Language descriptions

A description is a list of commands, each of which adds to a language: a production, a named
class, or a condition or exclusion on what follows a context. Classes are written in place or
referred to by name. -/

namespace Neologism

/-- A class as a command has it. -/
inductive ClassSpec where
  /-- The class that the name is bound to when the command runs. -/
  | ref (name : String)
  /-- The class of a literal. -/
  | inline (literal : ClassLiteral)
deriving DecidableEq, BEq

/-- One symbol of a production. -/
inductive ProductionItem where
  | nonterminal (name : String)
  /-- The class that the name is bound to in the end. -/
  | classRef (name : String)
  /-- A class of its own, which gets a numeral as its name. -/
  | inlineClass (literal : ClassLiteral)
deriving DecidableEq, BEq

/-- One place of a context. -/
inductive ContextItem where
  /-- The start of the word. -/
  | boundary
  | cls (spec : ClassSpec)
deriving DecidableEq, BEq

/-- One instruction. -/
inductive Command where
  /-- Add a rule of a nonterminal. -/
  | production (nonterminal : String) (items : List ProductionItem) (weight : Weight)
  /-- Bind a name to a class. -/
  | definition (name : String) (spec : ClassSpec)
  /-- Let a class condition what follows a context. -/
  | condition (context : List ContextItem) (spec : ClassSpec)
  /-- Exclude a class after a context. -/
  | exclusion (context : List ContextItem) (spec : ClassSpec)
deriving DecidableEq, BEq

/-- The commands that describe a language, in order. -/
abbrev Description := List Command

/-- The weight of a production that names none. -/
def Command.defaultWeight : Weight :=
  1.0

end Neologism
