import Neologism.Document.Format
import Neologism.Description
import Neologism.Grammar.Basic

/-! # Written descriptions

A description is written as a list of commands, and each command as a record of its name. Every
`ofNoun` gives the node that a value is written as, and every `noun?` reads the node back.

Fields may stand in any order and fields of other names are passed over. The weight of a
production may be left out. -/

namespace Neologism.Document

/-- The weight that a node gives. -/
def Node.weight? (F : Format) : Node → Option Weight
  | .number lexeme => F.weight? lexeme
  | _ => none

/-- The natural number of at most 64 bits that a node gives. -/
def Node.unsigned? (F : Format) : Node → Option UInt64
  | .number lexeme => F.unsigned? lexeme
  | _ => none

namespace Format

variable (F : Format)

/-- Whether each known field occurs once at most and each other field can be passed over. -/
def fieldsAreValid (known : List String) (outer : Nat) (fields : List (String × Node)) : Bool :=
  known.all (fun name => fields.countP (·.1 == name) ≤ 1) &&
    fields.all fun f => known.contains f.1 || F.isIgnorable outer f.2

/-- The node of a weight. -/
def ofWeight (w : Weight) : Node :=
  .number (F.weightLexeme w)

/-- The node of a class literal. -/
def ofLiteral (literal : ClassLiteral) : Node :=
  .list (literal.map fun e => .tuple none [.text e.1, F.ofWeight e.2])

/-- Read one pair of a literal. -/
def pair? : Node → Option (Token × Weight)
  | .tuple none [token, weight] => do return (← token.text?, ← weight.weight? F)
  | _ => none

/-- Read a class literal. -/
def literal? (v : Node) : Option ClassLiteral :=
  v.list? F.pair?

/-- The node of a class specification. -/
def ofClassSpec : ClassSpec → Node
  | .ref name => .tuple (some "Ref") [.text name]
  | .inline literal => .tuple (some "Inline") [F.ofLiteral literal]

/-- Read a class specification. -/
def classSpec? (v : Node) : Option ClassSpec :=
  ((v.wrapped? "Ref").bind Node.text?).map .ref <|>
    ((v.wrapped? "Inline").bind F.literal?).map .inline

/-- The node of a symbol of a production. -/
def ofProductionItem : ProductionItem → Node
  | .nonterminal name => .tuple (some "Nonterminal") [.text name]
  | .classRef name => .tuple (some "ClassRef") [.text name]
  | .inlineClass literal => .tuple (some "InlineClass") [F.ofLiteral literal]

/-- Read a symbol of a production. -/
def productionItem? (v : Node) : Option ProductionItem :=
  ((v.wrapped? "Nonterminal").bind Node.text?).map .nonterminal <|>
    ((v.wrapped? "ClassRef").bind Node.text?).map .classRef <|>
    ((v.wrapped? "InlineClass").bind F.literal?).map .inlineClass

/-- The node of a place of a context. -/
def ofContextItem : ContextItem → Node
  | .boundary => .word "Boundary"
  | .cls spec => .tuple (some "Class") [F.ofClassSpec spec]

/-- Read a place of a context. -/
def contextItem? : Node → Option ContextItem
  | .word "Boundary" => some .boundary
  | v => ((v.wrapped? "Class").bind F.classSpec?).map .cls

/-- The node of a command. -/
def ofCommand : Command → Node
  | .production nonterminal items weight =>
      .record (some "Production")
        [("nonterminal", .text nonterminal), ("symbols", .list (items.map F.ofProductionItem)),
          ("weight", F.ofWeight weight)]
  | .definition name spec =>
      .record (some "Definition") [("name", .text name), ("class", F.ofClassSpec spec)]
  | .condition context spec =>
      .record (some "Condition")
        [("context", .list (context.map F.ofContextItem)), ("class", F.ofClassSpec spec)]
  | .exclusion context spec =>
      .record (some "Exclusion")
        [("context", .list (context.map F.ofContextItem)), ("class", F.ofClassSpec spec)]

/-- Read the fields of a command of the given name. A field of a command stands five levels
deep. -/
def commandOfFields? (name : String) (fields : List (String × Node)) : Option Command :=
  if name = "Production" ∧ F.fieldsAreValid ["nonterminal", "symbols", "weight"] 5 fields then do
    let nonterminal ← (← fields.lookup "nonterminal").text?
    let items ← (← fields.lookup "symbols").list? F.productionItem?
    let weight ←
      match fields.lookup "weight" with
      | none => some Command.defaultWeight
      | some v => v.weight? F
    return .production nonterminal items weight
  else if name = "Definition" ∧ F.fieldsAreValid ["name", "class"] 5 fields then do
    return .definition (← (← fields.lookup "name").text?)
      (← F.classSpec? (← fields.lookup "class"))
  else if name = "Condition" ∧ F.fieldsAreValid ["context", "class"] 5 fields then do
    return .condition (← (← fields.lookup "context").list? F.contextItem?)
      (← F.classSpec? (← fields.lookup "class"))
  else if name = "Exclusion" ∧ F.fieldsAreValid ["context", "class"] 5 fields then do
    return .exclusion (← (← fields.lookup "context").list? F.contextItem?)
      (← F.classSpec? (← fields.lookup "class"))
  else none

/-- Read a command. -/
def command? : Node → Option Command
  | .record (some name) fields => F.commandOfFields? name fields
  | _ => none

/-- The text of a description. -/
def renderDescription (d : Description) : String :=
  F.render (.list (d.map F.ofCommand))

/-- Read the text of a description. -/
def readDescription? (text : String) : Option Description :=
  (F.read? [] text).bind fun contents => contents.root.list? F.command?

/-- The node of a symbol of a rule. -/
def ofSymbol : Symbol → Node
  | .nonterminal name => .tuple (some "Nonterminal") [.text name]
  | .cls name => .tuple (some "Class") [.text name]

/-- Read a symbol of a rule. -/
def symbol? (v : Node) : Option Symbol :=
  ((v.wrapped? "Nonterminal").bind Node.text?).map .nonterminal <|>
    ((v.wrapped? "Class").bind Node.text?).map .cls

/-- The text of some symbols of rules. -/
def renderSymbols (ss : List Symbol) : String :=
  F.render (.list (ss.map ofSymbol))

/-- Read the text of some symbols of rules. -/
def readSymbols? (text : String) : Option (List Symbol) :=
  (F.read? [] text).bind fun contents => contents.root.list? symbol?

end Format

end Neologism.Document
