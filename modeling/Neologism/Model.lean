import Neologism.Config
import Neologism.Description
import Neologism.Grammar.Basic
import Neologism.Phonotactics
import Neologism.Chart.Basic

/-! # Language models

Running the commands of a description in order fills a draft: a grammar, named classes and
phonotactic tables. Freezing the draft settles the root, checks that the grammar can be used,
and gives the model that words are made by.

A reference in a definition, a condition or an exclusion is looked up when its command runs.
A reference in a production is looked up when a word is made, so its class may be defined or
redefined later. -/

namespace Neologism

/-- Why a description is no model. -/
inductive ModelError where
  | cls (error : ClassError)
  | grammar (error : GrammarError)
  | context (error : ContextError)
  /-- No root is configured and no production names one. -/
  | noProductions
deriving DecidableEq

/-- The text of a model error. -/
def ModelError.message : ModelError → String
  | .cls error => "environment error: " ++ error.message
  | .grammar error => "grammar error: " ++ error.message
  | .context error => "phonotactic error: " ++ error.message
  | .noProductions => "description defines no productions"

/-- What the commands so far have built. -/
structure Draft where
  grammar : Grammar := {}
  lexicon : Lexicon := {}
  phonotactics : Phonotactics := {}
  /-- The nonterminal of the first production. -/
  firstNonterminal : Option String := none
deriving DecidableEq, Inhabited

/-- A language that words can be made in. -/
structure Model where
  grammar : Grammar
  lexicon : Lexicon
  phonotactics : Phonotactics
  root : String
deriving DecidableEq

namespace Draft

/-- The class of a specification. -/
def resolve (lex : Lexicon) : ClassSpec → Except ClassError CharClass
  | .ref name => lex.lookup name
  | .inline literal => CharClass.ofLiteral literal

/-- The symbols of a production. Each class that is written in place is bound to a fresh
numeral. -/
def symbols (lex : Lexicon) : List ProductionItem → Except ClassError (List Symbol × Lexicon)
  | [] => .ok ([], lex)
  | .nonterminal name :: rest => do
      let (ss, lex) ← symbols lex rest
      return (.nonterminal name :: ss, lex)
  | .classRef name :: rest => do
      let (ss, lex) ← symbols lex rest
      return (.cls name :: ss, lex)
  | .inlineClass literal :: rest => do
      let c ← CharClass.ofLiteral literal
      let (name, lex) := lex.assign c
      let (ss, lex) ← symbols lex rest
      return (.cls name :: ss, lex)

/-- The slots of a context. -/
def slots (lex : Lexicon) : List ContextItem → Except ClassError (List Context.Slot)
  | [] => .ok []
  | .boundary :: rest => return .boundary :: (← slots lex rest)
  | .cls spec :: rest => do
      let c ← resolve lex spec
      return .cls c :: (← slots lex rest)

/-- The class and the context texts of a condition or an exclusion. -/
def restriction (lex : Lexicon) (marker : String) (context : List ContextItem)
    (spec : ClassSpec) : Except ModelError (CharClass × List String) := do
  let c ← (resolve lex spec).mapError .cls
  let places ← (slots lex context).mapError .cls
  let texts ← (Context.instances places marker).mapError .context
  return (c, texts)

/-- Run one command. -/
def execute (marker : String) (d : Draft) : Command → Except ModelError Draft
  | .production nonterminal items weight => do
      let (ss, lexicon) ← (symbols d.lexicon items).mapError .cls
      let grammar ← (d.grammar.addRule nonterminal ss weight).mapError .grammar
      return { d with
        grammar, lexicon, firstNonterminal := some (d.firstNonterminal.getD nonterminal) }
  | .definition name spec => do
      let c ← (resolve d.lexicon spec).mapError .cls
      return { d with lexicon := d.lexicon.define name c }
  | .condition context spec => do
      let (c, texts) ← restriction d.lexicon marker context spec
      return { d with
        phonotactics := texts.foldl (fun p text => p.addCondition text c) d.phonotactics }
  | .exclusion context spec => do
      let (c, texts) ← restriction d.lexicon marker context spec
      return { d with
        phonotactics := texts.foldl (fun p text => p.addExclusion text c) d.phonotactics }

/-- Run commands in order, up to the first that fails. -/
def run (marker : String) (d : Draft) : Description → Except ModelError Draft
  | [] => .ok d
  | command :: rest => do run marker (← d.execute marker command) rest

/-- Settle the root and check the grammar. -/
def freeze (d : Draft) (root : Option String) : Except ModelError Model := do
  match root.or d.firstNonterminal with
  | none => .error .noProductions
  | some root =>
      (d.grammar.validate root d.lexicon).mapError .grammar
      return ⟨d.grammar, d.lexicon, d.phonotactics, root⟩

end Draft

namespace Model

/-- The model of a description. -/
def ofDescription (description : Description) (config : Config) : Except ModelError Model := do
  let draft ← Draft.run config.boundary {} description
  draft.freeze config.root

/-- The chart that has read nothing of a word of the language. -/
def chart (m : Model) : Chart :=
  .ofRoot m.grammar m.lexicon m.root

end Model

end Neologism
