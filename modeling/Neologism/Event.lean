import Neologism.Model

/-! # Events

What there is to say about a run besides its answers. Events are data; `text` words them. -/

namespace Neologism

/-- How important an event is. -/
inductive Level where
  | warn
  | debug
  | trace
deriving DecidableEq, Repr

/-- The importance as a number, the most important least. -/
def Level.rank : Level → Nat
  | .warn => 0
  | .debug => 1
  | .trace => 2

/-- The name of a level. -/
def Level.name : Level → String
  | .warn => "WARN"
  | .debug => "DEBUG"
  | .trace => "TRACE"

/-- Something that happened. -/
inductive Event where
  /-- A rule names a nonterminal that has no rules. -/
  | undefinedNonterminal (name : String)
  /-- A model was frozen. -/
  | modelReady (root : String) (nonterminals classes conditions exclusions : Nat)
  /-- A token was read, and its column has so many items. -/
  | accepted (token : Token) (position items : Nat)
  /-- A token was refused. -/
  | rejected (token : Token) (position : Nat)
  /-- A word with so many tokens was found. -/
  | generated (length : Nat)
  /-- A search found no new word. -/
  | exhausted (minimum maximum : UInt64)
deriving DecidableEq, Repr

namespace Event

/-- The importance of an event. -/
def level : Event → Level
  | .undefinedNonterminal _ => .warn
  | .modelReady .. | .generated _ | .exhausted .. => .debug
  | .accepted .. | .rejected .. => .trace

/-- The wording of an event. -/
def text : Event → String
  | .undefinedNonterminal name =>
      "nonterminal $" ++ name ++ " is referenced but has no rules"
  | .modelReady root nonterminals classes conditions exclusions =>
      "language model ready: root $" ++ root ++ ", " ++ Nat.repr nonterminals ++
        " nonterminals, " ++ Nat.repr classes ++ " classes, " ++ Nat.repr conditions ++
        " conditions, " ++ Nat.repr exclusions ++ " exclusions"
  | .accepted token position items =>
      "token '" ++ token ++ "' accepted at position " ++ Nat.repr position ++ " (" ++
        Nat.repr items ++ " states)"
  | .rejected token position =>
      "token '" ++ token ++ "' rejected at position " ++ Nat.repr position
  | .generated length => "generated word of " ++ Nat.repr length ++ " tokens"
  | .exhausted minimum maximum =>
      "no new word within bounds " ++ Nat.repr minimum.toNat ++ ".." ++ Nat.repr maximum.toNat

/-- An event as a line: its level and its wording. -/
def line (e : Event) : String :=
  e.level.name ++ " " ++ e.text

/-- The lines of the events of a level or a more important one. -/
def lines (threshold : Level) (events : List Event) : List String :=
  (events.filter fun e => e.level.rank ≤ threshold.rank).map line

end Event

/-- What reading a token came to, given the chart that read it, if it was not refused. -/
def Chart.advanceEvent (ch : Chart) (token : Token) : Option Chart → Event
  | some next => .accepted token ch.position next.current.size
  | none => .rejected token ch.position

/-- What there is to say when a model is frozen: the nonterminals without rules, and its size. -/
def Model.events (m : Model) : List Event :=
  m.grammar.undefinedNonterminals.map .undefinedNonterminal ++
    [.modelReady m.root m.grammar.size m.lexicon.size m.phonotactics.conditions.size
      m.phonotactics.exclusions.size]

end Neologism
