import Neologism.Search.Pool
import Neologism.Event
import Neologism.Random.Source

/-! # Search for a new word

A search extends a word token by token. The chart tells which tokens may come next, the
phonotactics narrow them, and they are tried in the order in which a pool draws them. Where
the word may end, a random number decides whether ending or going on is tried first; the other
is tried if that comes to nothing. A word is found if its text is new.

A search that finds nothing takes back what it read: only the random source has moved, and the
journal has grown. -/

namespace Neologism.Search

/-- What a search does not change. -/
structure Task where
  phonotactics : Phonotactics
  /-- The marker that stands before the first token. -/
  marker : String
  /-- The least number of tokens of a word. -/
  minimum : Nat
  /-- The greatest number of tokens of a word. -/
  cap : Nat

/-- What a search changes: the chart and the tokens it has read, the random source, the texts
of the words that were found before, and the journal, latest event first. -/
structure State where
  chart : Chart
  chosen : List Token := []
  source : Source
  emitted : List String
  journal : List Event

namespace State

/-- Take a random number in [0, 1). -/
def unit (s : State) : Float × State :=
  let (u, source) := s.source.unit
  (u, { s with source := source })

/-- The text of the tokens. -/
def text (s : State) : String :=
  String.join s.chosen

/-- Try to read a token. -/
def push (s : State) (token : Token) : Option Chart × State :=
  let next := s.chart.advance? token
  (next, { s with journal := s.chart.advanceEvent token next :: s.journal })

/-- Go on with a chart that has read one token more. -/
def enter (s : State) (token : Token) (chart : Chart) : State :=
  { s with chart := chart, chosen := s.chosen ++ [token] }

/-- Take the last token back. -/
def pop (s : State) : State :=
  { s with chart := s.chart.retreat, chosen := s.chosen.dropLast }

end State

/-- An attempt to find a word from a state: whether it did, and the state after it. -/
abbrev Attempt :=
  State → Bool × State

/-- Make a second attempt if the first fails. -/
def orElse (first second : Attempt) : Attempt := fun s =>
  match first s with
  | (true, s) => (true, s)
  | (false, s) => second s

/-- End the word here. It is found if its text is new. -/
def finalize : Attempt := fun s =>
  if s.emitted.contains s.text then (false, s)
  else (true, { s with emitted := s.text :: s.emitted })

/-- Draw candidates until one of them leads to a word. `descend` is the attempt that follows a
token, and `size` is the number of candidates. -/
def tryPool (descend : Attempt) : (size : Nat) → Pool Weight → Attempt
  | 0, _, s => (false, s)
  | size + 1, pool, s =>
      let (u, s) := s.unit
      match pool.take? (pool.draw u) with
      | none => (false, s)
      | some ((token, _), pool) =>
          match s.push token with
          | (none, s) => tryPool descend size pool s
          | (some chart, s) =>
              match descend (s.enter token chart) with
              | (true, s) => (true, s)
              | (false, s) => tryPool descend size pool s.pop

/-- The candidates for the next token. -/
def candidates (task : Task) (s : State) : Table :=
  task.phonotactics.narrow s.chart.allowed (task.marker :: s.chosen)

/-- Go on with one token more. -/
def extend (task : Task) (descend : Attempt) : Attempt := fun s =>
  let entries := (candidates task s).entries
  tryPool descend entries.length (.ofList entries) s

/-- End the word or go on, in the order that a random number gives where both are possible. -/
def settle (task : Task) (goOn : Attempt) : Attempt := fun s =>
  if s.chart.isFinished ∧ task.minimum ≤ s.chosen.length then
    let (u, s) := s.unit
    if u < s.chart.termination then orElse finalize goOn s else orElse goOn finalize s
  else goOn s

/-- Try to complete the word with at most `room` tokens more. -/
def step (task : Task) : (room : Nat) → Attempt
  | 0 => settle task fun s => (false, s)
  | room + 1 => settle task (extend task (step task room))

/-- Search from the start of a word. -/
def run (task : Task) : Attempt := fun s =>
  step task (task.cap - s.chosen.length) s

end Neologism.Search
