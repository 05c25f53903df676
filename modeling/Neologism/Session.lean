import Neologism.Search.Basic
import Neologism.Grammar.Expansion

/-! # Sessions

A session makes words of one language and never the same text twice. `generate` searches for
one word, `batch` for many, and `sketch` fills the slots of a random expansion in one pass,
without a look at the words made before. -/

namespace Neologism

/-- A word: its tokens in order. -/
structure Word where
  tokens : List Token
deriving DecidableEq, Repr

namespace Word

/-- The tokens joined. -/
def text (w : Word) : String :=
  String.join w.tokens

/-- The number of tokens. -/
def length (w : Word) : Nat :=
  w.tokens.length

end Word

/-- The complaint about bounds that no length can meet. -/
inductive BoundsError where
  | minimumExceedsMaximum (minimum maximum : UInt64)
deriving DecidableEq, Repr

/-- The text of a complaint about bounds. -/
def BoundsError.message : BoundsError → String
  | .minimumExceedsMaximum minimum maximum =>
      "minimum length " ++ Nat.repr minimum.toNat ++ " exceeds maximum length " ++
        Nat.repr maximum.toNat

/-- Why a batch came to nothing. -/
inductive BatchError where
  | bounds (error : BoundsError)
  | fault (fault : Fault)
deriving DecidableEq, Repr

/-- A language, settings, a random source, the texts of the words made so far and the journal,
both latest first. -/
structure Session where
  model : Model
  config : Config
  source : Source
  emitted : List String := []
  journal : List Event := []

namespace Session

/-- A session that has made no word; its journal tells of the model. -/
def ofModel (model : Model) (config : Config) (source : Source) : Session :=
  { model := model, config := config, source := source, journal := model.events.reverse }

/-- Whether a word with the text was made. -/
def hasEmitted (s : Session) (text : String) : Bool :=
  s.emitted.contains text

/-- Search for one word of at least `minimum` and at most `maximum` tokens whose text is new. A
bound of zero leaves its side open, the upper one up to the depth limit. -/
def generate (s : Session) (minimum maximum : UInt64) :
    Except BoundsError (Option Word) × Session :=
  if 0 < minimum ∧ 0 < maximum ∧ maximum < minimum then
    (.error (.minimumExceedsMaximum minimum maximum), s)
  else
    let task : Search.Task := {
      phonotactics := s.model.phonotactics
      marker := s.config.boundary
      minimum := minimum.toNat
      cap := (s.config.cap maximum).toNat }
    let (found, r) := Search.run task {
      chart := s.model.chart
      source := s.source
      emitted := s.emitted
      journal := s.journal }
    let s := { s with source := r.source, emitted := r.emitted }
    if found then
      (.ok (some ⟨r.chosen⟩), { s with journal := .generated r.chosen.length :: r.journal })
    else (.ok none, { s with journal := .exhausted minimum maximum :: r.journal })

/-- Generate words until there are `count` of them or none is left. -/
def generateUpTo (minimum maximum : UInt64) :
    (count : Nat) → Session → Except BoundsError (List Word) × Session
  | 0, s => (.ok [], s)
  | count + 1, s =>
      match s.generate minimum maximum with
      | (.error e, s) => (.error e, s)
      | (.ok none, s) => (.ok [], s)
      | (.ok (some word), s) =>
          match generateUpTo minimum maximum count s with
          | (.error e, s) => (.error e, s)
          | (.ok words, s) => (.ok (word :: words), s)

/-- The greatest count of words for which room can be addressed: 24 bytes a word within
2^63 - 1 bytes. Up to there room is taken to be had: allocations that fail for want of memory are
not modelled. -/
def greatestBatch : UInt64 :=
  384307168202282325

/-- Generate at most `count` words. Room for all of them is set aside first, which is a fault if
it cannot be addressed. That memory runs out below this bound is not modelled. -/
def batch (s : Session) (count minimum maximum : UInt64) :
    Except BatchError (List Word) × Session :=
  if greatestBatch < count then (.error (.fault .capacity), s)
  else
    let (words, s) := generateUpTo minimum maximum count.toNat s
    (words.mapError .bounds, s)

/-- Generate at most `count` words within the configured bounds. -/
def generateConfigured (s : Session) (count : UInt64) : Except BatchError (List Word) × Session :=
  s.batch count s.config.minLength s.config.maxLength

/-- Fill class slots from left to right: each from its class, narrowed by what stands before. -/
def fill (m : Model) (marker : String) (chosen : List Token) :
    List String → Source → Except Fault (Option (List Token)) × Source
  | [], src => (.ok (some chosen), src)
  | name :: rest, src =>
      match m.lexicon.get? name with
      | none => (.ok none, src)
      | some c =>
          let entries := (m.phonotactics.narrow c (marker :: chosen)).entries
          match chooseWeighted Prod.snd entries src with
          | (.error fault, src) => (.error fault, src)
          | (.ok none, src) => (.ok none, src)
          | (.ok (some (token, _)), src) => fill m marker (chosen ++ [token]) rest src

/-- Make a word in one pass: expand the root into class slots and fill them. There is none if
the expansion is given up or a slot has no candidate of positive weight. -/
def sketch (s : Session) : Except Fault (Option Word) × Session :=
  match s.model.grammar.expand s.model.root (s.config.cap s.config.maxLength) s.source with
  | (.error fault, src) => (.error fault, { s with source := src })
  | (.ok none, src) => (.ok none, { s with source := src })
  | (.ok (some slots), src) =>
      let (tokens, src) := fill s.model s.config.boundary [] slots src
      (tokens.map (·.map Word.mk), { s with source := src })

end Session

end Neologism
