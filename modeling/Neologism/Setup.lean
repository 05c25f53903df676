import Neologism.Session
import Neologism.Random.Keystream
import Neologism.Document.Standard

/-! # Setting a session up

A setup gathers commands from lists and from files, and settings. Starting it reads all files,
runs the commands in the order in which they were supplied, and opens a session on the model. -/

namespace Neologism

/-- Why a file could not be used. -/
inductive ReadError where
  /-- There is no such file, or it is no text. -/
  | unreadable
  /-- The text is not what was to be read. -/
  | malformed
deriving DecidableEq, Repr

/-- Why a session could not be opened. -/
inductive SetupError where
  | description (error : ReadError)
  | config (error : ReadError)
  | model (error : ModelError)
deriving DecidableEq

/-- The contents of a file, if there is one. -/
abbrev FileContents := Option ByteArray

/-- The text of a file. -/
def FileContents.text (file : FileContents) : Except ReadError String :=
  match file.bind String.fromUTF8? with
  | some text => .ok text
  | none => .error .unreadable

/-- Read a value from a text. -/
def readText {α : Type} (read : String → Option α) (text : String) : Except ReadError α :=
  match read text with
  | some a => .ok a
  | none => .error .malformed

/-- Read a value from a file. -/
def FileContents.read {α : Type} (file : FileContents) (read : String → Option α) :
    Except ReadError α := do
  readText read (← file.text)

/-- Where commands come from. -/
inductive CommandSource where
  | commands (description : Description)
  | file (contents : FileContents)

namespace CommandSource

/-- The commands of a source. -/
def load : CommandSource → Except ReadError Description
  | .commands description => .ok description
  | .file contents => contents.read Document.readDescription?

end CommandSource

/-- Sources of commands in the order in which they were supplied, and settings. -/
structure Setup where
  sources : List CommandSource := []
  config : Config := {}

namespace Setup

/-- Supply commands behind those that were supplied before. -/
def supply (setup : Setup) (source : CommandSource) : Setup :=
  { setup with sources := setup.sources ++ [source] }

/-- Replace the settings by those of a file. -/
def loadConfig (setup : Setup) (file : FileContents) : Except SetupError Setup := do
  let config ← (file.read Document.readConfig?).mapError .config
  return { setup with config := config }

/-- The commands of all sources. -/
def description (setup : Setup) : Except ReadError Description := do
  return (← setup.sources.mapM CommandSource.load).flatten

/-- The source that the settings ask for: the keystream of their seed. -/
def seededSource (setup : Setup) : Source :=
  Keystream.source (setup.config.seed.getD 0)

/-- Open a session with a random source. -/
def start (setup : Setup) (source : Source) : Except SetupError Session := do
  let description ← setup.description.mapError .description
  let model ← (Model.ofDescription description setup.config).mapError .model
  return .ofModel model setup.config source

end Setup

end Neologism
