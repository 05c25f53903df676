import Neologism.Context

/-! # Settings

What a session is told besides the description of its language. A bound of zero is no bound. -/

namespace Neologism

/-- The settings of a session. -/
structure Config where
  /-- The seed of the random source. -/
  seed : Option UInt64 := none
  /-- The least length of configured words. -/
  minLength : UInt64 := 0
  /-- The greatest length of configured words and of sketches; zero leaves it to the depth
  limit. -/
  maxLength : UInt64 := 0
  /-- The greatest length that is tried when no upper bound is given. -/
  depthLimit : UInt64 := 32
  /-- The marker that opens every word and stands for a boundary in contexts. -/
  boundary : String := Context.defaultMarker
  /-- The nonterminal that words derive from, if not the one of the first production. -/
  root : Option String := none
deriving DecidableEq, Repr, Inhabited

/-- The greatest length where `maximum` is asked for: the depth limit if that is zero. -/
def Config.cap (config : Config) (maximum : UInt64) : UInt64 :=
  if 0 < maximum then maximum else config.depthLimit

end Neologism
