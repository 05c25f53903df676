import Neologism.CharClass

/-! # Context patterns

A context pattern says what may stand before a token: a class for each place, and the word
boundary for the first place only. Its instances are texts, one for each way of taking a token
from every class, the last place varying fastest.

Main statement: `instancesFrom_eq_ok` gives the instances as the ordered product of the
places. -/

namespace Neologism

/-- The complaint about a pattern with a boundary behind its first place. -/
inductive ContextError where
  | misplacedBoundary (position : Nat)
deriving DecidableEq, Repr

/-- The text of a context error. -/
def ContextError.message : ContextError → String
  | .misplacedBoundary position =>
      "boundary marker may only open a context, found at position " ++ Nat.repr position

namespace Context

/-- One place of a context pattern. -/
inductive Slot where
  /-- The start of the word. -/
  | boundary
  /-- Some token of a class. -/
  | cls (c : CharClass)
deriving DecidableEq

/-- The marker that stands for a boundary unless another is configured. -/
def defaultMarker : String :=
  "_"

/-- The texts that one place stands for. -/
def Slot.texts (marker : String) : Slot → List String
  | .boundary => [marker]
  | .cls c => c.keys

/-- Every text of `texts` put behind every one of `before`, those of one text together. -/
def extend (before texts : List String) : List String :=
  before.flatMap fun text => texts.map (text ++ ·)

/-- The instances of the places from `position` on, behind the ones of the places before. -/
def instancesFrom (marker : String) (position : Nat) (before : List String) :
    List Slot → Except ContextError (List String)
  | [] => .ok before
  | .boundary :: rest =>
      if position = 0 then instancesFrom marker 1 (extend before [marker]) rest
      else .error (.misplacedBoundary position)
  | .cls c :: rest => instancesFrom marker (position + 1) (extend before c.keys) rest

/-- The instances of a pattern. -/
def instances (slots : List Slot) (marker : String) : Except ContextError (List String) :=
  instancesFrom marker 0 [""] slots

/-- A pattern whose boundary, if any, comes first has the ordered product of its places as
instances. -/
theorem instancesFrom_eq_ok (marker : String) (position : Nat) (before : List String)
    (slots : List Slot) (h : .boundary ∉ slots) :
    instancesFrom marker position before slots =
      .ok (slots.foldl (fun texts slot => extend texts (Slot.texts marker slot)) before) := by
  induction slots generalizing position before with
  | nil => rfl
  | cons slot rest ih =>
      cases slot with
      | boundary => simp at h
      | cls c =>
          simp only [List.mem_cons, not_or] at h
          simp [instancesFrom, Slot.texts, ih _ _ h.2]

end Context

end Neologism
