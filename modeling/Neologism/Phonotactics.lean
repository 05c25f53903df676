import Neologism.Context

/-! # Phonotactics

What may follow what. A context is a text, and both tables are keyed by it: a conditioning
class says which tokens may follow and rescales them, an exclusion class says which may not.
A second class for the same context is merged into the first: conditions add weights up,
exclusions unite the tokens. A class is copied into a table, so later merges do not touch it.

`narrow` reads the tables for every text that the tokens before end in, from the longest to
the shortest. -/

namespace Neologism

/-- Conditions and exclusions by context. -/
structure Phonotactics where
  conditions : OrderedMap String CharClass := .empty
  exclusions : OrderedMap String CharClass := .empty
deriving DecidableEq, Inhabited

namespace Phonotactics

/-- Let a class condition what follows a context; its weights add to those that are there. -/
def addCondition (p : Phonotactics) (context : String) (c : CharClass) : Phonotactics :=
  { p with conditions := p.conditions.upsert context fun
      | none => c
      | some old => old.mergeSum c }

/-- Exclude a class after a context, together with what is excluded there already. -/
def addExclusion (p : Phonotactics) (context : String) (c : CharClass) : Phonotactics :=
  { p with exclusions := p.exclusions.upsert context fun
      | none => c
      | some old => old.mergeUnion c }

/-- Drop the tokens that are excluded after a context. -/
def exclude (p : Phonotactics) (context : String) (t : Table) : Table :=
  match p.exclusions.get? context with
  | none => t
  | some c => t.filterMap fun token weight => if c.contains token then none else some weight

/-- Keep the tokens that a condition on a context allows, each rescaled by its weight there. -/
def condition (p : Phonotactics) (context : String) (t : Table) : Table :=
  match p.conditions.get? context with
  | none => t
  | some c => t.filterMap fun token weight => (c.get? token).map (weight * ·)

/-- Narrow a table by one context: exclusion first, then condition. -/
def narrowBy (p : Phonotactics) (t : Table) (context : String) : Table :=
  p.condition context (p.exclude context t)

/-- The texts that a sequence ends in, from the longest to the shortest non-empty suffix. -/
def trailingTexts : List Token → List String
  | [] => []
  | token :: rest => String.join (token :: rest) :: trailingTexts rest

/-- Narrow a table of candidates by everything that stands before. -/
def narrow (p : Phonotactics) (base : Table) (trailing : List Token) : Table :=
  (trailingTexts trailing).foldl p.narrowBy base

/-- Narrowing by one context decides each token by its own weight. -/
theorem get?_narrowBy (p : Phonotactics) (t : Table) (context : String) (token : Token) :
    (p.narrowBy t context).get? token =
      (t.get? token).bind fun weight =>
        if ((p.exclusions.get? context).map (·.contains token)).getD false then none
        else match p.conditions.get? context with
          | none => some weight
          | some c => (c.get? token).map (weight * ·) := by
  cases hx : p.exclusions.get? context <;> cases hc : p.conditions.get? context <;>
    simp [narrowBy, exclude, condition, hx, hc, OrderedMap.get?_filterMap]
  cases t.get? token with
  | none => rfl
  | some weight =>
      simp only [Option.bind_some]
      split <;> simp

end Phonotactics

end Neologism
