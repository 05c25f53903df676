import Neologism.OrderedMap
import Neologism.Decimal.Text

/-! # Character classes

A token is a piece of text that counts as one sound. A table gives tokens weights; a class is
a table that a literal was read into. A literal may name a token several times: the weights
add up, and the first occurrence fixes the token's place.

Main statements: `ofLiteral_eq_ok` and `ofLiteral_eq_error` say when a literal is a class and
which pair is blamed when it is not. -/

namespace Neologism

/-- One sound of an invented language. -/
abbrev Token := String

/-- A likelihood, up to a common factor. -/
abbrev Weight := Float

/-- Tokens with weights, in order of first insertion. -/
abbrev Table := OrderedMap Token Weight

/-- A set of tokens with their weights. -/
abbrev CharClass := Table

/-- A class as it is written: token and weight pairs in order. -/
abbrev ClassLiteral := List (Token × Weight)

/-- Whether a weight may be written in a literal or a rule: finite and not below zero. -/
def Weight.isValid (w : Weight) : Bool :=
  w.isFinite && !decide (w < 0.0)

/-- Why a class could not be had. -/
inductive ClassError where
  /-- No class is bound to the name. -/
  | undefined (name : String)
  /-- A literal gives the token a weight that is no weight. -/
  | invalidWeight (token : Token) (weight : Weight)
deriving DecidableEq

/-- The text of a class error. -/
def ClassError.message : ClassError → String
  | .undefined name => "class #" ++ name ++ " referenced before definition"
  | .invalidWeight token weight =>
      "invalid weight " ++ Decimal.text weight ++ " for token '" ++ token ++ "'"

namespace CharClass

/-- Add the pairs of a literal to a table, unless one of them has an invalid weight: then the
first such pair is the error. -/
def addLiteral (t : Table) : ClassLiteral → Except ClassError Table
  | [] => .ok t
  | (token, weight) :: rest =>
      if weight.isValid then addLiteral (t.add token weight) rest
      else .error (.invalidWeight token weight)

/-- The class of a literal. -/
def ofLiteral (literal : ClassLiteral) : Except ClassError CharClass :=
  addLiteral .empty literal

/-- Sum the weights of another class into this one. -/
def mergeSum (c other : CharClass) : CharClass :=
  other.entries.foldl (fun t e => t.add e.1 e.2) c

/-- Take the tokens of another class into this one; the weights that are there stay. -/
def mergeUnion (c other : CharClass) : CharClass :=
  other.entries.foldl (fun t e => t.insertAbsent e.1 0.0) c

theorem addLiteral_eq_ok (t : Table) (literal : ClassLiteral)
    (h : ∀ e ∈ literal, e.2.isValid = true) :
    addLiteral t literal = .ok (literal.foldl (fun t e => t.add e.1 e.2) t) := by
  induction literal generalizing t with
  | nil => rfl
  | cons e rest ih =>
      simp [addLiteral, h e, ih _ fun e he => h e (List.mem_cons_of_mem _ he)]

theorem addLiteral_eq_error (t : Table) (good : ClassLiteral) (token : Token) (weight : Weight)
    (rest : ClassLiteral) (hgood : ∀ e ∈ good, e.2.isValid = true)
    (hbad : weight.isValid = false) :
    addLiteral t (good ++ (token, weight) :: rest) = .error (.invalidWeight token weight) := by
  induction good generalizing t with
  | nil => simp [addLiteral, hbad]
  | cons e good ih =>
      simp [addLiteral, hgood e, ih _ fun e he => hgood e (List.mem_cons_of_mem _ he)]

/-- A literal of valid weights is the fold of its pairs. -/
theorem ofLiteral_eq_ok (literal : ClassLiteral) (h : ∀ e ∈ literal, e.2.isValid = true) :
    ofLiteral literal = .ok (literal.foldl (fun t e => t.add e.1 e.2) .empty) :=
  addLiteral_eq_ok _ literal h

/-- The first pair with an invalid weight is the one that is blamed. -/
theorem ofLiteral_eq_error (good : ClassLiteral) (token : Token) (weight : Weight)
    (rest : ClassLiteral) (hgood : ∀ e ∈ good, e.2.isValid = true)
    (hbad : weight.isValid = false) :
    ofLiteral (good ++ (token, weight) :: rest) = .error (.invalidWeight token weight) :=
  addLiteral_eq_error _ good token weight rest hgood hbad

end CharClass

end Neologism
