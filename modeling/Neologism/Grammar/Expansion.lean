import Neologism.Grammar.Basic
import Neologism.Random.Sampler

/-! # Random expansion

A root is expanded from left to right into the names of classes, each nonterminal by a rule
that is chosen at random. An expansion is given up when a nonterminal has no rule to choose,
when more classes come out than there are slots, or when the budget of choices is spent. -/

namespace Neologism.Grammar

/-- Choose a rule of a nonterminal with a probability in proportion to its weight. -/
def choose (g : Grammar) (nonterminal : String) (src : Source) :
    Except Fault (Option Rule) × Source :=
  chooseWeighted Rule.weight (g.rules nonterminal) src

/-- The classes before the first nonterminal, and that nonterminal with what follows it. -/
def leading : List Symbol → List String × Option (String × List Symbol)
  | [] => ([], none)
  | .cls name :: rest =>
      let (names, open?) := leading rest
      (name :: names, open?)
  | .nonterminal name :: rest => ([], some (name, rest))

/-- Expand the pending symbols. `slots` are the classes so far, latest first; `room` is how
many more may come, and `budget` how many more choices may be made. -/
def expandFrom (g : Grammar) :
    (budget room : Nat) → (slots : List String) → (pending : List Symbol) → Source →
      Except Fault (Option (List String)) × Source
  | budget, room, slots, pending, src =>
      let (names, open?) := leading pending
      if room < names.length then (.ok none, src)
      else
        let slots := names.reverse ++ slots
        match open?, budget with
        | none, _ => (.ok (some slots.reverse), src)
        | some _, 0 => (.ok none, src)
        | some (name, rest), budget + 1 =>
            match g.choose name src with
            | (.ok (some rule), src) =>
                expandFrom g budget (room - names.length) slots (rule.symbols ++ rest) src
            | (.ok none, src) => (.ok none, src)
            | (.error fault, src) => (.error fault, src)

/-- The number of choices that an expansion into at most `limit` classes may make: sixteen
for each class and for the end. -/
def budget (limit : UInt64) : Nat :=
  16 * (limit.toNat + 1)

/-- Expand a root into at most `limit` class names. The choices are counted in a word of 64
bits; a budget that does not fit into one is a fault. -/
def expand (g : Grammar) (root : String) (limit : UInt64) (src : Source) :
    Except Fault (Option (List String)) × Source :=
  if budget limit < UInt64.size then
    expandFrom g (budget limit) limit.toNat [] [.nonterminal root] src
  else (.error .budget, src)

end Neologism.Grammar
