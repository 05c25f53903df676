import Neologism.Lexicon
import Neologism.SortedNames

/-! # Weighted grammars

A grammar has a list of weighted rules for each nonterminal. A right-hand side names
nonterminals and classes; the two kinds of names do not meet, also when they are spelled
alike. Classes are named and not held, so what a rule means depends on a lexicon.

`validate` and `undefinedNonterminals` read a grammar in the order of names, so the order in
which rules of different nonterminals were added cannot be seen in their answers. -/

namespace Neologism

/-- One symbol of a right-hand side. -/
inductive Symbol where
  /-- Stands for one of the right-hand sides of the named nonterminal. -/
  | nonterminal (name : String)
  /-- Stands for one token of the named class. -/
  | cls (name : String)
deriving DecidableEq, Repr, Inhabited

/-- A weighted right-hand side. -/
structure Rule where
  symbols : List Symbol
  weight : Weight
deriving DecidableEq, Inhabited

/-- The rules of each nonterminal, in the order in which they were added. -/
structure Grammar where
  ruleSets : OrderedMap String (List Rule) := .empty
deriving DecidableEq, Inhabited

/-- What is wrong with a grammar. -/
inductive GrammarError where
  /-- A rule of the nonterminal was to have a weight that is no weight. -/
  | invalidWeight (nonterminal : String) (weight : Weight)
  /-- A rule of the nonterminal names a class that is not bound. -/
  | undefinedClass (nonterminal : String) (cls : String)
  /-- The root has no rules. -/
  | noRules (root : String)
deriving DecidableEq

/-- The text of a grammar error. -/
def GrammarError.message : GrammarError → String
  | .invalidWeight nonterminal weight =>
      "invalid weight " ++ Decimal.text weight ++ " in rule for $" ++ nonterminal
  | .undefinedClass nonterminal cls =>
      "rule for $" ++ nonterminal ++ " references undefined class #" ++ cls
  | .noRules root => "no rules defined for root nonterminal $" ++ root

/-- The sum of the weights of some rules, in order. -/
def totalWeight (rules : List Rule) : Weight :=
  rules.foldl (fun sum rule => sum + rule.weight) 0.0

namespace Grammar

/-- The rules of a nonterminal; one that was never given a rule has none. -/
def rules (g : Grammar) (nonterminal : String) : List Rule :=
  (g.ruleSets.get? nonterminal).getD []

/-- Whether a nonterminal was given a rule. -/
def contains (g : Grammar) (nonterminal : String) : Bool :=
  g.ruleSets.contains nonterminal

/-- The number of nonterminals that were given rules. -/
def size (g : Grammar) : Nat :=
  g.ruleSets.size

/-- Put a rule behind the rules of its nonterminal. -/
def addRule (g : Grammar) (nonterminal : String) (symbols : List Symbol) (weight : Weight) :
    Except GrammarError Grammar :=
  if weight.isValid then
    .ok ⟨g.ruleSets.upsert nonterminal fun old => old.getD [] ++ [⟨symbols, weight⟩]⟩
  else .error (.invalidWeight nonterminal weight)

/-- All symbols of all right-hand sides. -/
def symbols (g : Grammar) : List Symbol :=
  g.ruleSets.entries.flatMap fun e => e.2.flatMap Rule.symbols

/-- The nonterminals that occur in some rule and have none, in order of names. -/
def undefinedNonterminals (g : Grammar) : List String :=
  sortedNames <| g.symbols.filterMap fun
    | .nonterminal name => if g.contains name then none else some name
    | .cls _ => none

/-- The first class of a rule that is not bound. -/
def firstUnbound (lex : Lexicon) (symbols : List Symbol) : Option String :=
  symbols.findSome? fun
    | .nonterminal _ => none
    | .cls name => if lex.contains name then none else some name

/-- The least nonterminal with an unbound class in some rule, and the first such class. -/
def firstUndefinedClass (g : Grammar) (lex : Lexicon) : Option (String × String) :=
  (sortedNames g.ruleSets.keys).findSome? fun name =>
    (g.rules name).findSome? fun rule => (firstUnbound lex rule.symbols).map (name, ·)

/-- Check that the root has rules and that every class in a rule is bound. -/
def validate (g : Grammar) (root : String) (lex : Lexicon) : Except GrammarError Unit :=
  if (g.rules root).isEmpty then .error (.noRules root)
  else
    match g.firstUndefinedClass lex with
    | some (nonterminal, cls) => .error (.undefinedClass nonterminal cls)
    | none => .ok ()

@[simp]
theorem rules_empty (nonterminal : String) : ({} : Grammar).rules nonterminal = [] :=
  rfl

/-- A rule that is added comes last among those of its nonterminal. -/
theorem rules_addRule {g g' : Grammar} {nonterminal : String} {symbols : List Symbol}
    {weight : Weight} (h : g.addRule nonterminal symbols weight = .ok g') (other : String) :
    g'.rules other =
      if other = nonterminal then g.rules nonterminal ++ [⟨symbols, weight⟩]
      else g.rules other := by
  simp only [addRule] at h
  split at h
  · cases h
    simp only [rules, OrderedMap.get?_upsert]
    split <;> simp
  · cases h

end Grammar

end Neologism
