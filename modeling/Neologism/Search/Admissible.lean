import Neologism.Grammar.Derivation
import Neologism.Model

/-! # Admissible words

What a search looks for, said without any search: the words that the grammar derives and that
the phonotactics let through token by token. -/

namespace Neologism

/-- Nothing that stands before keeps the token from coming next: no text that the sequence ends
in excludes it, and each one with a condition allows it. -/
def Phonotactics.Permits (p : Phonotactics) (trailing : List Token) (token : Token) : Prop :=
  ∀ context ∈ Phonotactics.trailingTexts trailing,
    (∀ c, p.exclusions.get? context = some c → c.contains token = false) ∧
      (∀ c, p.conditions.get? context = some c → c.contains token = true)

/-- Every token of the rest is permitted after the marker and the tokens before it. -/
def Phonotactics.PermitsAll (p : Phonotactics) (marker : String) (before : List Token) :
    List Token → Prop
  | [] => True
  | token :: rest =>
      p.Permits (marker :: before) token ∧ p.PermitsAll marker (before ++ [token]) rest

/-- The tokens are a word of the model: its root derives them, and each is permitted where it
stands. -/
def Model.Admissible (m : Model) (marker : String) (tokens : List Token) : Prop :=
  m.grammar.Derives m.lexicon [.nonterminal m.root] tokens ∧
    m.phonotactics.PermitsAll marker [] tokens

end Neologism
