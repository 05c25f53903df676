import Neologism.Proofs.Grammar.Expansion

/-! # Choices in grammars that were accepted

A rule is accepted with its own weight only, so the weights of the rules of a nonterminal are finite
and not below zero, but their total may overflow. That is the one way in which a choice fails.

Main statements: `Accepted.choose_eq_error_iff`, and `Accepted.expand_eq_error_iff` for
expansions. -/

namespace Neologism.Grammar

/-- The grammars that come about by adding rules. -/
inductive Accepted : Grammar → Prop where
  | empty : Accepted {}
  | addRule {g g' : Grammar} {nonterminal : String} {symbols : List Symbol} {weight : Weight} :
      Accepted g → g.addRule nonterminal symbols weight = .ok g' → Accepted g'

/-- The total of the rules of a nonterminal is infinite. -/
def Overflows (g : Grammar) (name : String) : Prop :=
  (totalWeight (g.rules name)).isInf = true

variable {g g' : Grammar} {name root : String} {limit : UInt64} {src : Source} {fault : Fault}

theorem isValid_of_addRule {symbols : List Symbol} {weight : Weight}
    (h : g.addRule name symbols weight = .ok g') : weight.isValid = true := by
  rw [addRule] at h
  split at h
  · assumption
  · cases h

namespace Accepted

theorem isValid (h : g.Accepted) {rule : Rule} (hrule : rule ∈ g.rules name) :
    rule.weight.isValid = true := by
  induction h with
  | empty => cases hrule
  | addRule _ hadd ih =>
      rw [rules_addRule hadd] at hrule
      split at hrule
      · next heq =>
          subst heq
          rcases List.mem_append.mp hrule with hold | hnew
          · exact ih hold
          · obtain rfl := List.mem_singleton.mp hnew
            exact isValid_of_addRule hadd
      · exact ih hrule

theorem choose_eq_error_iff (h : g.Accepted) :
    (g.choose name src).1 = .error fault ↔ fault = .infiniteTotal ∧ g.Overflows name := by
  have hsigns : ∀ rule ∈ g.rules name, 0.0 ≤ rule.weight :=
    fun rule hrule => Doubles.zero_le_of_isValid (h.isValid hrule)
  rw [choose, chooseWeighted_eq_error_iff, and_iff_right hsigns]
  rfl

end Accepted

/-- The first rule of two that are too heavy together. -/
def heavy : Grammar :=
  ⟨⟨[("S", [⟨[.cls "a"], immense⟩])], by decide⟩⟩

theorem accepted_overweight : overweight.Accepted := by
  have hfirst : Grammar.addRule {} "S" [.cls "a"] immense = .ok heavy := by decide +kernel
  have hsecond : heavy.addRule "S" [.cls "a"] immense = .ok overweight := by decide +kernel
  exact (Accepted.empty.addRule hfirst).addRule hsecond

theorem overflows_overweight : overweight.Overflows "S" := by
  rw [Overflows]
  decide +kernel

/-- Within its limits the derivation of the root that the source drives comes to a nonterminal
whose total is infinite. -/
def ReachesOverflow (g : Grammar) (root : String) (limit : UInt64) (src : Source) : Prop :=
  ∃ (made : Nat) (names : List String) (name : String) (rest : List Symbol) (later : Source),
    made < Grammar.budget limit ∧ names.length ≤ limit.toNat ∧
      g.Unfolds made [.nonterminal root] src (names.map Symbol.cls ++ .nonterminal name :: rest)
        later ∧ g.Overflows name

theorem Accepted.expand_eq_error_iff (h : g.Accepted) :
    (g.expand root limit src).1 = .error fault ↔
      (fault = .budget ∧ UInt64.size ≤ Grammar.budget limit) ∨
        (fault = .infiniteTotal ∧ Grammar.budget limit < UInt64.size ∧
          g.ReachesOverflow root limit src) := by
  by_cases hsize : Grammar.budget limit < UInt64.size
  · have hopen : ¬ UInt64.size ≤ Grammar.budget limit := Nat.not_le.mpr hsize
    simp only [hopen, hsize, and_false, false_or, true_and]
    constructor
    · intro hfault
      obtain ⟨made, names, name, rest, later, hmade, hroom, hunfolds, hchoose⟩ :=
        (Grammar.expand_eq_error_iff hsize).mp (Prod.ext hfault rfl)
      obtain ⟨rfl, hoverflows⟩ := h.choose_eq_error_iff.mp (congrArg Prod.fst hchoose)
      exact ⟨rfl, made, names, name, rest, later, hmade, hroom, hunfolds, hoverflows⟩
    · rintro ⟨rfl, made, names, name, rest, later, hmade, hroom, hunfolds, hoverflows⟩
      have hchoose : (g.choose name later).1 = .error .infiniteTotal :=
        h.choose_eq_error_iff.mpr ⟨rfl, hoverflows⟩
      exact congrArg Prod.fst ((Grammar.expand_eq_error_iff hsize).mpr
        ⟨made, names, name, rest, later, hmade, hroom, hunfolds, Prod.ext hchoose rfl⟩)
  · simp [expand, hsize, Nat.not_lt.mp hsize, eq_comm]

end Neologism.Grammar
