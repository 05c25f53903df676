import Neologism.Proofs.Doubles
import Neologism.Proofs.Phonotactics.Merging

/-! # Classes of literals

A literal is read pair by pair. The first weight that may not be written stops the reading; without
one, the pairs of a token add up in order, wherever they stand.

Main statements: `ofLiteral_eq_error_iff` for the pair that is blamed, `sums_of_ofLiteral` for the
class, and `literals_accumulate`, which puts them together and adds what two classes sum up to. -/

namespace Neologism

/-- The weight may not be written: it is below zero, undefined or infinite. -/
def Weight.Improper (w : Weight) : Prop :=
  w < 0.0 ∨ w.isNaN = true ∨ w.isInf = true

theorem Weight.isValid_eq_false_iff (w : Weight) : w.isValid = false ↔ w.Improper := by
  rw [isValid, Bool.and_eq_false_iff, Doubles.isFinite_eq_false_iff, Bool.not_eq_false',
    decide_eq_true_iff, or_comm, Improper]

theorem Weight.isValid_iff (w : Weight) : w.isValid = true ↔ ¬ w.Improper := by
  rw [← isValid_eq_false_iff, Bool.not_eq_false]

namespace CharClass

/-- The weights that a literal gives to a token, in order. -/
def weightsOf (literal : ClassLiteral) (token : Token) : List Weight :=
  (literal.filter (·.1 = token)).map Prod.snd

/-- Weights added up from left to right; of none there is no sum. -/
def sum? : List Weight → Option Weight
  | [] => none
  | w :: ws => some (ws.foldl (· + ·) w)

/-- The tokens of a literal, each where it came first, with the sums of their weights. -/
structure Sums (literal : ClassLiteral) (c : CharClass) : Prop where
  keys_eq : c.keys = (literal.map Prod.fst).eraseDups
  get?_eq : ∀ token, c.get? token = sum? (weightsOf literal token)

variable {literal other : ClassLiteral} {c d : CharClass}

theorem exists_firstInvalid (literal : ClassLiteral) :
    (∀ p ∈ literal, p.2.isValid = true) ∨
      ∃ good token weight rest, literal = good ++ (token, weight) :: rest ∧
        (∀ p ∈ good, p.2.isValid = true) ∧ weight.isValid = false := by
  induction literal with
  | nil => exact .inl (by simp)
  | cons p literal ih =>
      cases hp : p.2.isValid with
      | false => exact .inr ⟨[], p.1, p.2, literal, rfl, by simp, hp⟩
      | true =>
          rcases ih with hall | ⟨good, token, weight, rest, rfl, hgood, hbad⟩
          · exact .inl (List.forall_mem_cons.mpr ⟨hp, hall⟩)
          · exact .inr ⟨p :: good, token, weight, rest, rfl,
              List.forall_mem_cons.mpr ⟨hp, hgood⟩, hbad⟩

/-- Every literal is the class that its pairs are folded into, or an error for the first of its pairs
with an improper weight. -/
theorem ofLiteral_cases (literal : ClassLiteral) :
    ((∀ p ∈ literal, ¬ p.2.Improper) ∧
        ofLiteral literal = .ok (literal.foldl (fun t p => t.add p.1 p.2) .empty)) ∨
      ∃ good token weight rest, literal = good ++ (token, weight) :: rest ∧
        (∀ p ∈ good, ¬ p.2.Improper) ∧ weight.Improper ∧
          ofLiteral literal = .error (.invalidWeight token weight) := by
  rcases exists_firstInvalid literal with
    hall | ⟨good, token, weight, rest, rfl, hgood, hbad⟩
  · exact .inl ⟨fun p hp => (Weight.isValid_iff p.2).mp (hall p hp), ofLiteral_eq_ok literal hall⟩
  · exact .inr ⟨good, token, weight, rest, rfl,
      fun p hp => (Weight.isValid_iff p.2).mp (hgood p hp), weight.isValid_eq_false_iff.mp hbad,
      ofLiteral_eq_error good token weight rest hgood hbad⟩

theorem ofLiteral_eq_error_iff (e : ClassError) :
    ofLiteral literal = .error e ↔
      ∃ good token weight rest, literal = good ++ (token, weight) :: rest ∧
        (∀ p ∈ good, ¬ p.2.Improper) ∧ weight.Improper ∧ e = .invalidWeight token weight := by
  constructor
  · intro h
    rcases ofLiteral_cases literal with
      ⟨-, hok⟩ | ⟨good, token, weight, rest, hsplit, hgood, hbad, herror⟩
    · exact nomatch hok.symm.trans h
    · exact ⟨good, token, weight, rest, hsplit, hgood, hbad,
        Except.error.inj (h.symm.trans herror)⟩
  · rintro ⟨good, token, weight, rest, rfl, hgood, hbad, rfl⟩
    exact ofLiteral_eq_error good token weight rest
      (fun p hp => (Weight.isValid_iff p.2).mpr (hgood p hp))
      (weight.isValid_eq_false_iff.mpr hbad)

theorem exists_error_iff :
    (∃ e, ofLiteral literal = .error e) ↔ ∃ p ∈ literal, p.2.Improper := by
  rcases ofLiteral_cases literal with
    ⟨hall, hok⟩ | ⟨good, token, weight, rest, rfl, -, hbad, herror⟩
  · constructor
    · rintro ⟨e, herror⟩
      exact nomatch hok.symm.trans herror
    · rintro ⟨p, hp, hbad⟩
      exact absurd hbad (hall p hp)
  · exact ⟨fun _ => ⟨(token, weight), by simp, hbad⟩, fun _ => ⟨_, herror⟩⟩

theorem foldl_add_weights (w : Weight) (pairs : ClassLiteral) :
    pairs.foldl (fun old p => some (old.elim p.2 (· + p.2))) (some w) =
      sum? (w :: pairs.map Prod.snd) := by
  induction pairs generalizing w with
  | nil => rfl
  | cons p pairs ih => exact ih (w + p.2)

theorem sums_foldl_add (literal : ClassLiteral) :
    Sums literal (literal.foldl (fun t p => t.add p.1 p.2) .empty) where
  keys_eq := OrderedMap.keys_foldl_upsert Prod.fst _ .empty literal
  get?_eq token := by
    refine (OrderedMap.get?_foldl_upsert Prod.fst _ .empty literal token).trans ?_
    rw [weightsOf]
    cases literal.filter (·.1 = token) with
    | nil => rfl
    | cons p pairs =>
        rw [List.map_cons, ← foldl_add_weights]
        refine List.foldl_ext _ _ _ fun old p _ => ?_
        cases old <;> rfl

theorem sums_of_ofLiteral (h : ofLiteral literal = .ok c) : Sums literal c := by
  rcases ofLiteral_cases literal with ⟨-, hok⟩ | ⟨good, token, weight, rest, -, -, -, herror⟩
  · exact Except.ok.inj (hok.symm.trans h) ▸ sums_foldl_add literal
  · exact nomatch herror.symm.trans h

theorem Sums.keys_mergeSum (hc : Sums literal c) (hd : Sums other d) :
    (c.mergeSum d).keys = ((literal ++ other).map Prod.fst).eraseDups := by
  have hkeys : (c.mergeSum d).keys = (c.keys ++ d.keys).eraseDups :=
    Phonotactics.Kind.keys_into .condition d c
  rw [hkeys, hc.keys_eq, hd.keys_eq, OrderedMap.eraseDups_append_left,
    OrderedMap.eraseDups_append_right, List.map_append]

theorem get?_mergeSum (c d : CharClass) (token : Token) :
    (c.mergeSum d).get? token = sum? ((c.get? token).toList ++ (d.get? token).toList) := by
  have hget : (c.mergeSum d).get? token =
      Phonotactics.Kind.join .condition (c.get? token) (d.get? token) :=
    Phonotactics.Kind.get?_into .condition d c token
  rw [hget]
  cases c.get? token <;> cases d.get? token <;> rfl

/-- A literal is refused exactly when one of its weights is improper, and the first pair with such a
weight is blamed. The class of any other literal has its tokens, each where it came first, with the
sums of their weights in order. Two classes sum up to the tokens of both literals, each where it
came first in the one behind the other, with the sums of their weights in the two classes. -/
theorem literals_accumulate (literal other : ClassLiteral) :
    ((∃ e, ofLiteral literal = .error e) ↔ ∃ p ∈ literal, p.2.Improper) ∧
      (∀ e, ofLiteral literal = .error e ↔
        ∃ good token weight rest, literal = good ++ (token, weight) :: rest ∧
          (∀ p ∈ good, ¬ p.2.Improper) ∧ weight.Improper ∧ e = .invalidWeight token weight) ∧
      ∀ c, ofLiteral literal = .ok c → Sums literal c ∧
        ∀ d, ofLiteral other = .ok d →
          (c.mergeSum d).keys = ((literal ++ other).map Prod.fst).eraseDups ∧
            ∀ token, (c.mergeSum d).get? token =
              sum? ((c.get? token).toList ++ (d.get? token).toList) := by
  refine ⟨exists_error_iff, ofLiteral_eq_error_iff, fun c hc => ?_⟩
  have hsums : Sums literal c := sums_of_ofLiteral hc
  exact ⟨hsums, fun d hd => ⟨hsums.keys_mergeSum (sums_of_ofLiteral hd), get?_mergeSum c d⟩⟩

/-- A literal that names a token twice, around another one, and a literal that shares one token with
it. -/
theorem literals_accumulate_repeated :
    let literal : ClassLiteral := [("k", 1.0), ("a", 0.5), ("k", 2.0)]
    let other : ClassLiteral := [("t", 1.0), ("a", 0.25)]
    ∃ c d, ofLiteral literal = .ok c ∧ ofLiteral other = .ok d ∧
      c.keys = ["k", "a"] ∧ c.get? "k" = some (1.0 + 2.0) ∧
        (c.mergeSum d).keys = ["k", "a", "t"] ∧
          (c.mergeSum d).get? "a" = some (0.5 + 0.25) := by
  intro literal other
  have hliteral : ofLiteral literal = .ok ⟨[("k", 3.0), ("a", 0.5)], by decide⟩ := by
    decide +kernel
  have hother : ofLiteral other = .ok ⟨[("t", 1.0), ("a", 0.25)], by decide⟩ := by
    decide +kernel
  obtain ⟨-, -, hclass⟩ := literals_accumulate literal other
  obtain ⟨hsums, hmerge⟩ := hclass _ hliteral
  obtain ⟨hkeys, hget⟩ := hmerge _ hother
  exact ⟨_, _, hliteral, hother, hsums.keys_eq.trans (by decide), (hsums.get?_eq "k").trans rfl,
    hkeys.trans (by decide), (hget "a").trans (by decide +kernel)⟩

end CharClass

end Neologism
