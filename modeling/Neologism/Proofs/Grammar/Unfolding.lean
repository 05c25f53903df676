import Neologism.Grammar.Expansion
import Neologism.Proofs.Grammar.Rewriting
import Neologism.Proofs.Random.Choice

/-! # Derivations that are driven by chance

A form that still has a nonterminal is rewritten at the first one, by the rule that is chosen with
what the source gives next. So chance leaves one way only, and the classes in front of a form stay
there.

Main statements: `Unfolds.of_add` for the one way, `Unfolds.rewritesFirst` says that it is a
leftmost derivation of the grammar, and `Crowded.unfolds` that too many classes are never fewer
again. -/

namespace Neologism.Grammar

open Relation

variable {g : Grammar} {n m : Nat} {names : List String} {name : String}
  {rest start form other : List Symbol} {src next later after : Source}

/-- Classes in front of a form are in front of its leading classes. -/
theorem leading_append (names : List String) (form : List Symbol) :
    leading (names.map Symbol.cls ++ form) = (names ++ (leading form).1, (leading form).2) := by
  induction names with
  | nil => rfl
  | cons first names ih => rw [List.map_cons, List.cons_append, leading, ih, List.cons_append]

theorem leading_names (names : List String) : leading (names.map Symbol.cls) = (names, none) := by
  simpa [leading] using leading_append names []

theorem leading_nonterminal (names : List String) (name : String) (rest : List Symbol) :
    leading (names.map Symbol.cls ++ .nonterminal name :: rest) = (names, some (name, rest)) := by
  simpa [leading] using leading_append names (.nonterminal name :: rest)

theorem names_ne_nonterminal (names others : List String) (name : String) (rest : List Symbol) :
    names.map Symbol.cls ≠ others.map Symbol.cls ++ .nonterminal name :: rest := by
  intro h
  have hleading := congrArg (fun form => (leading form).2) h
  rw [leading_names, leading_nonterminal] at hleading
  cases hleading

/-- A form has its first nonterminal in one place only. -/
theorem nonterminal_inj {others : List String} {other : String} {behind : List Symbol}
    (h : names.map Symbol.cls ++ .nonterminal name :: rest =
      others.map Symbol.cls ++ .nonterminal other :: behind) :
    names = others ∧ name = other ∧ rest = behind := by
  have hleading := congrArg leading h
  rw [leading_nonterminal, leading_nonterminal] at hleading
  obtain ⟨hnames, hopen⟩ := Prod.mk.inj hleading
  exact ⟨hnames, Prod.mk.inj (Option.some.inj hopen)⟩

/-- A form is a row of classes, or has a first nonterminal behind a row of classes. -/
theorem names_or_nonterminal (form : List Symbol) :
    (∃ names : List String, form = names.map Symbol.cls) ∨
      ∃ (names : List String) (name : String) (rest : List Symbol),
        form = names.map Symbol.cls ++ .nonterminal name :: rest := by
  induction form with
  | nil => exact .inl ⟨[], rfl⟩
  | cons symbol form ih =>
      cases symbol with
      | nonterminal name => exact .inr ⟨[], name, form, rfl⟩
      | cls first =>
          rcases ih with ⟨names, rfl⟩ | ⟨names, name, rest, rfl⟩
          · exact .inl ⟨first :: names, rfl⟩
          · exact .inr ⟨first :: names, name, rest, rfl⟩

/-- In a number of leftmost steps a form becomes another one. The rule of each step is what is
chosen next from the source. -/
inductive Unfolds (g : Grammar) : Nat → List Symbol → Source → List Symbol → Source → Prop where
  | refl (form : List Symbol) (src : Source) : Unfolds g 0 form src form src
  | step {n : Nat} {names : List String} {name : String} {rule : Rule} {rest form : List Symbol}
      {src next after : Source} :
      g.choose name src = (.ok (some rule), next) →
      Unfolds g n (names.map Symbol.cls ++ (rule.symbols ++ rest)) next form after →
      Unfolds g (n + 1) (names.map Symbol.cls ++ .nonterminal name :: rest) src form after

namespace Unfolds

/-- A form without nonterminals is left as it is. -/
theorem of_names (h : g.Unfolds n (names.map Symbol.cls) src form after) :
    n = 0 ∧ form = names.map Symbol.cls ∧ after = src := by
  generalize hstart : names.map Symbol.cls = start at h
  cases h with
  | refl => exact ⟨rfl, rfl, rfl⟩
  | step => exact absurd hstart (names_ne_nonterminal _ _ _ _)

/-- The first step chooses for the first nonterminal. -/
theorem of_nonterminal
    (h : g.Unfolds (n + 1) (names.map Symbol.cls ++ .nonterminal name :: rest) src form after) :
    ∃ rule next, g.choose name src = (.ok (some rule), next) ∧
      g.Unfolds n (names.map Symbol.cls ++ (rule.symbols ++ rest)) next form after := by
  generalize hstart : names.map Symbol.cls ++ .nonterminal name :: rest = start at h
  cases h with
  | @step _ _ _ rule _ _ _ next _ hchoose hrest =>
      obtain ⟨rfl, rfl, rfl⟩ := nonterminal_inj hstart
      exact ⟨rule, next, hchoose, hrest⟩

/-- Chance leaves one way only: more steps from a form pass through where fewer steps lead. -/
theorem of_add (h : g.Unfolds (n + m) start src other after)
    (hfirst : g.Unfolds n start src form later) : g.Unfolds m form later other after := by
  induction hfirst with
  | refl => rwa [Nat.zero_add] at h
  | @step n _ _ _ _ _ _ _ _ hchoose _ ih =>
      rw [Nat.add_right_comm] at h
      obtain ⟨rule, next, hchoose', hrest⟩ := h.of_nonterminal
      rw [hchoose] at hchoose'
      cases hchoose'
      exact ih hrest

theorem eq_of_zero (h : g.Unfolds 0 start src form after) : form = start ∧ after = src := by
  cases h
  exact ⟨rfl, rfl⟩

/-- Steps that are driven by chance are leftmost steps of the grammar. -/
theorem rewritesFirst (h : g.Unfolds n start src form after) :
    ReflTransGen g.RewritesFirst start form := by
  induction h with
  | refl => exact .refl
  | step hchoose _ ih => exact .head (.replace _ _ (mem_of_chooseWeighted hchoose)) ih

end Unfolds

/-- No step leads on from the form. -/
def Halted (g : Grammar) (form : List Symbol) (src : Source) : Prop :=
  ∀ n other after, ¬ g.Unfolds (n + 1) form src other after

theorem halted_names : g.Halted (names.map Symbol.cls) src :=
  fun n _ _ h => absurd h.of_names.1 n.succ_ne_zero

theorem halted_of_choose (h : ∀ rule, (g.choose name src).1 ≠ .ok (some rule)) :
    g.Halted (names.map Symbol.cls ++ .nonterminal name :: rest) src := by
  intro n other after hunfolds
  obtain ⟨rule, next, hchoose, -⟩ := hunfolds.of_nonterminal
  exact h rule (congrArg Prod.fst hchoose)

theorem Unfolds.le_of_halted (h : g.Unfolds n start src form later)
    (h' : g.Unfolds m start src other after) (hhalted : g.Halted other after) : n ≤ m := by
  refine Nat.le_of_not_lt fun hmore => ?_
  obtain ⟨k, rfl⟩ := Nat.exists_eq_add_of_lt hmore
  rw [Nat.add_assoc] at h
  exact hhalted k form later (h.of_add h')

/-- More classes than a limit allows stand in front of the form. -/
def Crowded (limit : Nat) (form : List Symbol) : Prop :=
  ∃ (names : List String) (rest : List Symbol),
    form = names.map Symbol.cls ++ rest ∧ limit < names.length

theorem crowded_iff {limit : Nat} : Crowded limit form ↔ limit < (leading form).1.length := by
  constructor
  · rintro ⟨names, rest, rfl, hlimit⟩
    rw [leading_append, List.length_append]
    exact Nat.lt_add_right _ hlimit
  · intro hlimit
    rcases names_or_nonterminal form with ⟨names, rfl⟩ | ⟨names, name, rest, rfl⟩
    · rw [leading_names] at hlimit
      exact ⟨names, [], (List.append_nil _).symm, hlimit⟩
    · rw [leading_nonterminal] at hlimit
      exact ⟨names, _, rfl, hlimit⟩

theorem not_crowded_names {limit : Nat} (h : names.length ≤ limit) :
    ¬ Crowded limit (names.map Symbol.cls) := by
  rwa [crowded_iff, leading_names, Nat.not_lt]

theorem not_crowded_nonterminal {limit : Nat} (h : names.length ≤ limit) :
    ¬ Crowded limit (names.map Symbol.cls ++ .nonterminal name :: rest) := by
  rwa [crowded_iff, leading_nonterminal, Nat.not_lt]

/-- Classes in front of a form stay there. -/
theorem Crowded.unfolds {limit : Nat} (hform : Crowded limit start)
    (h : g.Unfolds n start src form after) : Crowded limit form := by
  induction h with
  | refl => exact hform
  | @step _ names _ rule rest _ _ _ _ _ _ ih =>
      rw [crowded_iff, leading_nonterminal] at hform
      exact ih ⟨names, rule.symbols ++ rest, rfl, hform⟩

/-- A form has too many classes in front, is a row of classes, or has a first nonterminal. -/
theorem form_cases (limit : Nat) (form : List Symbol) :
    Crowded limit form ∨
      (∃ names : List String, names.length ≤ limit ∧ form = names.map Symbol.cls) ∨
        ∃ (names : List String) (name : String) (rest : List Symbol),
          names.length ≤ limit ∧ form = names.map Symbol.cls ++ .nonterminal name :: rest := by
  by_cases hcrowded : Crowded limit form
  · exact .inl hcrowded
  rw [crowded_iff, Nat.not_lt] at hcrowded
  rcases names_or_nonterminal form with ⟨names, rfl⟩ | ⟨names, name, rest, rfl⟩
  · rw [leading_names] at hcrowded
    exact .inr (.inl ⟨names, hcrowded, rfl⟩)
  · rw [leading_nonterminal] at hcrowded
    exact .inr (.inr ⟨names, name, rest, hcrowded, rfl⟩)

end Neologism.Grammar
