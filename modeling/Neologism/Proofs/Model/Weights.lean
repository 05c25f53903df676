import Neologism.Proofs.Grammar.Weights
import Neologism.Proofs.Model.Drafting
import Neologism.Proofs.OrderedMap

/-! # Weights in models that were accepted

The weights that a description writes are looked at one by one, and classes and conditions add them
up. So no weight of a class or of a condition is below zero or undefined. Candidates are narrowed by
products of such weights, which may be undefined, but are not below zero either.

Main statements: `Model.weighed_of_ofDescription` and `Weighed.notBelowZero`. -/

namespace Neologism

open OrderedMap

/-- No weight of the table is below zero or undefined. -/
abbrev NonNegative (t : Table) : Prop :=
  t.All fun weight => 0.0 ≤ weight

theorem NonNegative.add {t : Table} (h : NonNegative t) {weight : Weight} (hweight : 0.0 ≤ weight)
    (token : Token) : NonNegative (t.add token weight) := by
  refine All.upsert h (fun old hold => ?_) token
  cases old with
  | none => exact hweight
  | some before => exact Doubles.zero_le_add (hold before rfl) hweight

namespace CharClass

theorem nonNegative_of_addLiteral {t : Table} {literal : ClassLiteral} {c : CharClass}
    (ht : NonNegative t) (h : addLiteral t literal = .ok c) : NonNegative c := by
  induction literal generalizing t with
  | nil =>
      obtain rfl := Except.ok.inj h
      exact ht
  | cons e literal ih =>
      rw [addLiteral] at h
      split at h
      · next hvalid => exact ih (ht.add (Doubles.zero_le_of_isValid hvalid) e.1) h
      · cases h

theorem nonNegative_of_ofLiteral {literal : ClassLiteral} {c : CharClass}
    (h : ofLiteral literal = .ok c) : NonNegative c :=
  nonNegative_of_addLiteral (all_empty _) h

theorem nonNegative_mergeSum {c other : CharClass} (h : NonNegative c)
    (hother : NonNegative other) : NonNegative (c.mergeSum other) :=
  List.foldlRecOn other.entries _ h fun _ ht e he => NonNegative.add ht (hother.of_mem he) e.1

end CharClass

/-- A condition adds its weights to those that are there. -/
theorem Phonotactics.nonNegative_addCondition {p : Phonotactics} {c : CharClass}
    (h : p.conditions.All NonNegative) (hc : NonNegative c) (context : String) :
    (p.addCondition context c).conditions.All NonNegative := by
  refine All.upsert h (fun old hold => ?_) context
  cases old with
  | none => exact hc
  | some before => exact CharClass.nonNegative_mergeSum (hold before rfl) hc

/-- The rules were accepted one by one, and no weight of a class or of a condition is below zero or
undefined. -/
structure Weighed (g : Grammar) (lex : Lexicon) (p : Phonotactics) : Prop where
  rules : g.Accepted
  classes : lex.classes.All NonNegative
  conditions : p.conditions.All NonNegative

namespace Draft

variable {marker : String} {lex lex' : Lexicon} {items : List ProductionItem} {ss : List Symbol}
  {d d' : Draft} {command : Command} {spec : ClassSpec} {c : CharClass}

theorem Spells.nonNegative (h : Spells lex items ss lex') (hlex : lex.classes.All NonNegative) :
    lex'.classes.All NonNegative := by
  induction h with
  | nil => exact hlex
  | named _ _ ih => exact ih hlex
  | inlineClass hliteral _ ih =>
      exact ih (All.upsert hlex (fun _ _ => CharClass.nonNegative_of_ofLiteral hliteral) _)

theorem nonNegative_of_resolve (hlex : lex.classes.All NonNegative)
    (h : resolve lex spec = .ok c) : NonNegative c := by
  cases spec with
  | inline literal => exact CharClass.nonNegative_of_ofLiteral h
  | ref name =>
      rw [resolve, Lexicon.lookup] at h
      split at h
      · next found hfound =>
          obtain rfl := Except.ok.inj h
          exact hlex name found hfound
      · cases h

theorem Executes.weighed (h : Executes marker d command d')
    (hd : Weighed d.grammar d.lexicon d.phonotactics) :
    Weighed d'.grammar d'.lexicon d'.phonotactics := by
  cases h with
  | production hspells hgrammar =>
      exact ⟨hd.rules.addRule hgrammar, hspells.nonNegative hd.classes, hd.conditions⟩
  | @definition name _ _ hspec =>
      have hc := nonNegative_of_resolve hd.classes hspec
      exact ⟨hd.rules, All.upsert hd.classes (fun _ _ => hc) name, hd.conditions⟩
  | @condition _ _ _ texts hrestriction =>
      obtain ⟨-, hspec, -⟩ := restriction_eq_ok hrestriction
      have hc := nonNegative_of_resolve hd.classes hspec
      refine ⟨hd.rules, hd.classes, ?_⟩
      exact List.foldlRecOn (motive := fun p : Phonotactics => p.conditions.All NonNegative) texts _
        hd.conditions fun _ hp text _ => Phonotactics.nonNegative_addCondition hp hc text
  | @exclusion _ _ _ texts =>
      refine ⟨hd.rules, hd.classes, ?_⟩
      exact List.foldlRecOn (motive := fun p : Phonotactics => p.conditions.All NonNegative) texts _
        hd.conditions fun _ hp _ _ => hp

theorem weighed_of_run {description : Description} (h : run marker {} description = .ok d) :
    Weighed d.grammar d.lexicon d.phonotactics := by
  refine run_induct ⟨.empty, all_empty _, all_empty _⟩ ?_ h
  intro _ _ _ _ _ ih hstep
  exact hstep.weighed ih

end Draft

theorem Model.weighed_of_ofDescription {description : Description} {config : Config} {m : Model}
    (h : Model.ofDescription description config = .ok m) :
    Weighed m.grammar m.lexicon m.phonotactics := by
  obtain ⟨d, hrun, hfreeze⟩ := Model.ofDescription_eq_ok h
  obtain ⟨hgrammar, hlexicon, hphonotactics, -⟩ := Draft.freeze_eq_ok hfreeze
  rw [hgrammar, hlexicon, hphonotactics]
  exact Draft.weighed_of_run hrun

/-- A weight that is not below zero, or is undefined. -/
def NotBelowZero (w : Weight) : Prop :=
  0.0 ≤ w ∨ w.isNaN = true

theorem NotBelowZero.mul {w factor : Weight} (h : NotBelowZero w) (hfactor : 0.0 ≤ factor) :
    NotBelowZero (w * factor) := by
  rcases h with hsign | hnan
  · exact Doubles.zero_le_mul_or_isNaN hsign hfactor
  · exact .inr (Doubles.isNaN_mul hnan factor)

/-- Narrowing by one context multiplies by weights that are not below zero. -/
theorem Phonotactics.notBelowZero_narrowBy {p : Phonotactics} {t : Table}
    (hp : p.conditions.All NonNegative) (ht : t.All NotBelowZero) (context : String) :
    (p.narrowBy t context).All NotBelowZero := by
  intro token w h
  rw [get?_narrowBy] at h
  obtain ⟨before, hbefore, h⟩ := Option.bind_eq_some_iff.mp h
  have hsign := ht token before hbefore
  split at h
  · cases h
  · split at h
    · rwa [← Option.some.inj h]
    · next c hc =>
        obtain ⟨factor, hfactor, rfl⟩ := Option.map_eq_some_iff.mp h
        exact hsign.mul (hp context c hc token factor hfactor)

/-- A candidate weighs nothing below zero, but its weight may be undefined. -/
theorem Weighed.notBelowZero {g : Grammar} {lex : Lexicon} {p : Phonotactics}
    (h : Weighed g lex p) {name : String} {c : CharClass} (hc : lex.get? name = some c)
    (trailing : List Token) : (p.narrow c trailing).All NotBelowZero := by
  have hbase : c.All NotBelowZero := fun token w hw => .inl (h.classes name c hc token w hw)
  exact List.foldlRecOn (Phonotactics.trailingTexts trailing) p.narrowBy hbase
    fun _ ht context _ => Phonotactics.notBelowZero_narrowBy h.conditions ht context

end Neologism
