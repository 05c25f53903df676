import Neologism.Proofs.Model.Weights
import Neologism.Proofs.Session.Sketching

/-! # Where sampling fails

A sketch chooses rules and tokens by their weights. The weights of an accepted description are in
order one by one, so a choice fails for one reason only: a total that is infinite.

Main statements: `fill_eq_error_iff` for the slots of any model, and `sampling_fails_iff` for what
was accepted. -/

namespace Neologism

/-- The candidates for a slot behind some tokens have weights that are all defined and whose total
is infinite. -/
def Model.SlotOverflows (m : Model) (name : String) (trailing : List Token) : Prop :=
  ∃ c, m.lexicon.get? name = some c ∧
    (∀ e ∈ (m.phonotactics.narrow c trailing).entries, e.2.isNaN = false) ∧
      ((m.phonotactics.narrow c trailing).entries.foldl (fun sum e => sum + e.2)
        (0.0 : Weight)).isInf = true

namespace Session

variable {m : Model} {marker : String} {chosen : List Token} {names before rest : List String}
  {name : String} {src later : Source} {fault : Fault} {c : CharClass}

/-- Slots are filled one part after the other. -/
theorem fill_append {tokens : List Token}
    (h : fill m marker chosen before src = (.ok (some tokens), later)) :
    fill m marker chosen (before ++ rest) src = fill m marker tokens rest later := by
  induction before generalizing chosen src with
  | nil =>
      obtain ⟨htokens, rfl⟩ := Prod.mk.inj h
      obtain rfl := Option.some.inj (Except.ok.inj htokens)
      rfl
  | cons name before ih =>
      obtain ⟨c, token, weight, next, hc, hchoose, hrest⟩ := fill_cons_eq_some h
      rw [List.cons_append, fill_cons_of_choose hc hchoose]
      exact ih hrest

/-- Filling slots fails where the choice for one of them fails, after those before it were
filled. -/
theorem fill_eq_error_iff :
    (fill m marker chosen names src).1 = .error fault ↔
      ∃ before name rest tokens later c, names = before ++ name :: rest ∧
        fill m marker chosen before src = (.ok (some tokens), later) ∧
          m.lexicon.get? name = some c ∧
            (chooseWeighted Prod.snd (m.phonotactics.narrow c (marker :: tokens)).entries
              later).1 = .error fault := by
  constructor
  · intro h
    induction names generalizing chosen src with
    | nil => cases h
    | cons name names ih =>
        rw [fill] at h
        split at h
        · cases h
        · next c hc =>
            dsimp only at h
            split at h
            · next fault' next hchoose =>
                obtain rfl := Except.error.inj h
                exact ⟨[], name, names, chosen, src, c, rfl, rfl, hc, congrArg Prod.fst hchoose⟩
            · cases h
            · next token weight next hchoose =>
                obtain ⟨before, other, rest, tokens, later, d, rfl, hbefore, hd, hfails⟩ := ih h
                rw [← fill_cons_of_choose hc hchoose] at hbefore
                exact ⟨name :: before, other, rest, tokens, later, d, rfl, hbefore, hd, hfails⟩
  · rintro ⟨before, name, rest, tokens, later, c, rfl, hbefore, hc, hfails⟩
    rw [fill_append hbefore, fill, hc]
    dsimp only
    rcases hchoose : chooseWeighted Prod.snd
      (m.phonotactics.narrow c (marker :: tokens)).entries later with ⟨_ | _ | _, _⟩
    all_goals
      rw [hchoose] at hfails
      cases hfails
    rfl

/-- Some slot overflows after the slots before it were filled. -/
def FillOverflows (m : Model) (marker : String) (chosen : List Token) (names : List String)
    (src : Source) : Prop :=
  ∃ before name rest tokens later, names = before ++ name :: rest ∧
    fill m marker chosen before src = (.ok (some tokens), later) ∧
      m.SlotOverflows name (marker :: tokens)

/-- With the weights of an accepted description, the choice for a slot fails only if its total
overflows. -/
theorem fill_eq_error_iff_overflows (h : Weighed m.grammar m.lexicon m.phonotactics) :
    (fill m marker chosen names src).1 = .error fault ↔
      fault = .infiniteTotal ∧ FillOverflows m marker chosen names src := by
  rw [fill_eq_error_iff]
  constructor
  · rintro ⟨before, name, rest, tokens, later, c, hnames, hbefore, hc, hfails⟩
    obtain ⟨rfl, hsigns, htotal⟩ := chooseWeighted_eq_error_iff.mp hfails
    exact ⟨rfl, before, name, rest, tokens, later, hnames, hbefore, c, hc,
      fun e he => Doubles.isNaN_of_zero_le (hsigns e he), htotal⟩
  · rintro ⟨rfl, before, name, rest, tokens, later, hnames, hbefore, c, hc, hdefined, htotal⟩
    refine ⟨before, name, rest, tokens, later, c, hnames, hbefore, hc,
      chooseWeighted_eq_error_iff.mpr ⟨rfl, fun e he => ?_, htotal⟩⟩
    rcases (h.notBelowZero hc (marker :: tokens)).of_mem he with hsign | hnan
    · exact hsign
    · rw [hdefined e he] at hnan
      cases hnan

/-- With weights that were accepted, sampling fails for one reason besides a budget that does not
fit into a word: a total of accepted weights is infinite. A choice fails exactly if the total of its
rules is, an expansion exactly if its derivation comes to such a choice within the limits, and
filling slots exactly if the candidates of some slot have such a total. A sketch fails exactly if
its expansion does, or filling its slots. -/
theorem sampling_fails_iff {g : Grammar} (hg : g.Accepted) {description : Description}
    {config : Config} {m : Model} (hm : Model.ofDescription description config = .ok m) :
    (∀ name src fault, (g.choose name src).1 = .error fault ↔
      fault = .infiniteTotal ∧ g.Overflows name) ∧
    (∀ root limit src fault, (g.expand root limit src).1 = .error fault ↔
      (fault = .budget ∧ UInt64.size ≤ Grammar.budget limit) ∨
        (fault = .infiniteTotal ∧ Grammar.budget limit < UInt64.size ∧
          g.ReachesOverflow root limit src)) ∧
    m.grammar.Accepted ∧
    (∀ marker chosen names src fault, (fill m marker chosen names src).1 = .error fault ↔
      fault = .infiniteTotal ∧ FillOverflows m marker chosen names src) ∧
    ∀ s : Session, s.model = m → ∀ fault, s.sketch.1 = .error fault ↔
      (m.grammar.expand m.root (s.config.cap s.config.maxLength) s.source).1 = .error fault ∨
        ∃ slots later,
          m.grammar.expand m.root (s.config.cap s.config.maxLength) s.source =
              (.ok (some slots), later) ∧
            fault = .infiniteTotal ∧ FillOverflows m s.config.boundary [] slots later := by
  have hweighed := Model.weighed_of_ofDescription hm
  refine ⟨fun _ _ _ => hg.choose_eq_error_iff, fun _ _ _ _ => hg.expand_eq_error_iff,
    hweighed.rules, fun _ _ _ _ _ => fill_eq_error_iff_overflows hweighed, ?_⟩
  rintro s rfl fault
  simp only [sketch_eq_error_iff, fill_eq_error_iff_overflows hweighed]

/-- A class with two tokens of weight 1e308, written in place. -/
def overweight : Description :=
  [.production "S" [.inlineClass [("x", immense), ("y", immense)]] 1.0]

def overweightModel : Model where
  grammar := ⟨⟨[("S", [⟨[.cls "1"], 1.0⟩])], by decide⟩⟩
  lexicon := ⟨⟨[("1", ⟨[("x", immense), ("y", immense)], by decide⟩)], by decide⟩, 1⟩
  phonotactics := {}
  root := "S"

theorem ofDescription_overweight : Model.ofDescription overweight {} = .ok overweightModel := by
  decide +kernel

theorem slotOverflows_overweight :
    overweightModel.SlotOverflows "1" [Context.defaultMarker] := by
  refine ⟨⟨[("x", immense), ("y", immense)], by decide⟩, ?_, ?_, ?_⟩ <;> decide +kernel

/-- Two rules of weight 1e308 are accepted, and so is a class with two such tokens. The choice
between the rules fails, and so does the sketch that takes a token from the class. -/
theorem sampling_fails_iff_overweight :
    Grammar.overweight.Accepted ∧
      (Grammar.overweight.choose "S" default).1 = .error .infiniteTotal ∧
      Model.ofDescription overweight {} = .ok overweightModel ∧
      (ofModel overweightModel {} default).sketch.1 = .error .infiniteTotal := by
  obtain ⟨hchoose, -, -, -, hsketch⟩ :=
    sampling_fails_iff Grammar.accepted_overweight ofDescription_overweight
  refine ⟨Grammar.accepted_overweight, ?_, ofDescription_overweight, ?_⟩
  · exact (hchoose "S" default _).mpr ⟨rfl, Grammar.overflows_overweight⟩
  · refine (hsketch (ofModel overweightModel {} default) rfl _).mpr (.inr ?_)
    have hexpand : (overweightModel.grammar.expand "S" 32 default).1 = .ok (some ["1"]) := by
      decide +kernel
    exact ⟨["1"], _, Prod.ext hexpand rfl, rfl, [], "1", [], [], _, rfl, rfl,
      slotOverflows_overweight⟩

/-- Sampling with accepted weights need not come to an answer: neither a choice nor an expansion
within the budget nor a sketch. -/
theorem not_sampling_total :
    (¬ ∀ g : Grammar, g.Accepted → ∀ name src, ∃ answer, (g.choose name src).1 = .ok answer) ∧
    (¬ ∀ g : Grammar, g.Accepted → ∀ root limit src, Grammar.budget limit < UInt64.size →
      ∃ answer, (g.expand root limit src).1 = .ok answer) ∧
    ¬ ∀ description config m, Model.ofDescription description config = .ok m →
      ∀ marker names src, ∃ answer, (fill m marker [] names src).1 = .ok answer := by
  refine ⟨fun hchoose => ?_, fun hexpand => ?_, fun hfill => ?_⟩
  · have hfails : (Grammar.overweight.choose "S" default).1 = .error .infiniteTotal := by
      decide +kernel
    obtain ⟨answer, hanswer⟩ := hchoose _ Grammar.accepted_overweight "S" default
    rw [hfails] at hanswer
    cases hanswer
  · have hfails : (Grammar.overweight.expand "S" 5 default).1 = .error .infiniteTotal := by
      decide +kernel
    obtain ⟨answer, hanswer⟩ := hexpand _ Grammar.accepted_overweight "S" 5 default (by decide)
    rw [hfails] at hanswer
    cases hanswer
  · have hfails : (fill overweightModel Context.defaultMarker [] ["1"] default).1 =
        .error .infiniteTotal := by decide +kernel
    obtain ⟨answer, hanswer⟩ := hfill _ _ _ ofDescription_overweight Context.defaultMarker ["1"]
      default
    rw [hfails] at hanswer
    cases hanswer

end Session

end Neologism
