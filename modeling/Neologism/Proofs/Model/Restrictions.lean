import Neologism.Proofs.Model.References
import Neologism.Proofs.Phonotactics.Contexts
import Neologism.Proofs.Phonotactics.Tables

/-! # What a condition or an exclusion does to the candidates

A condition or an exclusion is taken out of a description, and the candidates with it are compared
with those without it. They differ behind the ends of a word that set the command off, and there in
what the command says about the tokens of its class.

The command is meant for the ends that meet the places of its context one to one. What sets it off
is their spelling. Main statement: `restriction_takes_effect`, for the spelling in general and for
the places where spellings can be read back. `not_restriction_by_place` is a description in which
they cannot. -/

namespace Neologism

open Context

variable {marker : String} {texts : List String} {places : List Slot} {c : CharClass}
  {command : Command} {context : List ContextItem} {spec : ClassSpec} {p p' : Phonotactics}

namespace Command

/-- The context and the class of a condition or an exclusion. -/
def restriction? : Command → Option (List ContextItem × ClassSpec)
  | .condition context spec | .exclusion context spec => some (context, spec)
  | .production .. | .definition .. => none

/-- The texts after which the command writes a condition. -/
def onConditions (texts : List String) : Command → List String
  | .condition .. => texts
  | _ => []

/-- The texts after which the command writes an exclusion. -/
def onExclusions (texts : List String) : Command → List String
  | .exclusion .. => texts
  | _ => []

/-- A context lets a token through once a command with the class has had its say about it. An
exclusion holds back the tokens of the class. A condition holds back all tokens but those of the
class and those of the conditions that are there. -/
def Admits (command : Command) (c : CharClass) (p : Phonotactics) (text : String) (token : Token) :
    Prop :=
  match command with
  | .exclusion .. => p.Admits text token ∧ c.contains token = false
  | .condition .. => ¬ Phonotactics.Lists p.exclusions text token ∧
      (c.contains token = true ∨ Phonotactics.Lists p.conditions text token)
  | .production .. | .definition .. => p.Admits text token

/-- The second phonotactics has the command besides what the first one has. Behind a word of the
inventory that has no end which sets the command off, the candidates are the same. Behind the other
words, the ends that set it off let through what the command admits, and all other ends what they
let through without it. -/
structure TakesEffect (command : Command) (c : CharClass) (marker : String)
    (inventory : Token → Prop) (setsOff : List Element → Prop) (p p' : Phonotactics) : Prop where
  elsewhere : ∀ chosen : List Token, (∀ t ∈ chosen, inventory t) →
    (∀ es, es ≠ [] → es <:+ elements chosen → ¬ setsOff es) →
      ∀ base, p'.narrow base (marker :: chosen) = p.narrow base (marker :: chosen)
  there : ∀ chosen : List Token, (∀ t ∈ chosen, inventory t) → ∀ base token,
    (p'.narrow base (marker :: chosen)).contains token = true ↔
      base.contains token = true ∧ ∀ es, es ≠ [] → es <:+ elements chosen →
        (setsOff es → command.Admits c p (spelling marker es) token) ∧
          (¬ setsOff es → p.Admits (spelling marker es) token)

end Command

namespace Phonotactics.With

/-- Where a command writes, its class has a say. -/
theorem admits_iff_command
    (h : With (command.onConditions texts) (command.onExclusions texts) c p p') {text : String}
    (htext : text ∈ texts) (token : Token) :
    p'.Admits text token ↔ command.Admits c p text token := by
  rw [h.admits_iff]
  cases command with
  | exclusion =>
      simp only [Command.onConditions, Command.onExclusions, Command.Admits, htext,
        Phonotactics.admits_iff]
      grind
  | condition =>
      simp only [Command.onConditions, Command.onExclusions, Command.Admits, htext]
      grind
  | production | definition =>
      simp only [Command.onConditions, Command.onExclusions, Command.Admits,
        Phonotactics.admits_iff]
      grind

/-- Where a command does not write, nothing changes. -/
theorem admits_iff_of_notMem
    (h : With (command.onConditions texts) (command.onExclusions texts) c p p') {text : String}
    (htext : text ∉ texts) (token : Token) : p'.Admits text token ↔ p.Admits text token := by
  have hoff : text ∉ command.onConditions texts ∧ text ∉ command.onExclusions texts := by
    cases command <;> simp [Command.onConditions, Command.onExclusions, htext]
  rw [h.admits_iff, Phonotactics.admits_iff]
  grind

/-- A command takes effect behind the ends that are spelled like its context. -/
theorem takesEffect
    (h : With (command.onConditions texts) (command.onExclusions texts) c p p')
    (hplaces : instances places marker = .ok texts) :
    command.TakesEffect c marker (fun _ => True) (Spelled marker places) p p' where
  elsewhere := by
    intro chosen _ hoff base
    refine h.narrow_eq (fun text htext => ?_) base
    obtain ⟨es, hne, hes, rfl⟩ := (mem_trailingTexts_elements_iff marker chosen text).mp htext
    have hnot : spelling marker es ∉ texts := fun hmem =>
      hoff es hne hes ((spelled_iff_mem hplaces es).mpr hmem)
    cases command <;> simp [Command.onConditions, Command.onExclusions, hnot]
  there := by
    intro chosen _ base token
    rw [contains_narrow_iff]
    refine and_congr_right fun _ => ?_
    -- A token is permitted when the spelling of each end admits it.
    have hpermits : p'.Permits (marker :: chosen) token ↔
        ∀ es, es ≠ [] → es <:+ elements chosen → p'.Admits (spelling marker es) token := by
      constructor
      · intro hall es hne hes
        exact hall _ ((mem_trailingTexts_elements_iff marker chosen _).mpr ⟨es, hne, hes, rfl⟩)
      · intro hall text htext
        obtain ⟨es, hne, hes, rfl⟩ := (mem_trailingTexts_elements_iff marker chosen text).mp htext
        exact hall es hne hes
    rw [hpermits]
    refine forall₃_congr fun es _ _ => ?_
    rw [spelled_iff_mem hplaces]
    by_cases hmem : spelling marker es ∈ texts
    · simp [hmem, h.admits_iff_command hmem token]
    · simp [hmem, h.admits_iff_of_notMem hmem token]

end Phonotactics.With

/-- Over words of an inventory, an effect is the same for what comes to the same there. -/
theorem Command.TakesEffect.congr {inventory : Token → Prop}
    {setsOff setsOff' : List Element → Prop}
    (h : command.TakesEffect c marker (fun _ => True) setsOff p p')
    (hsame : ∀ es, (∀ e ∈ es, e.In inventory) → (setsOff es ↔ setsOff' es)) :
    command.TakesEffect c marker inventory setsOff' p p' := by
  have hends : ∀ chosen : List Token, (∀ t ∈ chosen, inventory t) →
      ∀ es, es <:+ elements chosen → (setsOff es ↔ setsOff' es) := by
    intro chosen hchosen es hes
    refine hsame es fun e he => ?_
    rcases List.mem_cons.mp (hes.subset he) with rfl | hmem
    · trivial
    · obtain ⟨t, ht, rfl⟩ := List.mem_map.mp hmem
      exact hchosen t ht
  constructor
  · intro chosen hchosen hoff base
    refine h.elsewhere chosen (fun _ _ => trivial) (fun es hne hes => ?_) base
    rw [hends chosen hchosen es hes]
    exact hoff es hne hes
  · intro chosen hchosen base token
    rw [h.there chosen (fun _ _ => trivial) base token]
    refine and_congr_right fun _ => forall₃_congr fun es _ hes => ?_
    rw [hends chosen hchosen es hes]

namespace Draft

/-- The second draft has a class besides what the first one has, as a condition after some texts
and as an exclusion after others. -/
structure Restricted (onConditions onExclusions : List String) (c : CharClass) (d d' : Draft) :
    Prop where
  grammar : d.grammar = d'.grammar
  lexicon : d.lexicon = d'.lexicon
  first : d.firstNonterminal = d'.firstNonterminal
  phonotactics : Phonotactics.With onConditions onExclusions c d.phonotactics d'.phonotactics

variable {onConditions onExclusions : List String} {d d' e e' : Draft}

/-- A restriction writes its class after the instances of its places, and nothing else. -/
theorem Executes.restricted (h : Executes marker d command d')
    (hcommand : command.restriction? = some (context, spec)) :
    ∃ c texts, restriction d.lexicon marker context spec = .ok (c, texts) ∧
      Restricted (command.onConditions texts) (command.onExclusions texts) c d d' := by
  cases h with
  | production | definition => cases hcommand
  | @condition _ _ c texts hrestriction =>
      cases hcommand
      exact ⟨c, texts, hrestriction, rfl, rfl, rfl, Phonotactics.with_addConditions texts c _⟩
  | @exclusion _ _ c texts hrestriction =>
      cases hcommand
      exact ⟨c, texts, hrestriction, rfl, rfl, rfl, Phonotactics.with_addExclusions texts c _⟩

namespace Restricted

/-- A command runs without the class too, and the difference stays what it is. -/
theorem execute (hsame : Restricted onConditions onExclusions c d d')
    (h : Executes marker d' command e') :
    ∃ e, Executes marker d command e ∧ Restricted onConditions onExclusions c e e' := by
  obtain ⟨hgrammar, hlexicon, hfirst, hwith⟩ := hsame
  cases h with
  | production hspells hrule =>
      rw [← hlexicon] at hspells
      rw [← hgrammar] at hrule
      exact ⟨_, .production hspells hrule, rfl, rfl, by rw [hfirst], hwith⟩
  | definition hspec =>
      rw [← hlexicon] at hspec
      exact ⟨_, .definition hspec, hgrammar, by rw [hlexicon], hfirst, hwith⟩
  | @condition _ _ other texts hrestriction =>
      rw [← hlexicon] at hrestriction
      exact ⟨_, .condition hrestriction, hgrammar, hlexicon, hfirst,
        hwith.addConditions texts other⟩
  | @exclusion _ _ other texts hrestriction =>
      rw [← hlexicon] at hrestriction
      exact ⟨_, .exclusion hrestriction, hgrammar, hlexicon, hfirst,
        hwith.addExclusions texts other⟩

/-- What runs with the class runs without it, and the difference stays what it is. -/
theorem run {cs : Description} (hsame : Restricted onConditions onExclusions c d d')
    (h : Draft.run marker d' cs = .ok e') :
    ∃ e, Draft.run marker d cs = .ok e ∧ Restricted onConditions onExclusions c e e' := by
  induction cs generalizing d d' with
  | nil =>
      obtain rfl : d' = e' := Except.ok.inj h
      exact ⟨d, rfl, hsame⟩
  | cons command cs ih =>
      obtain ⟨next, hstep, hrest⟩ := run_cons_eq_ok h
      obtain ⟨other, hother, hnext⟩ := hsame.execute hstep
      obtain ⟨e, he, hlast⟩ := ih hnext hrest
      exact ⟨e, run_cons_of_executes hother he, hlast⟩

end Restricted

end Draft

/-- A description with a condition or an exclusion is still one when the command is taken out, and
only the phonotactics change. The command takes effect behind the ends of a word that are spelled
like elements which meet the places of its context. Over an inventory whose spellings can be read
back, it takes effect behind the ends that meet the places themselves. -/
theorem restriction_takes_effect {before after : Description} {config : Config} {m : Model}
    (h : Model.ofDescription (before ++ command :: after) config = .ok m)
    (hcommand : command.restriction? = some (context, spec)) :
    ∃ d places c without, Draft.run config.boundary {} before = .ok d ∧
      Draft.slots d.lexicon context = .ok places ∧ Draft.resolve d.lexicon spec = .ok c ∧
        Model.ofDescription (before ++ after) config = .ok { m with phonotactics := without } ∧
          command.TakesEffect c config.boundary (fun _ => True) (Spelled config.boundary places)
            without m.phonotactics ∧
          ∀ inventory, Readable config.boundary inventory →
            (∀ c, .cls c ∈ places → ∀ t, c.contains t = true → inventory t) →
              command.TakesEffect c config.boundary inventory (Meets places) without
                m.phonotactics := by
  obtain ⟨last, hrun, hfreeze⟩ := Model.ofDescription_eq_ok h
  obtain ⟨-, hlexicon, hphonotactics, -⟩ := Draft.freeze_eq_ok hfreeze
  rw [Draft.run_append] at hrun
  obtain ⟨d, hbefore, hrest⟩ := bind_eq_ok hrun
  obtain ⟨next, hstep, hafter⟩ := Draft.run_cons_eq_ok hrest
  -- The rest of the commands runs from the draft before the restriction as well.
  obtain ⟨c, texts, hrestriction, hnext⟩ := hstep.restricted hcommand
  obtain ⟨places, hspec, hplaces, hinstances⟩ := Draft.restriction_eq_ok hrestriction
  obtain ⟨other, hother, hgrammar, hsameLexicon, hfirst, hwith⟩ := hnext.run hafter
  have hmodel := Draft.freeze_of_same hfreeze hgrammar.symm hfirst.symm fun name => by
    rw [hsameLexicon]
  rw [hsameLexicon, ← hlexicon] at hmodel
  rw [← hphonotactics] at hwith
  have heffect := hwith.takesEffect hinstances
  refine ⟨d, places, c, other.phonotactics, hbefore, hplaces, hspec, ?_, heffect, ?_⟩
  · rw [Model.ofDescription, Draft.run_append, hbefore]
    change Draft.run config.boundary d after >>= _ = _
    rw [hother]
    exact hmodel
  · intro inventory hreadable hinventory
    exact heffect.congr fun es hes => spelled_iff_meets hreadable hinventory hes

/-- The token `x` is excluded behind the tokens `t` and `h`. -/
def clusterExcluded : Description :=
  [.production "S"
      [.inlineClass [("t", 1.0)], .inlineClass [("h", 1.0)], .inlineClass [("x", 1.0)]] 1.0,
    .exclusion [.cls (.inline [("t", 1.0)]), .cls (.inline [("h", 1.0)])] (.inline [("x", 1.0)])]

/-- The token `x` is excluded behind the token `th`. -/
def digraphExcluded : Description :=
  [.production "S"
      [.inlineClass [("t", 1.0)], .inlineClass [("h", 1.0)], .inlineClass [("x", 1.0)]] 1.0,
    .exclusion [.cls (.inline [("th", 1.0)])] (.inline [("x", 1.0)])]

/-- The model of `clusterExcluded`, and of `digraphExcluded` as well. -/
def clusterExcludedModel : Model where
  grammar := ⟨⟨[("S", [⟨[.cls "1", .cls "2", .cls "3"], 1.0⟩])], by decide⟩⟩
  lexicon := {
    classes := ⟨[("1", OrderedMap.empty.add "t" 1.0), ("2", OrderedMap.empty.add "h" 1.0),
      ("3", OrderedMap.empty.add "x" 1.0)], by decide⟩
    counter := 3 }
  phonotactics := { exclusions := ⟨[("th", OrderedMap.empty.add "x" 1.0)], by decide⟩ }
  root := "S"

/-- Over `t` and `h` the places of the exclusion decide, and behind the two `x` is no candidate. -/
theorem restriction_takes_effect_clusterExcluded :
    Model.ofDescription clusterExcluded {} = .ok clusterExcludedModel ∧
      Readable "_" (· ∈ ["t", "h"]) ∧
        ∀ base,
          (clusterExcludedModel.phonotactics.narrow base ["_", "t", "h"]).contains "x" = false := by
  have hmodel : Model.ofDescription clusterExcluded {} = .ok clusterExcludedModel := by
    decide +kernel
  have hreadable : Readable "_" (· ∈ ["t", "h"]) :=
    readable_of_length Nat.one_pos (by decide) (by decide) (by decide)
  refine ⟨hmodel, hreadable, fun base => ?_⟩
  have hcut : Model.ofDescription (clusterExcluded.take 1 ++ .exclusion
      [.cls (.inline [("t", 1.0)]), .cls (.inline [("h", 1.0)])] (.inline [("x", 1.0)]) :: []) {} =
        .ok clusterExcludedModel := hmodel
  obtain ⟨d, places, c, without, -, hplaces, hspec, -, -, hplaced⟩ :=
    restriction_takes_effect hcut rfl
  have hinventory : ∀ c, .cls c ∈ places → ∀ t, c.contains t = true → t ∈ ["t", "h"] := by
    cases hplaces
    intro c hc t ht
    have hkey : t ∈ c.keys := (OrderedMap.contains_iff c t).mp ht
    rcases List.mem_pair.mp hc with heq | heq <;> cases heq
    · exact List.mem_pair.mpr (.inl (List.mem_singleton.mp hkey))
    · exact List.mem_pair.mpr (.inr (List.mem_singleton.mp hkey))
  have hmeets : Meets places [.token "t", .token "h"] := by
    cases hplaces
    exact .cons (.cls (by decide)) (.cons (.cls (by decide)) .nil)
  have heffect := hplaced (· ∈ ["t", "h"]) hreadable hinventory
  rw [Bool.eq_false_iff]
  intro hx
  obtain ⟨-, hends⟩ := (heffect.there ["t", "h"] (by decide) base "x").mp hx
  obtain ⟨-, hnot⟩ := (hends [.token "t", .token "h"] (by decide) (by decide)).1 hmeets
  cases hspec
  exact absurd hnot (by decide)

/-- The exclusion of `digraphExcluded` takes effect behind `t` and `h`, although neither of them
meets its place, so that it is not always the places that decide. -/
theorem not_restriction_by_place :
    ¬ ∀ (before after : Description) (command : Command) (context : List ContextItem)
        (spec : ClassSpec) (config : Config) (m : Model),
      Model.ofDescription (before ++ command :: after) config = .ok m →
      command.restriction? = some (context, spec) →
      ∃ d places c without, Draft.run config.boundary {} before = .ok d ∧
        Draft.slots d.lexicon context = .ok places ∧ Draft.resolve d.lexicon spec = .ok c ∧
          Model.ofDescription (before ++ after) config = .ok { m with phonotactics := without } ∧
            command.TakesEffect c config.boundary (fun _ => True) (Meets places) without
              m.phonotactics := by
  intro hplaced
  have hmodel : Model.ofDescription (digraphExcluded.take 1 ++ .exclusion
      [.cls (.inline [("th", 1.0)])] (.inline [("x", 1.0)]) :: []) {} = .ok clusterExcludedModel := by
    decide +kernel
  obtain ⟨d, places, c, without, -, hplaces, -, hwithout, heffect⟩ :=
    hplaced (digraphExcluded.take 1) [] _ _ _ {} clusterExcludedModel hmodel rfl
  have hunrestricted : Model.ofDescription (digraphExcluded.take 1 ++ []) {} =
      .ok { clusterExcludedModel with phonotactics := {} } := by
    decide +kernel
  obtain rfl : {} = without :=
    congrArg Model.phonotactics (Except.ok.inj (hunrestricted.symm.trans hwithout))
  -- Only the token `th` meets the place, and the word so far does not end in it.
  have hoff : ∀ es, es ≠ [] → es <:+ elements ["t", "h"] → ¬ Meets places es := by
    cases hplaces
    rintro es - hes hmeets
    obtain ⟨e, rest, he, hrest, rfl⟩ := List.forall₂_cons_left_iff.mp hmeets
    cases hrest
    cases he with
    | @cls _ t hmem =>
        obtain rfl : t = "th" := List.mem_singleton.mp ((OrderedMap.contains_iff _ t).mp hmem)
        exact absurd hes (by decide)
  have hsame := heffect.elsewhere ["t", "h"] (fun _ _ => trivial) hoff
    (OrderedMap.empty.add "x" 1.0)
  exact absurd hsame (by decide)

end Neologism
