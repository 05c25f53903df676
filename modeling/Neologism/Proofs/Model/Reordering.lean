import Mathlib.Data.List.Basic
import Neologism.Proofs.Model.References

/-! # Productions among the other commands

A production reads and writes the grammar and the numerals of the lexicon. The other commands read
and write the names that users give and the phonotactics. As long as no user gives a numeral as a
name, neither side sees what the other does, so a description comes to the same model however its
productions are placed among its other commands.

`SameProductions` and `SameOthers` are the two halves of what a draft holds. A command of one side
carries its half over to any draft that agrees on it, and leaves the other half alone. Main
statements: `run_parts` takes a run apart into the runs of the two sides, and `run_of_parts` puts it
together again. -/

namespace Neologism

namespace Lexicon

variable {lex lex' lex'' : Lexicon} {name : String} {c : CharClass}

/-- The lexicons bind the numerals alike, and the next numeral they give is the same. -/
structure SameNumerals (lex lex' : Lexicon) : Prop where
  counter : lex.counter = lex'.counter
  get? : ∀ n, lex.get? (Nat.repr n) = lex'.get? (Nat.repr n)

/-- The lexicons bind alike all names that are not numerals. -/
def SameNames (lex lex' : Lexicon) : Prop :=
  ∀ name, (∀ n, name ≠ Nat.repr n) → lex.get? name = lex'.get? name

namespace SameNumerals

protected theorem refl (lex : Lexicon) : SameNumerals lex lex :=
  ⟨rfl, fun _ => rfl⟩

protected theorem symm (h : SameNumerals lex lex') : SameNumerals lex' lex :=
  ⟨h.counter.symm, fun n => (h.get? n).symm⟩

protected theorem trans (h : SameNumerals lex lex') (h' : SameNumerals lex' lex'') :
    SameNumerals lex lex'' :=
  ⟨h.counter.trans h'.counter, fun n => (h.get? n).trans (h'.get? n)⟩

/-- The least free number does not depend on names that are not numerals. -/
theorem freshNumber_eq (h : SameNumerals lex lex') : lex.freshNumber = lex'.freshNumber := by
  have hle : ∀ {lex lex' : Lexicon}, SameNumerals lex lex' →
      lex.freshNumber ≤ lex'.freshNumber := by
    intro lex lex' h
    obtain ⟨habove, -, hfree⟩ := lex'.freshNumber_spec
    apply lex.freshNumber_le
    · rwa [h.counter]
    · rwa [contains_eq_false_iff, h.get?, ← contains_eq_false_iff]
  exact Nat.le_antisymm (hle h) (hle h.symm)

/-- Lexicons that agree on numerals give the same one, and agree afterwards. -/
theorem assign (h : SameNumerals lex lex') (c : CharClass) :
    (lex.assign c).1 = (lex'.assign c).1 ∧ SameNumerals (lex.assign c).2 (lex'.assign c).2 := by
  have hname : (lex.assign c).1 = (lex'.assign c).1 := congrArg Nat.repr h.freshNumber_eq
  refine ⟨hname, h.freshNumber_eq, fun n => ?_⟩
  rw [get?_assign, get?_assign, hname, h.get?]

end SameNumerals

theorem sameNumerals_define (hname : ∀ n, name ≠ Nat.repr n) (c : CharClass) :
    SameNumerals (lex.define name c) lex := by
  refine ⟨rfl, fun n => ?_⟩
  rw [get?_define, if_neg (hname n).symm]

theorem sameNames_assign (lex : Lexicon) (c : CharClass) : SameNames (lex.assign c).2 lex := by
  intro name hname
  have hne : name ≠ (lex.assign c).1 := hname lex.freshNumber
  rw [get?_assign, if_neg hne]

theorem SameNames.define (h : SameNames lex lex') (name : String) (c : CharClass) :
    SameNames (lex.define name c) (lex'.define name c) := by
  intro other hother
  rw [get?_define, get?_define, h other hother]

/-- Lexicons that agree on numerals and on the other names agree on all names. -/
theorem get?_eq_of_same (hnumerals : SameNumerals lex lex') (hnames : SameNames lex lex')
    (name : String) : lex.get? name = lex'.get? name := by
  by_cases hname : ∃ n, name = Nat.repr n
  · obtain ⟨n, rfl⟩ := hname
    exact hnumerals.get? n
  · exact hnames name (not_exists.mp hname)

end Lexicon

/-- Whether a command is a production. -/
def Command.isProduction : Command → Bool
  | .production .. => true
  | _ => false

/-- No name that the command defines or looks up is a numeral. -/
def Command.Unnumbered (command : Command) : Prop :=
  ∀ name ∈ command.defines?.toList ++ command.lookups, ∀ n, name ≠ Nat.repr n

namespace Draft

open Lexicon

variable {marker : String} {lex lex' : Lexicon} {items : List ProductionItem} {ss : List Symbol}
  {d d' p p' q q' : Draft} {command : Command}

/-- The drafts agree on what productions make. -/
structure SameProductions (d d' : Draft) : Prop where
  grammar : d.grammar = d'.grammar
  first : d.firstNonterminal = d'.firstNonterminal
  numerals : SameNumerals d.lexicon d'.lexicon

/-- The drafts agree on what the other commands make. -/
structure SameOthers (d d' : Draft) : Prop where
  phonotactics : d.phonotactics = d'.phonotactics
  names : SameNames d.lexicon d'.lexicon

protected theorem SameProductions.refl (d : Draft) : SameProductions d d :=
  ⟨rfl, rfl, .refl d.lexicon⟩

protected theorem SameProductions.symm (h : SameProductions d d') : SameProductions d' d :=
  ⟨h.grammar.symm, h.first.symm, h.numerals.symm⟩

protected theorem SameProductions.trans (h : SameProductions d p) (h' : SameProductions p q) :
    SameProductions d q :=
  ⟨h.grammar.trans h'.grammar, h.first.trans h'.first, h.numerals.trans h'.numerals⟩

protected theorem SameOthers.refl (d : Draft) : SameOthers d d :=
  ⟨rfl, fun _ _ => rfl⟩

protected theorem SameOthers.symm (h : SameOthers d d') : SameOthers d' d :=
  ⟨h.phonotactics.symm, fun name hname => (h.names name hname).symm⟩

protected theorem SameOthers.trans (h : SameOthers d p) (h' : SameOthers p q) : SameOthers d q :=
  ⟨h.phonotactics.trans h'.phonotactics,
    fun name hname => (h.names name hname).trans (h'.names name hname)⟩

/-- The symbols of a production depend on the numerals alone. -/
theorem Spells.carry (h : Spells lex items ss lex') {other : Lexicon}
    (hsame : SameNumerals lex other) :
    ∃ other', Spells other items ss other' ∧ SameNumerals lex' other' := by
  induction h generalizing other with
  | nil => exact ⟨other, .nil, hsame⟩
  | named hnamed _ ih =>
      obtain ⟨other', hspells, hsame'⟩ := ih hsame
      exact ⟨other', .named hnamed hspells, hsame'⟩
  | @inlineClass lex _ _ _ _ c hliteral _ ih =>
      obtain ⟨hname, hassigned⟩ := hsame.assign c
      obtain ⟨other', hspells, hsame'⟩ := ih hassigned
      rw [hname]
      exact ⟨other', .inlineClass hliteral hspells, hsame'⟩

theorem Spells.sameNames (h : Spells lex items ss lex') : SameNames lex' lex := by
  induction h with
  | nil => exact fun _ _ => rfl
  | named _ _ ih => exact ih
  | inlineClass _ _ ih =>
      exact fun name hname => (ih name hname).trans (sameNames_assign _ _ name hname)

/-- What a specification means depends on the other names alone. -/
theorem resolve_eq (hsame : SameNames lex lex') {spec : ClassSpec}
    (hnames : ∀ name ∈ spec.name?, ∀ n, name ≠ Nat.repr n) :
    resolve lex spec = resolve lex' spec := by
  cases spec with
  | inline => rfl
  | ref name => rw [resolve, resolve, lookup, lookup, hsame name (hnames name rfl)]

theorem slots_eq (hsame : SameNames lex lex') {context : List ContextItem}
    (hnames : ∀ name ∈ context.filterMap ContextItem.name?, ∀ n, name ≠ Nat.repr n) :
    slots lex context = slots lex' context := by
  induction context with
  | nil => rfl
  | cons item rest ih =>
      cases item with
      | boundary =>
          rw [slots, slots, ih]
          exact hnames
      | cls spec =>
          have hrest : ∀ name ∈ rest.filterMap ContextItem.name?, ∀ n, name ≠ Nat.repr n := by
            intro name hname
            obtain ⟨item, hitem, hspec⟩ := List.mem_filterMap.mp hname
            exact hnames name (List.mem_filterMap.mpr ⟨item, List.mem_cons_of_mem _ hitem, hspec⟩)
          have hspec : ∀ name ∈ spec.name?, ∀ n, name ≠ Nat.repr n := fun name hname =>
            hnames name (List.mem_filterMap.mpr ⟨_, List.mem_cons_self, hname⟩)
          rw [slots, slots, resolve_eq hsame hspec, ih hrest]

theorem restriction_eq (hsame : SameNames lex lex') {context : List ContextItem}
    {spec : ClassSpec}
    (hnames : ∀ name ∈ spec.name?.toList ++ context.filterMap ContextItem.name?,
      ∀ n, name ≠ Nat.repr n) :
    restriction lex marker context spec = restriction lex' marker context spec := by
  obtain ⟨hspec, hcontext⟩ := List.forall_mem_append.mp hnames
  rw [restriction, restriction, slots_eq hsame hcontext,
    resolve_eq hsame fun name hname => hspec name (Option.mem_toList.mpr hname)]

namespace Executes

/-- A production does the same to a draft that agrees on productions. -/
theorem carry_production (h : Executes marker d command d')
    (hproduction : command.isProduction = true) (hsame : SameProductions d p) :
    ∃ p', Executes marker p command p' ∧ SameProductions d' p' := by
  cases h with
  | production hspells hgrammar =>
      obtain ⟨lexicon, hcarried, hnumerals⟩ := hspells.carry hsame.numerals
      rw [hsame.grammar] at hgrammar
      refine ⟨_, .production hcarried hgrammar, rfl, ?_, hnumerals⟩
      rw [hsame.first]
  | definition | condition | exclusion => cases hproduction

/-- A command that is no production does the same to a draft that agrees on the others. -/
theorem carry_other (h : Executes marker d command d') (hother : command.isProduction = false)
    (hnames : command.Unnumbered) (hsame : SameOthers d q) :
    ∃ q', Executes marker q command q' ∧ SameOthers d' q' := by
  obtain ⟨-, hlookups⟩ := List.forall_mem_append.mp hnames
  cases h with
  | production => cases hother
  | @definition name _ c hspec =>
      rw [resolve_eq hsame.names fun name hname =>
        hlookups name (Option.mem_toList.mpr hname)] at hspec
      exact ⟨_, .definition hspec, hsame.phonotactics, hsame.names.define name c⟩
  | condition hrestriction =>
      rw [restriction_eq hsame.names hlookups] at hrestriction
      refine ⟨_, .condition hrestriction, ?_, hsame.names⟩
      rw [hsame.phonotactics]
  | exclusion hrestriction =>
      rw [restriction_eq hsame.names hlookups] at hrestriction
      refine ⟨_, .exclusion hrestriction, ?_, hsame.names⟩
      rw [hsame.phonotactics]

/-- A production leaves alone what the other commands make. -/
theorem sameOthers (h : Executes marker d command d')
    (hproduction : command.isProduction = true) : SameOthers d' d := by
  cases h with
  | production hspells => exact ⟨rfl, hspells.sameNames⟩
  | definition | condition | exclusion => cases hproduction

/-- The other commands leave alone what productions make. -/
theorem sameProductions (h : Executes marker d command d')
    (hother : command.isProduction = false) (hnames : command.Unnumbered) :
    SameProductions d' d := by
  obtain ⟨hdefines, -⟩ := List.forall_mem_append.mp hnames
  cases h with
  | production => cases hother
  | @definition name _ c =>
      exact ⟨rfl, rfl, sameNumerals_define (hdefines name List.mem_cons_self) c⟩
  | condition | exclusion => exact ⟨rfl, rfl, .refl d.lexicon⟩

end Executes

/-- A run is taken apart into a run of its productions and a run of its other commands. -/
theorem run_parts {cs : Description} (h : run marker d cs = .ok d')
    (hnames : ∀ command ∈ cs, command.Unnumbered) (hp : SameProductions d p)
    (hq : SameOthers d q) :
    ∃ p' q', run marker p (cs.filter Command.isProduction) = .ok p' ∧
      run marker q (cs.filter (!Command.isProduction ·)) = .ok q' ∧
        SameProductions d' p' ∧ SameOthers d' q' := by
  induction cs generalizing d p q with
  | nil =>
      obtain rfl : d = d' := Except.ok.inj h
      exact ⟨p, q, rfl, rfl, hp, hq⟩
  | cons command cs ih =>
      obtain ⟨hcommand, hnames⟩ := List.forall_mem_cons.mp hnames
      obtain ⟨next, hstep, hrest⟩ := run_cons_eq_ok h
      cases hkind : command.isProduction with
      | true =>
          obtain ⟨p₁, hcarried, hp₁⟩ := hstep.carry_production hkind hp
          obtain ⟨p', q', hp', hq', hsame⟩ :=
            ih hrest hnames hp₁ ((hstep.sameOthers hkind).trans hq)
          refine ⟨p', q', ?_, ?_, hsame⟩
          · rw [List.filter_cons_of_pos hkind]
            exact run_cons_of_executes hcarried hp'
          · rwa [List.filter_cons_of_neg (by simp [hkind])]
      | false =>
          obtain ⟨q₁, hcarried, hq₁⟩ := hstep.carry_other hkind hcommand hq
          obtain ⟨p', q', hp', hq', hsame⟩ :=
            ih hrest hnames ((hstep.sameProductions hkind hcommand).trans hp) hq₁
          refine ⟨p', q', ?_, ?_, hsame⟩
          · rwa [List.filter_cons_of_neg (by simp [hkind])]
          · rw [List.filter_cons_of_pos (by simp [hkind])]
            exact run_cons_of_executes hcarried hq'

/-- A run of productions and a run of other commands are put together to a run of all of them, in
whatever way the two are mixed. -/
theorem run_of_parts {cs : Description} (hnames : ∀ command ∈ cs, command.Unnumbered)
    (hp : run marker p (cs.filter Command.isProduction) = .ok p')
    (hq : run marker q (cs.filter (!Command.isProduction ·)) = .ok q')
    (hdp : SameProductions d p) (hdq : SameOthers d q) :
    ∃ d', run marker d cs = .ok d' ∧ SameProductions d' p' ∧ SameOthers d' q' := by
  induction cs generalizing d p q with
  | nil =>
      obtain rfl : p = p' := Except.ok.inj hp
      obtain rfl : q = q' := Except.ok.inj hq
      exact ⟨d, rfl, hdp, hdq⟩
  | cons command cs ih =>
      obtain ⟨hcommand, hnames⟩ := List.forall_mem_cons.mp hnames
      cases hkind : command.isProduction with
      | true =>
          rw [List.filter_cons_of_pos hkind] at hp
          rw [List.filter_cons_of_neg (by simp [hkind])] at hq
          obtain ⟨p₁, hstep, hp₁⟩ := run_cons_eq_ok hp
          obtain ⟨next, hcarried, hsame⟩ := hstep.carry_production hkind hdp.symm
          obtain ⟨d', hrest, hboth⟩ :=
            ih hnames hp₁ hq hsame.symm ((hcarried.sameOthers hkind).trans hdq)
          exact ⟨d', run_cons_of_executes hcarried hrest, hboth⟩
      | false =>
          rw [List.filter_cons_of_neg (by simp [hkind])] at hp
          rw [List.filter_cons_of_pos (by simp [hkind])] at hq
          obtain ⟨q₁, hstep, hq₁⟩ := run_cons_eq_ok hq
          obtain ⟨next, hcarried, hsame⟩ := hstep.carry_other hkind hcommand hdq.symm
          obtain ⟨d', hrest, hboth⟩ :=
            ih hnames hp hq₁ ((hcarried.sameProductions hkind hcommand).trans hdp) hsame.symm
          exact ⟨d', run_cons_of_executes hcarried hrest, hboth⟩

end Draft

/-- A description in which no name that is defined or looked up is a numeral comes to the same model
when its productions are placed differently among its other commands: the same root, the same rules,
the same class for every name, and the same conditions and exclusions. -/
theorem ofDescription_reorder {description other : Description} {config : Config} {m : Model}
    (h : Model.ofDescription description config = .ok m)
    (hnames : ∀ command ∈ description, command.Unnumbered)
    (hproductions : other.filter Command.isProduction = description.filter Command.isProduction)
    (hothers : other.filter (!Command.isProduction ·) =
      description.filter (!Command.isProduction ·)) :
    ∃ m', Model.ofDescription other config = .ok m' ∧ m'.root = m.root ∧
      m'.grammar = m.grammar ∧ (∀ name, m'.lexicon.get? name = m.lexicon.get? name) ∧
        m'.phonotactics = m.phonotactics := by
  obtain ⟨d, hrun, hfreeze⟩ := Model.ofDescription_eq_ok h
  obtain ⟨p, q, hp, hq, hdp, hdq⟩ := Draft.run_parts hrun hnames (.refl {}) (.refl {})
  have hnamesOther : ∀ command ∈ other, command.Unnumbered := by
    intro command hcommand
    cases hkind : command.isProduction with
    | true =>
        have hmem : command ∈ other.filter Command.isProduction :=
          List.mem_filter.mpr ⟨hcommand, hkind⟩
        rw [hproductions] at hmem
        exact hnames command (List.mem_of_mem_filter hmem)
    | false =>
        have hmem : command ∈ other.filter (!Command.isProduction ·) :=
          List.mem_filter.mpr ⟨hcommand, by simp [hkind]⟩
        rw [hothers] at hmem
        exact hnames command (List.mem_of_mem_filter hmem)
  rw [← hproductions] at hp
  rw [← hothers] at hq
  obtain ⟨d', hrun', hdp', hdq'⟩ := Draft.run_of_parts hnamesOther hp hq (.refl {}) (.refl {})
  have hsameProductions := hdp.trans hdp'.symm
  have hsameOthers := hdq.trans hdq'.symm
  have hclasses := Lexicon.get?_eq_of_same hsameProductions.numerals hsameOthers.names
  have hfreeze' := Draft.freeze_of_same hfreeze hsameProductions.grammar hsameProductions.first
    fun name => congrArg Option.isSome (hclasses name)
  obtain ⟨-, hlexicon, hphonotactics, -⟩ := Draft.freeze_eq_ok hfreeze
  refine ⟨{ m with lexicon := d'.lexicon, phonotactics := d'.phonotactics }, ?_, rfl, rfl,
    fun name => ?_, ?_⟩
  · rw [Model.ofDescription, hrun']
    exact hfreeze'
  · rw [hlexicon]
    exact (hclasses name).symm
  · rw [hphonotactics]
    exact hsameOthers.phonotactics.symm

/-- Productions stand before and behind the other commands, and one of them refers to a class that
is defined later. -/
def productionsAround : Description :=
  [.production "S" [.inlineClass [("x", 1.0)], .classRef "C"] 1.0,
    .definition "C" (.inline [("y", 1.0), ("z", 1.0)]),
    .exclusion [.boundary, .cls (.ref "C")] (.ref "C"),
    .production "S" [.inlineClass [("z", 1.0)]] 1.0]

/-- The commands of `productionsAround` with the productions last. -/
def productionsBehind : Description :=
  [.definition "C" (.inline [("y", 1.0), ("z", 1.0)]),
    .exclusion [.boundary, .cls (.ref "C")] (.ref "C"),
    .production "S" [.inlineClass [("x", 1.0)], .classRef "C"] 1.0,
    .production "S" [.inlineClass [("z", 1.0)]] 1.0]

/-- The model of `productionsAround`. -/
def productionsAroundModel : Model where
  grammar := ⟨⟨[("S", [⟨[.cls "1", .cls "C"], 1.0⟩, ⟨[.cls "2"], 1.0⟩])], by decide⟩⟩
  lexicon := {
    classes := ⟨[("1", OrderedMap.empty.add "x" 1.0),
      ("C", ⟨[("y", 1.0), ("z", 1.0)], by decide⟩), ("2", OrderedMap.empty.add "z" 1.0)], by decide⟩
    counter := 2 }
  phonotactics := {
    exclusions := ⟨[("_y", ⟨[("y", 1.0), ("z", 1.0)], by decide⟩),
      ("_z", ⟨[("y", 1.0), ("z", 1.0)], by decide⟩)], by decide⟩ }
  root := "S"

/-- With the productions last, the second class that is written in place is still `2`. -/
theorem ofDescription_reorder_productionsBehind :
    Model.ofDescription productionsAround {} = .ok productionsAroundModel ∧
      (∀ command ∈ productionsAround, command.Unnumbered) ∧
        ∃ m', Model.ofDescription productionsBehind {} = .ok m' ∧
          m'.lexicon.get? "2" = productionsAroundModel.lexicon.get? "2" ∧
            m'.phonotactics = productionsAroundModel.phonotactics := by
  have hmodel : Model.ofDescription productionsAround {} = .ok productionsAroundModel := by
    decide +kernel
  have hnames : ∀ command ∈ productionsAround, command.Unnumbered := by
    have hletter : ∀ n, "C" ≠ Nat.repr n := ne_repr_of_any (by decide)
    simp [productionsAround, Command.Unnumbered, Command.defines?, Command.lookups,
      ClassSpec.name?, ContextItem.name?, hletter]
  have hproductions : productionsBehind.filter Command.isProduction =
      productionsAround.filter Command.isProduction := rfl
  have hothers : productionsBehind.filter (!Command.isProduction ·) =
      productionsAround.filter (!Command.isProduction ·) := rfl
  obtain ⟨m', hbehind, -, -, hclasses, hphonotactics⟩ :=
    ofDescription_reorder hmodel hnames hproductions hothers
  exact ⟨hmodel, hnames, m', hbehind, hclasses "2", hphonotactics⟩

end Neologism
