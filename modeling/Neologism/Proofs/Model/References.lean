import Neologism.Proofs.Model.Drafting

/-! # What class names refer to

Users name classes in definitions, and a class that a production writes in place gets a numeral as
its name. The two kinds of names share one lexicon. A numeral is free when it is given, but
nothing keeps a definition from taking it later or a reference from meeting it.

Main statements: `inline_class_resolved` says which class the symbol of a literal has in the model,
and `references_bound` what the names in an accepted description are bound to. Both are as strong
as they can be: `not_inline_class_kept` and `not_references_defined` are descriptions in which a
numeral is taken and met. -/

namespace Neologism

/-- The name that stands for a class. -/
def ClassSpec.name? : ClassSpec → Option String
  | .ref name => some name
  | .inline _ => none

/-- The name that stands for the class of a place. -/
def ContextItem.name? : ContextItem → Option String
  | .boundary => none
  | .cls spec => spec.name?

/-- The name that stands for a class in a production. -/
def ProductionItem.name? : ProductionItem → Option String
  | .classRef name => some name
  | _ => none

/-- The names that a command looks up when it runs. -/
def Command.lookups : Command → List String
  | .production .. => []
  | .definition _ spec => spec.name?.toList
  | .condition context spec | .exclusion context spec =>
      spec.name?.toList ++ context.filterMap ContextItem.name?

/-- The names that a command leaves to be looked up when words are made. -/
def Command.references : Command → List String
  | .production _ items _ => items.filterMap ProductionItem.name?
  | _ => []

/-- The name is a numeral that spells, in the grammar, a class that a production of the
description writes in place. -/
def Grammar.SpellsInline (g : Grammar) (description : Description) (name : String) : Prop :=
  ∃ n before nonterminal left literal right weight after, name = Nat.repr n ∧
    description =
        before ++ .production nonterminal (left ++ .inlineClass literal :: right) weight :: after ∧
      g.symbolAt? nonterminal (before.countP (·.produces nonterminal)) left.length =
        some (.cls name)

namespace Grammar

variable {g g' : Grammar} {cs : Description} {name : String}

/-- Rules that are added leave the symbols of the rules that are there in their places. -/
theorem symbolAt?_of_prefix {nonterminal : String} {i j : Nat} {symbol : Symbol}
    (h : g.rules nonterminal <+: g'.rules nonterminal)
    (hsymbol : g.symbolAt? nonterminal i j = some symbol) :
    g'.symbolAt? nonterminal i j = some symbol := by
  obtain ⟨rule, hrule, -⟩ := Option.bind_eq_some_iff.mp hsymbol
  obtain ⟨hi, -⟩ := List.getElem?_eq_some_iff.mp hrule
  obtain ⟨more, hmore⟩ := h
  rw [symbolAt?, ← hmore, List.getElem?_append_left hi]
  exact hsymbol

/-- What a name spells it spells after more commands too. -/
theorem SpellsInline.mono (h : g.SpellsInline cs name) (ds : Description)
    (hrules : ∀ nonterminal, g.rules nonterminal <+: g'.rules nonterminal) :
    g'.SpellsInline (cs ++ ds) name := by
  obtain ⟨n, before, nonterminal, left, literal, right, weight, after, hname, rfl, hsymbol⟩ := h
  exact ⟨n, before, nonterminal, left, literal, right, weight, after ++ ds, hname, by simp,
    symbolAt?_of_prefix (hrules nonterminal) hsymbol⟩

end Grammar

namespace Draft

variable {marker : String} {lex : Lexicon} {d d' : Draft} {name : String}

/-- A name that a draft binds was defined, or spells a class that was written in place. -/
theorem bound_of_run {cs : Description} (h : run marker {} cs = .ok d)
    (hbound : d.lexicon.contains name = true) :
    name ∈ definedNames cs ∨ d.grammar.SpellsInline cs name := by
  revert hbound
  refine run_induct (fun hempty => by cases hempty) ?_ h
  intro cs before command d hbefore ih hstep hbound
  rw [mem_definedNames_concat]
  rcases hstep.bound_or_named hbound with
    hold | hname | ⟨n, nonterminal, left, literal, right, weight, hname, rfl, hsymbol⟩
  · rcases ih hold with hdefined | hspells
    · exact .inl (.inl hdefined)
    · exact .inr (hspells.mono [command] hstep.rules_prefix)
  · exact .inl (.inr hname)
  · -- The rule of the production is behind all rules that the productions before it made.
    rw [length_rules_of_run hbefore] at hsymbol
    exact .inr ⟨n, cs, nonterminal, left, literal, right, weight, [], hname, rfl, hsymbol⟩

theorem contains_of_resolve {spec : ClassSpec} {c : CharClass} (h : resolve lex spec = .ok c)
    (hname : name ∈ spec.name?) : lex.contains name = true := by
  cases spec with
  | inline literal => cases hname
  | ref other =>
      obtain rfl : other = name := Option.some.inj hname
      simp only [resolve, Lexicon.lookup] at h
      split at h
      · next c hc => exact (lex.contains_iff other).mpr ⟨c, hc⟩
      · cases h

theorem contains_of_slots {context : List ContextItem} {places : List Context.Slot}
    (h : slots lex context = .ok places) (hname : name ∈ context.filterMap ContextItem.name?) :
    lex.contains name = true := by
  induction context generalizing places with
  | nil => cases hname
  | cons item rest ih =>
      cases item with
      | boundary =>
          obtain ⟨others, hothers, -⟩ := bind_eq_ok h
          exact ih hothers hname
      | cls spec =>
          obtain ⟨c, hc, h⟩ := bind_eq_ok h
          obtain ⟨others, hothers, -⟩ := bind_eq_ok h
          obtain ⟨item, hitem, hspec⟩ := List.mem_filterMap.mp hname
          rcases List.mem_cons.mp hitem with rfl | hitem
          · exact contains_of_resolve hc hspec
          · exact ih hothers (List.mem_filterMap.mpr ⟨item, hitem, hspec⟩)

theorem contains_of_restriction {context : List ContextItem} {spec : ClassSpec}
    {result : CharClass × List String} (h : restriction lex marker context spec = .ok result)
    (hname : name ∈ spec.name?.toList ++ context.filterMap ContextItem.name?) :
    lex.contains name = true := by
  obtain ⟨places, hc, hplaces, -⟩ := restriction_eq_ok h
  rcases List.mem_append.mp hname with hspec | hcontext
  · exact contains_of_resolve hc (Option.mem_toList.mp hspec)
  · exact contains_of_slots hplaces hcontext

/-- A command that runs finds every name that it looks up. -/
theorem Executes.contains_of_lookups {command : Command} (h : Executes marker d command d')
    (hname : name ∈ command.lookups) : d.lexicon.contains name = true := by
  cases h with
  | production => cases hname
  | definition hspec => exact contains_of_resolve hspec (Option.mem_toList.mp hname)
  | condition hrestriction | exclusion hrestriction =>
      exact contains_of_restriction hrestriction hname

end Draft

variable {description before after : Description} {config : Config} {m : Model}
  {nonterminal name : String} {left right : List ProductionItem} {literal : ClassLiteral}
  {weight : Weight} {command : Command}

/-- A model is taken apart at one of the commands: drafts before it and behind it, and the draft
of all commands that the model has its grammar and its lexicon from. -/
theorem Model.executes_of_ofDescription
    (h : Model.ofDescription (before ++ command :: after) config = .ok m) :
    ∃ d next last, Draft.run config.boundary {} before = .ok d ∧
      Draft.Executes config.boundary d command next ∧
      Draft.run config.boundary {} (before ++ [command]) = .ok next ∧
      Draft.run config.boundary next after = .ok last ∧
      m.grammar = last.grammar ∧ m.lexicon = last.lexicon := by
  obtain ⟨last, hrun, hfreeze⟩ := Model.ofDescription_eq_ok h
  obtain ⟨hgrammar, hlexicon, -⟩ := Draft.freeze_eq_ok hfreeze
  rw [List.append_cons, Draft.run_append] at hrun
  obtain ⟨next, hnext, hafter⟩ := bind_eq_ok hrun
  obtain ⟨d, hbefore, hstep⟩ := Draft.run_concat_eq_ok hnext
  exact ⟨d, next, last, hbefore, hstep, hnext, hafter, hgrammar, hlexicon⟩

/-- In a model, every class that a rule names is bound. -/
theorem Model.contains_of_rule (h : Model.ofDescription description config = .ok m) {rule : Rule}
    (hrule : rule ∈ m.grammar.rules nonterminal) (hname : .cls name ∈ rule.symbols) :
    m.lexicon.contains name = true := by
  obtain ⟨last, -, hfreeze⟩ := Model.ofDescription_eq_ok h
  obtain ⟨hgrammar, hlexicon, -, -, hvalid⟩ := Draft.freeze_eq_ok hfreeze
  rw [hgrammar] at hrule
  rw [hlexicon]
  exact Grammar.contains_of_validate hvalid hrule hname

/-- A name that a model binds was defined, or spells a class that was written in place. -/
theorem Model.bound_of_ofDescription (h : Model.ofDescription description config = .ok m)
    (hbound : m.lexicon.contains name = true) :
    name ∈ definedNames description ∨ m.grammar.SpellsInline description name := by
  obtain ⟨last, hrun, hfreeze⟩ := Model.ofDescription_eq_ok h
  obtain ⟨hgrammar, hlexicon, -⟩ := Draft.freeze_eq_ok hfreeze
  rw [hlexicon] at hbound
  rw [hgrammar]
  exact Draft.bound_of_run hrun hbound

/-- In a model, a class that a production writes in place is spelled by a numeral. The numeral is
bound to the class of the literal, or to the class that the last later definition of it was
given. -/
theorem inline_class_resolved
    (h : Model.ofDescription (before ++
      .production nonterminal (left ++ .inlineClass literal :: right) weight :: after) config =
        .ok m) :
    ∃ n c, m.grammar.symbolAt? nonterminal (before.countP (·.produces nonterminal)) left.length =
        some (.cls (Nat.repr n)) ∧ CharClass.ofLiteral literal = .ok c ∧
      ((Nat.repr n ∉ definedNames after ∧ m.lexicon.get? (Nat.repr n) = some c) ∨
        ∃ mid spec rest there last, after = mid ++ .definition (Nat.repr n) spec :: rest ∧
          Nat.repr n ∉ definedNames rest ∧
            Draft.run config.boundary {} (before ++
              .production nonterminal (left ++ .inlineClass literal :: right) weight :: mid) =
                .ok there ∧
              Draft.resolve there.lexicon spec = .ok last ∧
                m.lexicon.get? (Nat.repr n) = some last) := by
  obtain ⟨d, next, last, hbefore, hstep, hnext, hafter, hgrammar, hlexicon⟩ :=
    Model.executes_of_ofDescription h
  obtain ⟨ss, hspells, hrules⟩ := hstep.spelled
  obtain ⟨n, c, hsymbol, hliteral, -, hbound⟩ := hspells.inline_bound rfl
  refine ⟨n, c, ?_, hliteral, ?_⟩
  · have hthere : next.grammar.symbolAt? nonterminal (before.countP (·.produces nonterminal))
        left.length = some (.cls (Nat.repr n)) := by
      rw [← Draft.length_rules_of_run hbefore, Grammar.symbolAt?, hrules]
      simpa using hsymbol
    rw [hgrammar]
    exact Grammar.symbolAt?_of_prefix (Draft.rules_prefix_of_run hafter nonterminal) hthere
  · rw [hlexicon]
    rcases Draft.get?_of_run hafter hbound with
      hkept | ⟨mid, spec, rest, there, final, hcut, hlater, hmid, hfinal, hold⟩
    · exact .inl hkept
    · refine .inr ⟨mid, spec, rest, there, final, hcut, hlater, ?_, hfinal, hold⟩
      rw [List.append_cons, Draft.run_append, hnext]
      exact hmid

/-- Two classes are written in place, and a definition takes the numeral of the first. -/
def numeralTaken : Description :=
  [.production "S" [.inlineClass [("x", 1.0)], .inlineClass [("z", 1.0)]] 1.0,
    .definition "1" (.inline [("y", 1.0)])]

/-- The model of `numeralTaken`. -/
def numeralTakenModel : Model where
  grammar := ⟨⟨[("S", [⟨[.cls "1", .cls "2"], 1.0⟩])], by decide⟩⟩
  lexicon := {
    classes := ⟨[("1", ⟨[("y", 1.0)], by decide⟩), ("2", ⟨[("z", 1.0)], by decide⟩)], by decide⟩
    counter := 2 }
  phonotactics := {}
  root := "S"

theorem ofDescription_numeralTaken :
    Model.ofDescription numeralTaken {} = .ok numeralTakenModel := by
  decide +kernel

/-- The second class of `numeralTaken` is kept, since no definition takes its numeral. -/
theorem inline_class_resolved_numeralTaken :
    Model.ofDescription numeralTaken {} = .ok numeralTakenModel ∧
      numeralTakenModel.grammar.symbolAt? "S" 0 1 = some (.cls "2") ∧
        ∃ c, CharClass.ofLiteral [("z", 1.0)] = .ok c ∧
          numeralTakenModel.lexicon.get? "2" = some c := by
  have hsecond : numeralTakenModel.grammar.symbolAt? "S" 0 1 = some (.cls "2") := by decide
  refine ⟨ofDescription_numeralTaken, hsecond, ?_⟩
  have hcut : Model.ofDescription ([] ++ .production "S"
      ([.inlineClass [("x", 1.0)]] ++ .inlineClass [("z", 1.0)] :: []) 1.0 ::
        [.definition "1" (.inline [("y", 1.0)])]) {} = .ok numeralTakenModel :=
    ofDescription_numeralTaken
  obtain ⟨n, c, hsymbol, hliteral, hresolved⟩ := inline_class_resolved hcut
  have hnumeral : Nat.repr n = "2" :=
    Symbol.cls.inj (Option.some.inj (hsymbol.symm.trans hsecond))
  rw [hnumeral] at hresolved
  rcases hresolved with ⟨-, hkept⟩ | ⟨mid, spec, rest, there, last, hlater, -⟩
  · exact ⟨c, hliteral, hkept⟩
  · have htaken : "2" ∈ definedNames [.definition "1" (.inline [("y", 1.0)])] := by
      rw [hlater]
      simp [definedNames, Command.defines?]
    exact absurd htaken (by decide)

/-- The first class of `numeralTaken` is not the class of its literal, so that classes that are
written in place are not always kept. -/
theorem not_inline_class_kept :
    ¬ ∀ (before after : Description) (nonterminal : String) (left right : List ProductionItem)
        (literal : ClassLiteral) (weight : Weight) (config : Config) (m : Model),
      Model.ofDescription (before ++
          .production nonterminal (left ++ .inlineClass literal :: right) weight :: after) config =
        .ok m →
      ∃ name c, m.grammar.symbolAt? nonterminal (before.countP (·.produces nonterminal))
          left.length = some (.cls name) ∧
        CharClass.ofLiteral literal = .ok c ∧ m.lexicon.get? name = some c := by
  intro hkept
  obtain ⟨name, c, hsymbol, hliteral, hbound⟩ :=
    hkept [] _ "S" [] _ [("x", 1.0)] 1.0 {} numeralTakenModel ofDescription_numeralTaken
  have hfirst : numeralTakenModel.grammar.symbolAt? "S" 0 0 = some (.cls "1") := by decide
  obtain rfl : name = "1" := Symbol.cls.inj (Option.some.inj (hsymbol.symm.trans hfirst))
  have hx : c.contains "x" = true := by
    cases hliteral
    decide +kernel
  have hy : (numeralTakenModel.lexicon.get? "1").map (·.contains "x") = some false := by decide
  rw [hbound] at hy
  exact absurd (hx.symm.trans (Option.some.inj hy)) (by decide)

/-- Every name that an accepted description looks up was defined by an earlier command, and every
name that a production of it refers to was defined by some command, unless the name is the numeral
of a class that was written in place. -/
theorem references_bound (h : Model.ofDescription description config = .ok m) :
    (∀ command ∈ description, ∀ name ∈ command.references,
        name ∈ definedNames description ∨ m.grammar.SpellsInline description name) ∧
      ∀ before command after, description = before ++ command :: after →
        ∀ name ∈ command.lookups,
          name ∈ definedNames before ∨ m.grammar.SpellsInline before name := by
  constructor
  · intro command hcommand name hname
    obtain ⟨before, after, rfl⟩ := List.append_of_mem hcommand
    cases command with
    | definition | condition | exclusion => cases hname
    | production nonterminal items weight =>
        obtain ⟨item, hitem, hspelled⟩ := List.mem_filterMap.mp hname
        obtain rfl : item = .classRef name := by
          cases item with
          | classRef other => exact congrArg _ (Option.some.inj hspelled)
          | nonterminal | inlineClass => cases hspelled
        obtain ⟨d, next, last, -, hstep, -, hafter, hgrammar, -⟩ :=
          Model.executes_of_ofDescription h
        obtain ⟨ss, hspells, hrules⟩ := hstep.spelled
        have hrule : ⟨ss, weight⟩ ∈ m.grammar.rules nonterminal := by
          rw [hgrammar]
          apply (Draft.rules_prefix_of_run hafter nonterminal).subset
          rw [hrules]
          exact List.mem_concat_self
        have hbound := Model.contains_of_rule h hrule (hspells.classRef_mem hitem)
        exact Model.bound_of_ofDescription h hbound
  · rintro before command after rfl name hname
    obtain ⟨d, next, last, hbefore, hstep, -, hafter, hgrammar, -⟩ :=
      Model.executes_of_ofDescription h
    have hbound : d.lexicon.contains name = true := hstep.contains_of_lookups hname
    rcases Draft.bound_of_run hbefore hbound with hdefined | hspells
    · exact .inl hdefined
    · refine .inr ?_
      rw [hgrammar]
      have hgrows := fun nonterminal => (hstep.rules_prefix nonterminal).trans
        (Draft.rules_prefix_of_run hafter nonterminal)
      simpa using hspells.mono [] hgrows

/-- A production refers to the numeral of a class that it writes in place. -/
def numeralMet : Description :=
  [.production "S" [.inlineClass [("x", 1.0)], .classRef "1"] 1.0]

/-- The model of `numeralMet`. -/
def numeralMetModel : Model where
  grammar := ⟨⟨[("S", [⟨[.cls "1", .cls "1"], 1.0⟩])], by decide⟩⟩
  lexicon := { classes := ⟨[("1", ⟨[("x", 1.0)], by decide⟩)], by decide⟩, counter := 1 }
  phonotactics := {}
  root := "S"

theorem ofDescription_numeralMet : Model.ofDescription numeralMet {} = .ok numeralMetModel := by
  decide +kernel

/-- The reference of `numeralMet` is to a class that is written in place. -/
theorem references_bound_numeralMet :
    Model.ofDescription numeralMet {} = .ok numeralMetModel ∧
      numeralMetModel.grammar.SpellsInline numeralMet "1" := by
  refine ⟨ofDescription_numeralMet, ?_⟩
  have hbound := (references_bound ofDescription_numeralMet).1 _ List.mem_cons_self "1" (by decide)
  exact hbound.resolve_left (by decide)

/-- Nothing defines the name that `numeralMet` refers to, so that references of an accepted
description are not always to names that it defines. -/
theorem not_references_defined :
    ¬ ∀ (description : Description) (config : Config) (m : Model),
      Model.ofDescription description config = .ok m →
        (∀ command ∈ description, ∀ name ∈ command.references,
            name ∈ definedNames description) ∧
          ∀ before command after, description = before ++ command :: after →
            ∀ name ∈ command.lookups, name ∈ definedNames before := by
  intro hdefined
  obtain ⟨hreferences, -⟩ := hdefined numeralMet {} numeralMetModel ofDescription_numeralMet
  have hname : "1" ∈ definedNames numeralMet :=
    hreferences _ List.mem_cons_self "1" (by decide)
  exact absurd hname (by decide)

end Neologism
