import Mathlib.Data.List.Induction
import Neologism.Model
import Neologism.Proofs.Grammar.Validation
import Neologism.Proofs.Lexicon.Numerals

/-! # What commands do to a draft

A command that runs adds to a draft: a production puts a rule behind the rules of its nonterminal
and binds numerals to the classes that it writes in place, a definition binds its name, and a
condition or an exclusion leaves grammar and lexicon as they are.

`Executes` says what one command may do, and the lemmas on runs are derived from it alone. Main
statements: `rules_prefix_of_run` and `length_rules_of_run` find the rule of a production in the
grammar, `get?_of_run` says which class a bound name has in the end, and
`Grammar.contains_of_validate` and `Model.ofDescription_eq_ok` say what freezing adds. -/

namespace Neologism

theorem bind_eq_ok {ε α β : Type} {x : Except ε α} {f : α → Except ε β} {b : β}
    (h : x >>= f = .ok b) : ∃ a, x = .ok a ∧ f a = .ok b := by
  cases x with
  | error e => cases h
  | ok a => exact ⟨a, rfl, h⟩

theorem mapError_eq_ok {ε δ α : Type} {x : Except ε α} {f : ε → δ} {a : α}
    (h : x.mapError f = .ok a) : x = .ok a := by
  cases x with
  | error e => cases h
  | ok b => exact congrArg Except.ok (Except.ok.inj h)

/-- The name that a command binds to a class. -/
def Command.defines? : Command → Option String
  | .definition name _ => some name
  | _ => none

/-- Whether a command adds a rule of the nonterminal. -/
def Command.produces (nonterminal : String) : Command → Bool
  | .production lhs _ _ => lhs == nonterminal
  | _ => false

/-- The symbol of an item that has its name already. -/
def ProductionItem.symbol? : ProductionItem → Option Symbol
  | .nonterminal name => some (.nonterminal name)
  | .classRef name => some (.cls name)
  | .inlineClass _ => none

/-- The names that the definitions of a description bind, in order. -/
def definedNames (description : Description) : List String :=
  description.filterMap Command.defines?

theorem mem_definedNames_concat (cs : Description) (command : Command) (name : String) :
    name ∈ definedNames (cs ++ [command]) ↔
      name ∈ definedNames cs ∨ command.defines? = some name := by
  simp only [definedNames, List.filterMap_append, List.mem_append, List.mem_filterMap,
    List.mem_singleton, exists_eq_left]

/-- Symbol `j` of rule `i` of a nonterminal. -/
def Grammar.symbolAt? (g : Grammar) (nonterminal : String) (i j : Nat) : Option Symbol :=
  (g.rules nonterminal)[i]?.bind fun rule => rule.symbols[j]?

namespace Draft

variable {marker : String} {lex lex' : Lexicon} {items : List ProductionItem} {ss : List Symbol}
  {d d' : Draft} {command : Command} {name : String} {c : CharClass}

/-- From one lexicon to the other, the items of a production are spelled by symbols. -/
inductive Spells : Lexicon → List ProductionItem → List Symbol → Lexicon → Prop
  | nil {lex : Lexicon} : Spells lex [] [] lex
  | named {lex lex' : Lexicon} {items : List ProductionItem} {ss : List Symbol}
      {item : ProductionItem} {symbol : Symbol} : item.symbol? = some symbol →
      Spells lex items ss lex' → Spells lex (item :: items) (symbol :: ss) lex'
  | inlineClass {lex lex' : Lexicon} {items : List ProductionItem} {ss : List Symbol}
      {literal : ClassLiteral} {c : CharClass} : CharClass.ofLiteral literal = .ok c →
      Spells (lex.assign c).2 items ss lex' →
      Spells lex (.inlineClass literal :: items) (.cls (lex.assign c).1 :: ss) lex'

theorem spells_of_symbols (h : symbols lex items = .ok (ss, lex')) : Spells lex items ss lex' := by
  induction items generalizing lex ss with
  | nil =>
      cases h
      exact .nil
  | cons item items ih =>
      cases item with
      | nonterminal | classRef =>
          obtain ⟨⟨rest, last⟩, hrest, heq⟩ := bind_eq_ok h
          cases heq
          exact .named rfl (ih hrest)
      | inlineClass literal =>
          obtain ⟨c, hc, h⟩ := bind_eq_ok h
          obtain ⟨⟨rest, last⟩, hrest, heq⟩ := bind_eq_ok h
          cases heq
          exact .inlineClass hc (ih hrest)

theorem symbols_of_spells (h : Spells lex items ss lex') : symbols lex items = .ok (ss, lex') := by
  induction h with
  | nil => rfl
  | @named _ _ _ _ item _ hnamed _ ih =>
      cases item with
      | nonterminal | classRef =>
          cases hnamed
          rw [symbols, ih]
          rfl
      | inlineClass => cases hnamed
  | @inlineClass lex _ items _ _ c hliteral _ ih =>
      rw [symbols, hliteral]
      change (symbols (lex.assign c).2 items >>= _) = _
      rw [ih]
      rfl

namespace Spells

/-- A name that is bound keeps its class. -/
theorem get?_of_bound (h : Spells lex items ss lex') (hbound : lex.get? name = some c) :
    lex'.get? name = some c := by
  induction h with
  | nil => exact hbound
  | named _ _ ih => exact ih hbound
  | inlineClass _ _ ih => exact ih (Lexicon.get?_assign_of_bound hbound _)

/-- A class that is written in place is spelled by a numeral that was free and is bound to it. -/
theorem inline_bound (h : Spells lex items ss lex') {left right : List ProductionItem}
    {literal : ClassLiteral} (hitems : items = left ++ .inlineClass literal :: right) :
    ∃ n c, ss[left.length]? = some (.cls (Nat.repr n)) ∧ CharClass.ofLiteral literal = .ok c ∧
      lex.get? (Nat.repr n) = none ∧ lex'.get? (Nat.repr n) = some c := by
  induction h generalizing left with
  | nil => simp at hitems
  | named hnamed _ ih =>
      cases left with
      | nil =>
          cases hitems
          cases hnamed
      | cons item left =>
          obtain ⟨n, c, hsymbol, hliteral, hfree, hbound⟩ := ih (List.cons.inj hitems).2
          exact ⟨n, c, hsymbol, hliteral, hfree, hbound⟩
  | @inlineClass lex _ _ _ _ first hfirst hrest ih =>
      cases left with
      | nil =>
          cases hitems
          exact ⟨_, first, rfl, hfirst, lex.get?_assign_fst first,
            hrest.get?_of_bound (lex.get?_assign_self first)⟩
      | cons item left =>
          obtain ⟨n, c, hsymbol, hliteral, hfree, hbound⟩ := ih (List.cons.inj hitems).2
          refine ⟨n, c, hsymbol, hliteral, ?_, hbound⟩
          -- It was free behind the first assignment, which only binds names.
          rw [Lexicon.get?_assign] at hfree
          split at hfree
          · cases hfree
          · exact hfree

/-- A name that is bound afterwards was bound before, or is the numeral that spells a class that
is written in place. -/
theorem bound_or_inline (h : Spells lex items ss lex') (hbound : lex'.contains name = true) :
    lex.contains name = true ∨ ∃ n left literal right, name = Nat.repr n ∧
      items = left ++ .inlineClass literal :: right ∧ ss[left.length]? = some (.cls name) := by
  induction h with
  | nil => exact .inl hbound
  | @named _ _ _ _ item _ _ _ ih =>
      rcases ih hbound with hold | ⟨n, left, literal, right, hname, rfl, hsymbol⟩
      · exact .inl hold
      · exact .inr ⟨n, item :: left, literal, right, hname, rfl, hsymbol⟩
  | @inlineClass lex _ items _ literal first _ _ ih =>
      rcases ih hbound with hold | ⟨n, left, other, right, hname, rfl, hsymbol⟩
      · rcases (lex.contains_assign_iff first name).mp hold with rfl | hold
        · exact .inr ⟨lex.freshNumber, [], literal, items, rfl, rfl, rfl⟩
        · exact .inl hold
      · exact .inr ⟨n, .inlineClass literal :: left, other, right, hname, rfl, hsymbol⟩

theorem classRef_mem (h : Spells lex items ss lex') (hmem : .classRef name ∈ items) :
    .cls name ∈ ss := by
  induction h with
  | nil => cases hmem
  | named hnamed _ ih =>
      rcases List.mem_cons.mp hmem with rfl | hmem
      · cases hnamed
        exact List.mem_cons_self
      · exact List.mem_cons_of_mem _ (ih hmem)
  | inlineClass _ _ ih =>
      exact List.mem_cons_of_mem _ (ih (by simpa using hmem))

end Spells

/-- A restriction is its class and the instances of its places. -/
theorem restriction_eq_ok {context : List ContextItem} {spec : ClassSpec} {c : CharClass}
    {texts : List String} (h : restriction lex marker context spec = .ok (c, texts)) :
    ∃ places, resolve lex spec = .ok c ∧ slots lex context = .ok places ∧
      Context.instances places marker = .ok texts := by
  obtain ⟨other, hc, h⟩ := bind_eq_ok h
  obtain ⟨places, hplaces, h⟩ := bind_eq_ok h
  obtain ⟨instances, htexts, heq⟩ := bind_eq_ok h
  cases heq
  exact ⟨places, mapError_eq_ok hc, mapError_eq_ok hplaces, mapError_eq_ok htexts⟩

/-- What a command that runs does to a draft. -/
inductive Executes (marker : String) (d : Draft) : Command → Draft → Prop
  | production {nonterminal : String} {items : List ProductionItem} {weight : Weight}
      {ss : List Symbol} {lexicon : Lexicon} {grammar : Grammar} :
      Spells d.lexicon items ss lexicon →
      d.grammar.addRule nonterminal ss weight = .ok grammar →
      Executes marker d (.production nonterminal items weight)
        { d with grammar, lexicon, firstNonterminal := some (d.firstNonterminal.getD nonterminal) }
  | definition {name : String} {spec : ClassSpec} {c : CharClass} :
      resolve d.lexicon spec = .ok c →
      Executes marker d (.definition name spec) { d with lexicon := d.lexicon.define name c }
  | condition {context : List ContextItem} {spec : ClassSpec} {c : CharClass}
      {texts : List String} : restriction d.lexicon marker context spec = .ok (c, texts) →
      Executes marker d (.condition context spec) { d with
        phonotactics := texts.foldl (fun p text => p.addCondition text c) d.phonotactics }
  | exclusion {context : List ContextItem} {spec : ClassSpec} {c : CharClass}
      {texts : List String} : restriction d.lexicon marker context spec = .ok (c, texts) →
      Executes marker d (.exclusion context spec) { d with
        phonotactics := texts.foldl (fun p text => p.addExclusion text c) d.phonotactics }

theorem executes_of_execute (h : d.execute marker command = .ok d') :
    Executes marker d command d' := by
  cases command with
  | production nonterminal items weight =>
      obtain ⟨⟨ss, lexicon⟩, hss, h⟩ := bind_eq_ok h
      obtain ⟨grammar, hgrammar, heq⟩ := bind_eq_ok h
      cases heq
      exact .production (spells_of_symbols (mapError_eq_ok hss)) (mapError_eq_ok hgrammar)
  | definition name spec =>
      obtain ⟨c, hc, heq⟩ := bind_eq_ok h
      cases heq
      exact .definition (mapError_eq_ok hc)
  | condition context spec =>
      obtain ⟨⟨c, texts⟩, hrestriction, heq⟩ := bind_eq_ok h
      cases heq
      exact .condition hrestriction
  | exclusion context spec =>
      obtain ⟨⟨c, texts⟩, hrestriction, heq⟩ := bind_eq_ok h
      cases heq
      exact .exclusion hrestriction

theorem execute_of_executes (h : Executes marker d command d') :
    d.execute marker command = .ok d' := by
  cases h with
  | production hspells hgrammar =>
      rw [execute, symbols_of_spells hspells]
      change ((d.grammar.addRule _ _ _).mapError _ >>= _) = _
      rw [hgrammar]
      rfl
  | definition hspec =>
      rw [execute, hspec]
      rfl
  | condition hrestriction | exclusion hrestriction =>
      rw [execute, hrestriction]
      rfl

namespace Executes

/-- The rules of a nonterminal only grow at their end. -/
theorem rules_prefix (h : Executes marker d command d') (nonterminal : String) :
    d.grammar.rules nonterminal <+: d'.grammar.rules nonterminal := by
  cases h with
  | production _ hgrammar =>
      rw [Grammar.rules_addRule hgrammar]
      split
      · next heq =>
          subst heq
          exact List.prefix_append _ _
      · exact List.prefix_rfl
  | definition | condition | exclusion => exact List.prefix_rfl

theorem length_rules (h : Executes marker d command d') (nonterminal : String) :
    (d'.grammar.rules nonterminal).length =
      (d.grammar.rules nonterminal).length + [command].countP (·.produces nonterminal) := by
  cases h with
  | @production lhs _ _ _ _ _ _ hgrammar =>
      rw [Grammar.rules_addRule hgrammar]
      by_cases heq : nonterminal = lhs
      · simp [heq, Command.produces]
      · simp [heq, Ne.symm heq, Command.produces]
  | definition | condition | exclusion => rfl

/-- A production becomes the last rule of its nonterminal. -/
theorem spelled {nonterminal : String} {weight : Weight}
    (h : Executes marker d (.production nonterminal items weight) d') :
    ∃ ss, Spells d.lexicon items ss d'.lexicon ∧
      d'.grammar.rules nonterminal = d.grammar.rules nonterminal ++ [⟨ss, weight⟩] := by
  cases h with
  | @production _ _ _ ss _ _ hspells hgrammar =>
      exact ⟨ss, hspells, by rw [Grammar.rules_addRule hgrammar, if_pos rfl]⟩

/-- A name that is bound keeps its class unless the command defines it. -/
theorem get?_of_bound (h : Executes marker d command d') (hbound : d.lexicon.get? name = some c)
    (hname : command.defines? ≠ some name) : d'.lexicon.get? name = some c := by
  cases h with
  | production hspells => exact hspells.get?_of_bound hbound
  | definition =>
      have hne : name ≠ _ := fun heq => hname (congrArg some heq.symm)
      rw [Lexicon.get?_define, if_neg hne, hbound]
  | condition | exclusion => exact hbound

/-- A name that is bound after a command was bound before, is defined by it, or is the numeral
that spells a class that it writes in place. -/
theorem bound_or_named (h : Executes marker d command d')
    (hbound : d'.lexicon.contains name = true) :
    d.lexicon.contains name = true ∨ command.defines? = some name ∨
      ∃ n nonterminal left literal right weight, name = Nat.repr n ∧
        command = .production nonterminal (left ++ .inlineClass literal :: right) weight ∧
          d'.grammar.symbolAt? nonterminal (d.grammar.rules nonterminal).length left.length =
            some (.cls name) := by
  cases h with
  | @production nonterminal _ weight _ _ _ hspells hgrammar =>
      rcases hspells.bound_or_inline hbound with
        hold | ⟨n, left, literal, right, hname, rfl, hsymbol⟩
      · exact .inl hold
      · refine .inr (.inr ⟨n, nonterminal, left, literal, right, weight, hname, rfl, ?_⟩)
        simp [Grammar.symbolAt?, Grammar.rules_addRule hgrammar, hsymbol]
  | @definition other _ first =>
      rcases (d.lexicon.contains_define_iff first other name).mp hbound with rfl | hold
      · exact .inr (.inl rfl)
      · exact .inl hold
  | condition | exclusion => exact .inl hbound

end Executes

/-- Commands run one part after the other. -/
theorem run_append (marker : String) (d : Draft) (cs ds : Description) :
    run marker d (cs ++ ds) = run marker d cs >>= fun mid => run marker mid ds := by
  induction cs generalizing d with
  | nil => rfl
  | cons command cs ih =>
      rw [List.cons_append, run, run]
      cases d.execute marker command with
      | error e => rfl
      | ok next => exact ih next

theorem run_cons_eq_ok {cs : Description} (h : run marker d (command :: cs) = .ok d') :
    ∃ next, Executes marker d command next ∧ run marker next cs = .ok d' := by
  obtain ⟨next, hnext, hrest⟩ := bind_eq_ok h
  exact ⟨next, executes_of_execute hnext, hrest⟩

theorem run_cons_of_executes {cs : Description} {next : Draft} (h : Executes marker d command next)
    (hrest : run marker next cs = .ok d') : run marker d (command :: cs) = .ok d' := by
  rw [run, execute_of_executes h]
  exact hrest

theorem run_concat_eq_ok {cs : Description} (h : run marker d (cs ++ [command]) = .ok d') :
    ∃ mid, run marker d cs = .ok mid ∧ Executes marker mid command d' := by
  obtain ⟨mid, hmid, hlast⟩ := bind_eq_ok ((run_append marker d cs [command]).symm.trans h)
  obtain ⟨next, hnext, hend⟩ := run_cons_eq_ok hlast
  obtain rfl : next = d' := Except.ok.inj hend
  exact ⟨mid, hmid, hnext⟩

/-- What holds of a draft before a run, and is kept by each command that runs, holds of every draft
that a run leads to. -/
@[elab_as_elim]
theorem run_induct {motive : Description → Draft → Prop} {first : Draft} (start : motive [] first)
    (step : ∀ cs d command d', run marker first cs = .ok d → motive cs d →
      Executes marker d command d' → motive (cs ++ [command]) d')
    {cs : Description} (h : run marker first cs = .ok d) : motive cs d := by
  induction cs using List.reverseRecOn generalizing d with
  | nil =>
      obtain rfl : first = d := Except.ok.inj h
      exact start
  | append_singleton cs command ih =>
      obtain ⟨mid, hmid, hlast⟩ := run_concat_eq_ok h
      exact step cs mid command d hmid (ih hmid) hlast

theorem rules_prefix_of_run {cs : Description} (h : run marker d cs = .ok d')
    (nonterminal : String) : d.grammar.rules nonterminal <+: d'.grammar.rules nonterminal := by
  refine run_induct List.prefix_rfl ?_ h
  intro cs mid command d' _ ih hstep
  exact ih.trans (hstep.rules_prefix nonterminal)

/-- A nonterminal has as many rules as there are productions of it. -/
theorem length_rules_of_run {cs : Description} (h : run marker {} cs = .ok d)
    (nonterminal : String) :
    (d.grammar.rules nonterminal).length = cs.countP (·.produces nonterminal) := by
  refine run_induct rfl ?_ h
  intro cs d command d' _ ih hstep
  rw [hstep.length_rules, ih, List.countP_append]

/-- A name that is bound before a run has in the end the class that it had, if no command of the
run defines it, and else the class that the last definition of it was given. -/
theorem get?_of_run {cs : Description} (h : run marker d cs = .ok d')
    (hbound : d.lexicon.get? name = some c) :
    (name ∉ definedNames cs ∧ d'.lexicon.get? name = some c) ∨
      ∃ mid spec rest there last, cs = mid ++ .definition name spec :: rest ∧
        name ∉ definedNames rest ∧ run marker d mid = .ok there ∧
          resolve there.lexicon spec = .ok last ∧ d'.lexicon.get? name = some last := by
  refine run_induct (.inl ⟨List.not_mem_nil, hbound⟩) ?_ h
  intro cs before command d' hbefore ih hstep
  -- The last command either defines the name or leaves to it what the others made of it.
  by_cases hname : command.defines? = some name
  · cases hstep with
    | @definition other spec last hlast =>
        obtain rfl : other = name := Option.some.inj hname
        refine .inr ⟨cs, spec, [], before, last, rfl, List.not_mem_nil, hbefore, hlast, ?_⟩
        rw [Lexicon.get?_define, if_pos rfl]
    | production | condition | exclusion => cases hname
  · rcases ih with ⟨hfree, hold⟩ | ⟨mid, spec, rest, there, last, rfl, hfree, hmid, hlast, hold⟩
    · refine .inl ⟨?_, hstep.get?_of_bound hold hname⟩
      rw [mem_definedNames_concat]
      exact not_or.mpr ⟨hfree, hname⟩
    · refine .inr ⟨mid, spec, rest ++ [command], there, last, by simp, ?_, hmid, hlast,
        hstep.get?_of_bound hold hname⟩
      rw [mem_definedNames_concat]
      exact not_or.mpr ⟨hfree, hname⟩

theorem freeze_eq_ok {root : Option String} {m : Model} (h : d.freeze root = .ok m) :
    m.grammar = d.grammar ∧ m.lexicon = d.lexicon ∧ m.phonotactics = d.phonotactics ∧
      root.or d.firstNonterminal = some m.root ∧
        d.grammar.validate m.root d.lexicon = .ok () := by
  simp only [freeze] at h
  split at h
  · cases h
  · next hroot =>
      obtain ⟨checked, hvalid, heq⟩ := bind_eq_ok h
      cases heq
      exact ⟨rfl, rfl, rfl, hroot, mapError_eq_ok hvalid⟩

end Draft

/-- Whether a grammar can be used depends on which names are bound, not on their classes. -/
theorem Grammar.validate_eq {lex lex' : Lexicon}
    (h : ∀ name, lex.contains name = lex'.contains name) (g : Grammar) (root : String) :
    g.validate root lex = g.validate root lex' := by
  simp only [validate, firstUndefinedClass, firstUnbound, h]

/-- A draft with the grammar and the bound names of one that can be frozen can be frozen too. -/
theorem Draft.freeze_of_same {d d' : Draft} {root : Option String} {m : Model}
    (h : d.freeze root = .ok m) (hgrammar : d.grammar = d'.grammar)
    (hfirst : d.firstNonterminal = d'.firstNonterminal)
    (hbound : ∀ name, d.lexicon.contains name = d'.lexicon.contains name) :
    d'.freeze root = .ok { m with lexicon := d'.lexicon, phonotactics := d'.phonotactics } := by
  obtain ⟨heq, -, -, hroot, hvalid⟩ := freeze_eq_ok h
  rw [Grammar.validate_eq hbound, hgrammar] at hvalid
  rw [hfirst] at hroot
  rw [freeze, hroot, heq, hgrammar]
  change ((d'.grammar.validate m.root d'.lexicon).mapError _ >>= _) = _
  rw [hvalid]
  rfl

/-- Every class that a rule of a valid grammar names is bound. -/
theorem Grammar.contains_of_validate {g : Grammar} {root : String} {lex : Lexicon}
    (h : g.validate root lex = .ok ()) {nonterminal name : String} {rule : Rule}
    (hrule : rule ∈ g.rules nonterminal) (hname : .cls name ∈ rule.symbols) :
    lex.contains name = true := by
  cases validate_eq_iff.mp h with
  | valid _ hbound => exact hbound nonterminal name (List.mem_flatMap.mpr ⟨rule, hrule, hname⟩)

/-- A model is the frozen draft of all commands. -/
theorem Model.ofDescription_eq_ok {description : Description} {config : Config} {m : Model}
    (h : Model.ofDescription description config = .ok m) :
    ∃ d, Draft.run config.boundary {} description = .ok d ∧ d.freeze config.root = .ok m :=
  bind_eq_ok h

end Neologism
