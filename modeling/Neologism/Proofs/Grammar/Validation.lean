import Neologism.Grammar.Basic
import Neologism.Proofs.OrderedMap
import Neologism.Proofs.SortedNames

/-! # What is wrong with a grammar

A grammar is valid if its root has a rule and every class that some rule names is bound, whether or
not the rule can be reached. Where it is not, the complaint names the first unbound class in the
rules of the least nonterminal that has one. All that is said of a grammar depends on the list of
rules of each nonterminal, and these lists do not see how the rules of different nonterminals were
mixed when they were added.

Main statements: `firstUndefinedClass_eq_some_iff` for the search, `validate_eq_iff` for its verdict,
`mem_undefinedNonterminals_iff`, and `validate_canonical`. -/

namespace Neologism.Grammar

variable {g g' : Grammar} {lex : Lexicon} {ss : List Symbol} {root name cls : String}

/-- The symbols in the rules of a nonterminal, in the order of the rules. -/
def symbolsOf (g : Grammar) (name : String) : List Symbol :=
  (g.rules name).flatMap Rule.symbols

/-- Every class among the symbols is bound. -/
def AllBound (lex : Lexicon) (ss : List Symbol) : Prop :=
  ∀ cls, .cls cls ∈ ss → lex.contains cls = true

/-- The class is not bound, and every class in front of it is. -/
def FirstUnbound (lex : Lexicon) (ss : List Symbol) (cls : String) : Prop :=
  ∃ before after, ss = before ++ .cls cls :: after ∧ lex.contains cls = false ∧ AllBound lex before

theorem not_allBound (h : FirstUnbound lex ss cls) : ¬ AllBound lex ss := by
  obtain ⟨before, after, rfl, hunbound, -⟩ := h
  intro hbound
  have hcontains := hbound cls (by simp)
  simp [hunbound] at hcontains

theorem firstUnbound_eq_none_iff : firstUnbound lex ss = none ↔ AllBound lex ss := by
  rw [firstUnbound, List.findSome?_eq_none_iff]
  constructor
  · intro h cls hcls
    simpa using h _ hcls
  · intro h symbol hsymbol
    cases symbol with
    | nonterminal => rfl
    | cls cls => simp [h cls hsymbol]

theorem firstUnbound_eq_some_iff : firstUnbound lex ss = some cls ↔ FirstUnbound lex ss cls := by
  rw [firstUnbound, List.findSome?_eq_some_iff]
  constructor
  · rintro ⟨before, symbol, after, rfl, hsymbol, hbefore⟩
    cases symbol with
    | nonterminal => cases hsymbol
    | cls other =>
        obtain ⟨hunbound, rfl⟩ : lex.contains other = false ∧ other = cls := by simpa using hsymbol
        exact ⟨before, after, rfl, hunbound,
          firstUnbound_eq_none_iff.mp (List.findSome?_eq_none_iff.mpr hbefore)⟩
  · rintro ⟨before, after, rfl, hunbound, hbefore⟩
    exact ⟨before, .cls cls, after, rfl, by simp [hunbound],
      List.findSome?_eq_none_iff.mp (firstUnbound_eq_none_iff.mpr hbefore)⟩

theorem findSome?_firstUnbound (lex : Lexicon) (name : String) (rules : List Rule) :
    rules.findSome? (fun rule => (firstUnbound lex rule.symbols).map (name, ·)) =
      (firstUnbound lex (rules.flatMap Rule.symbols)).map (name, ·) := by
  induction rules with
  | nil => rfl
  | cons rule rules ih =>
      rw [List.findSome?_cons, List.flatMap_cons, firstUnbound, firstUnbound, List.findSome?_append]
      rw [ih, firstUnbound]
      cases List.findSome? _ rule.symbols <;> rfl

theorem allBound_of_notMem (h : name ∉ g.ruleSets.keys) : AllBound lex (g.symbolsOf name) := by
  intro cls hcls
  rw [symbolsOf, rules, (g.ruleSets.get?_eq_none_iff name).mpr h] at hcls
  cases hcls

theorem firstUndefinedClass_eq (g : Grammar) (lex : Lexicon) :
    g.firstUndefinedClass lex = (sortedNames g.ruleSets.keys).findSome? fun name =>
      (firstUnbound lex (g.symbolsOf name)).map (name, ·) := by
  simp only [firstUndefinedClass, findSome?_firstUnbound, symbolsOf]

theorem firstUndefinedClass_eq_none_iff :
    g.firstUndefinedClass lex = none ↔ ∀ name, AllBound lex (g.symbolsOf name) := by
  simp only [firstUndefinedClass_eq, List.findSome?_eq_none_iff, mem_sortedNames,
    Option.map_eq_none_iff, firstUnbound_eq_none_iff]
  constructor
  · intro h name
    by_cases hkey : name ∈ g.ruleSets.keys
    · exact h name hkey
    · exact allBound_of_notMem hkey
  · exact fun h name _ => h name

/-- The search finds the first unbound class of the least nonterminal that has one. -/
theorem firstUndefinedClass_eq_some_iff :
    g.firstUndefinedClass lex = some (name, cls) ↔
      FirstUnbound lex (g.symbolsOf name) cls ∧
        ∀ other < name, AllBound lex (g.symbolsOf other) := by
  rw [firstUndefinedClass_eq, findSome?_sortedNames_eq_some_iff]
  constructor
  · rintro ⟨found, -, hfound, hless⟩
    obtain ⟨cls', hcls, heq⟩ := Option.map_eq_some_iff.mp hfound
    obtain ⟨rfl, rfl⟩ := Prod.mk.inj heq
    refine ⟨firstUnbound_eq_some_iff.mp hcls, fun other hother => ?_⟩
    by_cases hkey : other ∈ g.ruleSets.keys
    · exact firstUnbound_eq_none_iff.mp (Option.map_eq_none_iff.mp (hless other hkey hother))
    · exact allBound_of_notMem hkey
  · rintro ⟨hfirst, hless⟩
    have hkey : name ∈ g.ruleSets.keys := by
      by_contra hmissing
      exact not_allBound hfirst (allBound_of_notMem hmissing)
    refine ⟨name, hkey, ?_, fun other _ hother => ?_⟩
    · rw [firstUnbound_eq_some_iff.mpr hfirst, Option.map_some]
    · rw [firstUnbound_eq_none_iff.mpr (hless other hother), Option.map_none]

/-- What there is to say of a grammar with a root. -/
inductive Verdict (g : Grammar) (root : String) (lex : Lexicon) :
    Except GrammarError Unit → Prop
  /-- The root has no rules. -/
  | rootless : g.rules root = [] → Verdict g root lex (.error (.noRules root))
  /-- The class is the first unbound one in the rules of the nonterminal with the least bytes that
  has one. -/
  | unbound {name cls : String} : g.rules root ≠ [] →
      FirstUnbound lex (g.symbolsOf name) cls →
      (∀ other, bytes other < bytes name → AllBound lex (g.symbolsOf other)) →
      Verdict g root lex (.error (.undefinedClass name cls))
  /-- The root has rules, and the rules of all nonterminals name bound classes. -/
  | valid : g.rules root ≠ [] → (∀ name, AllBound lex (g.symbolsOf name)) →
      Verdict g root lex (.ok ())

theorem validate_of_rules (h : g.rules root ≠ []) :
    g.validate root lex = (g.firstUndefinedClass lex).elim (.ok ()) fun found =>
      .error (.undefinedClass found.1 found.2) := by
  rw [validate, if_neg (by simpa using h)]
  cases g.firstUndefinedClass lex <;> rfl

theorem verdict_validate (g : Grammar) (root : String) (lex : Lexicon) :
    g.Verdict root lex (g.validate root lex) := by
  by_cases h : g.rules root = []
  · rw [validate, h, if_pos List.isEmpty_nil]
    exact .rootless h
  · rw [validate_of_rules h]
    cases hfirst : g.firstUndefinedClass lex with
    | none => exact .valid h (firstUndefinedClass_eq_none_iff.mp hfirst)
    | some found =>
        obtain ⟨hunbound, hless⟩ := firstUndefinedClass_eq_some_iff.mp hfirst
        exact .unbound h hunbound fun other hother => hless other ((bytes_lt_iff ..).mp hother)

/-- The verdict is what validation answers. -/
theorem validate_eq_iff {result : Except GrammarError Unit} :
    g.validate root lex = result ↔ g.Verdict root lex result := by
  constructor
  · rintro rfl
    exact g.verdict_validate root lex
  · intro h
    cases h with
    | rootless hroot => rw [validate, hroot, if_pos List.isEmpty_nil]
    | unbound hroot hfirst hless =>
        have hfound := firstUndefinedClass_eq_some_iff.mpr ⟨hfirst, fun other hother =>
          hless other ((bytes_lt_iff ..).mpr hother)⟩
        rw [validate_of_rules hroot, hfound, Option.elim_some]
    | valid hroot hbound =>
        rw [validate_of_rules hroot, firstUndefinedClass_eq_none_iff.mpr hbound, Option.elim_none]

/-- The nonterminal occurs in some rule. -/
def Occurs (g : Grammar) (name : String) : Prop :=
  ∃ lhs, .nonterminal name ∈ g.symbolsOf lhs

/-- A nonterminal is there only if it has a rule. -/
def Filled (g : Grammar) : Prop :=
  ∀ name, g.contains name = true → g.rules name ≠ []

theorem contains_of_rules (h : g.rules name ≠ []) : g.contains name = true := by
  by_contra hmissing
  apply h
  rw [rules, Option.not_isSome_iff_eq_none.mp hmissing, Option.getD_none]

theorem Filled.contains_eq_false_iff (h : g.Filled) :
    g.contains name = false ↔ g.rules name = [] := by
  rw [← Bool.not_eq_true, not_iff_comm]
  exact ⟨contains_of_rules, h name⟩

theorem mem_symbols_iff {symbol : Symbol} :
    symbol ∈ g.symbols ↔ ∃ lhs, symbol ∈ g.symbolsOf lhs := by
  rw [symbols, List.mem_flatMap]
  constructor
  · rintro ⟨⟨lhs, rules⟩, hentry, hsymbol⟩
    refine ⟨lhs, ?_⟩
    rwa [symbolsOf, Grammar.rules, (g.ruleSets.get?_eq_some_iff lhs rules).mpr hentry]
  · rintro ⟨lhs, hsymbol⟩
    cases hrules : g.ruleSets.get? lhs with
    | none =>
        rw [symbolsOf, rules, hrules] at hsymbol
        cases hsymbol
    | some rules =>
        rw [symbolsOf, Grammar.rules, hrules] at hsymbol
        exact ⟨(lhs, rules), (g.ruleSets.get?_eq_some_iff lhs rules).mp hrules, hsymbol⟩

theorem mem_undefinedNonterminals_iff (h : g.Filled) :
    name ∈ g.undefinedNonterminals ↔ g.Occurs name ∧ g.rules name = [] := by
  rw [undefinedNonterminals, mem_sortedNames, List.mem_filterMap, ← h.contains_eq_false_iff]
  constructor
  · rintro ⟨symbol, hsymbol, heq⟩
    cases symbol with
    | cls => cases heq
    | nonterminal other =>
        obtain ⟨hmissing, rfl⟩ : g.contains other = false ∧ other = name := by simpa using heq
        exact ⟨mem_symbols_iff.mp hsymbol, hmissing⟩
  · rintro ⟨hoccurs, hmissing⟩
    exact ⟨.nonterminal name, mem_symbols_iff.mpr hoccurs, by simp [hmissing]⟩

theorem undefinedNonterminals_pairwise (g : Grammar) :
    g.undefinedNonterminals.Pairwise fun a b => bytes a < bytes b := by
  simp only [bytes_lt_iff]
  exact sortedNames_pairwise _

/-- A call that adds a rule to those of a nonterminal. -/
structure Addition where
  nonterminal : String
  rule : Rule

/-- The grammar after a call. A rule that is refused leaves it as it is. -/
def perform (g : Grammar) (call : Addition) : Grammar :=
  match g.addRule call.nonterminal call.rule.symbols call.rule.weight with
  | .ok g' => g'
  | .error _ => g

/-- The grammar after calls in order. -/
def performAll (g : Grammar) (calls : List Addition) : Grammar :=
  calls.foldl perform g

theorem perform_of_valid {call : Addition} (h : call.rule.weight.isValid = true) :
    g.addRule call.nonterminal call.rule.symbols call.rule.weight = .ok (g.perform call) := by
  simp [perform, addRule, h]

theorem perform_of_invalid {call : Addition} (h : ¬ call.rule.weight.isValid = true) :
    g.perform call = g := by
  simp [perform, addRule, h]

/-- The rules of a nonterminal are those that were accepted for it, in order. -/
theorem rules_performAll (g : Grammar) (calls : List Addition) (name : String) :
    (g.performAll calls).rules name = g.rules name ++
      ((calls.filter (·.nonterminal = name)).filter (·.rule.weight.isValid)).map Addition.rule := by
  induction calls generalizing g with
  | nil => simp [performAll]
  | cons call rest ih =>
      rw [performAll, List.foldl_cons, ← performAll, ih]
      by_cases hvalid : call.rule.weight.isValid = true
      · rw [rules_addRule (perform_of_valid hvalid)]
        by_cases hname : call.nonterminal = name
        · subst hname
          simp [hvalid]
        · simp [hname, Ne.symm hname]
      · rw [perform_of_invalid hvalid]
        by_cases hname : call.nonterminal = name <;> simp [hname, hvalid]

theorem filled_empty : Filled {} := by
  intro name h
  cases h

theorem contains_addRule {symbols : List Symbol} {weight : Weight}
    (h : g.addRule root symbols weight = .ok g') (name : String) :
    g'.contains name = true ↔ name = root ∨ g.contains name = true := by
  rw [addRule] at h
  split at h
  · cases h
    simp only [contains, OrderedMap.contains_iff, OrderedMap.mem_keys_upsert]
  · cases h

theorem Filled.addRule (h : g.Filled) {symbols : List Symbol} {weight : Weight}
    (hadd : g.addRule root symbols weight = .ok g') : g'.Filled := by
  intro name hname
  rw [rules_addRule hadd]
  split
  · exact List.append_ne_nil_of_right_ne_nil _ (List.cons_ne_nil _ _)
  · next hne => exact h name (((contains_addRule hadd name).mp hname).resolve_left hne)

theorem Filled.perform (h : g.Filled) (call : Addition) : (g.perform call).Filled := by
  by_cases hvalid : call.rule.weight.isValid = true
  · exact h.addRule (perform_of_valid hvalid)
  · rwa [perform_of_invalid hvalid]

theorem Filled.performAll (h : g.Filled) (calls : List Addition) : (g.performAll calls).Filled := by
  induction calls generalizing g with
  | nil => exact h
  | cons call rest ih => exact ih (h.perform call)

theorem symbolsOf_eq (h : g.rules = g'.rules) : g.symbolsOf = g'.symbolsOf := by
  ext1 name
  rw [symbolsOf, symbolsOf, h]

/-- The verdict reads the rules of each nonterminal, and nothing else. -/
theorem Verdict.congr {result : Except GrammarError Unit} (h : g.rules = g'.rules)
    (hverdict : g.Verdict root lex result) : g'.Verdict root lex result := by
  have hrules := congrFun h root
  have hsymbols := symbolsOf_eq h
  cases hverdict with
  | rootless hroot => exact .rootless (hrules ▸ hroot)
  | unbound hroot hfirst hless =>
      rw [hrules] at hroot
      simp only [hsymbols] at hfirst hless
      exact .unbound hroot hfirst hless
  | valid hroot hbound =>
      rw [hrules] at hroot
      simp only [hsymbols] at hbound
      exact .valid hroot hbound

theorem validate_eq_of_rules (h : g.rules = g'.rules) : g.validate root lex = g'.validate root lex :=
  validate_eq_iff.mpr ((g'.verdict_validate root lex).congr h.symm)

theorem undefinedNonterminals_eq_of_rules (hfilled : g.Filled) (hfilled' : g'.Filled)
    (h : g.rules = g'.rules) : g.undefinedNonterminals = g'.undefinedNonterminals := by
  apply (sortedNames_pairwise _).eq_of_mem_iff (sortedNames_pairwise _)
  intro name
  calc name ∈ g.undefinedNonterminals
    _ ↔ g.Occurs name ∧ g.rules name = [] := mem_undefinedNonterminals_iff hfilled
    _ ↔ g'.Occurs name ∧ g'.rules name = [] := by
        rw [Occurs, Occurs, symbolsOf_eq h, h]
    _ ↔ name ∈ g'.undefinedNonterminals := (mem_undefinedNonterminals_iff hfilled').symm

/-- The grammar of calls in order. -/
def build (calls : List Addition) : Grammar :=
  performAll {} calls

theorem filled_build (calls : List Addition) : (build calls).Filled :=
  filled_empty.performAll calls

/-- The calls make the same of each nonterminal, however they are mixed with those for others. -/
def Remixed (calls calls' : List Addition) : Prop :=
  ∀ name, calls.filter (·.nonterminal = name) = calls'.filter (·.nonterminal = name)

/-- Calls that follow each other can change places if they are for different nonterminals. -/
theorem remixed_swap {call call' : Addition} (h : call.nonterminal ≠ call'.nonterminal)
    (before after : List Addition) :
    Remixed (before ++ call :: call' :: after) (before ++ call' :: call :: after) := by
  intro name
  by_cases hname : call.nonterminal = name
  · have hother : call'.nonterminal ≠ name := hname ▸ h.symm
    simp [hname, hother]
  · simp [List.filter_cons, hname]

theorem Remixed.rules_build {calls calls' : List Addition} (h : Remixed calls calls') :
    (build calls).rules = (build calls').rules := by
  ext1 name
  rw [build, build, rules_performAll, rules_performAll, h name]

/-- Validation answers the verdict, the nonterminals without rules are listed in strictly increasing
order, and neither changes with the way the calls for different nonterminals are mixed. -/
theorem validate_canonical (calls : List Addition) :
    (∀ root lex result, (build calls).validate root lex = result ↔
      (build calls).Verdict root lex result) ∧
    ((build calls).undefinedNonterminals.Pairwise fun a b => bytes a < bytes b) ∧
    (∀ name, name ∈ (build calls).undefinedNonterminals ↔
      (build calls).Occurs name ∧ (build calls).rules name = []) ∧
    ∀ calls', Remixed calls calls' →
      (∀ root lex, (build calls').validate root lex = (build calls).validate root lex) ∧
      (build calls').undefinedNonterminals = (build calls).undefinedNonterminals := by
  refine ⟨fun _ _ _ => validate_eq_iff, undefinedNonterminals_pairwise _,
    fun _ => mem_undefinedNonterminals_iff (filled_build calls), fun calls' h => ?_⟩
  have hrules := h.rules_build.symm
  exact ⟨fun _ _ => validate_eq_of_rules hrules,
    undefinedNonterminals_eq_of_rules (filled_build calls') (filled_build calls) hrules⟩

/-- The rule for `é` comes first or last, and the complaint is about `Z`. -/
theorem validate_canonical_accents :
    let calls : List Addition := [⟨"é", ⟨[.cls "x", .nonterminal "é"], 1.0⟩⟩,
      ⟨"Z", ⟨[.cls "v", .cls "y", .nonterminal "q", .nonterminal "Q", .cls "w"], 2.0⟩⟩]
    let lex := ({} : Lexicon).define "v" default
    Remixed calls calls.reverse ∧
      (build calls.reverse).validate "é" lex = .error (.undefinedClass "Z" "y") ∧
      (build calls.reverse).undefinedNonterminals = ["Q", "q"] := by
  intro calls lex
  have hremixed : Remixed calls calls.reverse := remixed_swap (by decide) [] []
  obtain ⟨-, -, -, hcanonical⟩ := validate_canonical calls
  obtain ⟨hvalidate, hundefined⟩ := hcanonical calls.reverse hremixed
  refine ⟨hremixed, ?_, ?_⟩
  · rw [hvalidate]
    decide +kernel
  · rw [hundefined]
    decide +kernel

end Neologism.Grammar
