import Neologism.Proofs.Model.Restrictions
import Neologism.Proofs.Phonotactics.Merging

/-! # The entries of the tables

The conditions and exclusions of a model are what the commands of its description have written, in
order. A command writes the class that its specification has when it runs. What is written is a
copy, so that a name which is defined again afterwards leaves the entries as they are.

`Draft.contributions` lists the classes that were written for a text. Main statement:
`table_entries`. -/

namespace Neologism

open Phonotactics

/-- The context and the class of a command that writes into the table of a kind. -/
def Command.writes? : Kind → Command → Option (List ContextItem × ClassSpec)
  | .condition, .condition context spec => some (context, spec)
  | .exclusion, .exclusion context spec => some (context, spec)
  | _, _ => none

/-- The classes that a command writes for a text where names are bound as in the lexicon: its
class, once for each time that the text is an instance of its context. -/
def Command.contribution (marker : String) (lex : Lexicon) (kind : Kind) (text : String)
    (command : Command) : List CharClass :=
  match command.writes? kind with
  | none => []
  | some (context, spec) =>
      match Draft.restriction lex marker context spec with
      | .error _ => []
      | .ok (c, texts) => List.replicate (texts.count text) c

namespace Draft

/-- The classes that commands write for a text, in order. Each command meets the names as the
commands before it have bound them. -/
def contributions (marker : String) (kind : Kind) (text : String) :
    Draft → Description → List CharClass
  | _, [] => []
  | d, command :: rest =>
      command.contribution marker d.lexicon kind text ++
        match d.execute marker command with
        | .error _ => []
        | .ok next => contributions marker kind text next rest

variable {marker : String} {kind : Kind} {text : String} {command : Command} {d d' : Draft}

namespace Executes

/-- A table stays as it is, or the class of the command is written for each of the texts. -/
theorem table_eq (h : Executes marker d command d') (kind : Kind) :
    (command.writes? kind = none ∧ d'.phonotactics.table kind = d.phonotactics.table kind) ∨
      ∃ context spec c texts, command.writes? kind = some (context, spec) ∧
        restriction d.lexicon marker context spec = .ok (c, texts) ∧
          d'.phonotactics.table kind =
            texts.foldl (fun t text => t.upsert text (kind.into c))
              (d.phonotactics.table kind) := by
  cases h with
  | production | definition => exact .inl ⟨by cases kind <;> rfl, rfl⟩
  | condition hrestriction =>
      rw [foldl_addCondition]
      cases kind with
      | condition => exact .inr ⟨_, _, _, _, rfl, hrestriction, rfl⟩
      | exclusion => exact .inl ⟨rfl, rfl⟩
  | exclusion hrestriction =>
      rw [foldl_addExclusion]
      cases kind with
      | condition => exact .inl ⟨rfl, rfl⟩
      | exclusion => exact .inr ⟨_, _, _, _, rfl, hrestriction, rfl⟩

/-- A command adds what it contributes to the classes of an entry. -/
theorem entry (h : Executes marker d command d') {classes : List CharClass}
    (hentry : kind.Entry classes ((d.phonotactics.table kind).get? text)) :
    kind.Entry (classes ++ command.contribution marker d.lexicon kind text)
      ((d'.phonotactics.table kind).get? text) := by
  rcases h.table_eq kind with
    ⟨hnone, hsame⟩ | ⟨context, spec, c, texts, hwrites, hrestriction, hsame⟩
  · simpa only [Command.contribution, hnone, hsame, List.append_nil] using hentry
  · simp only [Command.contribution, hwrites, hrestriction, hsame]
    exact Kind.entry_foldl c texts hentry

/-- An entry to which a command contributes nothing stays as it is. -/
theorem entry_eq (h : Executes marker d command d')
    (hnone : command.contribution marker d.lexicon kind text = []) :
    (d'.phonotactics.table kind).get? text = (d.phonotactics.table kind).get? text := by
  rcases h.table_eq kind with
    ⟨-, hsame⟩ | ⟨context, spec, c, texts, hwrites, hrestriction, hsame⟩
  · rw [hsame]
  · simp only [Command.contribution, hwrites, hrestriction, List.replicate_eq_nil_iff,
      List.count_eq_zero] at hnone
    have hfree : texts.filter (id · = text) = [] := by
      rw [List.filter_eq_nil_iff]
      rintro other hother heq
      exact hnone (of_decide_eq_true heq ▸ hother)
    rw [hsame]
    refine (OrderedMap.get?_foldl_upsert id _ _ texts text).trans ?_
    rw [hfree, List.foldl_nil]

/-- A condition or an exclusion binds no name. -/
theorem lexicon_eq (h : Executes marker d command d') (hcommand : command.restriction? ≠ none) :
    d'.lexicon = d.lexicon := by
  cases h with
  | production | definition => exact absurd rfl hcommand
  | condition | exclusion => rfl

end Executes

theorem contributions_cons {next : Draft} (h : Executes marker d command next)
    (rest : Description) :
    d.contributions marker kind text (command :: rest) =
      command.contribution marker d.lexicon kind text ++
        next.contributions marker kind text rest := by
  rw [contributions, execute_of_executes h]

/-- After a run an entry has the classes that it had and those that the commands contributed. -/
theorem entry_of_run {cs : Description} (h : run marker d cs = .ok d') {classes : List CharClass}
    (hentry : kind.Entry classes ((d.phonotactics.table kind).get? text)) :
    kind.Entry (classes ++ d.contributions marker kind text cs)
      ((d'.phonotactics.table kind).get? text) := by
  induction cs generalizing d classes with
  | nil =>
      obtain rfl : d = d' := Except.ok.inj h
      simpa [contributions] using hentry
  | cons command rest ih =>
      obtain ⟨next, hstep, hrest⟩ := run_cons_eq_ok h
      rw [contributions_cons hstep, ← List.append_assoc]
      exact ih hrest (hstep.entry hentry)

/-- A command contributes the class of its specification if the text is an instance of its
places. -/
theorem mem_contribution_iff {lex : Lexicon} {c : CharClass} :
    c ∈ command.contribution marker lex kind text ↔
      ∃ context spec places texts, command.writes? kind = some (context, spec) ∧
        resolve lex spec = .ok c ∧ slots lex context = .ok places ∧
          Context.instances places marker = .ok texts ∧ text ∈ texts := by
  constructor
  · intro hc
    simp only [Command.contribution] at hc
    split at hc
    · cases hc
    · next context spec hwrites =>
        split at hc
        · cases hc
        · next other texts hrestriction =>
            obtain ⟨hcount, rfl⟩ := List.mem_replicate.mp hc
            obtain ⟨places, hspec, hplaces, htexts⟩ := restriction_eq_ok hrestriction
            exact ⟨context, spec, places, texts, hwrites, hspec, hplaces, htexts,
              List.count_pos_iff.mp (Nat.pos_of_ne_zero hcount)⟩
  · rintro ⟨context, spec, places, texts, hwrites, hspec, hplaces, htexts, htext⟩
    have hrestriction : restriction lex marker context spec = .ok (c, texts) := by
      rw [restriction, hspec, hplaces]
      change (Context.instances places marker).mapError _ >>= _ = _
      rw [htexts]
      rfl
    simp only [Command.contribution, hwrites, hrestriction]
    exact List.mem_replicate.mpr ⟨Nat.ne_of_gt (List.count_pos_iff.mpr htext), rfl⟩

/-- What is contributed in a run is contributed by one of its commands, in the draft that the
commands before it make. -/
theorem mem_contributions_iff {cs : Description} (h : run marker d cs = .ok d') (c : CharClass) :
    c ∈ d.contributions marker kind text cs ↔
      ∃ before command after mid, cs = before ++ command :: after ∧
        run marker d before = .ok mid ∧ c ∈ command.contribution marker mid.lexicon kind text := by
  induction cs generalizing d with
  | nil => simp [contributions]
  | cons first rest ih =>
      obtain ⟨next, hstep, hrest⟩ := run_cons_eq_ok h
      rw [contributions_cons hstep, List.mem_append, ih hrest]
      constructor
      · rintro (hfirst | ⟨before, command, after, mid, rfl, hbefore, hc⟩)
        · exact ⟨[], first, rest, d, rfl, rfl, hfirst⟩
        · exact ⟨first :: before, command, after, mid, rfl, run_cons_of_executes hstep hbefore, hc⟩
      · rintro ⟨before, command, after, mid, hsplit, hbefore, hc⟩
        rcases List.cons_eq_append_iff.mp hsplit with ⟨rfl, hhead⟩ | ⟨before, rfl, rfl⟩
        · obtain ⟨rfl, rfl⟩ := List.cons.inj hhead
          obtain rfl : d = mid := Except.ok.inj hbefore
          exact .inl hc
        · obtain ⟨other, hother, hmid⟩ := run_cons_eq_ok hbefore
          obtain rfl : other = next := Except.ok.inj
            ((execute_of_executes hother).symm.trans (execute_of_executes hstep))
          exact .inr ⟨before, command, after, mid, rfl, hmid, hc⟩

end Draft

/-- The entry of a text is made of the classes that the commands contribute to it, in order. A class
is contributed by a command that has the text among the instances of its places, and it is the one
that the specification has in the draft which the command meets. Conditions and exclusions bind no
name, and a command leaves alone the entries, of either table, to which it contributes nothing. -/
theorem table_entries {description : Description} {config : Config} {m : Model}
    (h : Model.ofDescription description config = .ok m) :
    (∀ (kind : Kind) (text : String),
        kind.Entry (({} : Draft).contributions config.boundary kind text description)
          ((m.phonotactics.table kind).get? text)) ∧
      (∀ (kind : Kind) (text : String) (c : CharClass),
        c ∈ ({} : Draft).contributions config.boundary kind text description ↔
          ∃ before command after d context spec places texts,
            description = before ++ command :: after ∧
              Draft.run config.boundary {} before = .ok d ∧
                command.writes? kind = some (context, spec) ∧
                  Draft.resolve d.lexicon spec = .ok c ∧
                    Draft.slots d.lexicon context = .ok places ∧
                      Context.instances places config.boundary = .ok texts ∧ text ∈ texts) ∧
      ∀ before command after, description = before ++ command :: after →
        ∃ d next, Draft.run config.boundary {} before = .ok d ∧
          Draft.run config.boundary {} (before ++ [command]) = .ok next ∧
            (command.restriction? ≠ none → next.lexicon = d.lexicon) ∧
              ∀ (kind : Kind) (text : String),
                command.contribution config.boundary d.lexicon kind text = [] →
                  (next.phonotactics.table kind).get? text =
                    (d.phonotactics.table kind).get? text := by
  obtain ⟨last, hrun, hfreeze⟩ := Model.ofDescription_eq_ok h
  obtain ⟨-, -, hphonotactics, -⟩ := Draft.freeze_eq_ok hfreeze
  refine ⟨fun kind text => ?_, fun kind text c => ?_, ?_⟩
  · have hnothing : kind.Entry [] ((({} : Draft).phonotactics.table kind).get? text) := by
      cases kind <;> rfl
    rw [hphonotactics]
    exact Draft.entry_of_run hrun hnothing
  · simp only [Draft.mem_contributions_iff hrun, Draft.mem_contribution_iff, exists_and_left]
  · rintro before command after rfl
    obtain ⟨d, next, -, hbefore, hstep, hnext, -⟩ := Model.executes_of_ofDescription h
    exact ⟨d, next, hbefore, hnext, hstep.lexicon_eq, fun kind text => hstep.entry_eq⟩

/-- The class `V` conditions what follows two contexts, the first of which has an instance twice. It
is defined again between the two, and it excludes itself at the start of a word. -/
def vowelsRedefined : Description :=
  [.production "S" [.classRef "V"] 1.0,
    .definition "V" (.inline [("a", 1.0), ("e", 2.0)]),
    .condition [.cls (.inline [("k", 1.0), ("kk", 1.0)]), .cls (.inline [("kk", 1.0), ("k", 1.0)])]
      (.ref "V"),
    .exclusion [.boundary] (.ref "V"),
    .definition "V" (.inline [("o", 4.0), ("a", 0.5)]),
    .condition [.cls (.inline [("kkk", 1.0)])] (.ref "V"),
    .exclusion [.boundary] (.ref "V")]

/-- The model of `vowelsRedefined`. -/
def vowelsRedefinedModel : Model where
  grammar := ⟨⟨[("S", [⟨[.cls "V"], 1.0⟩])], by decide⟩⟩
  lexicon := { classes := ⟨[("V", ⟨[("o", 4.0), ("a", 0.5)], by decide⟩)], by decide⟩ }
  phonotactics := {
    conditions := ⟨[("kkk", ⟨[("a", 2.5), ("e", 4.0), ("o", 4.0)], by decide⟩),
      ("kk", ⟨[("a", 1.0), ("e", 2.0)], by decide⟩),
      ("kkkk", ⟨[("a", 1.0), ("e", 2.0)], by decide⟩)], by decide⟩
    exclusions := ⟨[("_", ⟨[("a", 1.0), ("e", 2.0), ("o", 0.0)], by decide⟩)], by decide⟩ }
  root := "S"

/-- In `vowelsRedefined` the first class of `V` is contributed twice to the entry of `kkk` and the
second one once, and the entry has their tokens with the sums of their weights. -/
theorem table_entries_vowelsRedefined :
    Model.ofDescription vowelsRedefined {} = .ok vowelsRedefinedModel ∧
      ∃ v w entry, ({} : Draft).contributions "_" .condition "kkk" vowelsRedefined = [v, v, w] ∧
        vowelsRedefinedModel.phonotactics.conditions.get? "kkk" = some entry ∧
          entry.keys = ["a", "e", "o"] ∧ entry.get? "a" = some (1.0 + 1.0 + 0.5) := by
  have hmodel : Model.ofDescription vowelsRedefined {} = .ok vowelsRedefinedModel := by
    decide +kernel
  have hclasses : ({} : Draft).contributions "_" .condition "kkk" vowelsRedefined =
      [⟨[("a", 1.0), ("e", 2.0)], by decide⟩, ⟨[("a", 1.0), ("e", 2.0)], by decide⟩,
        ⟨[("o", 4.0), ("a", 0.5)], by decide⟩] := by
    decide +kernel
  refine ⟨hmodel, _, _, _, hclasses, rfl, ?_⟩
  obtain ⟨-, hkeys, hweights⟩ := (table_entries hmodel).1 .condition "kkk"
  refine ⟨hkeys.trans ?_, (hweights "a").trans ?_⟩
  · rw [show ({} : Config).boundary = "_" from rfl, hclasses]
    decide
  · rw [show ({} : Config).boundary = "_" from rfl, hclasses]
    decide

end Neologism
