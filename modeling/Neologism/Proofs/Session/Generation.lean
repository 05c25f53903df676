import Neologism.Session
import Neologism.Proofs.Search.Exploration

/-! # What a session generates

Whether a session finds a word is a matter of its language, its settings, the bounds and the texts
it has made before. The random source decides which word is found, not whether one is.

Main statement: `generate_outcome` lists what a call of `generate` may come to. What is said of
the words that are found and of the tokens that are tried is read off it. `handsOut_generateUpTo`
says the same of calls one after the other. -/

namespace Neologism

/-- The tokens are a word that could still be made: one of the model, within the bounds, and with
a text that was not made before. -/
structure Model.Available (m : Model) (config : Config) (emitted : List String)
    (minimum maximum : UInt64) (tokens : List Token) : Prop where
  admissible : m.Admissible config.boundary tokens
  long : minimum.toNat ≤ tokens.length
  short : tokens.length ≤ (config.cap maximum).toNat
  new : String.join tokens ∉ emitted

namespace Model.Admissible

variable {m : Model} {marker : String} {tokens : List Token}

/-- A chart that has read nothing reads an admissible word and is finished behind it. -/
theorem finishes (h : m.Admissible marker tokens) :
    ∃ ch, m.chart.readAll? tokens = some ch ∧ ch.isFinished = true :=
  Chart.finishes_iff_derives.mpr h.1

/-- Each token of an admissible word survives among those that may come next where it stands. -/
theorem survives {before after : List Token} {t : Token}
    (h : m.Admissible marker (before ++ t :: after)) :
    ∃ ch, m.chart.readAll? before = some ch ∧
      (m.phonotactics.narrow ch.allowed (marker :: before)).contains t = true := by
  obtain ⟨hderives, hpermitted⟩ := h
  obtain ⟨ch, hread⟩ := Chart.exists_readAll?_of_derives hderives
  have hoffers : ch.Offers t :=
    ((Chart.tracks_of_readAll? hread).offers_iff t).mpr (Grammar.anticipates_of_derives hderives)
  have hpermits : m.phonotactics.Permits (marker :: before) t :=
    (m.phonotactics.permitsAll_iff marker [] _).mp hpermitted before t after rfl
  refine ⟨ch, hread, ?_⟩
  rw [Phonotactics.contains_narrow_iff, Chart.contains_allowed_iff]
  exact ⟨hoffers, hpermits⟩

end Model.Admissible

namespace Session

open Search Relation

variable {s : Session} {minimum maximum : UInt64}

/-- The least length is above the greatest one, where both are bounds. -/
def Crossed (minimum maximum : UInt64) : Prop :=
  0 < minimum ∧ 0 < maximum ∧ maximum < minimum

instance (minimum maximum : UInt64) : Decidable (Crossed minimum maximum) :=
  inferInstanceAs (Decidable (_ ∧ _))

/-- What a search for one word of a session does not change. -/
def task (s : Session) (minimum maximum : UInt64) : Task where
  phonotactics := s.model.phonotactics
  marker := s.config.boundary
  minimum := minimum.toNat
  cap := (s.config.cap maximum).toNat

/-- Where a search for one word of a session starts. -/
def opening (s : Session) : State where
  chart := s.model.chart
  source := s.source
  emitted := s.emitted
  journal := s.journal

/-- The session after a search, told in its journal. -/
def close (s : Session) (r : State) (event : Event) : Session :=
  { s with source := r.source, emitted := r.emitted, journal := event :: r.journal }

/-- At the start of a word, a rest that is wanted is a word that is available. -/
theorem wanted_opening_iff (tokens : List Token) :
    Wanted s.model (s.task minimum maximum) s.opening.chosen s.opening.emitted
        ((s.task minimum maximum).cap - s.opening.chosen.length) tokens ↔
      s.model.Available s.config s.emitted minimum maximum tokens := by
  constructor
  · rintro ⟨hfits, hlong, hderives, hpermitted, hnew⟩
    exact ⟨⟨hderives, hpermitted⟩, hlong, hfits, hnew⟩
  · rintro ⟨⟨hderives, hpermitted⟩, hlong, hfits, hnew⟩
    exact ⟨hfits, hlong, hderives, hpermitted, hnew⟩

/-- The search of a session decides whether a word is available. -/
theorem decides_available (s : Session) (minimum maximum : UInt64) :
    Decides (s.model.Available s.config s.emitted minimum maximum) (run (s.task minimum maximum))
      s.opening := by
  have hfollows : Follows s.model s.opening := rfl
  exact (decides_run (s.task minimum maximum) hfollows).congr fun tokens =>
    (wanted_opening_iff tokens).symm

/-- What a session may answer to a call of `generate`, and the session after it. -/
inductive Outcome (s : Session) (minimum maximum : UInt64) :
    Except BoundsError (Option Word) × Session → Prop
  /-- The bounds cross, and nothing is changed. -/
  | crossed (h : Crossed minimum maximum) :
      Outcome s minimum maximum (.error (.minimumExceedsMaximum minimum maximum), s)
  /-- A word was available, and its text is recorded. -/
  | found {tokens : List Token} {r : State} (h : ¬ Crossed minimum maximum)
      (available : s.model.Available s.config s.emitted minimum maximum tokens)
      (emitted : r.emitted = String.join tokens :: s.emitted) (quiet : Quiet s.journal r.journal) :
      Outcome s minimum maximum (.ok (some ⟨tokens⟩), s.close r (.generated tokens.length))
  /-- No word was available, and no text is recorded. -/
  | exhausted {r : State} (h : ¬ Crossed minimum maximum)
      (unavailable : ∀ tokens, ¬ s.model.Available s.config s.emitted minimum maximum tokens)
      (emitted : r.emitted = s.emitted) (quiet : Quiet s.journal r.journal) :
      Outcome s minimum maximum (.ok none, s.close r (.exhausted minimum maximum))

/-- Within bounds that can be met, what a session answers is what its search comes to. -/
theorem generate_eq (h : ¬ Crossed minimum maximum) :
    s.generate minimum maximum =
      match run (s.task minimum maximum) s.opening with
      | (found, r) =>
          if found then (.ok (some ⟨r.chosen⟩), s.close r (.generated r.chosen.length))
          else (.ok none, s.close r (.exhausted minimum maximum)) :=
  if_neg h

/-- Every call of `generate` has one of these outcomes. -/
theorem generate_outcome (s : Session) (minimum maximum : UInt64) :
    s.Outcome minimum maximum (s.generate minimum maximum) := by
  by_cases h : Crossed minimum maximum
  · have hcrossed : s.generate minimum maximum =
        (.error (.minimumExceedsMaximum minimum maximum), s) := if_pos h
    rw [hcrossed]
    exact .crossed h
  · obtain ⟨hfound, hfailed, hquiet⟩ := s.decides_available minimum maximum
    have hback := backtracks_run (s.task minimum maximum) s.opening
    rw [generate_eq h]
    rcases hrun : run (s.task minimum maximum) s.opening with ⟨found, r⟩
    rw [hrun] at hfound hfailed hquiet hback
    cases found with
    | true =>
        obtain ⟨tokens, havailable, hchosen, hemitted⟩ := hfound rfl
        obtain rfl : r.chosen = tokens := hchosen
        exact .found h havailable hemitted hquiet
    | false => exact .exhausted h (hfailed rfl) (hback rfl).emitted hquiet

/-- What calls of `generate` one after the other hand out. They stop when the count is reached or no
word is available, and each word was available when it was found. -/
inductive HandsOut (minimum maximum : UInt64) : Nat → Session → List Word → Session → Prop
  | enough (s : Session) : HandsOut minimum maximum 0 s [] s
  | exhausted {count : Nat} {s : Session} {r : State}
      (unavailable : ∀ tokens, ¬ s.model.Available s.config s.emitted minimum maximum tokens)
      (emitted : r.emitted = s.emitted) :
      HandsOut minimum maximum (count + 1) s [] (s.close r (.exhausted minimum maximum))
  | found {count : Nat} {s last : Session} {r : State} {tokens : List Token} {words : List Word}
      (available : s.model.Available s.config s.emitted minimum maximum tokens)
      (emitted : r.emitted = String.join tokens :: s.emitted)
      (rest : HandsOut minimum maximum count (s.close r (.generated tokens.length)) words last) :
      HandsOut minimum maximum (count + 1) s (⟨tokens⟩ :: words) last

/-- Within bounds that can be met, no word is lost to a complaint about a later one: what the calls
hand out is what a batch answers. -/
theorem handsOut_generateUpTo (h : ¬ Crossed minimum maximum) (count : Nat) (s : Session) :
    ∃ words r, generateUpTo minimum maximum count s = (.ok words, r) ∧
      HandsOut minimum maximum count s words r := by
  induction count generalizing s with
  | zero => exact ⟨[], s, rfl, .enough s⟩
  | succ count ih =>
      have houtcome := s.generate_outcome minimum maximum
      rcases hresult : s.generate minimum maximum with ⟨result, after⟩
      rw [hresult] at houtcome
      -- Bounds that do not cross are the same for every word, so no later word has a complaint.
      cases houtcome with
      | crossed hcrossed => exact absurd hcrossed h
      | exhausted _ unavailable emitted =>
          exact ⟨[], _, by simp only [generateUpTo, hresult], .exhausted unavailable emitted⟩
      | @found tokens r _ available emitted =>
          obtain ⟨words, last, hrest, hhanded⟩ := ih (s.close r (.generated tokens.length))
          refine ⟨⟨tokens⟩ :: words, last, ?_, .found available emitted hhanded⟩
          simp only [generateUpTo, hresult, hrest]

/-- A session of a small language: words of `p` and `t` of any length that do not begin with
`p`. -/
def sample : Session where
  model := {
    grammar := ⟨⟨[("W", [⟨[.cls "C"], 1.0⟩, ⟨[.cls "C", .nonterminal "W"], 0.5⟩])], by decide⟩⟩
    lexicon := { classes := ⟨[("C", ⟨[("p", 1.0), ("t", 2.0)], by decide⟩)], by decide⟩ }
    phonotactics := {
      exclusions := ⟨[(Context.defaultMarker, ⟨[("p", 0.0)], by decide⟩)], by decide⟩ }
    root := "W" }
  config := {}
  source := default

/-- Within bounds that can be met, a session finds a word exactly when one is available, whatever
its random source is, and answers that there is none otherwise. -/
theorem generate_finds_iff_available (h : ¬ Crossed minimum maximum) :
    ((∃ w, (s.generate minimum maximum).1 = .ok (some w)) ↔
        ∃ tokens, s.model.Available s.config s.emitted minimum maximum tokens) ∧
      ((s.generate minimum maximum).1 = .ok none ↔
        ¬ ∃ tokens, s.model.Available s.config s.emitted minimum maximum tokens) := by
  have houtcome := s.generate_outcome minimum maximum
  generalize s.generate minimum maximum = answer at houtcome
  cases houtcome with
  | crossed hcrossed => exact absurd hcrossed h
  | found _ available =>
      have hexists : ∃ tokens, s.model.Available s.config s.emitted minimum maximum tokens :=
        ⟨_, available⟩
      simp [hexists]
  | exhausted _ unavailable => simp [unavailable]

/-- The small language has a word of two tokens, as a session finds one. -/
theorem generate_finds_iff_available_sample :
    ¬ Crossed 2 2 ∧ (sample.generate 2 2).1 = .ok (some ⟨["t", "p"]⟩) ∧
      ∃ tokens, sample.model.Available sample.config sample.emitted 2 2 tokens := by
  have hcrossed : ¬ Crossed 2 2 := by decide
  have hfound : (sample.generate 2 2).1 = .ok (some ⟨["t", "p"]⟩) := by decide +kernel
  exact ⟨hcrossed, hfound, (generate_finds_iff_available hcrossed).1.mp ⟨_, hfound⟩⟩

/-- A word that is found keeps to the bounds, is read by a new chart that is finished behind it,
and has each of its tokens from the candidates at its place. -/
theorem generate_legal {w : Word} (h : (s.generate minimum maximum).1 = .ok (some w)) :
    (minimum.toNat ≤ w.length ∧ w.length ≤ (s.config.cap maximum).toNat) ∧
      (∃ ch, s.model.chart.readAll? w.tokens = some ch ∧ ch.isFinished = true) ∧
      ∀ i (hi : i < w.tokens.length), ∃ ch,
        s.model.chart.readAll? (w.tokens.take i) = some ch ∧
          (s.model.phonotactics.narrow ch.allowed
            (s.config.boundary :: w.tokens.take i)).contains w.tokens[i] = true := by
  have houtcome := s.generate_outcome minimum maximum
  rcases hanswer : s.generate minimum maximum with ⟨answer, after⟩
  rw [hanswer] at houtcome h
  cases houtcome with
  | crossed => cases h
  | exhausted => cases h
  | @found tokens _ _ available =>
      cases h
      refine ⟨⟨available.long, available.short⟩, available.admissible.finishes, ?_⟩
      intro i hi
      have hadmissible := available.admissible
      rw [← List.take_append_drop i tokens, ← List.getElem_cons_drop hi] at hadmissible
      exact hadmissible.survives

/-- A word of the small language is read by a chart that is finished behind it. -/
theorem generate_legal_sample :
    (sample.generate 2 2).1 = .ok (some ⟨["t", "p"]⟩) ∧
      ∃ ch, sample.model.chart.readAll? ["t", "p"] = some ch ∧ ch.isFinished = true := by
  have hfound : (sample.generate 2 2).1 = .ok (some ⟨["t", "p"]⟩) := by decide +kernel
  exact ⟨hfound, (generate_legal hfound).2.1⟩

/-- No call of `generate` tells of a token that the chart refused. -/
theorem quiet_generate (s : Session) (minimum maximum : UInt64) :
    Quiet s.journal (s.generate minimum maximum).2.journal := by
  have houtcome := s.generate_outcome minimum maximum
  generalize s.generate minimum maximum = answer at houtcome
  cases houtcome with
  | crossed => exact .refl s.journal
  | found _ _ _ quiet => exact quiet.trans (.cons _ (by simp))
  | exhausted _ _ _ quiet => exact quiet.trans (.cons _ (by simp))

end Session

open Relation

/-- A chart reads a token exactly when the token is allowed, and exactly when the root has a
leftmost form that goes on with a class of the token behind what was read. No search tries a token
that is refused. -/
theorem advance_iff_allowed_iff_rewrites :
    (∀ (g : Grammar) (lex : Lexicon) (root : String) (ts : List Token) (ch : Chart),
      (Chart.ofRoot g lex root).readAll? ts = some ch → ∀ t,
        ((ch.advance? t).isSome = true ↔ ch.allowed.contains t = true) ∧
          (ch.allowed.contains t = true ↔ ∃ before name after,
            ReflTransGen g.RewritesFirst [.nonterminal root] (before ++ .cls name :: after) ∧
              g.Derives lex before ts ∧ lex.Holds name t)) ∧
      ∀ (s : Session) (minimum maximum : UInt64), ∃ events,
        (s.generate minimum maximum).2.journal = events ++ s.journal ∧
          ∀ token position, Event.rejected token position ∉ events := by
  constructor
  · intro g lex root ts ch hread t
    rw [ch.isSome_advance?_iff, ch.contains_allowed_iff]
    refine ⟨Iff.rfl, ?_⟩
    rw [(Chart.tracks_of_readAll? hread).offers_iff]
    constructor
    · rintro ⟨name, hname, hold⟩
      obtain ⟨before, after, hrewrites, hderives⟩ := Grammar.anticipates_iff.mp hname
      exact ⟨before, name, after, hrewrites, hderives, hold⟩
    · rintro ⟨before, name, after, hrewrites, hderives, hold⟩
      exact ⟨name, Grammar.anticipates_iff.mpr ⟨before, after, hrewrites, hderives⟩, hold⟩
  · intro s minimum maximum
    exact s.quiet_generate minimum maximum

/-- Behind `t`, the small language reads `p`, so some leftmost form goes on with a class of it. -/
theorem advance_iff_allowed_iff_rewrites_sample :
    ∃ ch, Session.sample.model.chart.readAll? ["t"] = some ch ∧
      ch.allowed.contains "p" = true ∧ (ch.advance? "p").isSome = true ∧
        ∃ before name after, ReflTransGen Session.sample.model.grammar.RewritesFirst
            [.nonterminal "W"] (before ++ .cls name :: after) ∧
          Session.sample.model.grammar.Derives Session.sample.model.lexicon before ["t"] ∧
          Session.sample.model.lexicon.Holds name "p" := by
  have hallowed : ((Session.sample.model.chart.readAll? ["t"]).map fun ch =>
      ch.allowed.contains "p") = some true := by decide +kernel
  obtain ⟨ch, hread, hcontains⟩ := Option.map_eq_some_iff.mp hallowed
  obtain ⟨hadvance, hrewrites⟩ := advance_iff_allowed_iff_rewrites.1 _ _ _ _ ch hread "p"
  exact ⟨ch, hread, hcontains, hadvance.mpr hcontains, hrewrites.mp hcontains⟩

end Neologism
