import Mathlib.Logic.Relation
import Neologism.Proofs.Search.Backtracking

/-! # The calls of a search

A search is two routines that call each other: one ends the word or goes on, and the other goes on
with one candidate after the other until one of them leads to a word. Each call that comes to
nothing takes back what it read, so the next call starts from the same chart and the same tokens,
and a token is chosen only once the chart has read it.

`Calls` says which calls a call makes, and `body_replay` that its answer is settled by theirs. Main
statement: `failed_call_leaves_no_trace`. -/

namespace Neologism.Search

open Relation

namespace State

/-- The chart has read as many tokens as were chosen. -/
def InStep (s : State) : Prop :=
  s.chart.position = s.chosen.length

/-- The word may end in the state. -/
def MayEnd (task : Task) (s : State) : Prop :=
  s.chart.isFinished ∧ task.minimum ≤ s.chosen.length

instance (task : Task) (s : State) : Decidable (s.MayEnd task) :=
  inferInstanceAs (Decidable (_ ∧ _))

/-- The random source has moved on, and the journal has grown. -/
structure Later (s r : State) : Prop where
  value : r.source.value = s.source.value
  drawn : s.source.drawn ≤ r.source.drawn
  journal : s.journal <:+ r.journal

namespace Later

variable {s r q : State}

protected theorem refl (s : State) : Later s s :=
  ⟨rfl, Nat.le_refl _, List.suffix_rfl⟩

protected theorem trans (h : Later s r) (h' : Later r q) : Later s q :=
  ⟨h'.value.trans h.value, Nat.le_trans h.drawn h'.drawn, h.journal.trans h'.journal⟩

end Later

theorem later_unit (s : State) : Later s s.unit.2 :=
  ⟨rfl, Nat.le_succ _, List.suffix_rfl⟩

theorem later_tried (s : State) (token : Token) : Later s (s.tried token) :=
  ⟨rfl, Nat.le_succ _, List.suffix_cons _ _⟩

end State

open State

variable {task : Task} {goOn other descend : Attempt} {s r : State}

/-- Make the attempt, unless there are as many tokens as there may be. -/
def capped (task : Task) (goOn : Attempt) : Attempt := fun s =>
  if task.cap ≤ s.chosen.length then (false, s) else goOn s

theorem capped_of_full (h : task.cap ≤ s.chosen.length) (goOn : Attempt) :
    capped task goOn s = (false, s) :=
  if_pos h

theorem capped_of_room (h : s.chosen.length < task.cap) (goOn : Attempt) :
    capped task goOn s = goOn s :=
  if_neg (Nat.not_le.mpr h)

theorem settle_of_open (h : ¬ s.MayEnd task) (goOn : Attempt) : settle task goOn s = goOn s :=
  if_neg h

theorem settle_of_stop (h : s.MayEnd task) (hstop : s.unit.1 < s.chart.termination)
    (goOn : Attempt) : settle task goOn s = orElse finalize goOn s.unit.2 :=
  (if_pos h).trans (if_pos hstop)

theorem settle_of_onward (h : s.MayEnd task) (honward : ¬ s.unit.1 < s.chart.termination)
    (goOn : Attempt) : settle task goOn s = orElse goOn finalize s.unit.2 :=
  (if_pos h).trans (if_neg honward)

/-- The loop over a pool comes round to another pool and another state: the candidates that were
drawn meanwhile led to no word. -/
inductive ComesRound (descend : Attempt) : Pool Weight → State → Pool Weight → State → Prop
  | here (pool : Pool Weight) (s : State) : ComesRound descend pool s pool s
  | next {pool rest later : Pool Weight} {s r : State} {c : Token × Weight} :
      pool.take? (pool.draw s.unit.1) = some (c, rest) → (follow descend c.1 s).1 = false →
        ComesRound descend rest (follow descend c.1 s).2 later r →
          ComesRound descend pool s later r

/-- The loop over a pool draws a candidate that the chart reads, and what follows starts from the
second state. -/
inductive Descends (descend : Attempt) (pool : Pool Weight) (s : State) : State → Prop
  | intro {later rest : Pool Weight} {r : State} {c : Token × Weight} {chart : Chart} :
      ComesRound descend pool s later r → later.take? (later.draw r.unit.1) = some (c, rest) →
        r.chart.advance? c.1 = some chart →
          Descends descend pool s ((r.tried c.1).enter c.1 chart)

theorem ComesRound.alike {pool later : Pool Weight} (hdescend : Backtracks descend)
    (h : ComesRound descend pool s later r) : Alike s r := by
  induction h with
  | here => exact .refl _
  | next _ hfail _ ih => exact (backtracks_follow hdescend _ _ hfail).trans ih

namespace Descends

variable {pool : Pool Weight}

theorem length_chosen (hdescend : Backtracks descend) (h : Descends descend pool s r) :
    r.chosen.length = s.chosen.length + 1 := by
  cases h with
  | @intro _ _ q c chart hround =>
      have hchosen : (q.tried c.1).chosen = s.chosen := (hround.alike hdescend).chosen
      simp [enter, hchosen]

theorem position (hdescend : Backtracks descend) (h : Descends descend pool s r) :
    r.chart.position = s.chart.position + 1 := by
  cases h with
  | intro hround _ hread =>
      rw [← (hround.alike hdescend).chart]
      exact Chart.position_of_advance? hread

end Descends

theorem follow_replay {token : Token}
    (h : ∀ chart, s.chart.advance? token = some chart →
      other ((s.tried token).enter token chart) = descend ((s.tried token).enter token chart)) :
    follow other token s = follow descend token s := by
  cases hread : s.chart.advance? token with
  | none => simp only [follow, hread]
  | some chart => simp only [follow, hread, h chart hread]

/-- The answers behind the candidates that the loop draws settle what it comes to. -/
theorem tryPool_replay {size : Nat} {pool : Pool Weight}
    (h : ∀ r, Descends descend pool s r → other r = descend r) :
    tryPool other size pool s = tryPool descend size pool s := by
  induction size generalizing pool s with
  | zero => rfl
  | succ size ih =>
      cases htake : pool.take? (pool.draw s.unit.1) with
      | none => simp only [tryPool, htake]
      | some taken =>
          obtain ⟨c, rest⟩ := taken
          have hfollow : follow other c.1 s = follow descend c.1 s :=
            follow_replay fun chart hread => h _ (.intro (.here pool s) htake hread)
          rw [tryPool_succ htake, tryPool_succ htake]
          cases hfound : (follow descend c.1 s).1 with
          | true => rw [orElse_of_found hfound, orElse_of_found (hfollow ▸ hfound), hfollow]
          | false =>
              rw [orElse_of_failed hfound, orElse_of_failed (hfollow ▸ hfound), hfollow]
              apply ih
              intro r hr
              cases hr with
              | intro hround htake' hread => exact h _ (.intro (.next htake hfound hround) htake' hread)

/-- The routines of a search. -/
inductive Routine where
  /-- End the word or go on. -/
  | step
  /-- Go on with one token more, unless there are as many as there may be. -/
  | extend
deriving DecidableEq, Repr

/-- What a routine does, given what each routine answers when it is called. -/
def Routine.body (task : Task) (answers : Routine → Attempt) : Routine → Attempt
  | .step => settle task (answers .extend)
  | .extend => capped task (Search.extend task (answers .step))

/-- What a routine answers. -/
def Routine.attempt (task : Task) : Routine → Attempt
  | .step => run task
  | .extend => capped task (Search.extend task (run task))

/-- A call: the routine and the state in which it is entered. -/
structure Entry where
  routine : Routine
  state : State

/-- What a call comes to. -/
def Entry.answer (task : Task) (e : Entry) : Bool × State :=
  e.routine.attempt task e.state

/-- The first call makes the second one itself. -/
inductive Calls (task : Task) : Entry → Entry → Prop
  /-- The word may not end. -/
  | midway {s : State} : ¬ s.MayEnd task → Calls task ⟨.step, s⟩ ⟨.extend, s⟩
  /-- The word may end, and going on is tried first. -/
  | onward {s : State} : s.MayEnd task → ¬ s.unit.1 < s.chart.termination →
      Calls task ⟨.step, s⟩ ⟨.extend, s.unit.2⟩
  /-- The word was to end, and its text is not new. -/
  | seen {s : State} : s.MayEnd task → s.unit.1 < s.chart.termination →
      (finalize s.unit.2).1 = false → Calls task ⟨.step, s⟩ ⟨.extend, (finalize s.unit.2).2⟩
  /-- A candidate was read. -/
  | descend {s r : State} : s.chosen.length < task.cap →
      Descends (run task) (.ofList (candidates task s).entries) s r →
        Calls task ⟨.extend, s⟩ ⟨.step, r⟩

theorem Calls.alike (h : Calls task ⟨.step, s⟩ ⟨.extend, r⟩) : Alike s r := by
  cases h with
  | midway => exact .refl s
  | onward => exact s.alike_unit
  | seen _ _ hseen => exact s.alike_unit.trans (backtracks_finalize _ hseen)

theorem settle_replay
    (h : ∀ r, Calls task ⟨.step, s⟩ ⟨.extend, r⟩ → other r = goOn r) :
    settle task other s = settle task goOn s := by
  by_cases hend : s.MayEnd task
  · by_cases hstop : s.unit.1 < s.chart.termination
    · rw [settle_of_stop hend hstop, settle_of_stop hend hstop]
      cases hseen : (finalize s.unit.2).1 with
      | true => rw [orElse_of_found hseen, orElse_of_found hseen]
      | false =>
          rw [orElse_of_failed hseen, orElse_of_failed hseen]
          exact h _ (.seen hend hstop hseen)
    · have hsame := h _ (.onward hend hstop)
      rw [settle_of_onward hend hstop, settle_of_onward hend hstop, orElse, orElse, hsame]
  · rw [settle_of_open hend, settle_of_open hend]
    exact h s (.midway hend)

/-- A search ends the word or goes on, and goes on within the cap. -/
theorem run_eq_settle (task : Task) (s : State) :
    run task s = settle task (Routine.extend.attempt task) s := by
  symm
  cases hroom : task.cap - s.chosen.length with
  | zero =>
      rw [run, hroom]
      apply settle_replay
      intro r hr
      have hfull : task.cap ≤ r.chosen.length := by
        rw [hr.alike.chosen]
        omega
      exact capped_of_full hfull _
  | succ room =>
      rw [run, hroom]
      apply settle_replay
      intro r hr
      have hlength : r.chosen.length = s.chosen.length := congrArg List.length hr.alike.chosen
      have hopen : r.chosen.length < task.cap := by omega
      refine (capped_of_room hopen _).trans (tryPool_replay fun q hq => ?_)
      -- A token more is chosen behind each candidate, so the room that is left is one less.
      have hless : task.cap - q.chosen.length = room := by
        rw [hq.length_chosen (backtracks_step task room)]
        omega
      rw [run, hless]

/-- What a call comes to is settled by the answers of the calls that it makes. -/
theorem body_replay {e : Entry} {answers : Routine → Attempt}
    (h : ∀ e', Calls task e e' → answers e'.routine e'.state = e'.answer task) :
    e.routine.body task answers e.state = e.answer task := by
  obtain ⟨routine, s⟩ := e
  cases routine with
  | step =>
      calc
        settle task (answers .extend) s = settle task (Routine.extend.attempt task) s :=
          settle_replay fun r hr => h ⟨.extend, r⟩ hr
        _ = run task s := (run_eq_settle task s).symm
  | extend =>
      change capped task _ s = capped task _ s
      rcases Nat.lt_or_ge s.chosen.length task.cap with hroom | hfull
      · rw [capped_of_room hroom, capped_of_room hroom]
        exact tryPool_replay fun r hr => h ⟨.step, r⟩ (.descend hroom hr)
      · rw [capped_of_full hfull, capped_of_full hfull]

namespace Calls

variable {e e' : Entry}

/-- The tokens that are chosen when a call is made were read by the chart. -/
theorem inStep (h : Calls task e e') (hstep : e.state.InStep) : e'.state.InStep := by
  cases h with
  | descend _ hdescends =>
      rw [InStep, hdescends.position (backtracks_run task),
        hdescends.length_chosen (backtracks_run task), hstep]
  | midway hend => exact hstep
  | onward => exact hstep
  | seen hend hstop hseen =>
      have halike := alike (.seen hend hstop hseen)
      rwa [InStep, halike.chart, halike.chosen]

/-- No call is made with more tokens than may be chosen. -/
theorem length_le (h : Calls task e e') (hlength : e.state.chosen.length ≤ task.cap) :
    e'.state.chosen.length ≤ task.cap := by
  cases h with
  | descend hroom hdescends =>
      rw [hdescends.length_chosen (backtracks_run task)]
      exact hroom
  | midway => exact hlength
  | onward => exact hlength
  | seen hend hstop hseen =>
      rw [(alike (.seen hend hstop hseen)).chosen]
      exact hlength

/-- What a call keeps for the calls that it makes is kept for those that they make in turn. -/
theorem keeps {p : Entry → Prop} (hkeep : ∀ {e e'}, Calls task e e' → p e → p e')
    (h : TransGen (Calls task) e e') (hp : p e) : p e' := by
  induction h with
  | single hcall => exact hkeep hcall hp
  | tail _ hcall ih => exact hkeep hcall ih

end Calls

namespace Composes

variable {R : State → Bool × State → Prop}

theorem capped (h : Composes R) (task : Task) (hgoOn : ∀ s, R s (goOn s)) (s : State) :
    R s (capped task goOn s) := by
  rcases Nat.lt_or_ge s.chosen.length task.cap with hroom | hfull
  · rw [capped_of_room hroom]
    exact hgoOn s
  · rw [capped_of_full hfull]
    exact h.fail s

/-- A relation that passes from the parts of a search to the search holds of all its calls. -/
theorem answer (h : Composes R) (task : Task) (e : Entry) : R e.state (e.answer task) := by
  obtain ⟨routine, s⟩ := e
  cases routine with
  | step => exact h.run task s
  | extend => exact h.capped task (h.extend task (h.run task)) s

end Composes

theorem later_finalize (s : State) : Later s (finalize s).2 := by
  rw [finalize]
  split
  · exact .refl s
  · exact ⟨rfl, Nat.le_refl _, List.suffix_rfl⟩

/-- Whatever a search comes to, its random source only moves on, and its journal only grows. -/
theorem composes_later : Composes fun s out => Later s out.2 where
  fail := .refl
  finalize := later_finalize
  unit := later_unit
  tried := later_tried
  trans := .trans
  found _ h := ⟨h.value, h.drawn, h.journal⟩
  popped _ h := ⟨h.value, h.drawn, h.journal⟩

/-- A call that finds nothing leaves the chart, the chosen tokens and the emitted texts as they
were; only the random source has moved on, and the journal has grown. The calls that it makes,
itself or through others, are entered with a chart in step with the chosen tokens if it was, and
then with as many tokens as may be chosen at most if it was. Its answer is settled by the calls that
it makes itself. -/
theorem failed_call_leaves_no_trace (task : Task) (e : Entry) :
    ((e.answer task).1 = false →
        Alike e.state (e.answer task).2 ∧ Later e.state (e.answer task).2) ∧
      (∀ e', TransGen (Calls task) e e' → e.state.InStep → e'.state.InStep ∧
        (e.state.chosen.length ≤ task.cap → e'.state.chosen.length ≤ task.cap)) ∧
      ∀ answers : Routine → Attempt,
        (∀ e', Calls task e e' → answers e'.routine e'.state = e'.answer task) →
          e.routine.body task answers e.state = e.answer task := by
  refine ⟨fun hfail => ?_, fun e' hcalls hstep => ?_, fun answers h => body_replay h⟩
  · exact ⟨composes_alike.answer task e hfail, composes_later.answer task e⟩
  · constructor
    · exact Calls.keeps (p := fun e => e.state.InStep) Calls.inStep hcalls hstep
    · exact Calls.keeps (p := fun e => e.state.chosen.length ≤ task.cap) Calls.length_le hcalls

/-- A search for a word of one token. -/
def shortTask : Task where
  phonotactics := {}
  marker := "_"
  minimum := 1
  cap := 1

/-- The start of a search in a language whose only words are `n` and `m`, which were found before. -/
def exhausted : State where
  chart := .ofRoot ⟨⟨[("W", [⟨[.cls "N"], 1.0⟩])], by decide⟩⟩
    { classes := ⟨[("N", ⟨[("n", 1.0), ("m", 2.0)], by decide⟩)], by decide⟩ } "W"
  source := default
  emitted := ["m", "n"]
  journal := []

/-- The search reads `n`, comes to nothing, and is back at the start of the word. -/
theorem failed_call_leaves_no_trace_exhausted :
    (Entry.answer shortTask ⟨.step, exhausted⟩).1 = false ∧
      (Entry.answer shortTask ⟨.step, exhausted⟩).2.chosen = [] ∧
        ∃ r, TransGen (Calls shortTask) ⟨.step, exhausted⟩ ⟨.step, r⟩ ∧ r.chosen = ["n"] ∧
          r.chart.position = 1 ∧
            settle shortTask (Routine.extend.attempt shortTask) exhausted =
              Entry.answer shortTask ⟨.step, exhausted⟩ := by
  have hfail : (Entry.answer shortTask ⟨.step, exhausted⟩).1 = false := by decide +kernel
  have hopen : ¬ exhausted.MayEnd shortTask := by decide +kernel
  have hdraw : ((Pool.ofList (candidates shortTask exhausted).entries).take?
      ((Pool.ofList (candidates shortTask exhausted).entries).draw exhausted.unit.1)).map
        (fun taken => taken.1.1) = some "n" := by decide +kernel
  have hread : (exhausted.chart.advance? "n").isSome = true := by decide +kernel
  obtain ⟨⟨⟨_, weight⟩, rest⟩, htake, rfl⟩ := Option.map_eq_some_iff.mp hdraw
  obtain ⟨chart, hchart⟩ := Option.isSome_iff_exists.mp hread
  have hcalls : TransGen (Calls shortTask) ⟨.step, exhausted⟩
      ⟨.step, (exhausted.tried "n").enter "n" chart⟩ :=
    .tail (.single (.midway hopen))
      (.descend Nat.one_pos (.intro (.here _ exhausted) htake hchart))
  obtain ⟨htrace, hnested, hreplay⟩ :=
    failed_call_leaves_no_trace shortTask ⟨.step, exhausted⟩
  have hstep := (hnested _ hcalls rfl).1
  exact ⟨hfail, (htrace hfail).1.chosen, _, hcalls, rfl, hstep,
    hreplay (Routine.attempt shortTask) fun _ _ => rfl⟩

end Neologism.Search
