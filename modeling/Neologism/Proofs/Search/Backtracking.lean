import Neologism.Search.Basic

/-! # Attempts that fail leave no trace

An attempt that finds no word takes back every token that it read. Only the random source has
moved on, and the journal has grown.

A search is put together from a few kinds of attempts, and `Composes` says which relations pass
from these to the whole search. Main statements: `Composes.step` and `backtracks_step`. -/

namespace Neologism.Search

namespace State

/-- The states differ in the random source and the journal only. -/
structure Alike (s r : State) : Prop where
  chart : r.chart = s.chart
  chosen : r.chosen = s.chosen
  emitted : r.emitted = s.emitted

namespace Alike

variable {s r q : State}

protected theorem refl (s : State) : Alike s s :=
  ⟨rfl, rfl, rfl⟩

protected theorem trans (h : Alike s r) (h' : Alike r q) : Alike s q :=
  ⟨h'.chart.trans h.chart, h'.chosen.trans h.chosen, h'.emitted.trans h.emitted⟩

end Alike

theorem alike_unit (s : State) : Alike s s.unit.2 :=
  ⟨rfl, rfl, rfl⟩

/-- The state after a candidate was drawn and given to the chart. -/
def tried (s : State) (token : Token) : State :=
  (s.unit.2.push token).2

theorem alike_tried (s : State) (token : Token) : Alike s (s.tried token) :=
  ⟨rfl, rfl, rfl⟩

/-- Taking back a token after a failed attempt behind it gives the state before the token. -/
theorem alike_pop {s r : State} {token : Token} {chart : Chart}
    (h : s.chart.advance? token = some chart) (hr : Alike (s.enter token chart) r) :
    Alike s r.pop where
  chart := by
    rw [pop, hr.chart]
    exact Chart.retreat_of_advance? h
  chosen := by
    rw [pop, hr.chosen]
    exact List.dropLast_concat
  emitted := hr.emitted

end State

open State

theorem orElse_of_found {first second : Attempt} {s : State} (h : (first s).1 = true) :
    orElse first second s = first s := by
  rcases hfirst : first s with ⟨found, r⟩
  obtain rfl : found = true := by rwa [hfirst] at h
  simp [orElse, hfirst]

theorem orElse_of_failed {first second : Attempt} {s : State} (h : (first s).1 = false) :
    orElse first second s = second (first s).2 := by
  rcases hfirst : first s with ⟨found, r⟩
  obtain rfl : found = false := by rwa [hfirst] at h
  simp [orElse, hfirst]

/-- Try one candidate: read it and go on, and take it back if that comes to nothing. -/
def follow (descend : Attempt) (token : Token) : Attempt := fun s =>
  match s.chart.advance? token with
  | none => (false, s.tried token)
  | some chart =>
      match descend ((s.tried token).enter token chart) with
      | (true, r) => (true, r)
      | (false, r) => (false, r.pop)

/-- A draw from a pool makes one attempt with its candidate and then one with what is left. -/
theorem tryPool_succ {descend : Attempt} {size : Nat} {pool rest : Pool Weight} {s : State}
    {candidate : Token × Weight}
    (h : pool.take? (pool.draw s.unit.1) = some (candidate, rest)) :
    tryPool descend (size + 1) pool s =
      orElse (follow descend candidate.1) (tryPool descend size rest) s := by
  cases hread : s.chart.advance? candidate.1 with
  | none =>
      have hpush : s.unit.2.push candidate.1 = (none, s.tried candidate.1) := Prod.ext hread rfl
      simp only [tryPool, h, hpush, orElse, follow, hread]
  | some chart =>
      have hpush : s.unit.2.push candidate.1 = (some chart, s.tried candidate.1) :=
        Prod.ext hread rfl
      simp only [tryPool, h, hpush, orElse, follow, hread]
      rcases descend ((s.tried candidate.1).enter candidate.1 chart) with ⟨found, r⟩
      cases found <;> rfl

/-- The relation of where an attempt starts to what it comes to holds of a search as soon as it
holds of its parts. -/
structure Composes (R : State → Bool × State → Prop) : Prop where
  fail (s : State) : R s (false, s)
  finalize (s : State) : R s (finalize s)
  unit (s : State) : R s (false, s.unit.2)
  tried (s : State) (token : Token) : R s (false, s.tried token)
  trans {s r : State} {out : Bool × State} : R s (false, r) → R r out → R s out
  found {s r : State} {token : Token} {chart : Chart} : s.chart.advance? token = some chart →
    R (s.enter token chart) (true, r) → R s (true, r)
  popped {s r : State} {token : Token} {chart : Chart} : s.chart.advance? token = some chart →
    R (s.enter token chart) (false, r) → R s (false, r.pop)

namespace Composes

variable {R : State → Bool × State → Prop} {first second descend goOn : Attempt}

theorem orElse (h : Composes R) (hfirst : ∀ s, R s (first s)) (hsecond : ∀ s, R s (second s))
    (s : State) : R s (orElse first second s) := by
  have hs := hfirst s
  cases hfound : (first s).1 with
  | true =>
      rw [orElse_of_found hfound]
      exact hs
  | false =>
      rw [orElse_of_failed hfound]
      apply h.trans _ (hsecond _)
      rwa [← hfound]

theorem follow (h : Composes R) (hdescend : ∀ s, R s (descend s)) (token : Token) (s : State) :
    R s (follow descend token s) := by
  have htried := h.tried s token
  cases hread : s.chart.advance? token with
  | none => simpa only [Search.follow, hread] using htried
  | some chart =>
      have hread' : (s.tried token).chart.advance? token = some chart := hread
      have hbehind := hdescend ((s.tried token).enter token chart)
      rcases hr : descend ((s.tried token).enter token chart) with ⟨found, r⟩
      rw [hr] at hbehind
      apply h.trans htried
      cases found with
      | true => simpa only [Search.follow, hread, hr] using h.found hread' hbehind
      | false => simpa only [Search.follow, hread, hr] using h.popped hread' hbehind

theorem tryPool (h : Composes R) (hdescend : ∀ s, R s (descend s)) (size : Nat)
    (pool : Pool Weight) (s : State) : R s (tryPool descend size pool s) := by
  induction size generalizing pool s with
  | zero => exact h.fail s
  | succ size ih =>
      cases htake : pool.take? (pool.draw s.unit.1) with
      | none => simpa only [Search.tryPool, htake] using h.unit s
      | some taken =>
          rw [tryPool_succ htake]
          exact h.orElse (h.follow hdescend _) (ih taken.2) s

theorem extend (h : Composes R) (task : Task) (hdescend : ∀ s, R s (descend s)) (s : State) :
    R s (extend task descend s) :=
  h.tryPool hdescend _ _ s

theorem settle (h : Composes R) (task : Task) (hgoOn : ∀ s, R s (goOn s)) (s : State) :
    R s (settle task goOn s) := by
  rw [Search.settle]
  split
  · apply h.trans (h.unit s)
    change R s.unit.2 (if s.unit.1 < s.chart.termination then _ else _)
    split
    · exact h.orElse h.finalize hgoOn _
    · exact h.orElse hgoOn h.finalize _
  · exact hgoOn s

theorem step (h : Composes R) (task : Task) (room : Nat) (s : State) : R s (step task room s) := by
  induction room generalizing s with
  | zero => exact h.settle task h.fail s
  | succ room ih => exact h.settle task (h.extend task ih) s

theorem run (h : Composes R) (task : Task) (s : State) : R s (run task s) :=
  h.step task _ s

end Composes

/-- Where the attempt finds nothing, it leaves no trace. -/
def Backtracks (a : Attempt) : Prop :=
  ∀ s, (a s).1 = false → Alike s (a s).2

theorem backtracks_fail : Backtracks fun s => (false, s) :=
  fun s _ => .refl s

theorem backtracks_finalize : Backtracks finalize := by
  intro s hfail
  simp only [finalize] at hfail ⊢
  split at hfail
  · next hseen =>
      rw [if_pos hseen]
      exact .refl s
  · cases hfail

theorem composes_alike : Composes fun s out => out.1 = false → Alike s out.2 where
  fail := backtracks_fail
  finalize := backtracks_finalize
  unit s _ := s.alike_unit
  tried s token _ := s.alike_tried token
  trans h h' hfail := (h rfl).trans (h' hfail)
  found _ _ hfail := by cases hfail
  popped hread h _ := alike_pop hread (h rfl)

theorem backtracks_follow {descend : Attempt} (hdescend : Backtracks descend) (token : Token) :
    Backtracks (follow descend token) :=
  composes_alike.follow hdescend token

theorem backtracks_extend (task : Task) {descend : Attempt} (hdescend : Backtracks descend) :
    Backtracks (extend task descend) :=
  composes_alike.extend task hdescend

/-- A search that finds nothing is back where it started. -/
theorem backtracks_step (task : Task) (room : Nat) : Backtracks (step task room) :=
  composes_alike.step task room

theorem backtracks_run (task : Task) : Backtracks (run task) :=
  composes_alike.run task

end Neologism.Search
