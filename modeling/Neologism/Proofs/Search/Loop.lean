import Neologism.Proofs.Search.Calls
import Neologism.Proofs.Search.Drawing

/-! # The draws of a search

A search goes on by drawing candidates from a pool until one of them leads to a word. Its draws are a
run of draws for random numbers that the source gives, each of them where the candidate before came
to nothing. So what holds of every run of draws holds of the search.

Main statements: `exists_loopDraws`, and `zero_weight_drawn` for candidates of weight zero. -/

namespace Neologism

namespace Search

open State Pool

/-- The candidates of a run of draws are tried one after the other until one leads to a word.
Each is drawn with the random number of the state in which the one before it came to nothing. -/
inductive TriesDraws (descend : Attempt) : State → List (Draw Weight) → Bool × State → Prop
  | none (s : State) : TriesDraws descend s [] (false, s)
  | found {s : State} {t : Draw Weight} : t.value = s.unit.1 →
      (follow descend t.drawn.1 s).1 = true →
        TriesDraws descend s [t] (follow descend t.drawn.1 s)
  | next {s : State} {t : Draw Weight} {ts : List (Draw Weight)} {out : Bool × State} :
      t.value = s.unit.1 → (follow descend t.drawn.1 s).1 = false →
        TriesDraws descend (follow descend t.drawn.1 s).2 ts out →
          TriesDraws descend s (t :: ts) out

/-- The outcome is that of trying the draws from the pool for the random numbers `us`. -/
structure LoopDraws (descend : Attempt) (pool : Pool Weight) (s : State) (us : List Weight)
    (out : Bool × State) : Prop where
  values : ∀ u ∈ us, ∃ v, u = Source.unitOf v
  tries : TriesDraws descend s (draws pool us) out
  /-- Where the loop comes round, a draw of the run is made. -/
  drawn {later : Pool Weight} {r : State} : ComesRound descend pool s later r →
    later.candidates ≠ [] → ∃ t ∈ draws pool us, t.pool = later ∧ t.value = r.unit.1
  /-- A search that finds nothing has drawn every candidate. -/
  all : out.1 = false → us.length = pool.candidates.length

variable {descend : Attempt} {pool rest : Pool Weight} {s : State} {c : Token × Weight}

theorem loopDraws_nil (hnil : pool.candidates = []) : LoopDraws descend pool s [] (false, s) where
  values := by simp
  tries := .none s
  drawn hround hne := by
    cases hround with
    | here => exact absurd hnil hne
    | next htake => simp [Pool.take?, hnil] at htake
  all _ := by rw [hnil, List.length_nil, List.length_nil]

theorem loopDraws_found (htake : pool.take? (pool.draw s.unit.1) = some (c, rest))
    (hfound : (follow descend c.1 s).1 = true) :
    LoopDraws descend pool s [s.unit.1] (follow descend c.1 s) where
  values := List.forall_mem_singleton.mpr ⟨_, rfl⟩
  tries := by
    simp only [draws, htake]
    exact .found rfl hfound
  drawn hround hne := by
    cases hround with
    | here =>
        simp only [draws, htake]
        exact ⟨_, List.mem_singleton_self _, rfl, rfl⟩
    | next htake' hfail =>
        cases htake.symm.trans htake'
        rw [hfound] at hfail
        cases hfail
  all hfail := by
    rw [hfound] at hfail
    cases hfail

theorem loopDraws_next {us : List Weight} {out : Bool × State}
    (htake : pool.take? (pool.draw s.unit.1) = some (c, rest))
    (hfail : (follow descend c.1 s).1 = false)
    (h : LoopDraws descend rest (follow descend c.1 s).2 us out) :
    LoopDraws descend pool s (s.unit.1 :: us) out where
  values := List.forall_mem_cons.mpr ⟨⟨_, rfl⟩, h.values⟩
  tries := by
    simp only [draws, htake]
    exact .next rfl hfail h.tries
  drawn hround hne := by
    simp only [draws, htake]
    cases hround with
    | here => exact ⟨_, List.mem_cons_self, rfl, rfl⟩
    | next htake' _ hround =>
        cases htake.symm.trans htake'
        obtain ⟨t, ht, hdraw⟩ := h.drawn hround hne
        exact ⟨t, List.mem_cons_of_mem _ ht, hdraw⟩
  all hout := by rw [List.length_cons, h.all hout, length_of_take? htake]

/-- The loop over a pool makes a run of draws. The induction is on the number of candidates, which
each draw lowers by one. -/
theorem exists_loopDraws (descend : Attempt) (pool : Pool Weight) (s : State) :
    ∃ us, LoopDraws descend pool s us (tryPool descend pool.candidates.length pool s) := by
  induction hsize : pool.candidates.length generalizing pool s with
  | zero => exact ⟨[], loopDraws_nil (List.length_eq_zero_iff.mp hsize)⟩
  | succ size ih =>
      have hne : pool.candidates ≠ [] := List.ne_nil_of_length_pos (hsize ▸ Nat.succ_pos size)
      have htake := pool.take?_of_lt (pool.draw_lt s.unit.1 hne)
      have hrest := Nat.succ.inj (hsize.symm.trans (length_of_take? htake))
      rw [tryPool_succ htake]
      cases hfound : (follow descend _ s).1 with
      | true =>
          rw [orElse_of_found hfound]
          exact ⟨_, loopDraws_found htake hfound⟩
      | false =>
          obtain ⟨us, hus⟩ := ih _ (follow descend _ s).2 hrest.symm
          rw [orElse_of_failed hfound]
          exact ⟨_, loopDraws_next htake hfound hus⟩

end Search

namespace Pool

open Search

/-- In a run of draws every candidate comes up once. One of weight zero comes up only where the
random part of the total was spent before the first candidate, or was not spent by all of them. This
holds of the draws that a search makes when it goes on with these candidates, and where it finds
nothing it has drawn every one of them once. -/
theorem zero_weight_drawn (candidates : List (Token × Weight)) (us : List Weight) :
    (us.length = candidates.length →
        ((draws (ofList candidates) us).map Draw.drawn).Perm candidates) ∧
      (∀ t ∈ draws (ofList candidates) us, (t.drawn.2 == 0.0) = true → t.Early ∨ t.Late) ∧
      ∀ (task : Task) (descend : Attempt) (s : State),
        (Search.candidates task s).entries = candidates →
          ∃ values, LoopDraws descend (ofList candidates) s values (extend task descend s) ∧
            (∀ t ∈ draws (ofList candidates) values,
              (t.drawn.2 == 0.0) = true → t.Early ∨ t.Late) ∧
            ((extend task descend s).1 = false →
              ((draws (ofList candidates) values).map Draw.drawn).Perm candidates) := by
  have hzero : ∀ us, ∀ t ∈ draws (ofList candidates) us,
      (t.drawn.2 == 0.0) = true → t.Early ∨ t.Late := by
    intro us t ht hweight
    obtain ⟨-, -, rest, htake⟩ := forall_mem_draws (p := fun _ => True) (fun _ _ => trivial)
      trivial ht
    exact early_or_late htake fun r => (Doubles.sub_zero_le_zero_iff r hweight).mp
  refine ⟨perm_draws (ofList candidates), hzero us, ?_⟩
  rintro task descend s rfl
  obtain ⟨values, hvalues⟩ := exists_loopDraws descend (ofList (Search.candidates task s).entries) s
  exact ⟨values, hvalues, hzero values, fun hfail => perm_draws _ (hvalues.all hfail)⟩

/-- The start of a search with the grammar of `exhausted`, where the only words are `y` and `x`, of
which `y` weighs nothing. -/
def zeroFirst : State where
  chart := .ofRoot exhausted.chart.grammar
    { classes := ⟨[("N", ⟨[("y", 0.0), ("x", 1.0)], by decide⟩)], by decide⟩ } "W"
  source := default
  emitted := []
  journal := []

/-- Of two candidates the one of weight zero comes up first for the random number zero, before
anything is taken off, and so does the search draw it. For a random number above zero it comes up
when the other is gone and nothing is left of the total. -/
theorem zero_weight_drawn_zeroFirst :
    (∃ early ∈ draws (ofList [("y", 0.0), ("x", 1.0)]) [(0.0 : Weight), 0.5],
      ∃ late ∈ draws (ofList [("y", 0.0), ("x", 1.0)]) [(0.25 : Weight), 0.5],
        early.drawn = ("y", 0.0) ∧ early.pool.candidates = [("y", 0.0), ("x", 1.0)] ∧
          (early.Early ∨ early.Late) ∧
            late.drawn = ("y", 0.0) ∧ late.pool.candidates = [("y", 0.0)] ∧
              (late.Early ∨ late.Late)) ∧
      ∃ us, LoopDraws (run shortTask) (.ofList (Search.candidates shortTask zeroFirst).entries)
          zeroFirst us (extend shortTask (run shortTask) zeroFirst) ∧
        ∃ t ∈ draws (.ofList (Search.candidates shortTask zeroFirst).entries) us,
          t.drawn = ("y", 0.0) ∧ (t.Early ∨ t.Late) := by
  constructor
  · have hdrawn (us : List Weight) := (zero_weight_drawn [("y", 0.0), ("x", 1.0)] us).2.1
    have hearly : ⟨ofList [("y", 0.0), ("x", 1.0)], 0.0, ("y", 0.0)⟩ ∈
        draws (ofList [("y", 0.0), ("x", 1.0)]) [(0.0 : Weight), 0.5] := List.mem_cons_self
    have hlate : ⟨⟨[("y", 0.0)], 0.0⟩, 0.5, ("y", 0.0)⟩ ∈
        draws (ofList [("y", 0.0), ("x", 1.0)]) [(0.25 : Weight), 0.5] :=
      List.mem_cons_of_mem _ List.mem_cons_self
    exact ⟨_, hearly, _, hlate, rfl, rfl, hdrawn _ _ hearly (by decide +kernel), rfl, rfl,
      hdrawn _ _ hlate (by decide +kernel)⟩
  · obtain ⟨us, hus, hzero, -⟩ :=
      (zero_weight_drawn _ []).2.2 shortTask (run shortTask) zeroFirst rfl
    obtain ⟨t, ht, hpool, hvalue⟩ := hus.drawn (.here _ zeroFirst) (by decide +kernel)
    obtain ⟨-, -, rest, htake⟩ := forall_mem_draws (p := fun _ => True) (fun _ _ => trivial)
      trivial ht
    have hfirst : ((ofList (Search.candidates shortTask zeroFirst).entries).take?
        ((ofList (Search.candidates shortTask zeroFirst).entries).draw zeroFirst.unit.1)).map
          Prod.fst = some ("y", 0.0) := by
      decide +kernel
    rw [hpool, hvalue] at htake
    have hdrawn : t.drawn = ("y", 0.0) := by
      rw [htake, Option.map_some] at hfirst
      exact Option.some.inj hfirst
    have hweight : (t.drawn.2 == 0.0) = true := by
      rw [hdrawn]
      decide +kernel
    exact ⟨us, hus, t, ht, hdrawn, hzero t ht hweight⟩

/-- A candidate of weight zero can come up before one of positive weight: the random number zero
takes nothing off, and the first candidate is taken for spent. -/
theorem not_zero_weight_last :
    ¬ ∀ candidates : List (Token × Weight), (candidates.map Prod.fst).Nodup →
      (∀ c ∈ candidates, c.2.isValid = true) → ∀ values : List UInt64,
        ∀ t ∈ draws (ofList candidates) (values.map Source.unitOf), (t.drawn.2 == 0.0) = true →
          ∀ c ∈ t.pool.candidates, ¬ 0.0 < c.2 := by
  intro h
  refine h [("y", 0.0), ("x", 1.0)] (by decide) (by decide +kernel) [0]
    ⟨ofList [("y", 0.0), ("x", 1.0)], Source.unitOf 0, ("y", 0.0)⟩ ?_ (by decide +kernel)
    ("x", 1.0) (by simp [ofList]) (by decide +kernel)
  exact List.mem_cons_self

end Pool

end Neologism
