import Neologism.Proofs.Search.Loop

/-! # Draws in proportion to the weights

With exact numbers each candidate of a pool owns a part of the total that is as long as its weight,
in the order of the candidates, and a random number draws the candidate in whose part of the total it
falls. Taking a candidate out leaves the total of the others, so this holds of every draw of a loop
over a pool.

Main statements: `Balanced.draw_eq_iff` for one draw, and `draws_in_proportion`. -/

namespace Neologism.Pool

section Exact

variable {K : Type} [Field K] [LinearOrder K]

/-- The sum of the weights of the first `n` candidates. -/
def weightOfFirst (pool : Pool K) (n : Nat) : K :=
  ((pool.candidates.take n).map Prod.snd).sum

omit [LinearOrder K] in
@[simp]
theorem weightOfFirst_zero (pool : Pool K) : pool.weightOfFirst 0 = 0 :=
  rfl

/-- The part of the total that the random number `u` takes is spent at the first candidate that
reaches it, and that candidate is drawn: the one in whose part of the total `u` lies. -/
structure Apportions (pool : Pool K) (u : K) : Prop where
  /-- Nothing is left behind all candidates. -/
  spent : firstSpent (u * pool.total) pool.candidates = some (pool.draw u)
  least : IsLeast {i | i < pool.candidates.length ∧ u * pool.total ≤ pool.weightOfFirst (i + 1)}
    (pool.draw u)
  /-- The part of a candidate is open below and closed above; zero itself is the first one's. -/
  part : 0 < pool.total → ∀ i < pool.candidates.length, (pool.draw u = i ↔
    (pool.weightOfFirst i / pool.total < u ∧ u ≤ pool.weightOfFirst (i + 1) / pool.total) ∨
      (u = 0 ∧ i = 0))
  first : pool.total = 0 → pool.draw u = 0

namespace Balanced

variable [IsStrictOrderedRing K] {pool : Pool K} {u : K} {i : Nat}

theorem weightOfFirst_mono (h : Balanced pool) {i j : Nat} (hij : i ≤ j) :
    pool.weightOfFirst i ≤ pool.weightOfFirst j := by
  apply ((List.take_sublist_take_left hij).map Prod.snd).sum_le_sum
  intro w hw
  exact h.weight_nonneg w ((List.take_sublist j _).map Prod.snd |>.subset hw)

theorem weightOfFirst_nonneg (h : Balanced pool) (n : Nat) : 0 ≤ pool.weightOfFirst n :=
  h.weightOfFirst_mono (Nat.zero_le n)

theorem firstSpent_eq_draw (h : Balanced pool) (hne : pool.candidates ≠ []) (hone : u ≤ 1) :
    firstSpent (u * pool.total) pool.candidates = some (pool.draw u) := by
  obtain ⟨i, hi⟩ := Option.ne_none_iff_exists'.mp (h.firstSpent_ne_none hne hone)
  rw [draw, hi, Option.getD_some]

/-- The candidate is drawn at which the weights reach the part of the total that is to be spent. -/
theorem draw_eq_iff (h : Balanced pool) (hone : u ≤ 1) (hi : i < pool.candidates.length) :
    pool.draw u = i ↔ u * pool.total ≤ pool.weightOfFirst (i + 1) ∧
      ∀ j < i, pool.weightOfFirst (j + 1) < u * pool.total := by
  have hspent := h.firstSpent_eq_draw (List.ne_nil_of_length_pos (Nat.zero_lt_of_lt hi)) hone
  have hstops := firstSpent_eq_some_iff (u * pool.total) pool.candidates i
  simp only [remainder_eq_sub_sum, sub_nonpos, not_le, hi, true_and] at hstops
  rw [← Option.some_inj, ← hspent]
  exact hstops

/-- Where nothing is to be spent, the first candidate is drawn. -/
theorem draw_eq_zero (h : Balanced pool) (hne : pool.candidates ≠ []) (hone : u ≤ 1)
    (hnothing : u * pool.total = 0) : pool.draw u = 0 := by
  apply (h.draw_eq_iff hone (List.length_pos_iff.mpr hne)).mpr
  rw [hnothing]
  exact ⟨h.weightOfFirst_nonneg 1, by simp⟩

theorem isLeast_draw (h : Balanced pool) (hne : pool.candidates ≠ []) (hone : u ≤ 1) :
    IsLeast {i | i < pool.candidates.length ∧ u * pool.total ≤ pool.weightOfFirst (i + 1)}
      (pool.draw u) := by
  have hlt := pool.draw_lt u hne
  obtain ⟨hreach, hbefore⟩ := (h.draw_eq_iff hone hlt).mp rfl
  refine ⟨⟨hlt, hreach⟩, fun i hi => ?_⟩
  by_contra hless
  exact absurd hi.2 (not_le.mpr (hbefore i (not_le.mp hless)))

theorem draw_eq_iff_part (h : Balanced pool) (hpos : 0 < pool.total) (hzero : 0 ≤ u) (hone : u ≤ 1)
    (hi : i < pool.candidates.length) :
    pool.draw u = i ↔
      (pool.weightOfFirst i / pool.total < u ∧ u ≤ pool.weightOfFirst (i + 1) / pool.total) ∨
        (u = 0 ∧ i = 0) := by
  rw [div_lt_iff₀ hpos, le_div_iff₀ hpos]
  constructor
  · intro hdraw
    obtain ⟨hreach, hbefore⟩ := (h.draw_eq_iff hone hi).mp hdraw
    cases i with
    | zero =>
        rcases hzero.eq_or_lt with rfl | hu
        · exact .inr ⟨rfl, rfl⟩
        · exact .inl ⟨mul_pos hu hpos, hreach⟩
    | succ i => exact .inl ⟨hbefore i (Nat.lt_succ_self i), hreach⟩
  · rintro (⟨habove, hreach⟩ | ⟨rfl, rfl⟩)
    · refine (h.draw_eq_iff hone hi).mpr ⟨hreach, fun j hj => ?_⟩
      exact (h.weightOfFirst_mono hj).trans_lt habove
    · exact h.draw_eq_zero (List.ne_nil_of_length_pos hi) hone (zero_mul _)

theorem apportions (h : Balanced pool) (hne : pool.candidates ≠ []) (hzero : 0 ≤ u) (hone : u ≤ 1) :
    pool.Apportions u where
  spent := h.firstSpent_eq_draw hne hone
  least := h.isLeast_draw hne hone
  part hpos _ hi := h.draw_eq_iff_part hpos hzero hone hi
  first hnone := h.draw_eq_zero hne hone (hnone ▸ mul_zero u)

end Balanced

end Exact

open Search Search.State

/-- A search goes on by making a run of draws from the pool of its candidates, and wherever its loop
over them comes round, a draw of the run is made. In a run of draws with exact numbers, the total of
the pool is the sum of the weights that are left in it at every draw, and a random number in [0, 1)
draws the candidate in whose part of the total it lies. -/
theorem draws_in_proportion :
    (∀ (task : Task) (descend : Attempt) (s : State), ∃ us : List Weight,
      (∀ u ∈ us, ∃ v, u = Source.unitOf v) ∧
        TriesDraws descend s (draws (.ofList (Search.candidates task s).entries) us)
          (extend task descend s) ∧
        ∀ (pool : Pool Weight) (r : State),
          ComesRound descend (.ofList (Search.candidates task s).entries) s pool r →
            pool.candidates ≠ [] → ∃ t ∈ draws (.ofList (Search.candidates task s).entries) us,
              t.pool = pool ∧ t.value = r.unit.1) ∧
      ∀ cs : List (Token × ℚ), (∀ c ∈ cs, 0 ≤ c.2) → ∀ (us : List ℚ), ∀ t ∈ draws (ofList cs) us,
        t.pool.total = (t.pool.candidates.map Prod.snd).sum ∧
          ∀ u ∈ Set.Ico (0 : ℚ) 1, t.pool.Apportions u := by
  constructor
  · intro task descend s
    obtain ⟨us, hus⟩ := exists_loopDraws descend (.ofList (Search.candidates task s).entries) s
    exact ⟨us, hus.values, hus.tries, fun pool r hround hne => hus.drawn hround hne⟩
  · intro cs hweights us t ht
    obtain ⟨hbalanced, -, rest, htake⟩ :=
      forall_mem_draws (fun h hstep => h.take? hstep) (balanced_ofList hweights) ht
    have hne : t.pool.candidates ≠ [] := by
      intro hnil
      simp [Pool.take?, hnil] at htake
    exact ⟨hbalanced.total_eq, fun u hu => hbalanced.apportions hne hu.1 hu.2.le⟩

/-- Candidates of which the first has a quarter of the total, the second nothing, and the third
the rest. -/
def quarters : List (Token × ℚ) :=
  [("a", 1), ("b", 0), ("c", 3)]

/-- What is left of the pool when the third candidate is drawn. -/
def withoutThird : Pool ℚ :=
  ⟨[("a", 1), ("b", 0)], 1⟩

/-- The search that starts in `exhausted` makes a run of draws, one of them for the first number of its
source. In a run of two draws with exact numbers, the first candidate is drawn up to a quarter, and
the third one from there on; when it is taken out, the first one has all of the total. -/
theorem draws_in_proportion_quarters :
    (∃ us, TriesDraws (run shortTask) exhausted
        (draws (.ofList (Search.candidates shortTask exhausted).entries) us)
          (extend shortTask (run shortTask) exhausted) ∧
      ∃ t ∈ draws (.ofList (Search.candidates shortTask exhausted).entries) us,
        t.pool = .ofList (Search.candidates shortTask exhausted).entries ∧
          t.value = exhausted.unit.1) ∧
      (∀ c ∈ quarters, 0 ≤ c.2) ∧
      (draws (ofList quarters) [1 / 2, 1 / 3]).map Draw.drawn = [("c", 3), ("a", 1)] ∧
        (ofList quarters).total = 4 ∧ (ofList quarters).draw (1 / 4) = 0 ∧
          (ofList quarters).draw (1 / 2) = 2 ∧ withoutThird.total = 1 ∧
            withoutThird.draw 0 = 0 := by
  obtain ⟨us, -, htries, hround⟩ := draws_in_proportion.1 shortTask (run shortTask) exhausted
  have hsearch := hround _ exhausted (.here _ exhausted) (by decide +kernel)
  have hweights : ∀ c ∈ quarters, 0 ≤ c.2 := by decide +kernel
  have hdrawn : (draws (ofList quarters) [1 / 2, 1 / 3]).map Draw.drawn = [("c", 3), ("a", 1)] := by
    decide +kernel
  have hrun : (draws (ofList quarters) [1 / 2, 1 / 3]).map
      (fun t => (t.pool.candidates, t.pool.total)) = [(quarters, 4), ([("a", 1), ("b", 0)], 1)] := by
    decide +kernel
  have hpool (pool : Pool ℚ)
      (h : (pool.candidates, pool.total) ∈ [(quarters, (4 : ℚ)), ([("a", 1), ("b", 0)], 1)]) :
      pool.total = (pool.candidates.map Prod.snd).sum ∧
        ∀ u ∈ Set.Ico (0 : ℚ) 1, pool.Apportions u := by
    rw [← hrun] at h
    obtain ⟨t, ht, heq⟩ := List.mem_map.mp h
    obtain rfl : t.pool = pool := congrArg (fun p : _ × ℚ => Pool.mk p.1 p.2) heq
    exact draws_in_proportion.2 quarters hweights _ t ht
  obtain ⟨htotal, hparts⟩ := hpool (ofList quarters) (by decide +kernel)
  obtain ⟨htotal', hparts'⟩ := hpool withoutThird (by decide +kernel)
  have hquarter : (ofList quarters).draw (1 / 4) = 0 :=
    ((hparts (1 / 4) (by norm_num)).part (by decide +kernel) 0 (by decide)).mpr
      (.inl (by decide +kernel))
  have hhalf : (ofList quarters).draw (1 / 2) = 2 :=
    ((hparts (1 / 2) (by norm_num)).part (by decide +kernel) 2 (by decide)).mpr
      (.inl (by decide +kernel))
  have hzero : withoutThird.draw 0 = 0 :=
    ((hparts' 0 (by norm_num)).part (by decide +kernel) 0 (by decide)).mpr (.inr ⟨rfl, rfl⟩)
  exact ⟨⟨us, htries, hsearch⟩, hweights, hdrawn, htotal.trans (by decide +kernel), hquarter, hhalf,
    htotal'.trans (by decide +kernel), hzero⟩

end Neologism.Pool
