import Neologism.Proofs.Doubles
import Neologism.Random.Source
import Neologism.Search.Pool

/-! # Candidates of weight zero

A draw takes the weights of the candidates off a random part of the total and stops where nothing is
left. A candidate of weight zero takes nothing off, so it can only be drawn where nothing was left
before the first candidate, or where something is left behind the last one. With exact numbers
neither happens while a candidate of positive weight is there, unless the random number is zero.

Main statements: `firstSpent_eq_some_iff` and `firstSpent_eq_none_iff` say where a draw stops,
`early_or_late` says it of candidates that take nothing off, and `zero_weight_last` of a whole run
of draws with exact numbers. -/

namespace Neologism.Pool

section Draws

variable {ω : Type} [Zero ω] [Add ω] [Sub ω] [Mul ω] [LE ω] [LT ω] [DecidableLE ω] [DecidableLT ω]

/-- What is left of `rest` when the weights of the first `n` candidates are taken off. -/
def remainder (rest : ω) (cs : List (Token × ω)) (n : Nat) : ω :=
  (cs.take n).foldl (fun r c => r - c.2) rest

omit [Add ω] [Mul ω] [LT ω] [DecidableLT ω] in
theorem firstSpent_eq_some_iff (rest : ω) (cs : List (Token × ω)) (i : Nat) :
    firstSpent rest cs = some i ↔
      i < cs.length ∧ remainder rest cs (i + 1) ≤ 0 ∧ ∀ j < i, ¬ remainder rest cs (j + 1) ≤ 0 := by
  induction cs generalizing rest i with
  | nil => simp [firstSpent]
  | cons c cs ih =>
      have hcons (n : Nat) : remainder rest (c :: cs) (n + 1) = remainder (rest - c.2) cs n := rfl
      have hfirst : remainder rest (c :: cs) (0 + 1) = rest - c.2 := rfl
      simp only [firstSpent]
      by_cases hspent : rest - c.2 ≤ 0
      · rw [if_pos hspent, Option.some.injEq]
        constructor
        · rintro rfl
          exact ⟨Nat.succ_pos _, hspent, by simp⟩
        · rintro ⟨-, -, hbefore⟩
          cases i with
          | zero => rfl
          | succ i => exact absurd hspent (hbefore 0 (Nat.succ_pos i))
      · rw [if_neg hspent, Option.map_eq_some_iff]
        constructor
        · rintro ⟨k, hk, rfl⟩
          obtain ⟨hlt, hat, hbefore⟩ := (ih _ k).mp hk
          refine ⟨Nat.succ_lt_succ hlt, hat, fun j hj => ?_⟩
          cases j with
          | zero => exact hspent
          | succ j => exact hbefore j (Nat.lt_of_succ_lt_succ hj)
        · rintro ⟨hlt, hat, hbefore⟩
          cases i with
          | zero => exact absurd hat hspent
          | succ i =>
              refine ⟨i, (ih _ i).mpr ⟨Nat.lt_of_succ_lt_succ hlt, hat, fun j hj => ?_⟩, rfl⟩
              exact hbefore (j + 1) (Nat.succ_lt_succ hj)

omit [Add ω] [Mul ω] [LT ω] [DecidableLT ω] in
theorem firstSpent_eq_none_iff (rest : ω) (cs : List (Token × ω)) :
    firstSpent rest cs = none ↔ ∀ j < cs.length, ¬ remainder rest cs (j + 1) ≤ 0 := by
  induction cs generalizing rest with
  | nil => simp [firstSpent]
  | cons c cs ih =>
      simp only [firstSpent]
      by_cases hspent : rest - c.2 ≤ 0
      · rw [if_pos hspent]
        constructor
        · intro h
          cases h
        · intro h
          exact absurd hspent (h 0 (Nat.succ_pos _))
      · rw [if_neg hspent, Option.map_eq_none_iff, ih]
        constructor
        · intro h j hj
          cases j with
          | zero => exact hspent
          | succ j => exact h j (Nat.lt_of_succ_lt_succ hj)
        · intro h j hj
          exact h (j + 1) (Nat.succ_lt_succ hj)

/-- One draw: the pool before it, the random value, and the candidate. -/
structure Draw (ω : Type) where
  pool : Pool ω
  value : ω
  drawn : Token × ω

/-- The draws from a pool for random values in order, until there is no candidate. -/
def draws : Pool ω → List ω → List (Draw ω)
  | _, [] => []
  | pool, u :: us =>
      match pool.take? (pool.draw u) with
      | none => []
      | some (c, rest) => ⟨pool, u, c⟩ :: draws rest us

/-- Nothing was to be taken off, and the first candidate was drawn. -/
def Draw.Early (t : Draw ω) : Prop :=
  t.value * t.pool.total ≤ 0 ∧ t.pool.candidates.head? = some t.drawn

/-- Something was left behind all candidates, and the last one was drawn. -/
def Draw.Late (t : Draw ω) : Prop :=
  firstSpent (t.value * t.pool.total) t.pool.candidates = none ∧
    t.pool.candidates.getLast? = some t.drawn

/-- A weight that spends nothing when it is taken off. -/
def Weightless (w : ω) : Prop :=
  ∀ r : ω, r - w ≤ 0 → r ≤ 0

omit [Add ω] in
/-- A candidate that spends nothing is drawn too early or too late. -/
theorem early_or_late {t : Draw ω} {rest : Pool ω}
    (h : t.pool.take? (t.pool.draw t.value) = some (t.drawn, rest)) (hw : Weightless t.drawn.2) :
    t.Early ∨ t.Late := by
  obtain ⟨c, hc, heq⟩ := Option.map_eq_some_iff.mp h
  obtain rfl : c = t.drawn := (Prod.mk.inj heq).1
  rw [draw] at hc
  cases hspent : firstSpent (t.value * t.pool.total) t.pool.candidates with
  | none =>
      rw [hspent, Option.getD_none] at hc
      exact .inr ⟨hspent, by rw [List.getLast?_eq_getElem?, hc]⟩
  | some i =>
      rw [hspent, Option.getD_some] at hc
      obtain ⟨hlt, hat, hbefore⟩ := (firstSpent_eq_some_iff _ _ i).mp hspent
      have hget := (List.getElem?_eq_some_iff.mp hc).2
      -- The candidate itself spends nothing, so nothing was left in front of it.
      have hearlier : remainder (t.value * t.pool.total) t.pool.candidates i ≤ 0 := by
        apply hw
        rw [remainder, List.take_add_one, hc] at hat
        simpa [remainder] using hat
      cases i with
      | zero => exact .inl ⟨hearlier, by rw [List.head?_eq_getElem?, hc]⟩
      | succ i => exact absurd hearlier (hbefore i (Nat.lt_succ_self i))

omit [Add ω] in
/-- What is kept by taking candidates out holds of the pool of every draw. -/
theorem forall_mem_draws {p : Pool ω → Prop}
    (hkeep : ∀ {pool rest : Pool ω} {i : Nat} {c : Token × ω}, p pool →
      pool.take? i = some (c, rest) → p rest)
    {pool : Pool ω} (hpool : p pool) {us : List ω} {t : Draw ω} (ht : t ∈ draws pool us) :
    p t.pool ∧ t.value ∈ us ∧
      ∃ rest, t.pool.take? (t.pool.draw t.value) = some (t.drawn, rest) := by
  induction us generalizing pool with
  | nil => cases ht
  | cons u us ih =>
      rw [draws] at ht
      split at ht
      · cases ht
      · next c rest htake =>
          rcases List.mem_cons.mp ht with rfl | ht
          · exact ⟨hpool, List.mem_cons_self, rest, htake⟩
          · obtain ⟨hp, hmem, hdrawn⟩ := ih (hkeep hpool htake) ht
            exact ⟨hp, List.mem_cons_of_mem u hmem, hdrawn⟩

omit [Add ω] [Mul ω] [LE ω] [DecidableLE ω] in
/-- Taking a candidate out leaves one less. -/
theorem length_of_take? {pool rest : Pool ω} {i : Nat} {c : Token × ω}
    (h : pool.take? i = some (c, rest)) :
    pool.candidates.length = rest.candidates.length + 1 := by
  obtain ⟨found, hfound, heq⟩ := Option.map_eq_some_iff.mp h
  obtain ⟨rfl, rfl⟩ := Prod.mk.inj heq
  have hlt := (List.getElem?_eq_some_iff.mp hfound).1
  rw [List.length_eraseIdx_add_one hlt]

omit [Add ω] in
/-- With as many random values as candidates, each candidate is drawn once. -/
theorem perm_draws (pool : Pool ω) {us : List ω} (h : us.length = pool.candidates.length) :
    ((draws pool us).map Draw.drawn).Perm pool.candidates := by
  induction us generalizing pool with
  | nil =>
      rw [List.length_eq_zero_iff.mp h.symm]
      exact List.Perm.refl _
  | cons u us ih =>
      have hne : pool.candidates ≠ [] := List.ne_nil_of_length_pos (h ▸ Nat.succ_pos us.length)
      have hlt := pool.draw_lt u hne
      have htake := pool.take?_of_lt hlt
      have hlength := h.trans (length_of_take? htake)
      simp only [draws, htake, List.map_cons]
      exact ((ih _ (Nat.succ.inj hlength)).cons _).trans (List.getElem_cons_eraseIdx_perm hlt)

end Draws

section Exact

variable {K : Type} [Field K] [LinearOrder K]

omit [LinearOrder K] in
/-- Taking weights off one by one is taking off their sum. -/
theorem remainder_eq_sub_sum (rest : K) (cs : List (Token × K)) (n : Nat) :
    remainder rest cs n = rest - ((cs.take n).map Prod.snd).sum := by
  simp only [remainder]
  induction cs.take n generalizing rest with
  | nil => simp
  | cons c cs ih => rw [List.foldl_cons, ih, List.map_cons, List.sum_cons, sub_sub]

/-- The total is the sum of the weights, and none of them is negative. -/
structure Balanced (pool : Pool K) : Prop where
  total_eq : pool.total = (pool.candidates.map Prod.snd).sum
  nonneg : ∀ c ∈ pool.candidates, 0 ≤ c.2

theorem balanced_ofList {candidates : List (Token × K)} (h : ∀ c ∈ candidates, 0 ≤ c.2) :
    Balanced (ofList candidates) where
  total_eq := by rw [ofList, List.sum_eq_foldl, List.foldl_map]
  nonneg := h

namespace Balanced

variable {pool rest : Pool K}

theorem weight_nonneg (h : Balanced pool) : ∀ w ∈ pool.candidates.map Prod.snd, 0 ≤ w := by
  intro w hw
  obtain ⟨c, hc, rfl⟩ := List.mem_map.mp hw
  exact h.nonneg c hc

variable [IsStrictOrderedRing K]

/-- Taking a candidate out leaves the sum of the others. -/
theorem take? (h : Balanced pool) {i : Nat} {c : Token × K}
    (htake : pool.take? i = some (c, rest)) : Balanced rest := by
  obtain ⟨found, hfound, heq⟩ := Option.map_eq_some_iff.mp htake
  obtain ⟨rfl, rfl⟩ := Prod.mk.inj heq
  obtain ⟨hlt, rfl⟩ := List.getElem?_eq_some_iff.mp hfound
  have hothers : ∀ d ∈ pool.candidates.eraseIdx i, 0 ≤ d.2 := fun d hd =>
    h.nonneg d (List.mem_of_mem_eraseIdx hd)
  have hsum : pool.total - pool.candidates[i].2 =
      ((pool.candidates.eraseIdx i).map Prod.snd).sum := by
    have hperm := (List.getElem_cons_eraseIdx_perm hlt).map Prod.snd
    rw [h.total_eq, ← hperm.sum_eq, List.map_cons, List.sum_cons, add_sub_cancel_left]
  have hrest : 0 ≤ ((pool.candidates.eraseIdx i).map Prod.snd).sum := by
    refine List.sum_nonneg fun w hw => ?_
    obtain ⟨d, hd, rfl⟩ := List.mem_map.mp hw
    exact hothers d hd
  refine ⟨?_, hothers⟩
  rw [lower, hsum]
  split
  · rfl
  · next hnot => exact le_antisymm hrest (not_lt.mp hnot)

theorem total_nonneg (h : Balanced pool) : 0 ≤ pool.total :=
  h.total_eq ▸ List.sum_nonneg h.weight_nonneg

/-- Nothing is left of a random part of the total behind all candidates. -/
theorem firstSpent_ne_none (h : Balanced pool) (hne : pool.candidates ≠ []) {u : K} (hone : u ≤ 1) :
    firstSpent (u * pool.total) pool.candidates ≠ none := by
  intro hnone
  have hlength : pool.candidates.length - 1 + 1 = pool.candidates.length :=
    Nat.sub_add_cancel (List.length_pos_iff.mpr hne)
  have hleft := (firstSpent_eq_none_iff _ _).mp hnone (pool.candidates.length - 1) (by omega)
  rw [hlength, remainder_eq_sub_sum, List.take_length, ← h.total_eq] at hleft
  exact absurd (sub_nonpos.mpr (mul_le_of_le_one_left h.total_nonneg hone)) hleft

/-- A candidate of weight zero is drawn for a positive random number only where all weights are
zero. -/
theorem all_zero {t : Draw K} (h : Balanced t.pool) (hpos : 0 < t.value) (hone : t.value ≤ 1)
    {rest : Pool K} (htake : t.pool.take? (t.pool.draw t.value) = some (t.drawn, rest))
    (hzero : t.drawn.2 = 0) : ∀ c ∈ t.pool.candidates, c.2 = 0 := by
  have hweightless : Weightless t.drawn.2 := by
    intro r hr
    rwa [hzero, sub_zero] at hr
  rcases early_or_late htake hweightless with ⟨hspent, -⟩ | ⟨hnone, hlast⟩
  · have hle : t.pool.total ≤ 0 := by
      by_contra hnot
      exact absurd hspent (not_le.mpr (mul_pos hpos (not_le.mp hnot)))
    intro c hc
    refine le_antisymm ?_ (h.nonneg c hc)
    calc c.2 ≤ (t.pool.candidates.map Prod.snd).sum :=
          List.single_le_sum h.weight_nonneg _ (List.mem_map_of_mem hc)
      _ ≤ 0 := h.total_eq ▸ hle
  · have hne : t.pool.candidates ≠ [] := List.ne_nil_of_mem (List.mem_of_getLast? hlast)
    exact absurd hnone (h.firstSpent_ne_none hne hone)

end Balanced

/-- In a run of draws with exact numbers, a positive random number gives a candidate of weight zero
only when no other is left. -/
theorem zero_weight_last [IsStrictOrderedRing K] {candidates : List (Token × K)}
    (hweights : ∀ c ∈ candidates, 0 ≤ c.2) {us : List K} (hvalues : ∀ u ∈ us, 0 < u ∧ u ≤ 1) :
    ∀ t ∈ draws (ofList candidates) us, t.drawn.2 = 0 → ∀ c ∈ t.pool.candidates, c.2 = 0 := by
  intro t ht hzero
  obtain ⟨hbalanced, hvalue, rest, htake⟩ :=
    forall_mem_draws (fun h hstep => h.take? hstep) (balanced_ofList hweights) ht
  exact hbalanced.all_zero (hvalues _ hvalue).1 (hvalues _ hvalue).2 htake hzero

end Exact

end Neologism.Pool
