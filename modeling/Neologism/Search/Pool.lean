import Neologism.CharClass

/-! # Drawing without replacement

A pool holds candidates with weights and the running total of the weights. `draw` picks a
candidate with a probability in proportion to its weight: it takes the weights off a random
part of the total until nothing is left of it. Candidates of weight zero stay in the pool.

The weights may be of any type with the arithmetic that is used here: doubles where words are
made, exact numbers where a law is stated. -/

namespace Neologism

/-- Candidates that were not drawn yet, and the running total of their weights. -/
structure Pool (ω : Type) where
  candidates : List (Token × ω)
  total : ω

namespace Pool

variable {ω : Type} [Zero ω] [Add ω] [Sub ω] [Mul ω] [LE ω] [LT ω] [DecidableLE ω] [DecidableLT ω]

/-- The pool of some candidates. -/
def ofList (candidates : List (Token × ω)) : Pool ω :=
  ⟨candidates, candidates.foldl (fun sum c => sum + c.2) 0⟩

/-- The first index at which nothing is left of `rest` once the weights are taken off it. -/
def firstSpent (rest : ω) : List (Token × ω) → Option Nat
  | [] => none
  | c :: cs =>
      let rest := rest - c.2
      if rest ≤ 0 then some 0 else (firstSpent rest cs).map (· + 1)

/-- The index that a random `u` picks. The last candidate is picked when rounding leaves a
remainder behind all of them. -/
def draw (pool : Pool ω) (u : ω) : Nat :=
  (firstSpent (u * pool.total) pool.candidates).getD (pool.candidates.length - 1)

/-- The total without a weight, never below zero. -/
def lower (total weight : ω) : ω :=
  if 0 < total - weight then total - weight else 0

/-- Take the candidate at an index out of the pool. -/
def take? (pool : Pool ω) (i : Nat) : Option ((Token × ω) × Pool ω) :=
  pool.candidates[i]?.map fun c => (c, ⟨pool.candidates.eraseIdx i, lower pool.total c.2⟩)

omit [Add ω] [Mul ω] [LT ω] [DecidableLT ω] in
/-- An index at which a remainder is spent is the index of a candidate. -/
theorem firstSpent_lt {rest : ω} {cs : List (Token × ω)} {i : Nat}
    (h : firstSpent rest cs = some i) : i < cs.length := by
  induction cs generalizing rest i with
  | nil => simp [firstSpent] at h
  | cons c cs ih =>
      simp only [firstSpent] at h
      split at h
      · simp only [Option.some.injEq] at h
        simp [← h]
      · simp only [Option.map_eq_some_iff] at h
        obtain ⟨j, hj, rfl⟩ := h
        simpa using ih hj

omit [Add ω] [LT ω] [DecidableLT ω] in
/-- A draw from a pool that is not empty is the index of a candidate. -/
theorem draw_lt (pool : Pool ω) (u : ω) (h : pool.candidates ≠ []) :
    pool.draw u < pool.candidates.length := by
  have hpos := List.length_pos_iff.2 h
  simp only [draw]
  cases hs : firstSpent (u * pool.total) pool.candidates with
  | none => simp only [Option.getD_none]; omega
  | some i => exact firstSpent_lt hs

omit [Add ω] [Mul ω] [LE ω] [DecidableLE ω] in
/-- At the index of a candidate, that candidate is taken out. -/
theorem take?_of_lt (pool : Pool ω) {i : Nat} (h : i < pool.candidates.length) :
    pool.take? i = some (pool.candidates[i],
      ⟨pool.candidates.eraseIdx i, lower pool.total pool.candidates[i].2⟩) := by
  simp only [take?, List.getElem?_eq_getElem h, Option.map_some]

end Pool

end Neologism
