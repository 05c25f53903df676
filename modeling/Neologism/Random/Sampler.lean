import Neologism.CharClass
import Neologism.Random.Source

/-! # Weighted choice

A sampler picks an index with a probability in proportion to its weight. There is none for
weights that leave nothing to choose: an empty list, a negative or undefined weight, a zero
total. A total that overflows is a fault and not a refusal. -/

namespace Neologism

/-- A condition under which an operation stops without an answer. -/
inductive Fault where
  /-- Weights were to be chosen from whose total is infinite. -/
  | infiniteTotal
  /-- More choices were allowed than can be counted. -/
  | budget
  /-- More room was asked for than can be addressed. -/
  | capacity
deriving DecidableEq, Repr

/-- The sums of the weights up to each index but the last, and the width of the range that a
random point is taken from. -/
structure Sampler where
  cumulative : List Weight
  scale : Weight
deriving DecidableEq

namespace Sampler

/-- The sums `sum`, `sum + w₀`, … before each weight, and the sum of all. -/
def runningSums (sum : Weight) : List Weight → List Weight × Weight
  | [] => ([], sum)
  | w :: ws =>
      let (sums, total) := runningSums (sum + w) ws
      (sum :: sums, total)

/-- The greatest double below a positive one. -/
def predecessor (x : Weight) : Weight :=
  Float.ofBits (x.toBits - 1)

/-- The width for a total: the total itself, or the double below it if the greatest fraction
`1 - 2^-52` of it would round up to it. That happens for subnormal totals only, and there one
step down is enough. -/
def width (total : Weight) : Weight :=
  if total ≤ total * Float.ofBits 0x3FEFFFFFFFFFFFFE then predecessor total else total

/-- The sampler of some weights, if they leave a choice. -/
def ofWeights : List Weight → Except Fault (Option Sampler)
  | [] => .ok none
  | w :: ws =>
      if (w :: ws).any fun v => !decide (0.0 ≤ v) then .ok none
      else
        let (sums, total) := runningSums w ws
        if total == 0.0 then .ok none
        else if !total.isFinite then .error .infiniteTotal
        else .ok (some ⟨sums, width total⟩)

/-- The index of a random value: its upper 52 bits as a fraction of the width are a point,
and the index is the number of sums that do not exceed it. -/
def indexOf (s : Sampler) (v : UInt64) : Nat :=
  let point := (v >>> 12).toFloat * Float.ofBits 0x3CB0000000000000 * s.scale
  s.cumulative.countP fun sum => decide (sum ≤ point)

/-- Pick an index with the next value of a source. -/
def pick (s : Sampler) (src : Source) : Nat × Source :=
  let (v, src) := src.next
  (s.indexOf v, src)

theorem length_runningSums (sum : Weight) (ws : List Weight) :
    (runningSums sum ws).1.length = ws.length := by
  induction ws generalizing sum with
  | nil => rfl
  | cons w ws ih => simp [runningSums, ih]

/-- A pick is an index of the weights. -/
theorem indexOf_lt {ws : List Weight} {s : Sampler} (h : ofWeights ws = .ok (some s))
    (v : UInt64) : s.indexOf v < ws.length := by
  cases ws with
  | nil => simp [ofWeights] at h
  | cons w ws =>
      have hs : s.cumulative.length = ws.length := by
        simp only [ofWeights] at h
        split at h
        · simp at h
        · split at h
          · simp at h
          · split at h
            · simp at h
            · simp only [Except.ok.injEq, Option.some.injEq] at h
              subst h
              exact length_runningSums w ws
      have hle : s.indexOf v ≤ s.cumulative.length := List.countP_le_length
      simp only [List.length_cons]
      omega

end Sampler

/-- Choose among weighted things. `none` means that the weights leave no choice. -/
def chooseWeighted {α : Type} (weight : α → Weight) (xs : List α) (src : Source) :
    Except Fault (Option α) × Source :=
  match Sampler.ofWeights (xs.map weight) with
  | .error fault => (.error fault, src)
  | .ok none => (.ok none, src)
  | .ok (some sampler) =>
      let (i, src) := sampler.pick src
      (.ok xs[i]?, src)

end Neologism
