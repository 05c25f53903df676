import Neologism.Proofs.Session.Enumeration

/-! # How many words a batch may ask for

A count that is not reached does not matter: the batch stops where no word is left, and does so for
every count that is above the words there are. But the room for all words is set aside before the
first one is searched, so a count whose room cannot be addressed is a fault, however few words there
are.

Main statements: `generateUpTo_of_unreached` and `batch_at_capacity`. -/

namespace Neologism.Session

variable {s r : Session} {words : List Word} {minimum maximum : UInt64}

/-- Words that fall short of one count are the words for every count that they fall short of. -/
theorem generateUpTo_of_unreached {count other : Nat}
    (h : generateUpTo minimum maximum count s = (.ok words, r)) (hcount : words.length < count)
    (hother : words.length < other) :
    generateUpTo minimum maximum other s = (.ok words, r) := by
  induction count generalizing s words other with
  | zero => cases hcount
  | succ count ih =>
      obtain ⟨other, rfl⟩ := Nat.exists_eq_succ_of_ne_zero (Nat.ne_zero_of_lt hother)
      simp only [generateUpTo] at h ⊢
      split at h
      · cases h
      · exact h
      · next word after _ =>
          split at h
          · cases h
          · next more last hrest =>
              obtain ⟨hwords, rfl⟩ := Prod.mk.inj h
              obtain rfl := Except.ok.inj hwords
              rw [ih hrest (Nat.lt_of_succ_lt_succ hcount) (Nat.lt_of_succ_lt_succ hother)]

/-- Room for words is refused exactly above the greatest batch, and nothing is changed then. -/
theorem batch_eq_capacity_iff (s : Session) (count minimum maximum : UInt64) :
    s.batch count minimum maximum = (.error (.fault .capacity), s) ↔ greatestBatch < count := by
  constructor
  · intro h
    by_contra hcount
    rw [batch, if_neg hcount] at h
    generalize generateUpTo minimum maximum count.toNat s = answer at h
    rcases answer with ⟨error | words, after⟩ <;> cases h
  · intro hcount
    rw [batch, if_pos hcount]

/-- Batches of two counts that are both above the words there are come to the same. -/
theorem batch_eq_of_unreached {count other : UInt64} (h : ¬ Crossed minimum maximum)
    (hcount : count ≤ greatestBatch) (hother : other ≤ greatestBatch)
    (hless : (s.availableTexts minimum maximum).ncard < count.toNat)
    (hlessOther : (s.availableTexts minimum maximum).ncard < other.toNat) :
    s.batch count minimum maximum = s.batch other minimum maximum := by
  obtain ⟨words, after, hwords, hhanded⟩ := handsOut_generateUpTo h count.toNat s
  have hlength : words.length ≤ (s.availableTexts minimum maximum).ncard :=
    hhanded.takes.2.trans_le (Nat.min_le_right _ _)
  have hsame := generateUpTo_of_unreached hwords (hlength.trans_lt hless)
    (hlength.trans_lt hlessOther)
  rw [batch, batch, if_neg (UInt64.not_lt.mpr hcount), if_neg (UInt64.not_lt.mpr hother), hwords,
    hsame]

/-- Within bounds that can be met, a batch is refused exactly if room for its count cannot be
addressed. Otherwise it hands out at most as many words as it is asked for, and all counts above the
number of words that are available hand out the same words and leave the same session. -/
theorem batch_at_capacity (h : ¬ Crossed minimum maximum) (s : Session) :
    (∀ count, s.batch count minimum maximum = (.error (.fault .capacity), s) ↔
      greatestBatch < count) ∧
    (∀ count ≤ greatestBatch, ∃ words after, s.batch count minimum maximum = (.ok words, after) ∧
      words.length ≤ count.toNat) ∧
    ∀ count ≤ greatestBatch, ∀ other ≤ greatestBatch,
      (s.availableTexts minimum maximum).ncard < count.toNat →
        (s.availableTexts minimum maximum).ncard < other.toNat →
          s.batch count minimum maximum = s.batch other minimum maximum := by
  refine ⟨fun count => s.batch_eq_capacity_iff count minimum maximum, fun count hcount => ?_,
    fun count hcount other hother => batch_eq_of_unreached h hcount hother⟩
  obtain ⟨words, after, hbatch, -, hlength⟩ := takes_batch h hcount s
  exact ⟨words, after, hbatch, hlength.trans_le (Nat.min_le_left _ _)⟩

/-- The small language has two words of two tokens. A batch of three and one of the greatest count
that there is room for come to the same, and one of the greatest count of all is refused. -/
theorem batch_at_capacity_sample :
    ¬ Crossed 2 2 ∧ (sample.batch 3 2 2).1 = .ok [⟨["t", "p"]⟩, ⟨["t", "t"]⟩] ∧
      sample.batch greatestBatch 2 2 = sample.batch 3 2 2 ∧
      sample.batch 0xFFFFFFFFFFFFFFFF 2 2 = (.error (.fault .capacity), sample) := by
  have hcrossed : ¬ Crossed 2 2 := by decide
  have hwords : (sample.batch 3 2 2).1 = .ok [⟨["t", "p"]⟩, ⟨["t", "t"]⟩] := by decide +kernel
  obtain ⟨words, after, hbatch, -, hlength⟩ := takes_batch hcrossed (by decide : 3 ≤ greatestBatch)
    sample
  have htwo : (sample.availableTexts 2 2).ncard = 2 := by
    rw [hbatch] at hwords
    obtain rfl : words = [⟨["t", "p"]⟩, ⟨["t", "t"]⟩] := Except.ok.inj hwords
    have hcut : 2 = min 3 (sample.availableTexts 2 2).ncard := hlength
    omega
  obtain ⟨hrefused, -, hsame⟩ := batch_at_capacity hcrossed sample
  refine ⟨hcrossed, hwords, ?_, (hrefused _).mpr (by decide)⟩
  exact hsame _ (UInt64.le_refl _) 3 (by decide) (by rw [htwo]; decide) (by rw [htwo]; decide)

/-- Not every count comes to words, and a greater count can turn the words of a smaller one that was
not reached into a fault. -/
theorem not_batch_at_capacity :
    (¬ ∀ (s : Session) (count minimum maximum : UInt64), ¬ Crossed minimum maximum →
      ∃ words after, s.batch count minimum maximum = (.ok words, after) ∧
        words.length ≤ count.toNat) ∧
    ¬ ∀ (s : Session) (count other minimum maximum : UInt64) (words : List Word),
      ¬ Crossed minimum maximum → count ≤ other →
        (s.batch count minimum maximum).1 = .ok words → words.length < count.toNat →
          (s.batch other minimum maximum).1 = .ok words := by
  have hrefused : sample.batch 0xFFFFFFFFFFFFFFFF 2 2 = (.error (.fault .capacity), sample) :=
    (sample.batch_eq_capacity_iff _ 2 2).mpr (by decide)
  refine ⟨fun hwords => ?_, fun hgreater => ?_⟩
  · obtain ⟨words, after, hbatch, -⟩ := hwords sample 0xFFFFFFFFFFFFFFFF 2 2 (by decide)
    rw [hrefused] at hbatch
    cases hbatch
  · have hwords : (sample.batch 3 2 2).1 = .ok [⟨["t", "p"]⟩, ⟨["t", "t"]⟩] := by decide +kernel
    have hbatch := hgreater sample 3 0xFFFFFFFFFFFFFFFF 2 2 _ (by decide) (by decide) hwords
      (by decide)
    rw [hrefused] at hbatch
    cases hbatch

end Neologism.Session
