import Mathlib.Data.Set.Card
import Mathlib.Data.Set.Finite.List
import Neologism.Proofs.Session.Generation

/-! # Batches enumerate what is available

The words of a model within a length are made of the tokens of its classes, so they are finitely
many. Every word of a batch takes one of their texts away, and a batch stops early only when none
is left. Which texts come first is up to the random source; how many come, and which ones are there
when none is left, is not.

Main statements: `finite_availableTexts`, and `takes_batch` for what a batch hands out and
leaves. `takes_batches` says the same of batches one after the other. -/

namespace Neologism

/-- Tokens out of an inventory, up to a length, can be put in a row in finitely many ways. -/
theorem finite_rows (inventory : List Token) (length : Nat) :
    {tokens : List Token | tokens.length ≤ length ∧ ∀ t ∈ tokens, t ∈ inventory}.Finite := by
  have hinventory : Finite {t // t ∈ inventory} := inventory.finite_toSet
  refine ((List.finite_length_le {t // t ∈ inventory} length).image
    (List.map Subtype.val)).subset ?_
  rintro tokens ⟨hlength, hmem⟩
  exact ⟨tokens.attachWith _ hmem, by simpa using hlength, by simp⟩

namespace Lexicon

variable {lex : Lexicon}

/-- The tokens of all classes. -/
def tokens (lex : Lexicon) : List Token :=
  lex.classes.entries.flatMap fun e => e.2.keys

theorem Holds.mem_tokens {name : String} {t : Token} (h : lex.Holds name t) : t ∈ lex.tokens := by
  obtain ⟨c, hc, ht⟩ := h
  exact List.mem_flatMap.mpr
    ⟨(name, c), (lex.classes.get?_eq_some_iff name c).mp hc, (c.contains_iff t).mp ht⟩

theorem HoldsAll.mem_tokens {names : List String} {ts : List Token} (h : lex.HoldsAll names ts) :
    ∀ t ∈ ts, t ∈ lex.tokens := by
  induction h with
  | nil => simp
  | cons hold _ ih => exact List.forall_mem_cons.mpr ⟨hold.mem_tokens, ih⟩

end Lexicon

namespace Session

variable {s r q : Session} {words more : List Word} {minimum maximum : UInt64}

/-- The texts of the words that a session could still make within the bounds. -/
def availableTexts (s : Session) (minimum maximum : UInt64) : Set String :=
  {text | ∃ tokens, s.model.Available s.config s.emitted minimum maximum tokens ∧
    String.join tokens = text}

/-- What could still be made is finite, since the words of a model within a length are. -/
theorem finite_availableTexts (s : Session) (minimum maximum : UInt64) :
    (s.availableTexts minimum maximum).Finite := by
  refine ((finite_rows s.model.lexicon.tokens (s.config.cap maximum).toNat).image
    String.join).subset ?_
  rintro text ⟨tokens, havailable, htext⟩
  obtain ⟨names, -, hold⟩ := Grammar.yields_of_derives havailable.admissible.1
  exact ⟨tokens, ⟨havailable.short, hold.mem_tokens⟩, htext⟩

/-- Where the language and the settings are the same, what could still be made differs by what was
made meanwhile. -/
theorem availableTexts_of_emitted {texts : List String} (hmodel : r.model = s.model)
    (hconfig : r.config = s.config)
    (hemitted : ∀ text, text ∈ r.emitted ↔ text ∈ texts ∨ text ∈ s.emitted) :
    r.availableTexts minimum maximum =
      s.availableTexts minimum maximum \ {text | text ∈ texts} := by
  ext text
  constructor
  · rintro ⟨tokens, ⟨hadmissible, hlong, hshort, hnew⟩, rfl⟩
    rw [hmodel, hconfig] at hadmissible
    rw [hconfig] at hshort
    obtain ⟨hfresh, hold⟩ := not_or.mp (mt (hemitted _).mpr hnew)
    exact ⟨⟨tokens, ⟨hadmissible, hlong, hshort, hold⟩, rfl⟩, hfresh⟩
  · rintro ⟨⟨tokens, ⟨hadmissible, hlong, hshort, hold⟩, rfl⟩, hfresh⟩
    rw [← hmodel, ← hconfig] at hadmissible
    rw [← hconfig] at hshort
    exact ⟨tokens, ⟨hadmissible, hlong, hshort, mt (hemitted _).mp (not_or.mpr ⟨hfresh, hold⟩)⟩, rfl⟩

/-- From one session to the other the words were made: their texts are distinct, were available
within the bounds, and are all that is no longer available. -/
structure Takes (minimum maximum : UInt64) (words : List Word) (s r : Session) : Prop where
  nodup : (words.map Word.text).Nodup
  available : {text | text ∈ words.map Word.text} ⊆ s.availableTexts minimum maximum
  left : r.availableTexts minimum maximum =
    s.availableTexts minimum maximum \ {text | text ∈ words.map Word.text}

theorem takes_nil (s : Session) (minimum maximum : UInt64) : Takes minimum maximum [] s s where
  nodup := List.nodup_nil
  available := by simp
  left := by simp

namespace Takes

/-- What is taken afterwards is taken from what was left. -/
protected theorem trans (h : Takes minimum maximum words s r) (h' : Takes minimum maximum more r q) :
    Takes minimum maximum (words ++ more) s q where
  nodup := by
    rw [List.map_append]
    refine h.nodup.append h'.nodup fun text htext hmore => ?_
    have hlater := h'.available hmore
    rw [h.left] at hlater
    exact hlater.2 htext
  available := by
    intro text htext
    rw [List.map_append] at htext
    rcases List.mem_append.mp htext with htext | htext
    · exact h.available htext
    · have hlater := h'.available htext
      rw [h.left] at hlater
      exact hlater.1
  left := by
    rw [h'.left, h.left, Set.sdiff_sdiff, List.map_append]
    congr 1
    ext text
    simp

theorem ncard_texts (h : Takes minimum maximum words s r) :
    {text | text ∈ words.map Word.text}.ncard = words.length := by
  rw [← List.coe_toFinset, Set.ncard_coe_finset, List.toFinset_card_of_nodup h.nodup,
    List.length_map]

/-- Every word takes one text away. -/
theorem ncard_add (h : Takes minimum maximum words s r) :
    (r.availableTexts minimum maximum).ncard + words.length =
      (s.availableTexts minimum maximum).ncard := by
  rw [h.left, ← h.ncard_texts]
  exact Set.ncard_sdiff_add_ncard_of_subset h.available (s.finite_availableTexts minimum maximum)

/-- When there are as many words as there were texts, every text was taken. -/
theorem all (h : Takes minimum maximum words s r)
    (hlength : words.length = (s.availableTexts minimum maximum).ncard) :
    {text | text ∈ words.map Word.text} = s.availableTexts minimum maximum := by
  refine Set.eq_of_subset_of_ncard_le h.available ?_ (s.finite_availableTexts minimum maximum)
  rw [h.ncard_texts, hlength]

end Takes

/-- Words that are handed out are as many as there are available, up to the count. -/
theorem HandsOut.takes {count : Nat} (h : HandsOut minimum maximum count s words r) :
    Takes minimum maximum words s r ∧
      words.length = min count (s.availableTexts minimum maximum).ncard := by
  induction h with
  | enough s => exact ⟨takes_nil s minimum maximum, (Nat.zero_min _).symm⟩
  | @exhausted count s r unavailable emitted =>
      have hnone : s.availableTexts minimum maximum = ∅ :=
        Set.eq_empty_of_forall_notMem fun _ ⟨tokens, havailable, _⟩ =>
          unavailable tokens havailable
      have hleft : (s.close r (.exhausted minimum maximum)).availableTexts minimum maximum =
          s.availableTexts minimum maximum \ {text | text ∈ ([] : List Word).map Word.text} :=
        availableTexts_of_emitted rfl rfl fun text => by simp [close, emitted]
      refine ⟨⟨List.nodup_nil, by simp, hleft⟩, ?_⟩
      rw [hnone, Set.ncard_empty, Nat.min_zero]
      rfl
  | @found count s last r tokens words available emitted _ ih =>
      obtain ⟨htakes, hlength⟩ := ih
      have hword : String.join tokens ∈ s.availableTexts minimum maximum := ⟨tokens, available, rfl⟩
      have hone : {text | text ∈ [String.join tokens]} ⊆ s.availableTexts minimum maximum := by
        simpa using hword
      have hleft : (s.close r (.generated tokens.length)).availableTexts minimum maximum =
          s.availableTexts minimum maximum \ {text | text ∈ [String.join tokens]} :=
        availableTexts_of_emitted rfl rfl fun text => by simp [close, emitted]
      have hfirst : Takes minimum maximum [⟨tokens⟩] s (s.close r (.generated tokens.length)) :=
        ⟨List.nodup_singleton (String.join tokens), hone, hleft⟩
      refine ⟨hfirst.trans htakes, ?_⟩
      have hcard := hfirst.ncard_add
      rw [List.length_singleton] at hcard
      rw [List.length_cons]
      omega

/-- Within bounds that can be met, a batch takes as many words as are available, up to the count
that is asked for. -/
theorem takes_batch {count : UInt64} (h : ¬ Crossed minimum maximum)
    (hcount : count ≤ greatestBatch) (s : Session) :
    ∃ words r, s.batch count minimum maximum = (.ok words, r) ∧
      Takes minimum maximum words s r ∧
        words.length = min count.toNat (s.availableTexts minimum maximum).ncard := by
  obtain ⟨words, r, hwords, hhanded⟩ := handsOut_generateUpTo h count.toNat s
  refine ⟨words, r, ?_, hhanded.takes⟩
  rw [batch, if_neg (UInt64.not_lt.mpr hcount), hwords]
  rfl

/-- Batches within the same bounds, one after the other, and all words that they hand out. -/
def batches (s : Session) (minimum maximum : UInt64) :
    List UInt64 → Except BatchError (List Word) × Session
  | [] => (.ok [], s)
  | count :: counts =>
      match s.batch count minimum maximum with
      | (.error e, s) => (.error e, s)
      | (.ok words, s) =>
          match s.batches minimum maximum counts with
          | (.error e, s) => (.error e, s)
          | (.ok more, s) => (.ok (words ++ more), s)

/-- Batches together take as many words as are available, up to all that is asked for. -/
theorem takes_batches {counts : List UInt64} (h : ¬ Crossed minimum maximum)
    (hcounts : ∀ count ∈ counts, count ≤ greatestBatch) (s : Session) :
    ∃ words r, s.batches minimum maximum counts = (.ok words, r) ∧
      Takes minimum maximum words s r ∧
        words.length =
          min (counts.map UInt64.toNat).sum (s.availableTexts minimum maximum).ncard := by
  induction counts generalizing s with
  | nil => exact ⟨[], s, rfl, takes_nil s minimum maximum, (Nat.zero_min _).symm⟩
  | cons count counts ih =>
      obtain ⟨hcount, hcounts⟩ := List.forall_mem_cons.mp hcounts
      obtain ⟨words, next, hbatch, htakes, hlength⟩ := takes_batch h hcount s
      obtain ⟨more, last, hrest, htakesMore, hlengthMore⟩ := ih hcounts next
      refine ⟨words ++ more, last, ?_, htakes.trans htakesMore, ?_⟩
      · simp only [batches, hbatch, hrest]
      · have hcard := htakes.ncard_add
        rw [List.length_append, List.map_cons, List.sum_cons]
        omega

/-- Where nothing is available, the answer is that there is no word. -/
theorem generate_of_availableTexts_empty (h : ¬ Crossed minimum maximum)
    (hnone : s.availableTexts minimum maximum = ∅) : (s.generate minimum maximum).1 = .ok none := by
  have houtcome := s.generate_outcome minimum maximum
  generalize s.generate minimum maximum = answer at houtcome
  cases houtcome with
  | crossed hcrossed => exact absurd hcrossed h
  | exhausted => rfl
  | @found tokens _ _ available =>
      have hword : String.join tokens ∈ s.availableTexts minimum maximum := ⟨tokens, available, rfl⟩
      rw [hnone] at hword
      exact hword.elim

/-- Within bounds that can be met, a batch hands out as many words as there are texts available, up
to the count that is asked for, and no text twice. So do batches that are run one after the other.
If they ask for no less than what is available, they hand out every text that is, none is left
behind them, and any other session of the same language and settings that has emitted the same texts
hands out the same ones in its batches, whatever its source is. -/
theorem batch_enumerates (h : ¬ Crossed minimum maximum) (s : Session) :
    (s.availableTexts minimum maximum).Finite ∧
      (∀ count ≤ greatestBatch, ∃ words after,
        s.batch count minimum maximum = (.ok words, after) ∧
          words.length = min count.toNat (s.availableTexts minimum maximum).ncard ∧
          (words.map Word.text).Nodup ∧
          {text | text ∈ words.map Word.text} ⊆ s.availableTexts minimum maximum) ∧
      ∀ counts : List UInt64, (∀ count ∈ counts, count ≤ greatestBatch) →
        ∃ words after, s.batches minimum maximum counts = (.ok words, after) ∧
          words.length =
            min (counts.map UInt64.toNat).sum (s.availableTexts minimum maximum).ncard ∧
          (words.map Word.text).Nodup ∧
          ((s.availableTexts minimum maximum).ncard ≤ (counts.map UInt64.toNat).sum →
            {text | text ∈ words.map Word.text} = s.availableTexts minimum maximum ∧
            (after.generate minimum maximum).1 = .ok none ∧
            ∀ (other : Session) (many : List UInt64), other.model = s.model →
              other.config = s.config → (∀ text, text ∈ other.emitted ↔ text ∈ s.emitted) →
              (∀ count ∈ many, count ≤ greatestBatch) →
              (s.availableTexts minimum maximum).ncard ≤ (many.map UInt64.toNat).sum →
                ∃ others last, other.batches minimum maximum many = (.ok others, last) ∧
                  {text | text ∈ others.map Word.text} = {text | text ∈ words.map Word.text}) := by
  refine ⟨s.finite_availableTexts minimum maximum, fun count hcount => ?_, fun counts hcounts => ?_⟩
  · obtain ⟨words, after, hbatch, htakes, hlength⟩ := takes_batch h hcount s
    exact ⟨words, after, hbatch, hlength, htakes.nodup, htakes.available⟩
  obtain ⟨words, after, hbatches, htakes, hlength⟩ := takes_batches h hcounts s
  refine ⟨words, after, hbatches, hlength, htakes.nodup, fun henough => ?_⟩
  have hall := htakes.all (hlength.trans (Nat.min_eq_right henough))
  refine ⟨hall, ?_, ?_⟩
  · apply generate_of_availableTexts_empty h
    rw [htakes.left, hall, Set.sdiff_self]
  · intro other many hmodel hconfig hemitted hmany hless
    have hsame : other.availableTexts minimum maximum = s.availableTexts minimum maximum := by
      have hdiff : other.availableTexts minimum maximum =
          s.availableTexts minimum maximum \ {text | text ∈ ([] : List String)} :=
        availableTexts_of_emitted hmodel hconfig (by simpa using hemitted)
      simpa using hdiff
    obtain ⟨others, last, hothers, htakesOthers, hlengthOthers⟩ := takes_batches h hmany other
    rw [hsame] at hlengthOthers
    have hallOthers := htakesOthers.all (by rw [hsame, hlengthOthers, Nat.min_eq_right hless])
    exact ⟨others, last, hothers, by rw [hallOthers, hsame, hall]⟩

/-- The small language has two words of two tokens. A batch of one and a batch of five hand out both
and leave none. -/
theorem batch_enumerates_sample :
    ¬ Crossed 2 2 ∧
      (sample.batches 2 2 [1, 5]).1 = .ok [⟨["t", "p"]⟩, ⟨["t", "t"]⟩] ∧
        sample.availableTexts 2 2 = {"tp", "tt"} ∧
          ((sample.batches 2 2 [1, 5]).2.generate 2 2).1 = .ok none := by
  have hcrossed : ¬ Crossed 2 2 := by decide
  have hwords : (sample.batches 2 2 [1, 5]).1 = .ok [⟨["t", "p"]⟩, ⟨["t", "t"]⟩] := by
    decide +kernel
  have hcounts : ∀ count ∈ [(1 : UInt64), 5], count ≤ greatestBatch :=
    List.forall_mem_cons.mpr ⟨by decide, List.forall_mem_singleton.mpr (by decide)⟩
  obtain ⟨-, -, hbatches⟩ := batch_enumerates hcrossed sample
  obtain ⟨words, after, hrun, hlength, -, hall⟩ := hbatches [1, 5] hcounts
  rw [hrun] at hwords ⊢
  obtain rfl : words = [⟨["t", "p"]⟩, ⟨["t", "t"]⟩] := Except.ok.inj hwords
  have htwo : (sample.availableTexts 2 2).ncard = 2 := by
    have hcut : 2 = min 6 (sample.availableTexts 2 2).ncard := hlength
    omega
  obtain ⟨htexts, hnone, -⟩ := hall (by rw [htwo]; decide)
  refine ⟨hcrossed, rfl, ?_, hnone⟩
  rw [← htexts]
  ext text
  simp [Word.text, String.join]

end Session

end Neologism
