import Neologism.Proofs.Chart.Columns

/-! # Words of the root

A chart reads a sequence of tokens and is finished exactly when the root derives the sequence, and
it reads one token more exactly when the root has a form that goes on with a class of the token.

Main statements: `Tracks.isFinished_iff`, `Tracks.offers_iff` and `finishes_iff_derives`. -/

namespace Neologism.Chart

open Grammar Relation

variable {g : Grammar} {lex : Lexicon} {root : String} {ts : List Token} {ch : Chart}

/-- A finished chart has read a word of the root, and conversely. -/
theorem Tracks.isFinished_iff (h : Tracks g lex root ts ch) :
    ch.isFinished = true ↔ Derives g lex [.nonterminal root] ts := by
  rw [isFinished, List.any_eq_true, h.root_eq]
  constructor
  · rintro ⟨item, hitem, hspans⟩
    simp only [Item.spans, Bool.and_eq_true, beq_iff_eq] at hspans
    obtain ⟨⟨hcomplete, hsymbol⟩, hstart⟩ := hspans
    obtain ⟨xs, ys, rfl, hxs, hys⟩ := ((h.mem_current_iff item).mp hitem).derives_symbol
      (item.isComplete_iff.mp hcomplete)
    obtain rfl : xs = [] := List.length_eq_zero_iff.mp (hxs.trans hstart)
    rwa [hsymbol] at hys
  · intro hderives
    obtain ⟨rule, mem, hrule⟩ := derives_nonterminal_iff.mp hderives
    have hjustified : (Item.dotted root rule.symbols [] 0).Justified g lex root ts :=
      ⟨⟨rule, mem, by simp⟩, [], ts, rfl, rfl, .root, hrule⟩
    exact ⟨_, (h.mem_current_iff _).mpr hjustified, by simp [Item.spans, Item.isComplete,
      Item.next?, Item.symbol, Item.start]⟩

/-- A chart offers the tokens of the classes that may come next after what it has read. -/
theorem Tracks.offers_iff (h : Tracks g lex root ts ch) (t : Token) :
    ch.Offers t ↔ ∃ name, Anticipates g lex root ts (.cls name) ∧ lex.Holds name t := by
  constructor
  · rintro ⟨item, hitem, name, hnext, hold⟩
    rw [h.lexicon_eq] at hold
    exact ⟨name, ((h.mem_current_iff item).mp hitem).anticipates_next hnext, hold⟩
  · rintro ⟨name, hname, hold⟩
    obtain ⟨item, hitem, hnext⟩ := (h.met_of_anticipates hname List.prefix_rfl).2 name rfl
    rw [← h.position_eq, columnAt_position] at hitem
    exact ⟨item, hitem, name, hnext, by rwa [h.lexicon_eq]⟩

/-- What can be completed to a word of the root is read. -/
theorem exists_readAll?_of_derives {us vs : List Token}
    (h : Derives g lex [.nonterminal root] (us ++ vs)) :
    ∃ ch, (ofRoot g lex root).readAll? us = some ch := by
  induction us using List.reverseRecOn generalizing vs with
  | nil => exact ⟨_, readAll?_nil _⟩
  | append_singleton us t ih =>
      rw [List.append_assoc, List.singleton_append] at h
      obtain ⟨mid, hmid⟩ := ih h
      have hoffers := ((tracks_of_readAll? hmid).offers_iff t).mpr (anticipates_of_derives h)
      obtain ⟨next, hnext⟩ := Option.isSome_iff_exists.mp ((mid.isSome_advance?_iff t).mpr hoffers)
      exact ⟨next, readAll?_concat_eq_some_iff.mpr ⟨mid, hmid, hnext⟩⟩

theorem finishes_iff_derives :
    (∃ ch, (ofRoot g lex root).readAll? ts = some ch ∧ ch.isFinished = true) ↔
      Derives g lex [.nonterminal root] ts := by
  constructor
  · rintro ⟨ch, hread, hfinished⟩
    exact (tracks_of_readAll? hread).isFinished_iff.mp hfinished
  · intro h
    obtain ⟨ch, hread⟩ : ∃ ch, (ofRoot g lex root).readAll? ts = some ch :=
      exists_readAll?_of_derives (by rwa [← List.append_nil ts] at h)
    exact ⟨ch, hread, (tracks_of_readAll? hread).isFinished_iff.mpr h⟩

/-- A chart reads all of the tokens and is finished exactly when the root can be rewritten, in any
number of steps, into classes that hold the tokens one by one. -/
theorem recognizes_iff_rewrites (g : Grammar) (lex : Lexicon) (root : String) (ts : List Token) :
    (∃ ch, (ofRoot g lex root).readAll? ts = some ch ∧ ch.isFinished = true) ↔
      ∃ names, ReflTransGen g.Rewrites [.nonterminal root] (names.map Symbol.cls) ∧
        lex.HoldsAll names ts := by
  rw [finishes_iff_derives, derives_iff_rewrites]

end Neologism.Chart
