import Mathlib.Data.List.Nodup
import Mathlib.Data.List.Perm.Subperm
import Neologism.Lexicon

/-! # Numerals as names

A class that is written without a name is bound to a numeral that no class is bound to. Among one
more numerals than there are bound names, one is free, since different numbers have different
numerals.

Main statements: `freshNumber_spec`, and for what is bound before and after an assignment
`get?_assign_self`, `get?_assign_of_bound` and `contains_assign_iff`. -/

namespace Neologism

/-- Different numbers have different numerals. -/
theorem repr_injective : Function.Injective Nat.repr := by
  intro m n h
  have hdigits : Nat.toDigits 10 m = Nat.toDigits 10 n := by
    simpa only [Nat.toList_repr] using congrArg String.toList h
  calc
    m = Nat.ofDigitChars 10 (Nat.toDigits 10 m) 0 := Nat.ofDigitChars_ten_toDigits.symm
    _ = Nat.ofDigitChars 10 (Nat.toDigits 10 n) 0 := by rw [hdigits]
    _ = n := Nat.ofDigitChars_ten_toDigits

/-- A name with a character that is no digit is no numeral. -/
theorem ne_repr_of_any {name : String} (h : (name.toList.any fun ch => !ch.isDigit) = true)
    (n : Nat) : name ≠ Nat.repr n := by
  rintro rfl
  obtain ⟨ch, hch, hdigit⟩ := List.any_eq_true.mp h
  rw [Nat.toList_repr] at hch
  have hten := Nat.isDigit_of_mem_toDigits (by decide) (by decide) hch
  simp [hten] at hdigit

namespace Lexicon

variable {lex : Lexicon} {name : String} {c : CharClass}

theorem contains_iff (lex : Lexicon) (name : String) :
    lex.contains name = true ↔ ∃ c, lex.get? name = some c :=
  Option.isSome_iff_exists

theorem contains_eq_false_iff (lex : Lexicon) (name : String) :
    lex.contains name = false ↔ lex.get? name = none :=
  Option.isSome_eq_false_iff.trans Option.isNone_iff_eq_none

/-- There are at least as many bound names as numbers whose numerals are bound. -/
theorem length_le_size_of_bound {ns : List Nat} (hnodup : ns.Nodup)
    (hbound : ∀ n ∈ ns, lex.contains (Nat.repr n) = true) : ns.length ≤ lex.size := by
  have hkeys : ns.map Nat.repr ⊆ lex.classes.keys := by
    intro numeral hnumeral
    obtain ⟨n, hn, rfl⟩ := List.mem_map.mp hnumeral
    exact (lex.classes.contains_iff _).mp (hbound n hn)
  have hlength := ((hnodup.map repr_injective).subperm hkeys).length_le
  simpa only [List.length_map, OrderedMap.keys, size, OrderedMap.size] using hlength

/-- Among one more numbers than there are bound names, some number has a free numeral. -/
theorem exists_free_number (lex : Lexicon) (first : Nat) :
    ∃ n ∈ List.range' first (lex.size + 1), lex.contains (Nat.repr n) = false := by
  by_contra hnone
  have hbound : ∀ n ∈ List.range' first (lex.size + 1), lex.contains (Nat.repr n) = true := by
    intro n hn
    by_contra hfree
    exact hnone ⟨n, hn, Bool.eq_false_iff.mpr hfree⟩
  have hlength := length_le_size_of_bound (List.nodup_range' ..) hbound
  rw [List.length_range'] at hlength
  omega

/-- The number of an assignment is what the search for a free numeral comes to. -/
theorem find?_eq_freshNumber (lex : Lexicon) :
    (List.range' (lex.counter + 1) (lex.size + 1)).find? (fun n => !lex.contains (Nat.repr n)) =
      some lex.freshNumber := by
  obtain ⟨free, hmem, hfree⟩ := lex.exists_free_number (lex.counter + 1)
  cases hfind : (List.range' (lex.counter + 1) (lex.size + 1)).find?
      fun n => !lex.contains (Nat.repr n) with
  | none =>
      have hbound := List.find?_eq_none.mp hfind free hmem
      simp [hfree] at hbound
  | some n => simp only [freshNumber, hfind, Option.getD_some]

/-- The number of an assignment lies above the counter, at most one further than there are bound
names, and its numeral is free. -/
theorem freshNumber_spec (lex : Lexicon) :
    lex.counter < lex.freshNumber ∧ lex.freshNumber ≤ lex.counter + lex.size + 1 ∧
      lex.contains (Nat.repr lex.freshNumber) = false := by
  have hfind := lex.find?_eq_freshNumber
  have hrange := List.mem_range'_1.mp (List.mem_of_find?_eq_some hfind)
  have hfree := List.find?_some hfind
  exact ⟨by omega, by omega, by simpa using hfree⟩

/-- The number of an assignment is the least above the counter whose numeral is free. -/
theorem freshNumber_le {n : Nat} (habove : lex.counter < n)
    (hfree : lex.contains (Nat.repr n) = false) : lex.freshNumber ≤ n := by
  obtain ⟨-, -, hbound⟩ := List.find?_range'_eq_some.mp lex.find?_eq_freshNumber
  by_contra hless
  have hn := hbound n habove (Nat.not_le.mp hless)
  simp [hfree] at hn

/-- The numeral of an assignment was not bound. -/
theorem get?_assign_fst (lex : Lexicon) (c : CharClass) : lex.get? (lex.assign c).1 = none :=
  (lex.contains_eq_false_iff _).mp lex.freshNumber_spec.2.2

theorem get?_assign_self (lex : Lexicon) (c : CharClass) :
    (lex.assign c).2.get? (lex.assign c).1 = some c := by
  rw [get?_assign, if_pos rfl]

/-- An assignment leaves what is bound as it is. -/
theorem get?_assign_of_bound (h : lex.get? name = some c) (other : CharClass) :
    (lex.assign other).2.get? name = some c := by
  have hne : name ≠ (lex.assign other).1 := by
    rintro rfl
    rw [get?_assign_fst] at h
    cases h
  rw [get?_assign, if_neg hne, h]

theorem contains_assign_iff (lex : Lexicon) (c : CharClass) (name : String) :
    (lex.assign c).2.contains name = true ↔
      name = (lex.assign c).1 ∨ lex.contains name = true := by
  simp only [contains_iff, get?_assign]
  split <;> simp_all

theorem contains_define_iff (lex : Lexicon) (c : CharClass) (other name : String) :
    (lex.define other c).contains name = true ↔ name = other ∨ lex.contains name = true := by
  simp only [contains_iff, get?_define]
  split <;> simp_all

end Lexicon

end Neologism
