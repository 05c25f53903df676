import Neologism.Proofs.Lexicon.Numerals

/-! # The names that assignments give

An assignment counts up from the number of the assignment before it to the first numeral that is
free. No name is ever unbound, so every number that was passed over or given has its numeral bound
from then on. A name that was given is not given again, and the numbers do not run ahead of the
bound names.

Main statements: `countsUp_iff` for the search of one assignment, `Numbered.bindAll` for a history
of calls, and `assign_fresh`. -/

namespace Neologism.Lexicon

variable {lex : Lexicon} {given : List String}

/-- Counting up behind a number, so many numerals are looked at until one is free, which is the
numeral of the last number. -/
inductive CountsUp (lex : Lexicon) : Nat → Nat → Nat → Prop
  | free {n : Nat} : lex.contains (Nat.repr (n + 1)) = false → CountsUp lex n 1 (n + 1)
  | bound {n looks found : Nat} : lex.contains (Nat.repr (n + 1)) = true →
      CountsUp lex (n + 1) looks found → CountsUp lex n (looks + 1) found

/-- Counting up comes to the least number above the first one whose numeral is free. -/
theorem countsUp_iff {n looks found : Nat} :
    lex.CountsUp n looks found ↔ 0 < looks ∧ found = n + looks ∧
      lex.contains (Nat.repr found) = false ∧
        ∀ m, n < m → m < found → lex.contains (Nat.repr m) = true := by
  constructor
  · intro h
    induction h with
    | free hfree => exact ⟨Nat.one_pos, rfl, hfree, fun m hlow hhigh => by omega⟩
    | @bound n looks _ hbound _ ih =>
        obtain ⟨-, rfl, hfree, hbetween⟩ := ih
        refine ⟨Nat.succ_pos looks, by omega, hfree, fun m hlow hhigh => ?_⟩
        rcases Nat.eq_or_lt_of_le hlow with rfl | hlow
        · exact hbound
        · exact hbetween m hlow hhigh
  · rintro ⟨hpos, rfl, hfree, hbetween⟩
    induction looks generalizing n with
    | zero => cases hpos
    | succ looks ih =>
        cases looks with
        | zero => exact .free hfree
        | succ looks =>
            have hsum : n + (looks + 1 + 1) = n + 1 + (looks + 1) := by omega
            rw [hsum] at hfree hbetween ⊢
            apply CountsUp.bound (hbetween (n + 1) (by omega) (by omega))
            exact ih (Nat.succ_pos looks) hfree fun m hlow hhigh => hbetween m (by omega) hhigh

/-- Counting up behind the counter comes to the number of the next assignment and to no other. -/
theorem countsUp_counter_iff {looks found : Nat} :
    lex.CountsUp lex.counter looks found ↔
      looks = lex.freshNumber - lex.counter ∧ found = lex.freshNumber := by
  obtain ⟨habove, -, hfree⟩ := lex.freshNumber_spec
  rw [countsUp_iff]
  constructor
  · rintro ⟨hpos, rfl, hfound, hbetween⟩
    have hle : lex.freshNumber ≤ lex.counter + looks := lex.freshNumber_le (by omega) hfound
    have heq : lex.freshNumber = lex.counter + looks := by
      by_contra hne
      have hbound := hbetween lex.freshNumber habove (by omega)
      rw [hfree] at hbound
      cases hbound
    omega
  · rintro ⟨rfl, rfl⟩
    refine ⟨by omega, by omega, hfree, fun m hlow hhigh => ?_⟩
    by_contra hnot
    exact absurd (lex.freshNumber_le hlow (Bool.eq_false_iff.mpr hnot)) (by omega)

/-- A call that binds a class in a lexicon. -/
inductive Binding where
  | define (name : String) (c : CharClass)
  | assign (c : CharClass)

/-- The names that the assignments among some calls give, in order, and the lexicon after them. -/
def bindAll (lex : Lexicon) : List Binding → List String × Lexicon
  | [] => ([], lex)
  | .define name c :: rest => (lex.define name c).bindAll rest
  | .assign c :: rest =>
      let (name, lex) := lex.assign c
      let (names, lex) := lex.bindAll rest
      (name :: names, lex)

/-- Names were given once each and are bound, and so are the numerals up to the last one. -/
structure Numbered (given : List String) (lex : Lexicon) : Prop where
  nodup : given.Nodup
  given_bound : ∀ name ∈ given, lex.contains name = true
  numeral_bound : ∀ n, 0 < n → n ≤ lex.counter → lex.contains (Nat.repr n) = true

namespace Numbered

theorem empty : Numbered [] {} where
  nodup := List.nodup_nil
  given_bound _ hname := absurd hname (List.not_mem_nil)
  numeral_bound _ hpos hle := absurd hle (Nat.not_le.mpr hpos)

theorem define (h : Numbered given lex) (name : String) (c : CharClass) :
    Numbered given (lex.define name c) where
  nodup := h.nodup
  given_bound other hother := (contains_define_iff ..).mpr (.inr (h.given_bound other hother))
  numeral_bound n hpos hle := (contains_define_iff ..).mpr (.inr (h.numeral_bound n hpos hle))

theorem fst_assign_notMem (h : Numbered given lex) (c : CharClass) : (lex.assign c).1 ∉ given := by
  intro hmem
  have hbound := h.given_bound _ hmem
  rw [contains_iff, get?_assign_fst] at hbound
  simp at hbound

theorem assign (h : Numbered given lex) (c : CharClass) :
    Numbered (given ++ [(lex.assign c).1]) (lex.assign c).2 where
  nodup := List.nodup_append.mpr ⟨h.nodup, List.nodup_singleton _, fun name hname other hother =>
    List.mem_singleton.mp hother ▸ fun heq => h.fst_assign_notMem c (heq ▸ hname)⟩
  given_bound name hname := by
    apply (contains_assign_iff ..).mpr
    rcases List.mem_append.mp hname with hold | hnew
    · exact .inr (h.given_bound name hold)
    · exact .inl (List.mem_singleton.mp hnew)
  numeral_bound n hpos hle := by
    apply (contains_assign_iff ..).mpr
    have hnumber : n ≤ lex.freshNumber := hle
    rcases Nat.eq_or_lt_of_le hnumber with rfl | hless
    · exact .inl rfl
    · right
      -- A number below the one that is given was passed over or lies below the counter.
      by_contra hfree
      rcases Nat.lt_or_ge lex.counter n with habove | hbelow
      · have hle := lex.freshNumber_le habove (Bool.eq_false_iff.mpr hfree)
        omega
      · exact hfree (h.numeral_bound n hpos hbelow)

theorem bindAll (h : Numbered given lex) (calls : List Binding) :
    Numbered (given ++ (lex.bindAll calls).1) (lex.bindAll calls).2 := by
  induction calls generalizing lex given with
  | nil => simpa [Lexicon.bindAll] using h
  | cons call rest ih =>
      cases call with
      | define name c => exact ih (h.define name c)
      | assign c =>
          have hrest := ih (h.assign c)
          rwa [List.append_assoc] at hrest

theorem counter_le_size (h : Numbered given lex) : lex.counter ≤ lex.size := by
  have hbound : ∀ n ∈ List.range' 1 lex.counter, lex.contains (Nat.repr n) = true := by
    intro n hn
    have hrange := List.mem_range'_1.mp hn
    exact h.numeral_bound n (by omega) (by omega)
  simpa using length_le_size_of_bound (List.nodup_range' ..) hbound

end Numbered

/-- After any history of definitions and assignments, counting up for the next assignment comes to
an end within one more numerals than there are bound names, and gives a name that was not bound and
was not given before. That name is bound to the class, every other name is left alone, and the
number that was counted to is at most the number of bound names. -/
theorem assign_fresh (calls : List Binding) (c : CharClass) :
    let given := (bindAll {} calls).1
    let lex := (bindAll {} calls).2
    let name := (lex.assign c).1
    let after := (lex.assign c).2
    (∃ looks, looks ≤ lex.size + 1 ∧ ∀ k found, lex.CountsUp lex.counter k found ↔
        k = looks ∧ found = after.counter) ∧
      name = Nat.repr after.counter ∧ lex.get? name = none ∧
        (∀ other, after.get? other = if other = name then some c else lex.get? other) ∧
          (given ++ [name]).Nodup ∧ after.counter ≤ after.size := by
  intro given lex name after
  have hnumbered : Numbered given lex := Numbered.empty.bindAll calls
  obtain ⟨habove, hwithin, -⟩ := lex.freshNumber_spec
  refine ⟨⟨lex.freshNumber - lex.counter, by omega, fun k found => countsUp_counter_iff⟩, rfl,
    lex.get?_assign_fst c, fun other => lex.get?_assign other c, ?_, ?_⟩
  · exact (hnumbered.assign c).nodup
  · exact (hnumbered.assign c).counter_le_size

end Neologism.Lexicon
