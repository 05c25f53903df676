import Mathlib
import Neologism.Context

/-! # The instances of a pattern

An instance takes one token from every class of a pattern, so it is told by a row of positions, one
in each class. The instances come in the lexicographic order of these rows, with the last place
varying fastest. A boundary in the first place puts the marker before each of them, and the first
boundary in another place is a complaint, whether or not there are instances.

Main statements: `instances_cases` says what a pattern comes to, and `instancesInPlace_eq` that the
marker can be put behind the first text in place, as there is always a first text. -/

namespace Neologism.Context

variable {marker : String} {position : Nat} {front rest slots : List Slot}

/-- The rows with a position below each size, in lexicographic order. -/
def rows : List Nat → List (List Nat)
  | [] => [[]]
  | size :: sizes => (List.range size).flatMap fun i => (rows sizes).map (i :: ·)

theorem mem_rows_iff (sizes row : List Nat) :
    row ∈ rows sizes ↔ List.Forall₂ (· < ·) row sizes := by
  induction sizes generalizing row with
  | nil => simp [rows]
  | cons size sizes ih =>
      simp only [rows, List.mem_flatMap, List.mem_range, List.mem_map, ih]
      constructor
      · rintro ⟨i, hi, row, hrow, rfl⟩
        exact .cons hi hrow
      · rintro (_ | ⟨hi, hrow⟩)
        exact ⟨_, hi, _, hrow, rfl⟩

theorem rows_pairwise (sizes : List Nat) : (rows sizes).Pairwise (· < ·) := by
  induction sizes with
  | nil => exact List.pairwise_singleton _ _
  | cons size sizes ih =>
      refine List.pairwise_flatMap.mpr ⟨fun i _ => ?_, ?_⟩
      · exact List.pairwise_map.mpr (ih.imp List.cons_lt_cons_self.mpr)
      · -- Rows that start at different positions are told apart there.
        refine List.pairwise_lt_range.imp fun hlt row hrow other hother => ?_
        obtain ⟨row, -, rfl⟩ := List.mem_map.mp hrow
        obtain ⟨other, -, rfl⟩ := List.mem_map.mp hother
        exact List.Lex.rel hlt

theorem length_rows (sizes : List Nat) : (rows sizes).length = sizes.prod := by
  induction sizes with
  | nil => rfl
  | cons size sizes ih => simp [rows, ih]

/-- The classes of a pattern. -/
def classes : List Slot → List CharClass
  | [] => []
  | .boundary :: rest => classes rest
  | .cls c :: rest => c :: classes rest

/-- The tokens at the positions of a row, joined. -/
def rowText (cs : List CharClass) (row : List Nat) : String :=
  String.join (List.zipWith (fun c i => c.keys.getD i "") cs row)

/-- What stands before the tokens of an instance. -/
def opening (marker : String) : List Slot → String
  | .boundary :: _ => marker
  | _ => ""

theorem rowText_cons (c : CharClass) (cs : List CharClass) (i : Nat) (row : List Nat) :
    rowText (c :: cs) (i :: row) = c.keys.getD i "" ++ rowText cs row := by
  rw [rowText, List.zipWith_cons_cons, String.join_cons, rowText]

theorem keys_eq_map_range (c : CharClass) :
    c.keys = (List.range c.size).map fun i => c.keys.getD i "" := by
  have hlength : c.keys.length = c.size := List.length_map _
  refine List.ext_getElem (by simp [hlength]) fun i hi _ => ?_
  simp [hi]

/-- Behind each text the rows come in their order. -/
theorem foldl_extend_eq (marker : String) (before : List String) (h : .boundary ∉ slots) :
    slots.foldl (fun texts slot => extend texts (slot.texts marker)) before =
      before.flatMap fun text =>
        (rows ((classes slots).map OrderedMap.size)).map fun row =>
          text ++ rowText (classes slots) row := by
  induction slots generalizing before with
  | nil => simp [classes, rows, rowText]
  | cons slot slots ih =>
      obtain ⟨hslot, hslots⟩ := not_or.mp (mt List.mem_cons.mpr h)
      cases slot with
      | boundary => exact absurd rfl hslot
      | cls c =>
          rw [List.foldl_cons, ih _ hslots, extend, List.flatMap_assoc]
          congr 1
          funext text
          rw [Slot.texts, keys_eq_map_range, List.map_map, List.flatMap_map]
          simp only [classes, List.map_cons, rows, List.map_flatMap, List.map_map,
            Function.comp_def, rowText_cons, String.append_assoc]

theorem instancesFrom_eq_error (h : position ≠ 0) (hfront : .boundary ∉ front)
    (before : List String) :
    instancesFrom marker position before (front ++ .boundary :: rest) =
      .error (.misplacedBoundary (position + front.length)) := by
  induction front generalizing position before with
  | nil => rw [List.nil_append, instancesFrom, if_neg h, List.length_nil, Nat.add_zero]
  | cons slot front ih =>
      obtain ⟨hslot, hlater⟩ := not_or.mp (mt List.mem_cons.mpr hfront)
      cases slot with
      | boundary => exact absurd rfl hslot
      | cls c =>
          rw [List.cons_append, instancesFrom, ih (Nat.succ_ne_zero _) hlater, List.length_cons]
          congr 2
          omega

/-- Behind its first place, a pattern goes on with the texts of that place. -/
theorem instances_cons (slot : Slot) (rest : List Slot) (marker : String) :
    instances (slot :: rest) marker = instancesFrom marker 1 (slot.texts marker) rest := by
  cases slot <;> simp [instances, instancesFrom, extend, Slot.texts]

/-- A pattern fails at its first boundary behind the first place. If there is none, its instances
are the texts of the rows in their order, with the marker before them if the first place is a
boundary. -/
theorem instances_cases (slots : List Slot) (marker : String) :
    (∃ position, IsLeast {i | 0 < i ∧ slots[i]? = some .boundary} position ∧
      instances slots marker = .error (.misplacedBoundary position)) ∨
    ((∀ i, slots[i]? = some .boundary → i = 0) ∧
      instances slots marker = .ok ((rows ((classes slots).map OrderedMap.size)).map fun row =>
        opening marker slots ++ rowText (classes slots) row)) := by
  cases slots with
  | nil =>
      exact .inr ⟨by simp, by simp [instances, instancesFrom, classes, rows, rowText, opening]⟩
  | cons slot rest =>
      rw [instances_cons]
      by_cases hrest : .boundary ∈ rest
      · obtain ⟨front, back, rfl, hfront⟩ := List.eq_append_cons_of_mem hrest
        refine .inl ⟨1 + front.length, ⟨⟨by omega, ?_⟩, ?_⟩,
          instancesFrom_eq_error Nat.one_ne_zero hfront _⟩
        · simp [Nat.add_comm 1]
        · -- A boundary behind the first place and before this one would be in front of it.
          rintro i ⟨hpos, hi⟩
          obtain ⟨i, rfl⟩ := Nat.exists_eq_add_one_of_ne_zero hpos.ne'
          by_contra hlt
          rw [List.getElem?_cons_succ, List.getElem?_append_left (by omega)] at hi
          exact hfront (List.mem_of_getElem? hi)
      · refine .inr ⟨fun i hi => ?_, ?_⟩
        · by_contra hne
          obtain ⟨i, rfl⟩ := Nat.exists_eq_add_one_of_ne_zero hne
          rw [List.getElem?_cons_succ] at hi
          exact hrest (List.mem_of_getElem? hi)
        · rw [instancesFrom_eq_ok _ _ _ _ hrest, foldl_extend_eq _ _ hrest]
          cases slot with
          | boundary => simp [Slot.texts, opening, classes]
          | cls c =>
              have hall : .boundary ∉ .cls c :: rest := by simpa using hrest
              have hfold := foldl_extend_eq marker [""] hall
              rw [List.foldl_cons, foldl_extend_eq _ _ hrest] at hfold
              simpa [extend, Slot.texts, opening] using hfold

/-- The instances of the places from `position` on, where the marker of a boundary is put behind the
first text in its place. There is no answer if there is no first text. -/
def instancesInPlace (marker : String) (position : Nat) (before : List String) :
    List Slot → Option (Except ContextError (List String))
  | [] => some (.ok before)
  | .boundary :: rest =>
      if position = 0 then
        (before[0]?).bind fun first =>
          instancesInPlace marker 1 (before.set 0 (first ++ marker)) rest
      else some (.error (.misplacedBoundary position))
  | .cls c :: rest => instancesInPlace marker (position + 1) (extend before c.keys) rest

theorem instancesInPlace_of_pos (h : position ≠ 0) (before : List String) (slots : List Slot) :
    instancesInPlace marker position before slots =
      some (instancesFrom marker position before slots) := by
  induction slots generalizing position before with
  | nil => rfl
  | cons slot slots ih =>
      cases slot with
      | boundary => rw [instancesInPlace, instancesFrom, if_neg h, if_neg h]
      | cls c => exact ih (Nat.succ_ne_zero _) _

/-- A boundary finds the one text that the places start from. -/
theorem instancesInPlace_eq (slots : List Slot) (marker : String) :
    instancesInPlace marker 0 [""] slots = some (instances slots marker) := by
  cases slots with
  | nil => rfl
  | cons slot rest =>
      cases slot with
      | boundary => exact instancesInPlace_of_pos Nat.one_ne_zero _ rest
      | cls c => exact instancesInPlace_of_pos Nat.one_ne_zero _ rest

/-- A pattern fails exactly if it has a boundary behind its first place, and blames the first such
one. Otherwise it has as many instances as there are ways to take a token from every class. They
list the joined tokens, with the marker before them if the first place is a boundary, in the
lexicographic order of the rows of their positions. Putting the marker behind the first text in
place never lacks a first text. -/
theorem instances_ordered_product (slots : List Slot) (marker : String) :
    ((∃ e, instances slots marker = .error e) ↔ ∃ i, 0 < i ∧ slots[i]? = some .boundary) ∧
    (∀ position, instances slots marker = .error (.misplacedBoundary position) ↔
      IsLeast {i | 0 < i ∧ slots[i]? = some .boundary} position) ∧
    (∀ texts, instances slots marker = .ok texts →
      texts.length = ((classes slots).map OrderedMap.size).prod ∧
      ∃ places : List (List Nat), places.Pairwise (· < ·) ∧
        (∀ row, row ∈ places ↔ List.Forall₂ (fun i c => i < c.size) row (classes slots)) ∧
        texts = places.map fun row => opening marker slots ++ rowText (classes slots) row) ∧
    instancesInPlace marker 0 [""] slots = some (instances slots marker) := by
  rcases instances_cases slots marker with ⟨position, hleast, herror⟩ | ⟨hnone, hok⟩
  · refine ⟨⟨fun _ => ⟨position, hleast.1⟩, fun _ => ⟨_, herror⟩⟩, fun other => ?_,
      fun texts h => ?_, instancesInPlace_eq slots marker⟩
    · rw [herror]
      constructor
      · rintro ⟨⟩
        exact hleast
      · intro hother
        rw [hleast.unique hother]
    · rw [herror] at h
      cases h
  · refine ⟨⟨?_, ?_⟩, fun position => ⟨?_, ?_⟩, fun texts h => ?_, instancesInPlace_eq slots marker⟩
    · rintro ⟨e, he⟩
      rw [hok] at he
      cases he
    · rintro ⟨i, hpos, hi⟩
      exact absurd (hnone i hi) hpos.ne'
    · intro he
      rw [hok] at he
      cases he
    · intro hleast
      exact absurd (hnone position hleast.1.2) hleast.1.1.ne'
    · rw [hok] at h
      obtain rfl := Except.ok.inj h
      refine ⟨by rw [List.length_map, length_rows], _, rows_pairwise _, fun row => ?_, rfl⟩
      rw [mem_rows_iff, List.forall₂_map_right_iff]

def stops : CharClass :=
  ⟨[("p", 1.0), ("t", 1.0)], by decide⟩

def vowels : CharClass :=
  ⟨[("a", 1.0), ("i", 1.0)], by decide⟩

/-- A stop and a vowel at the start of a word have four instances. A boundary behind a class without
tokens is blamed all the same. -/
theorem instances_ordered_product_stopVowel :
    instances [.boundary, .cls stops, .cls vowels] "_" = .ok ["_pa", "_pi", "_ta", "_ti"] ∧
      4 = ((classes [.boundary, .cls stops, .cls vowels]).map OrderedMap.size).prod ∧
      instances [.cls .empty, .cls vowels, .boundary] "_" = .error (.misplacedBoundary 2) := by
  have hok : instances [.boundary, .cls stops, .cls vowels] "_" =
      .ok ["_pa", "_pi", "_ta", "_ti"] := by decide +kernel
  refine ⟨hok, ((instances_ordered_product _ _).2.2.1 _ hok).1, ?_⟩
  refine ((instances_ordered_product _ _).2.1 2).mpr ⟨⟨by decide, rfl⟩, ?_⟩
  rintro i ⟨hpos, hi⟩
  by_contra hlt
  obtain rfl : i = 1 := by omega
  cases hi

end Neologism.Context
