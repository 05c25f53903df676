import Mathlib.Data.List.Forall2
import Neologism.Proofs.Phonotactics.Narrowing

/-! # Contexts by place and by text

A pattern says place by place what stands before a token: the start of the word, or a token of a
class. The tables know the texts of its instances only, and narrowing compares them with the texts
that a word so far ends in. So a context is recognized by its spelling, whatever it is composed of.

Main statements: `mem_instances_iff` says which texts a pattern stands for,
`mem_trailingTexts_elements_iff` which texts a word so far ends in, and `spelled_iff_meets` that
places and texts come to the same where spellings can be read back. `readable_of_length` is a case
in which they can. -/

namespace Neologism.Context

/-- What may stand before a token: the start of the word, or another token. -/
inductive Element where
  | start
  | token (t : Token)
deriving DecidableEq

/-- The text of an element. The start of the word is spelled by the marker. -/
def Element.text (marker : String) : Element → String
  | .start => marker
  | .token t => t

/-- What stands before the next token of a word: its start, and the tokens chosen so far. -/
def elements (chosen : List Token) : List Element :=
  .start :: chosen.map .token

/-- The joined texts of some elements. -/
def spelling (marker : String) (es : List Element) : String :=
  String.join (es.map (Element.text marker))

/-- An element meets a place: the start of the word meets a boundary, and a token of a class meets
the class. -/
inductive Slot.Meets : Slot → Element → Prop
  | boundary : Meets .boundary .start
  | cls {c : CharClass} {t : Token} : c.contains t = true → Meets (.cls c) (.token t)

/-- Elements meet the places of a pattern one to one. -/
abbrev Meets (places : List Slot) (es : List Element) : Prop :=
  List.Forall₂ Slot.Meets places es

/-- The elements are spelled like some elements that meet the places of the pattern. -/
def Spelled (marker : String) (places : List Slot) (es : List Element) : Prop :=
  ∃ fs, Meets places fs ∧ spelling marker fs = spelling marker es

variable {marker : String} {places : List Slot} {texts : List String}

@[simp]
theorem spelling_nil (marker : String) : spelling marker [] = "" :=
  rfl

@[simp]
theorem spelling_cons (marker : String) (e : Element) (es : List Element) :
    spelling marker (e :: es) = e.text marker ++ spelling marker es :=
  String.join_cons

theorem mem_extend_iff (before texts : List String) (text : String) :
    text ∈ extend before texts ↔ ∃ b ∈ before, ∃ t ∈ texts, b ++ t = text := by
  simp only [extend, List.mem_flatMap, List.mem_map]

/-- The texts of a place are those of the elements that meet it. -/
theorem mem_texts_iff (marker : String) (place : Slot) (text : String) :
    text ∈ place.texts marker ↔ ∃ e, place.Meets e ∧ e.text marker = text := by
  cases place with
  | boundary =>
      rw [Slot.texts, List.mem_singleton]
      constructor
      · rintro rfl
        exact ⟨.start, .boundary, rfl⟩
      · rintro ⟨e, hmeets, rfl⟩
        cases hmeets
        rfl
  | cls c =>
      rw [Slot.texts, ← c.contains_iff]
      constructor
      · intro htext
        exact ⟨.token text, .cls htext, rfl⟩
      · rintro ⟨e, hmeets, rfl⟩
        cases hmeets with
        | cls hmem => exact hmem

theorem mem_instancesFrom_iff {position : Nat} {before : List String}
    (h : instancesFrom marker position before places = .ok texts) (text : String) :
    text ∈ texts ↔ ∃ b ∈ before, ∃ es, Meets places es ∧ b ++ spelling marker es = text := by
  induction places generalizing position before with
  | nil =>
      obtain rfl : before = texts := Except.ok.inj h
      simp
  | cons place places ih =>
      -- Whatever the first place is, its texts are put behind those of the places before.
      have hrest : ∃ later,
          instancesFrom marker later (extend before (place.texts marker)) places = .ok texts := by
        cases place with
        | cls c => exact ⟨_, h⟩
        | boundary =>
            rw [instancesFrom] at h
            split at h
            · exact ⟨_, h⟩
            · cases h
      obtain ⟨later, hrest⟩ := hrest
      rw [ih hrest]
      constructor
      · rintro ⟨b, hb, es, hes, rfl⟩
        obtain ⟨a, ha, t, ht, rfl⟩ := (mem_extend_iff _ _ b).mp hb
        obtain ⟨e, he, rfl⟩ := (mem_texts_iff marker place t).mp ht
        exact ⟨a, ha, e :: es, .cons he hes, by rw [spelling_cons, String.append_assoc]⟩
      · rintro ⟨a, ha, es, hmeets, rfl⟩
        obtain ⟨e, es, he, hes, rfl⟩ := List.forall₂_cons_left_iff.mp hmeets
        have htext : e.text marker ∈ place.texts marker :=
          (mem_texts_iff marker place _).mpr ⟨e, he, rfl⟩
        exact ⟨a ++ e.text marker, (mem_extend_iff _ _ _).mpr ⟨a, ha, _, htext, rfl⟩, es, hes,
          by rw [spelling_cons, String.append_assoc]⟩

/-- A pattern stands for the spellings of the elements that meet its places. -/
theorem mem_instances_iff (h : instances places marker = .ok texts) (text : String) :
    text ∈ texts ↔ ∃ es, Meets places es ∧ spelling marker es = text := by
  simpa using mem_instancesFrom_iff h text

/-- A word so far ends in the spellings of its ends. -/
theorem mem_trailingTexts_elements_iff (marker : String) (chosen : List Token) (text : String) :
    text ∈ Phonotactics.trailingTexts (marker :: chosen) ↔
      ∃ es, es ≠ [] ∧ es <:+ elements chosen ∧ spelling marker es = text := by
  have hmap : marker :: chosen = (elements chosen).map (Element.text marker) := by
    simp [elements, Element.text, Function.comp_def]
  rw [Phonotactics.mem_trailingTexts_iff, hmap]
  constructor
  · rintro ⟨suffix, hne, hsuffix, rfl⟩
    obtain ⟨es, hes, rfl⟩ := List.suffix_map_iff.mp hsuffix
    exact ⟨es, fun hnil => hne (by rw [hnil]; rfl), hes, rfl⟩
  · rintro ⟨es, hne, hes, rfl⟩
    exact ⟨es.map (Element.text marker), by simpa using hne, List.suffix_map_iff.mpr ⟨es, hes, rfl⟩,
      rfl⟩

/-- The end of a word is spelled as the pattern when its text is one that the pattern stands for. -/
theorem spelled_iff_mem (h : instances places marker = .ok texts) (es : List Element) :
    Spelled marker places es ↔ spelling marker es ∈ texts :=
  (mem_instances_iff h _).symm

/-- The start of the word, or a token of an inventory. -/
def Element.In (inventory : Token → Prop) : Element → Prop
  | .start => True
  | .token t => inventory t

/-- Rows of elements with the tokens of an inventory are told apart by their spelling. -/
def Readable (marker : String) (inventory : Token → Prop) : Prop :=
  ∀ es fs : List Element, (∀ e ∈ es, e.In inventory) → (∀ f ∈ fs, f.In inventory) →
    spelling marker es = spelling marker fs → es = fs

/-- Spellings can be read back when the marker is not a token and is as long as all tokens are. -/
theorem readable_of_length {inventory : Token → Prop} {length : Nat} (hpos : 0 < length)
    (hmarker : marker.length = length) (htokens : ∀ t, inventory t → t.length = length)
    (hnot : ¬ inventory marker) : Readable marker inventory := by
  have htext : ∀ e : Element, e.In inventory → (e.text marker).length = length := by
    intro e he
    cases e with
    | start => exact hmarker
    | token t => exact htokens t he
  have hinjective : ∀ e f : Element, e.In inventory → f.In inventory →
      e.text marker = f.text marker → e = f := by
    intro e f he hf heq
    cases e <;> cases f
    case start.start => rfl
    case start.token t =>
      obtain rfl : marker = t := heq
      exact absurd hf hnot
    case token.start t =>
      obtain rfl : t = marker := heq
      exact absurd he hnot
    case token.token => exact congrArg Element.token heq
  intro es
  induction es with
  | nil =>
      intro fs _ hfs heq
      cases fs with
      | nil => rfl
      | cons f fs =>
          have hlength := congrArg String.length heq
          rw [spelling_nil, spelling_cons, String.length_append,
            htext f (hfs f List.mem_cons_self), String.length_empty] at hlength
          omega
  | cons e es ih =>
      intro fs hes hfs heq
      obtain ⟨he, hes⟩ := List.forall_mem_cons.mp hes
      cases fs with
      | nil =>
          have hlength := congrArg String.length heq
          rw [spelling_nil, spelling_cons, String.length_append, htext e he,
            String.length_empty] at hlength
          omega
      | cons f fs =>
          obtain ⟨hf, hfs⟩ := List.forall_mem_cons.mp hfs
          rw [spelling_cons, spelling_cons] at heq
          have hchars := congrArg String.toList heq
          rw [String.toList_append, String.toList_append] at hchars
          obtain ⟨hfirst, hrest⟩ := List.append_inj hchars (by
            rw [String.length_toList, String.length_toList, htext e he, htext f hf])
          rw [hinjective e f he hf (String.toList_inj.mp hfirst),
            ih fs hes hfs (String.toList_inj.mp hrest)]

/-- Elements that meet the places of a pattern have their tokens from its classes. -/
theorem Meets.mem_inventory {inventory : Token → Prop} {es : List Element}
    (h : Meets places es) (hplaces : ∀ c, .cls c ∈ places → ∀ t, c.contains t = true → inventory t) :
    ∀ e ∈ es, e.In inventory := by
  induction h with
  | nil => simp
  | @cons place e places es hmeets _ ih =>
      refine List.forall_mem_cons.mpr ⟨?_, ih fun c hc => hplaces c (List.mem_cons_of_mem _ hc)⟩
      cases hmeets with
      | boundary => trivial
      | cls hmem => exact hplaces _ List.mem_cons_self _ hmem

/-- Where spellings can be read back, to be spelled as a pattern is to meet its places. -/
theorem spelled_iff_meets {inventory : Token → Prop} (h : Readable marker inventory)
    (hplaces : ∀ c, .cls c ∈ places → ∀ t, c.contains t = true → inventory t) {es : List Element}
    (hes : ∀ e ∈ es, e.In inventory) : Spelled marker places es ↔ Meets places es := by
  constructor
  · rintro ⟨fs, hmeets, hspelling⟩
    rwa [← h fs es (hmeets.mem_inventory hplaces) hes hspelling]
  · intro hmeets
    exact ⟨es, hmeets, rfl⟩

end Neologism.Context
