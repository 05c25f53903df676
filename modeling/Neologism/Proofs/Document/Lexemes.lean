import Neologism.Proofs.Decimal.Reading
import Neologism.Document.Writer

/-! # Written lexemes read back

Texts, identifiers and numbers are read up to their end, whatever stands behind it that does not
carry them on. In a text each character is written so that it reads as itself, by its own or with
a backslash before it.

Main statements: `text?_writtenText`, `name?_toList`, `number?_toList`, and `weight?_weightLexeme`
and `unsigned?_repr` for what numbers stand for. -/

namespace Neologism.Document

open Decimal

/-- A fold that takes the value of each digit into account has the value of all digits. -/
theorem foldl_toDigits {b : Nat} (hb : 1 < b) {f : Option Nat → Char → Option Nat}
    (hf : ∀ n, ∀ d < b, f (some n) (Nat.digitChar d) = some (b * n + d)) (n : Nat) :
    (Nat.toDigits b n).foldl f (some 0) = some n := by
  induction n using Nat.strongRecOn with
  | _ n ih =>
      rcases Nat.lt_or_ge n b with hlt | hge
      · rw [Nat.toDigits_of_lt_base hlt, List.foldl_cons, List.foldl_nil, hf 0 n hlt, Nat.mul_zero,
          Nat.zero_add]
      · rw [Nat.toDigits_of_base_le hb hge, List.foldl_append, List.foldl_cons, List.foldl_nil,
          ih (n / b) (Nat.div_lt_self (by omega) hb), hf _ _ (Nat.mod_lt n (by omega)),
          Nat.div_add_mod]

theorem exists_digitChar_of_mem_toDigits {b : Nat} (hb : 1 < b) (n : Nat) :
    ∀ c ∈ Nat.toDigits b n, ∃ d < b, c = Nat.digitChar d := by
  induction n using Nat.strongRecOn with
  | _ n ih =>
      intro c hc
      rcases Nat.lt_or_ge n b with hlt | hge
      · rw [Nat.toDigits_of_lt_base hlt] at hc
        exact ⟨n, hlt, List.mem_singleton.mp hc⟩
      · rw [Nat.toDigits_of_base_le hb hge] at hc
        rcases List.mem_append.mp hc with hc | hc
        · exact ih (n / b) (Nat.div_lt_self (by omega) hb) c hc
        · exact ⟨n % b, Nat.mod_lt n (by omega), List.mem_singleton.mp hc⟩

theorem hexDigit?_digitChar : ∀ d < 16, hexDigit? (Nat.digitChar d) = some d ∧
    Nat.digitChar d ∉ ['\x7d', '_'] := by
  decide

theorem hexValue?_toDigits (n : Nat) : hexValue? (Nat.toDigits 16 n) = some n := by
  apply foldl_toDigits (by decide)
  intro n d hd
  rw [Option.bind_some, (hexDigit?_digitChar d hd).1, Option.map_some]

theorem ne_brace_of_mem_toDigits (n : Nat) : ∀ c ∈ Nat.toDigits 16 n, c ≠ '\x7d' := by
  intro c hc
  obtain ⟨d, hd, rfl⟩ := exists_digitChar_of_mem_toDigits (by decide) n c hc
  exact fun heq => (hexDigit?_digitChar d hd).2 (heq ▸ List.mem_cons_self)

theorem digits?_toDigits (n : Nat) : digits? 10 (Nat.toDigits 10 n) = some n := by
  have hfilter : (Nat.toDigits 10 n).filter (· != '_') = Nat.toDigits 10 n := by
    rw [List.filter_eq_self]
    intro c hc
    obtain ⟨d, hd, rfl⟩ := exists_digitChar_of_mem_toDigits (by decide) n c hc
    exact bne_iff_ne.mpr fun heq => (hexDigit?_digitChar d (by omega)).2 (heq ▸ by simp)
  rw [digits?, hfilter]
  apply foldl_toDigits (by decide)
  intro n d hd
  rw [Option.bind_some, (hexDigit?_digitChar d (by omega)).1, Option.bind_some, if_pos hd]

variable {quote : Char} {ds cs rest : List Char}

theorem escape_of_code (cs : List Char) :
    Escape.of ('u' :: '\x7b' :: cs) =
      match cs.getLast? with
      | some '\x7d' =>
          if cs.dropLast.isEmpty then .malformed else .ofCode (hexValue? cs.dropLast)
      | _ => if cs.length ≤ 6 then .open else .malformed :=
  rfl

/-- An escape with digits is open until the brace after at most six of them. -/
theorem escape_of_digits (ds : List Char) {d : Char} (hd : d ≠ '\x7d') (hlength : ds.length < 6) :
    Escape.of ('u' :: '\x7b' :: (ds ++ [d])) = .open := by
  rw [escape_of_code, List.getLast?_concat, List.length_append, List.length_singleton]
  split
  · next heq => exact absurd (Option.some.inj heq) hd
  · rw [if_pos (by omega)]

theorem escape_of_closed (hne : ds ≠ []) :
    Escape.of ('u' :: '\x7b' :: (ds ++ ['\x7d'])) = .ofCode (hexValue? ds) := by
  rw [escape_of_code, List.getLast?_concat, List.dropLast_concat,
    if_neg (mt List.isEmpty_iff.mp hne)]
  rfl

theorem quoted_digits (started : List Char) (h : ∀ d ∈ ds, d ≠ '\x7d')
    (hlength : started.length + ds.length ≤ 6) :
    quoted quote (some ('u' :: '\x7b' :: started)) (ds ++ cs) =
      quoted quote (some ('u' :: '\x7b' :: (started ++ ds))) cs := by
  induction ds generalizing started with
  | nil => rw [List.nil_append, List.append_nil]
  | cons d ds ih =>
      rw [List.length_cons] at hlength
      have hopen := escape_of_digits started (h d List.mem_cons_self) (by omega)
      rw [List.cons_append, quoted, List.cons_append, List.cons_append, hopen]
      dsimp only
      rw [ih _ (fun d' hd' => h d' (List.mem_cons_of_mem _ hd')) (by simp; omega),
        List.append_assoc, List.singleton_append]

theorem ofCode_toNat (c : Char) : Escape.ofCode (some c.toNat) = .char c := by
  have hvalid : c.toNat.isValidChar := c.valid
  rw [Escape.ofCode, if_pos hvalid, Char.ofNat_toNat]

/-- The code point of a character reads as the character. -/
theorem quoted_code (c : Char) :
    quoted '"' none ('\\' :: 'u' :: '\x7b' :: (hexDigits c.toNat ++ '\x7d' :: cs)) =
      (quoted '"' none cs).map fun (ds, rest) => (c :: ds, rest) := by
  have hsmall : c.toNat < 16 ^ 6 := by
    have hvalid : c.toNat.isValidChar := c.valid
    rw [Nat.isValidChar] at hvalid
    omega
  have hlength : (hexDigits c.toNat).length ≤ 6 :=
    (Nat.length_toDigits_le_iff (by decide) (by decide)).mpr hsmall
  calc quoted '"' none ('\\' :: 'u' :: '\x7b' :: (hexDigits c.toNat ++ '\x7d' :: cs))
      = quoted '"' (some ['u', '\x7b']) (hexDigits c.toNat ++ '\x7d' :: cs) := rfl
    _ = quoted '"' (some ('u' :: '\x7b' :: hexDigits c.toNat)) ('\x7d' :: cs) :=
        quoted_digits [] (ne_brace_of_mem_toDigits _) (by simpa using hlength)
    _ = (quoted '"' none cs).map fun (ds, rest) => (c :: ds, rest) := by
        have hclosed : Escape.of ('u' :: '\x7b' :: hexDigits c.toNat ++ ['\x7d']) = .char c := by
          rw [hexDigits, List.cons_append, List.cons_append, escape_of_closed Nat.toDigits_ne_nil,
            hexValue?_toDigits, ofCode_toNat]
        rw [quoted]
        simp only [hclosed]

/-- The written form of a character reads as the character. -/
theorem quoted_writtenChar (c : Char) (cs : List Char) :
    quoted '"' none (writtenChar c ++ cs) =
      (quoted '"' none cs).map fun (ds, rest) => (c :: ds, rest) := by
  rw [writtenChar]
  split
  · next h => rcases h with rfl | rfl | rfl <;> rfl
  next hself =>
  split
  · next h => subst h; rfl
  split
  · next h => subst h; rfl
  split
  · next h => subst h; rfl
  split
  · next h => subst h; rfl
  split
  · rw [List.cons_append, List.cons_append, List.cons_append, List.append_assoc]
    exact quoted_code c
  · rw [not_or, not_or] at hself
    rw [List.singleton_append, quoted]
    simp only [hself, if_false]

theorem quoted_flatMap_writtenChar (cs rest : List Char) :
    quoted '"' none (cs.flatMap writtenChar ++ '"' :: rest) = some (cs, rest) := by
  induction cs with
  | nil => rfl
  | cons c cs ih =>
      rw [List.flatMap_cons, List.append_assoc, quoted_writtenChar, ih, Option.map_some]

/-- The written form of a text reads as the text. -/
theorem text?_writtenText (s : String) (rest : List Char) :
    text? (writtenText s ++ rest) = some (s, rest) := by
  rw [writtenText, List.cons_append, List.append_assoc, List.singleton_append, text?,
    quoted_flatMap_writtenChar, Option.map_some]
  exact congrArg (fun t => some (t, rest)) String.ofList_toList

/-- Only a mark that no lexeme has stands first, or nothing at all. -/
def Delimited (rest : List Char) : Prop :=
  ∀ c ∈ rest.head?, c ∈ [',', ':', '(', ')', ']']

theorem delimited_cons {c : Char} (h : c ∈ [',', ':', '(', ')', ']']) (cs : List Char) :
    Delimited (c :: cs) := by
  intro d hd
  cases hd
  exact h

theorem delimiter_cases {c : Char} (h : c ∈ [',', ':', '(', ')', ']']) :
    isRawNameChar c = false ∧ isBlank c = false ∧ c ∉ ['/', '#', '"'] := by
  simp only [List.mem_cons, List.not_mem_nil, or_false] at h
  rcases h with rfl | rfl | rfl | rfl | rfl <;> exact ⟨rfl, rfl, by simp⟩

theorem skip_cons {c : Char} (hblank : isBlank c = false) (hslash : c ≠ '/') (cs : List Char) :
    skip (c :: cs) = some (c :: cs) := by
  rw [skip, skipFrom]
  · rw [hblank, if_neg Bool.false_ne_true]
  · exact fun _ hc => absurd hc hslash
  · exact fun _ hc => absurd hc hslash
  · exact hslash

theorem skip_of_delimited (h : Delimited rest) : skip rest = some rest := by
  cases rest with
  | nil => rfl
  | cons c cs =>
      obtain ⟨-, hblank, hc⟩ := delimiter_cases (h c rfl)
      exact skip_cons hblank (fun hslash => hc (hslash ▸ List.mem_cons_self)) cs

/-- An identifier that is written as it is. -/
def isWord (s : String) : Bool :=
  s.toList.head?.any isNameStart && s.toList.all isNameChar

theorem isNameChar_eq_false {c : Char} (h : isRawNameChar c = false) : isNameChar c = false := by
  simp only [isRawNameChar, Bool.or_eq_false_iff] at h
  exact h.1.1.1

theorem name?_toList {s : String} (h : isWord s = true) (hrest : Delimited rest) :
    name? (s.toList ++ rest) = some (⟨s, false⟩, rest) := by
  obtain ⟨hstart, hall⟩ := Bool.and_eq_true_iff.mp h
  rw [List.all_eq_true] at hall
  cases hs : s.toList with
  | nil => rw [hs] at hstart; cases hstart
  | cons c cs =>
      rw [hs] at hstart hall
      have hcs : ∀ d ∈ cs, isNameChar d = true := fun d hd => hall d (List.mem_cons_of_mem _ hd)
      -- What follows an `r` starts neither a raw identifier nor a raw text.
      have hnext : ∀ d ds, cs ++ rest = d :: ds → d ∉ ['#', '"'] := by
        intro d ds heq
        rcases List.append_eq_cons_iff.mp heq with ⟨rfl, rfl⟩ | ⟨cs', rfl, -⟩
        · exact fun hd => (delimiter_cases (hrest d rfl)).2.2 (List.mem_cons_of_mem _ hd)
        · have hd := hcs d List.mem_cons_self
          simp only [List.mem_cons, List.not_mem_nil, or_false]
          rintro (rfl | rfl) <;> cases hd
      obtain ⟨htake, hdrop⟩ := takeWhile_dropWhile_append hcs rest fun d hd =>
        isNameChar_eq_false (delimiter_cases (hrest d hd)).1
      have hhead : ¬ (rest.head?.map isRawNameChar).getD false = true := by
        cases rest with
        | nil => exact Bool.false_ne_true
        | cons d ds =>
            rw [List.head?_cons, Option.map_some, Option.getD_some,
              (delimiter_cases (hrest d rfl)).1]
            exact Bool.false_ne_true
      have hstart' : isNameStart c = true := hstart
      rw [List.cons_append, name?]
      · rw [if_pos hstart']
        simp only [htake, hdrop, hhead]
        rw [← hs, String.ofList_toList]
        rfl
      · exact fun cs' _ heq => hnext _ _ heq (by simp)
      · exact fun cs' _ heq => hnext _ _ heq (by simp)

theorem name?_eq_none {c : Char} (h : isNameStart c = false) (cs : List Char) :
    name? (c :: cs) = none := by
  rw [name?]
  · rw [h, if_neg Bool.false_ne_true]
  all_goals
    rintro cs' rfl
    cases h

/-- The characters are those of numbers, and the first is one that a number starts with. -/
structure IsLexeme (s : String) : Prop where
  start : s.toList.head?.any isNumberStart = true
  isRawNameChar : ∀ c ∈ s.toList, isRawNameChar c = true

theorem number?_toList {s : String} (h : IsLexeme s) (hrest : Delimited rest) :
    number? (s.toList ++ rest) = some (s, rest) := by
  obtain ⟨htake, hdrop⟩ := takeWhile_dropWhile_append h.isRawNameChar rest fun d hd =>
    (delimiter_cases (hrest d hd)).1
  have hne : ¬ s.toList.isEmpty = true := by
    intro hnil
    have hstart := h.start
    rw [List.isEmpty_iff.mp hnil] at hstart
    cases hstart
  rw [number?]
  simp only [htake, hdrop, hne, String.ofList_toList]
  rfl

/-- What starts a number starts no identifier. -/
theorem isNameStart_of_isNumberStart {c : Char} (h : isNumberStart c = true) :
    isNameStart c = false := by
  simp only [isNumberStart, Bool.or_eq_true, beq_iff_eq] at h
  rcases h with ((h | rfl) | rfl) | rfl
  · have hhigh : c.val ≤ '9'.val := by
      simp only [Char.isDigit, Bool.and_eq_true, decide_eq_true_eq] at h
      exact h.2
    have habove : ∀ d : Char, '9'.val < d.val → ¬ c.val ≥ d.val :=
      fun d hd hle => UInt32.not_lt.mpr (UInt32.le_trans hle hhigh) hd
    have hupper : c.isUpper = false := decide_eq_false fun hc => habove 'A' (by decide) hc.1
    have hlower : c.isLower = false := by
      rw [Char.isLower, decide_eq_false (habove 'a' (by decide)), Bool.false_and]
    have hmark : c ≠ '_' := by
      rintro rfl
      cases h
    rw [isNameStart, Char.isAlpha, hupper, hlower, Bool.false_or, beq_eq_false_iff_ne.mpr hmark]
    rfl
  all_goals rfl

theorem isRawNameChar_of_isDigit {c : Char} (h : c.isDigit = true) : isRawNameChar c = true := by
  simp [isRawNameChar, isNameChar, Char.isAlphanum, h]

variable {w : Weight}

theorem toList_weightLexeme (h : w.isFinite = true) :
    (weightLexeme w).toList = Decimal.withPoint (Decimal.text w).toList := by
  rw [weightLexeme, Decimal.withPoint]
  by_cases hpoint : (text w).toList.contains '.' = true
  · rw [if_pos hpoint, if_neg fun hboth => hboth.2 hpoint]
  · rw [if_neg hpoint, if_pos ⟨h, hpoint⟩, String.toList_append]
    rfl

theorem isLexeme_weightLexeme (h : w.isFinite = true) : IsLexeme (weightLexeme w) := by
  obtain ⟨whole, places, hform, hspells⟩ := spells_text h
  obtain ⟨c, cs, rfl⟩ := List.exists_cons_of_ne_nil hspells.whole_ne_nil
  rw [← toList_weightLexeme h, signText] at hform
  have hall : ∀ d ∈ c :: cs ++ '.' :: places, isRawNameChar d = true := by
    intro d hd
    rcases List.mem_append.mp hd with hd | hd
    · exact isRawNameChar_of_isDigit (hspells.isDigit d (List.mem_append_left _ hd))
    · rcases List.mem_cons.mp hd with rfl | hd
      · rfl
      · exact isRawNameChar_of_isDigit (hspells.isDigit d (List.mem_append_right _ hd))
  constructor <;> rw [hform]
  · split
    · rfl
    · have hc := hspells.isDigit c (by simp)
      simp [isNumberStart, hc]
  · intro d hd
    rcases List.mem_append.mp hd with hd | hd
    · split at hd
      · rw [List.mem_singleton.mp hd]; rfl
      · cases hd
    · exact hall d hd

/-- The written form of a finite weight is read as the weight. -/
theorem weight?_weightLexeme (h : w.isFinite = true) : weight? (weightLexeme w) = some w := by
  have hpoint : '.' ∈ (weightLexeme w).toList := by
    obtain ⟨whole, places, hform, -⟩ := spells_text h
    rw [toList_weightLexeme h, hform]
    simp
  have hne : ∀ s : String, '.' ∉ s.toList → weightLexeme w ≠ s :=
    fun s hs heq => hs (heq ▸ hpoint)
  have hread : Decimal.read? (weightLexeme w).toList = some w := by
    rw [toList_weightLexeme h, read?_withPoint_text h]
  rw [weight?, hread]
  simp [hne]

theorem isLexeme_repr (n : Nat) : IsLexeme (Nat.repr n) := by
  obtain ⟨c, cs, hcs⟩ := List.exists_cons_of_ne_nil (Nat.toDigits_ne_nil (n := n) (b := 10))
  have hc := isDigit_of_mem_toDigits n c (hcs ▸ List.mem_cons_self)
  constructor <;> rw [Nat.toList_repr]
  · simp [hcs, isNumberStart, hc]
  · exact fun d hd => isRawNameChar_of_isDigit (isDigit_of_mem_toDigits n d hd)

theorem natural?_of_isDigit (hne : ds ≠ []) (h : ∀ c ∈ ds, c.isDigit = true) :
    natural? ds = digits? 10 ds := by
  have hbase : ∀ c, c.isDigit = false → ∀ cs, ds ≠ '0' :: c :: cs := by
    rintro c hc cs rfl
    rw [h c (by simp)] at hc
    cases hc
  have hmark : ∀ cs, ds ≠ '_' :: cs := by
    rintro cs rfl
    cases h '_' List.mem_cons_self
  rw [natural?]
  · exact hbase 'x' rfl
  · exact hbase 'b' rfl
  · exact hbase 'o' rfl
  · exact hne
  · exact hmark

/-- The written form of a count is read as the count. -/
theorem unsigned?_repr (n : UInt64) : unsigned? (Nat.repr n.toNat) = some n := by
  rw [unsigned?, Nat.toList_repr,
    natural?_of_isDigit Nat.toDigits_ne_nil (isDigit_of_mem_toDigits n.toNat), digits?_toDigits,
    Option.bind_some, if_pos n.toNat_lt_size]
  exact congrArg some UInt64.ofNat_toNat

end Neologism.Document
