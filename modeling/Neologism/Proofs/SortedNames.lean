import Mathlib.Data.List.Sort
import Mathlib.Data.String.Basic
import Neologism.SortedNames

/-! # Names in the order of their bytes

Names are sorted by their code points. That is the order of the bytes of their UTF-8 text: the lesser
of two code points has the lesser bytes, and the bytes of neither begin those of the other.

Main statements: `bytes_lt_iff` for the order, and `findSome?_sortedNames_eq_some_iff` for searches
through sorted names. -/

namespace Neologism

/-- The bytes of a name. -/
def bytes (name : String) : List UInt8 :=
  name.toUTF8.data.toList

theorem bytes_eq (name : String) : bytes name = name.toList.flatMap String.utf8EncodeChar := by
  rw [bytes, String.toUTF8_eq_toByteArray, ← String.utf8Encode_toList, List.utf8Encode,
    List.toList_data_toByteArray]

theorem ofNat_cons_lt_iff {m n : Nat} (hm : m < 256) (hn : n < 256) (xs ys : List UInt8) :
    UInt8.ofNat m :: xs < UInt8.ofNat n :: ys ↔ m < n ∨ m = n ∧ xs < ys := by
  rw [List.cons_lt_cons_iff, UInt8.lt_iff_toNat_lt, ← UInt8.toNat_inj,
    UInt8.toNat_ofNat_of_lt' hm, UInt8.toNat_ofNat_of_lt' hn]

/-- The lesser code point has the lesser bytes, whatever follows them. -/
theorem utf8EncodeChar_append_lt {c d : Char} (h : c < d) (xs ys : List UInt8) :
    String.utf8EncodeChar c ++ xs < String.utf8EncodeChar d ++ ys := by
  have hlt : c.val.toNat < d.val.toNat := h
  have hscalar : d.val.toNat < 0x110000 := by
    rcases d.valid with h | ⟨-, h⟩ <;> omega
  -- The bytes are digits to the base 64, so their divisors have to be seen as powers of it.
  have hdigits (n : Nat) : n / 4096 = n / 64 / 64 ∧ n / 262144 = n / 64 / 64 / 64 := by omega
  simp only [String.utf8EncodeChar, hdigits]
  -- Longer codes begin with greater bytes; codes of one length differ first where the digits do.
  split_ifs <;>
    simp (disch := omega) only [List.cons_append, List.nil_append, ofNat_cons_lt_iff] <;> omega

theorem flatMap_utf8EncodeChar_lt {cs ds : List Char} (h : cs < ds) :
    cs.flatMap String.utf8EncodeChar < ds.flatMap String.utf8EncodeChar := by
  induction cs generalizing ds with
  | nil =>
      cases ds with
      | nil => exact absurd h (List.lt_irrefl _)
      | cons d ds =>
          obtain ⟨b, bs, hbytes⟩ := List.exists_cons_of_ne_nil (String.utf8EncodeChar_ne_nil (c := d))
          rw [List.flatMap_cons, hbytes]
          exact List.nil_lt_cons ..
  | cons c cs ih =>
      cases ds with
      | nil => exact absurd h (List.not_lt_nil _)
      | cons d ds =>
          rw [List.flatMap_cons, List.flatMap_cons]
          rcases List.cons_lt_cons_iff.mp h with hchar | ⟨rfl, hrest⟩
          · exact utf8EncodeChar_append_lt hchar _ _
          · exact List.append_left_lt (ih hrest)

/-- The order of names is the order of their bytes. -/
theorem bytes_lt_iff (a b : String) : bytes a < bytes b ↔ a < b := by
  have hforward : ∀ {a b : String}, a < b → bytes a < bytes b := by
    intro a b h
    rw [bytes_eq, bytes_eq]
    exact flatMap_utf8EncodeChar_lt h
  refine ⟨fun h => ?_, hforward⟩
  by_contra hnot
  rcases lt_or_eq_of_le (String.not_lt.mp hnot) with hlt | rfl
  · exact List.lt_asymm h (hforward hlt)
  · exact List.lt_irrefl _ h

/-- A search through sorted names finds what it finds at the least name. -/
theorem findSome?_sortedNames_eq_some_iff {α : Type} {f : String → Option α} {names : List String}
    {a : α} :
    (sortedNames names).findSome? f = some a ↔
      ∃ name ∈ names, f name = some a ∧ ∀ other ∈ names, other < name → f other = none := by
  have hsorted := sortedNames_pairwise names
  simp only [← mem_sortedNames _ names]
  rw [List.findSome?_eq_some_iff]
  constructor
  · rintro ⟨before, name, after, hnames, hfound, hbefore⟩
    rw [hnames] at hsorted ⊢
    obtain ⟨-, hafter, -⟩ := List.pairwise_append.mp hsorted
    refine ⟨name, List.mem_append_right _ List.mem_cons_self, hfound, fun other hother hless => ?_⟩
    rcases List.mem_append.mp hother with hmem | hmem
    · exact hbefore other hmem
    · -- Names from the one that was found on are not less than it.
      rcases List.mem_cons.mp hmem with rfl | hmem
      · exact absurd hless (String.lt_irrefl other)
      · exact absurd (List.rel_of_pairwise_cons hafter hmem) (String.lt_asymm hless)
  · rintro ⟨name, hname, hfound, hless⟩
    obtain ⟨before, after, hnames⟩ := List.append_of_mem hname
    rw [hnames] at hsorted hless
    obtain ⟨-, -, hcross⟩ := List.pairwise_append.mp hsorted
    refine ⟨before, name, after, hnames, hfound, fun other hother => ?_⟩
    exact hless other (List.mem_append_left _ hother) (hcross other hother name List.mem_cons_self)

end Neologism
