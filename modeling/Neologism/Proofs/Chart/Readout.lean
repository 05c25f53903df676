import Neologism.Proofs.Chart.Reading
import Neologism.Proofs.Chart.Weights

/-! # What a chart reads off its column

The weights of the tokens that may come next, the column that a token is scanned into, and the sums
of the weights of some items are all made of the weights of the current column. If these count
numbers, so do the others.

Main statements: `tallies_scan`, `tallies_allowed` and `counts_weightWhere`. -/

namespace Neologism.Chart

open Doubles

theorem foldl_entries {σ : Type} (column : Column) (step : σ → Item × Weight → σ) (s : σ) :
    column.entries.foldl step s =
      column.keys.foldl (fun s item => step s (item, weightIn column item)) s := by
  rw [OrderedMap.keys, List.foldl_map]
  refine List.foldl_ext _ _ _ fun s e he => ?_
  rw [weightIn_of_mem he]

variable {ch : Chart} {number : Item → Nat}

/-- Each item that waits for a class with the token, behind the item that it is scanned into. -/
def scans (ch : Chart) (token : Token) (items : List Item) : List (Item × Item) :=
  items.filterMap fun item =>
    match ch.awaitedClass item with
    | some (name, c) => if c.contains token then some (.scanned name ch.position, item) else none
    | none => none

theorem scan_eq (ch : Chart) (token : Token) :
    ch.scan token = (ch.scans token ch.current.keys).foldl
      (fun column pair => column.add pair.1 (weightIn ch.current pair.2)) .empty := by
  rw [scan, foldl_entries, scans, List.foldl_filterMap]
  congr
  funext column item
  cases ch.awaitedClass item with
  | none => rfl
  | some found =>
      obtain ⟨name, c⟩ := found
      by_cases hc : c.contains token <;> simp [hc]

/-- The scanned items add up the numbers of those that waited. -/
theorem tallies_scan (h : Tallies ch.current number) (token : Token) :
    Tallies (ch.scan token)
      (received Prod.fst (fun pair => number pair.2) (ch.scans token ch.current.keys)) := by
  rw [scan_eq]
  exact Tallies.foldl_add_empty fun pair _ => counts_weightIn h pair.2

/-- The tokens that the items wait for, each with its weight in the class, and the item. -/
def offers (ch : Chart) (items : List Item) : List ((Token × Weight) × Item) :=
  items.flatMap fun item =>
    match ch.awaitedClass item with
    | some (_, c) => c.entries.map (·, item)
    | none => []

theorem allowed_eq (ch : Chart) :
    ch.allowed = (ch.offers ch.current.keys).foldl
      (fun table offer => table.add offer.1.1 (offer.1.2 * weightIn ch.current offer.2))
        .empty := by
  rw [allowed, foldl_entries, offers, List.foldl_flatMap]
  congr
  funext table item
  cases ch.awaitedClass item with
  | none => rfl
  | some found => simp only [List.foldl_map]

/-- A token adds up the numbers of the items that wait for it, each times its number in the
class. -/
theorem tallies_allowed (h : Tallies ch.current number) (hsmall : ∀ item, number item < 2 ^ 53)
    (hclasses : ∀ name c, ch.lexicon.get? name = some c → ∀ t ∈ c.entries, Natural t.2) :
    Tallies ch.allowed
      (received (·.1.1) (fun offer => count offer.1.2 * number offer.2)
        (ch.offers ch.current.keys)) := by
  rw [allowed_eq]
  have hoffers : ∀ offer ∈ ch.offers ch.current.keys,
      Counts (offer.1.2 * weightIn ch.current offer.2) (count offer.1.2 * number offer.2) := by
    intro offer hoffer
    obtain ⟨item, -, hmem⟩ := List.mem_flatMap.mp hoffer
    cases hclass : ch.awaitedClass item with
    | none => simp [hclass] at hmem
    | some found =>
        obtain ⟨name, c⟩ := found
        obtain ⟨t, ht, rfl⟩ : ∃ t ∈ c.entries, (t, item) = offer := by simpa [hclass] using hmem
        obtain ⟨hcount, heq⟩ :=
          hclasses name c ((ch.awaitedClass_eq_some_iff item name c).mp hclass).2 t ht
        have hweight : weightIn ch.current item = ofNat (number item) :=
          (counts_weightIn h item).small (hsmall item)
        rw [heq, hweight, count_ofNat hcount]
        exact counts_mul hcount (hsmall item)
  exact Tallies.foldl_add_empty hoffers

theorem weightWhere_eq (ch : Chart) (p : Item → Bool) :
    ch.weightWhere p =
      (ch.current.keys.filter p).foldl (fun sum item => sum + weightIn ch.current item) 0.0 := by
  rw [weightWhere, foldl_entries, List.foldl_filter]

theorem counts_weightWhere (h : Tallies ch.current number) (p : Item → Bool) :
    Counts (ch.weightWhere p) ((ch.current.keys.filter p).map number).sum := by
  rw [weightWhere_eq]
  simpa using counts_foldl_add (fun item _ => counts_weightIn h item) counts_zero

end Neologism.Chart
