import Neologism.Proofs.Chart.Contributions
import Neologism.Proofs.Doubles.Tallies

/-! # Weights that are passed on in time

An item that grows heavier after its weight was made use of does not make up for the difference. If
this does not happen in a column, the weights that it is closed with balance: each item has what it
had in the opening column and what all contributions bring, given the weights at the end. Among the
weights that balance they are the least, so they do not depend on the order of the contributions.

Main statements: `tallies_of_inTime` (the weights balance), `exists_tallies_le` (no order makes more
than weights that balance) and `exists_tallies_le_of_inTime`, which puts the two together. -/

namespace Neologism.Chart

open Doubles

/-- In each round the sources have the weights that they have in the end. -/
def InTime (here : Nat) (final : Column) : Column → List (List Contribution) → Prop
  | _, [] => True
  | column, contributions :: later =>
      (∀ c ∈ contributions, weightIn column c.source = weightIn final c.source) ∧
        InTime here final (perform here column contributions) later

instance decidableInTime (here : Nat) (final : Column) :
    (column : Column) → (rounds : List (List Contribution)) →
      Decidable (InTime here final column rounds)
  | _, [] => .isTrue trivial
  | column, contributions :: later =>
      have := decidableInTime here final (perform here column contributions) later
      inferInstanceAs (Decidable (_ ∧ _))

/-- Whether the column is closed without an item growing heavier after its weight was made use
of. -/
def Timely (g : Grammar) (earlier : List Column) (column : Column) : Prop :=
  InTime earlier.length (close g earlier column).column column (rounds g earlier column)

instance (g : Grammar) (earlier : List Column) (column : Column) :
    Decidable (Timely g earlier column) :=
  inferInstanceAs (Decidable (InTime _ _ _ _))

theorem counts_weightIn {column : Column} {number : Item → Nat} (h : Tallies column number)
    (item : Item) : Counts (weightIn column item) (number item) :=
  h.counts_getD item

namespace Contribution

/-- The number that is added when the number of the source is `n`. -/
def share (n : Nat) : Contribution → Nat
  | brought _ _ rule => n * count rule.weight
  | passed _ _ => n

/-- The contribution does not make use of a rule whose weight is no natural number. -/
def Natural : Contribution → Prop
  | brought _ _ rule => Doubles.Natural rule.weight
  | passed _ _ => True

theorem counts_amount {c : Contribution} (hc : c.Natural) {w : Weight} {n : Nat}
    (hw : Counts w n) (hn : n < 2 ^ 53) : Counts (c.amount w) (c.share n) := by
  cases c with
  | passed parent child => exact hw
  | brought item name rule =>
      obtain ⟨hrule, heq⟩ : Doubles.Natural rule.weight := hc
      rw [amount, share, hw.small hn, heq, count_ofNat hrule]
      exact counts_mul hn hrule

theorem share_mono (c : Contribution) {n n' : Nat} (h : n ≤ n') : c.share n ≤ c.share n' := by
  cases c with
  | passed parent child => exact h
  | brought item name rule => exact Nat.mul_le_mul_right _ h

end Contribution

/-- What an item receives from contributions when the items have the numbers. -/
def income (here : Nat) (number : Item → Nat) (contributions : List Contribution) (item : Item) :
    Nat :=
  received (·.target here) (fun c => c.share (number c.source)) contributions item

section Income

variable {here : Nat} {number number' : Item → Nat}
  {contributions contributions' : List Contribution}

theorem income_mono (h : ∀ item, number item ≤ number' item) (item : Item) :
    income here number contributions item ≤ income here number' contributions item :=
  received_mono fun c _ => c.share_mono (h c.source)

theorem income_append (item : Item) :
    income here number (contributions ++ contributions') item =
      income here number contributions item + income here number contributions' item :=
  received_append

theorem income_perm (h : contributions.Perm contributions') (item : Item) :
    income here number contributions item = income here number contributions' item :=
  received_perm h

/-- A round adds to the numbers of a column what the numbers of the sources make of it. -/
theorem tallies_perform (here : Nat) {column : Column} (h : Tallies column number)
    (hnatural : ∀ c ∈ contributions, c.Natural)
    (hsource : ∀ c ∈ contributions, Counts (weightIn column c.source) (number' c.source) ∧
      number' c.source < 2 ^ 53) :
    Tallies (perform here column contributions)
      fun item => number item + income here number' contributions item :=
  h.foldl_add fun c hc =>
    Contribution.counts_amount (hnatural c hc) (hsource c hc).1 (hsource c hc).2

end Income

section Rounds

variable {here : Nat} {column column' : Column} {number : Item → Nat}
  {rounds rounds' : List (List Contribution)}

/-- If numbers exceed those of the opening column by what they bring themselves, the closed column
does not exceed them, in whatever order the contributions are made. -/
theorem exists_tallies_le (hnatural : ∀ c ∈ rounds.flatten, c.Natural) (h : Tallies column number)
    {limit : Item → Nat} (hsmall : ∀ item, limit item < 2 ^ 53)
    (hlimit : ∀ item, number item + income here limit rounds.flatten item ≤ limit item) :
    ∃ last, Tallies (rounds.foldl (perform here) column) last ∧ ∀ item, last item ≤ limit item := by
  induction rounds generalizing column number with
  | nil => exact ⟨number, h, hlimit⟩
  | cons contributions later ih =>
      rw [List.flatten_cons] at hnatural
      simp only [List.flatten_cons, income_append] at hlimit
      have hle (item : Item) : number item ≤ limit item :=
        (Nat.le_add_right _ _).trans (hlimit item)
      have hround := tallies_perform here h
        (fun c hc => hnatural c (List.mem_append_left _ hc))
        fun c _ => ⟨counts_weightIn h c.source, (hle c.source).trans_lt (hsmall c.source)⟩
      refine ih (fun c hc => hnatural c (List.mem_append_right _ hc)) hround fun item => ?_
      have hincome : income here number contributions item ≤ income here limit contributions item :=
        income_mono hle item
      have := hlimit item
      omega

/-- If the weights are passed on in time, a closed column with small numbers holds what the opening
one holds and what its own numbers bring. -/
theorem tallies_of_inTime (hnatural : ∀ c ∈ rounds.flatten, c.Natural) (h : Tallies column number)
    {final : Column} {last : Item → Nat} (hfinal : Tallies final last)
    (hsmall : ∀ item, last item < 2 ^ 53) (htime : InTime here final column rounds) :
    Tallies (rounds.foldl (perform here) column)
      fun item => number item + income here last rounds.flatten item := by
  induction rounds generalizing column number with
  | nil => exact h
  | cons contributions later ih =>
      rw [List.flatten_cons] at hnatural
      have hround := tallies_perform here h
        (fun c hc => hnatural c (List.mem_append_left _ hc))
        fun c hc => ⟨htime.1 c hc ▸ counts_weightIn hfinal c.source, hsmall c.source⟩
      have hlater := ih (fun c hc => hnatural c (List.mem_append_right _ hc)) hround htime.2
      simpa only [List.foldl_cons, List.flatten_cons, income_append, Nat.add_assoc] using hlater

/-- No order of the contributions makes more of an opening column than one that is in time: what is
closed in time balances, and so it bounds whatever the same contributions make. -/
theorem exists_tallies_le_of_inTime (hnatural : ∀ c ∈ rounds.flatten, c.Natural)
    (hperm : rounds.flatten.Perm rounds'.flatten) {number' last : Item → Nat}
    (h : Tallies column number) (h' : Tallies column' number')
    (hle : ∀ item, number' item ≤ number item)
    (hlast : Tallies (rounds.foldl (perform here) column) last)
    (hsmall : ∀ item, last item < 2 ^ 53)
    (htime : InTime here (rounds.foldl (perform here) column) column rounds) :
    ∃ last', Tallies (rounds'.foldl (perform here) column') last' ∧
      ∀ item, last' item ≤ last item := by
  have hbalance : ∀ item, number item + income here last rounds.flatten item = last item :=
    hlast.unique hsmall (tallies_of_inTime hnatural h hlast hsmall htime)
  refine exists_tallies_le (fun c hc => hnatural c (hperm.mem_iff.mpr hc)) h' hsmall fun item => ?_
  calc number' item + income here last rounds'.flatten item
    _ ≤ number item + income here last rounds'.flatten item := Nat.add_le_add_right (hle item) _
    _ = number item + income here last rounds.flatten item := by rw [income_perm hperm]
    _ = last item := hbalance item

end Rounds

end Neologism.Chart
