import Neologism.Proofs.Doubles.Counting
import Neologism.Proofs.OrderedMap

/-! # Tallies

A map whose values are doubles tallies a number for each key. As long as the numbers are small
enough to be counted, the order in which the values were added up cannot be seen in them.

Main statements: `Tallies.foldl_add` for a map that values are added to, and
`Tallies.get?_eq_of_tallies` for two maps that tally the same numbers. -/

namespace Neologism.Doubles

variable {κ β : Type} [DecidableEq κ]

/-- The value of each key counts its number, and the number of a key that is absent is zero. -/
structure Tallies (m : OrderedMap κ Weight) (n : κ → Nat) : Prop where
  absent {k : κ} : m.get? k = none → n k = 0
  present {k : κ} {w : Weight} : m.get? k = some w → Counts w (n k)

/-- What a list adds up to for a key. -/
def received (key : β → κ) (num : β → Nat) (bs : List β) (k : κ) : Nat :=
  ((bs.filter (key · = k)).map num).sum

section Received

variable {key : β → κ} {num num' : β → Nat} {bs bs' : List β} {k : κ}

theorem received_cons (b : β) :
    received key num (b :: bs) k = (if key b = k then num b else 0) + received key num bs k := by
  by_cases h : key b = k <;> simp [received, h]

theorem received_append :
    received key num (bs ++ bs') k = received key num bs k + received key num bs' k := by
  simp [received]

/-- The order does not matter. -/
theorem received_perm (h : bs.Perm bs') : received key num bs k = received key num bs' k :=
  ((h.filter _).map _).sum_eq

theorem received_mono (h : ∀ b ∈ bs, num b ≤ num' b) :
    received key num bs k ≤ received key num' bs k :=
  List.sum_le_sum fun b hb => h b (List.mem_of_mem_filter hb)

end Received

theorem counts_zero : Counts 0.0 0 :=
  ⟨fun _ => by decide +kernel, fun h => absurd h (by norm_num)⟩

/-- Values that are added one after the other count the sum of their numbers. -/
theorem counts_foldl_add {weight : β → Weight} {num : β → Nat} {bs : List β}
    (h : ∀ b ∈ bs, Counts (weight b) (num b)) {x : Weight} {n : Nat} (hx : Counts x n) :
    Counts (bs.foldl (fun sum b => sum + weight b) x) (n + (bs.map num).sum) := by
  induction bs generalizing x n with
  | nil => exact hx
  | cons b bs ih =>
      rw [List.foldl_cons, List.map_cons, List.sum_cons, ← Nat.add_assoc]
      exact ih (fun c hc => h c (List.mem_cons_of_mem b hc)) (hx.add (h b List.mem_cons_self))

namespace Tallies

variable {m m' : OrderedMap κ Weight} {n : κ → Nat}

theorem empty : Tallies (.empty : OrderedMap κ Weight) fun _ => 0 where
  absent _ := rfl
  present h := by simp at h

theorem add (h : Tallies m n) {k : κ} {w : Weight} {a : Nat} (hw : Counts w a) :
    Tallies (m.add k w) fun j => n j + if k = j then a else 0 := by
  constructor
  case absent =>
    intro j hj
    rw [OrderedMap.get?_add] at hj
    split at hj
    · cases hj
    · next hne => rw [h.absent hj, if_neg (Ne.symm hne)]
  case present =>
    intro j v hj
    rw [OrderedMap.get?_add] at hj
    split at hj
    · next heq =>
        subst heq
        rw [if_pos rfl]
        obtain rfl := Option.some.inj hj
        cases hold : m.get? j with
        | none => simpa [h.absent hold] using hw
        | some b => exact (h.present hold).add hw
    · next hne =>
        rw [if_neg (Ne.symm hne)]
        exact h.present hj

/-- Values that are added to a map add their numbers to those of their keys. -/
theorem foldl_add (h : Tallies m n) {key : β → κ} {weight : β → Weight} {num : β → Nat}
    {bs : List β} (hbs : ∀ b ∈ bs, Counts (weight b) (num b)) :
    Tallies (bs.foldl (fun m b => m.add (key b) (weight b)) m)
      fun k => n k + received key num bs k := by
  induction bs generalizing m n with
  | nil => exact h
  | cons b bs ih =>
      have hlater := ih (h.add (k := key b) (hbs b List.mem_cons_self))
        fun c hc => hbs c (List.mem_cons_of_mem b hc)
      simpa only [List.foldl_cons, received_cons, Nat.add_assoc] using hlater

/-- A map that is made by adding values to no other. -/
theorem foldl_add_empty {key : β → κ} {weight : β → Weight} {num : β → Nat} {bs : List β}
    (hbs : ∀ b ∈ bs, Counts (weight b) (num b)) :
    Tallies (bs.foldl (fun m b => m.add (key b) (weight b)) .empty) (received key num bs) := by
  simpa only [Nat.zero_add] using empty.foldl_add hbs

theorem counts_getD (h : Tallies m n) (k : κ) : Counts ((m.get? k).getD 0.0) (n k) := by
  cases hk : m.get? k with
  | none => exact h.absent hk ▸ counts_zero
  | some w => exact h.present hk

/-- Small numbers are the only ones that a map tallies. -/
theorem unique {n' : κ → Nat} (h : Tallies m n) (hsmall : ∀ k, n k < 2 ^ 53) (h' : Tallies m n')
    (k : κ) : n' k = n k := by
  cases hk : m.get? k with
  | none => rw [h.absent hk, h'.absent hk]
  | some w => exact (h.present hk).unique (hsmall k) (h'.present hk)

/-- A map of natural doubles tallies what it holds. -/
theorem exists_of_natural (hm : ∀ e ∈ m.entries, Natural e.2) :
    ∃ n, Tallies m n ∧ ∀ k, n k < 2 ^ 53 := by
  refine ⟨fun k => ((m.get? k).map count).getD 0, ⟨fun hk => by rw [hk]; rfl, fun {k w} hk => ?_⟩,
    fun k => ?_⟩
  · rw [hk]
    exact (hm (k, w) ((m.get?_eq_some_iff k w).mp hk)).counts
  · cases hk : m.get? k with
    | none => simp [hk]
    | some w => simpa [hk] using (hm (k, w) ((m.get?_eq_some_iff k w).mp hk)).1

/-- A map with the same values tallies the same numbers. -/
theorem congr (h : Tallies m n) (hget : ∀ k, m'.get? k = m.get? k) : Tallies m' n where
  absent hk := h.absent (hget _ ▸ hk)
  present hk := h.present (hget _ ▸ hk)

/-- Maps of the same keys that tally the same small numbers hold the same values. -/
theorem get?_eq (h : Tallies m n) (h' : Tallies m' n) (hsmall : ∀ k, n k < 2 ^ 53)
    (hkeys : ∀ k, k ∈ m'.keys ↔ k ∈ m.keys) (k : κ) : m'.get? k = m.get? k := by
  cases hk : m.get? k with
  | none => rwa [OrderedMap.get?_eq_none_iff, hkeys, ← OrderedMap.get?_eq_none_iff]
  | some w =>
      have hmem : k ∈ m'.keys := (hkeys k).mpr ((m.get?_isSome_iff k).mp (by simp [hk]))
      obtain ⟨w', hk'⟩ := Option.isSome_iff_exists.mp ((m'.get?_isSome_iff k).mpr hmem)
      rw [hk', (h.present hk).small (hsmall k), (h'.present hk').small (hsmall k)]

end Tallies

/-- The second map tallies small numbers, and the first one tallies no larger ones. -/
def Under (m' m : OrderedMap κ Weight) : Prop :=
  ∃ n' n, Tallies m' n' ∧ Tallies m n ∧ (∀ k, n' k ≤ n k) ∧ ∀ k, n k < 2 ^ 53

namespace Under

variable {m m' : OrderedMap κ Weight}

/-- What is under small numbers is natural. -/
theorem natural (h : Under m' m) : ∀ e ∈ m'.entries, Natural e.2 := by
  intro e he
  obtain ⟨n', n, hn', -, hle, hsmall⟩ := h
  have hlt : n' e.1 < 2 ^ 53 := (hle e.1).trans_lt (hsmall e.1)
  rw [(hn'.present ((m'.get?_eq_some_iff e.1 e.2).mpr he)).small hlt]
  exact natural_ofNat hlt

theorem count_le (h : Under m' m) {k : κ} {w w' : Weight} (hw' : m'.get? k = some w')
    (hw : m.get? k = some w) : count w' ≤ count w := by
  obtain ⟨n', n, hn', hn, hle, hsmall⟩ := h
  have hlt := hsmall k
  rw [(hn.present hw).small hlt, (hn'.present hw').small ((hle k).trans_lt hlt),
    count_ofNat hlt, count_ofNat ((hle k).trans_lt hlt)]
  exact hle k

/-- Maps that are under each other hold the same values. -/
theorem antisymm (h : Under m' m) (h' : Under m m') (hkeys : ∀ k, k ∈ m'.keys ↔ k ∈ m.keys)
    (k : κ) : m'.get? k = m.get? k := by
  obtain ⟨n', n, hn', hn, hle, hsmall⟩ := h
  obtain ⟨l, l', hl, hl', hle', hsmall'⟩ := h'
  obtain rfl : n' = n := by
    funext j
    refine Nat.le_antisymm (hle j) ?_
    rw [← hn.unique hsmall hl j, hl'.unique hsmall' hn' j]
    exact hle' j
  exact hn.get?_eq hn' hsmall hkeys k

end Under

end Neologism.Doubles
