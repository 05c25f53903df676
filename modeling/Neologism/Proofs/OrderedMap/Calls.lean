import Neologism.Proofs.OrderedMap

/-! # Calls on a map

Values are added to a map, put under keys that it lacks, and sifted, in any order. A sieve is shown
the entries one after the other; what it does with one may depend on those that it saw before, and
it may change a value before it drops the entry.

Main statements: `entries_perform` says what a call makes of the entries, and `keys_after_ordered`
that keys stand in the order in which they were put in, since they were last taken out. -/

namespace Neologism.OrderedMap

variable {κ α : Type}

/-- What is done with an entry, given those that were shown before it: whether it stays, and the
value that it is left with. -/
abbrev Sieve (κ α : Type) := List (κ × α) → κ → α → Bool × α

/-- The entries that stay when they are shown to a sieve that has seen others before. -/
def sift (sieve : Sieve κ α) : (seen entries : List (κ × α)) → List (κ × α)
  | _, [] => []
  | seen, (k, a) :: rest =>
      let (stays, b) := sieve seen k a
      let later := sift sieve (seen ++ [(k, a)]) rest
      if stays then (k, b) :: later else later

theorem keys_sift_sublist (sieve : Sieve κ α) (seen entries : List (κ × α)) :
    ((sift sieve seen entries).map Prod.fst).Sublist (entries.map Prod.fst) := by
  induction entries generalizing seen with
  | nil => exact .slnil
  | cons e rest ih =>
      obtain ⟨k, a⟩ := e
      simp only [sift]
      split
      · exact (ih _).cons_cons k
      · exact (ih _).cons k

/-- Sifting treats each entry by those that stand before it. -/
theorem sift_eq (sieve : Sieve κ α) (seen entries : List (κ × α)) :
    sift sieve seen entries = entries.zipIdx.filterMap fun e =>
      let (stays, b) := sieve (seen ++ entries.take e.2) e.1.1 e.1.2
      if stays then some (e.1.1, b) else none := by
  induction entries generalizing seen with
  | nil => rfl
  | cons e rest ih =>
      obtain ⟨k, a⟩ := e
      rw [sift, ih, List.zipIdx_cons, List.zipIdx_succ, List.filterMap_cons, List.filterMap_map]
      simp only [List.take_zero, List.append_nil, Function.comp_def, List.take_succ_cons,
        List.append_assoc, List.singleton_append]
      cases (sieve seen k a).1 <;> rfl

/-- Show the entries to a sieve and drop those that do not stay. -/
def retain (sieve : Sieve κ α) (m : OrderedMap κ α) : OrderedMap κ α where
  entries := sift sieve [] m.entries
  nodup_keys := (keys_sift_sublist sieve [] m.entries).nodup m.nodup_keys

/-- A sieve that does not look back filters the entries one by one. -/
theorem retain_eq_filterMap (f : κ → α → Option α) (m : OrderedMap κ α) :
    m.retain (fun _ k a => ((f k a).isSome, (f k a).getD a)) = m.filterMap f := by
  apply ext
  change sift _ [] m.entries = m.entries.filterMap _
  generalize ([] : List (κ × α)) = seen
  induction m.entries generalizing seen with
  | nil => rfl
  | cons e rest ih => cases h : f e.1 e.2 <;> simp [sift, h, ih]

/-- A call that may change a map. -/
inductive Call (κ α : Type) where
  /-- Add to the value under a key. -/
  | add (k : κ) (a : α)
  /-- Put a value under a key that is absent. -/
  | insertAbsent (k : κ) (a : α)
  /-- Show the entries to a sieve. -/
  | retain (sieve : Sieve κ α)

variable [DecidableEq κ] [Add α]

/-- The map after a call. -/
def perform (m : OrderedMap κ α) : Call κ α → OrderedMap κ α
  | .add k a => m.add k a
  | .insertAbsent k a => m.insertAbsent k a
  | .retain sieve => m.retain sieve

/-- The map after calls in order on the empty one. -/
def after (calls : List (Call κ α)) : OrderedMap κ α :=
  calls.foldl perform empty

/-- What a call makes of a list of entries. Adding sums into the entry of the key in its place, an
entry that is there is not put in, and sifting keeps the order of what stays. -/
def Call.onEntries : Call κ α → List (κ × α) → List (κ × α)
  | .add k a, entries =>
      if k ∈ entries.map Prod.fst then
        entries.map fun e => if e.1 = k then (k, e.2 + a) else e
      else entries ++ [(k, a)]
  | .insertAbsent k a, entries =>
      if k ∈ entries.map Prod.fst then entries else entries ++ [(k, a)]
  | .retain sieve, entries =>
      entries.zipIdx.filterMap fun e =>
        let (stays, b) := sieve (entries.take e.2) e.1.1 e.1.2
        if stays then some (e.1.1, b) else none

theorem entries_perform (m : OrderedMap κ α) (call : Call κ α) :
    (m.perform call).entries = call.onEntries m.entries := by
  cases call with
  | add k a => exact m.entries_upsert k _
  | insertAbsent k a =>
      by_cases hk : k ∈ m.keys
      · rw [perform, m.insertAbsent_of_mem hk]
        exact (if_pos hk).symm
      · rw [perform, insertAbsent, m.entries_upsert, if_neg hk]
        exact (if_neg hk).symm
  | retain sieve => exact sift_eq sieve [] m.entries

theorem after_concat (calls : List (Call κ α)) (call : Call κ α) :
    after (calls ++ [call]) = (after calls).perform call :=
  List.foldl_concat ..

/-- A call leaves the keys in their order, without some of them or with one more behind them. -/
theorem keys_perform (m : OrderedMap κ α) (call : Call κ α) :
    (m.perform call).keys.Sublist m.keys ∨
      ∃ k, k ∉ m.keys ∧ (m.perform call).keys = m.keys ++ [k] := by
  cases call with
  | add k a | insertAbsent k a =>
      by_cases hk : k ∈ m.keys
      · exact .inl (by simp [perform, add, insertAbsent, keys_upsert, hk])
      · exact .inr ⟨k, hk, by simp [perform, add, insertAbsent, keys_upsert, hk]⟩
  | retain sieve => exact .inl (keys_sift_sublist sieve [] m.entries)

/-- The call at an index put the key in, and no later one has taken it out. -/
structure InsertedAt (calls : List (Call κ α)) (n : Nat) (k : κ) : Prop where
  lt : n < calls.length
  absent : k ∉ (after (calls.take n)).keys
  present : ∀ later, n < later → later ≤ calls.length → k ∈ (after (calls.take later)).keys

namespace InsertedAt

variable {calls : List (Call κ α)} {call : Call κ α} {n : Nat} {k : κ}

theorem last (hbefore : k ∉ (after calls).keys) (hafter : k ∈ (after (calls ++ [call])).keys) :
    InsertedAt (calls ++ [call]) calls.length k where
  lt := by simp
  absent := by rwa [List.take_left]
  present later hlt hle := by
    have hall : (calls ++ [call]).length ≤ later := by
      rw [List.length_append, List.length_singleton]
      exact hlt
    rwa [List.take_of_length_le hall]

/-- A key that is still there was put in by the same call. -/
theorem concat (h : InsertedAt calls n k) (hafter : k ∈ (after (calls ++ [call])).keys) :
    InsertedAt (calls ++ [call]) n k where
  lt := by
    rw [List.length_append]
    exact Nat.lt_add_right _ h.lt
  absent := by
    rw [List.take_append_of_le_length (Nat.le_of_lt h.lt)]
    exact h.absent
  present later hlt hle := by
    by_cases hlater : later ≤ calls.length
    · rw [List.take_append_of_le_length hlater]
      exact h.present later hlt hlater
    · have hall : (calls ++ [call]).length ≤ later := by
        rw [List.length_append, List.length_singleton]
        omega
      rwa [List.take_of_length_le hall]

/-- A key that was there was put in before the last call. -/
theorem of_concat (h : InsertedAt (calls ++ [call]) n k) (hbefore : k ∈ (after calls).keys) :
    InsertedAt calls n k := by
  have hlt : n < calls.length := by
    have hle : n ≤ calls.length := Nat.le_of_lt_succ (by simpa using h.lt)
    refine Nat.lt_of_le_of_ne hle fun heq => h.absent ?_
    rwa [heq, List.take_left]
  refine ⟨hlt, ?_, fun later hlater hle => ?_⟩
  · have habsent := h.absent
    rwa [List.take_append_of_le_length (Nat.le_of_lt hlt)] at habsent
  · have hpresent := h.present later hlater (Nat.le_trans hle (by simp))
    rwa [List.take_append_of_le_length hle] at hpresent

end InsertedAt

/-- Keys stand in the order of the calls that put them in, since they were last taken out. The
induction is on the calls: a call drops some keys, or puts one behind all others. -/
theorem keys_after_ordered (calls : List (Call κ α)) :
    (∀ k ∈ (after calls).keys, ∃ n, InsertedAt calls n k) ∧
      (after calls).keys.Pairwise fun k j =>
        ∀ n m, InsertedAt calls n k → InsertedAt calls m j → n < m := by
  induction calls using List.reverseRecOn with
  | nil => simp [after]
  | append_singleton calls call ih =>
      obtain ⟨hinserted, hordered⟩ := ih
      have hkeys := keys_perform (after calls) call
      rw [← after_concat] at hkeys
      constructor
      · intro k hk
        by_cases hbefore : k ∈ (after calls).keys
        · obtain ⟨n, hn⟩ := hinserted k hbefore
          exact ⟨n, hn.concat hk⟩
        · exact ⟨_, .last hbefore hk⟩
      · have hold : (after calls).keys.Pairwise fun k j => ∀ n m,
            InsertedAt (calls ++ [call]) n k → InsertedAt (calls ++ [call]) m j → n < m := by
          refine hordered.imp_of_mem fun hk hj h n m hn hm => ?_
          exact h n m (hn.of_concat hk) (hm.of_concat hj)
        rcases hkeys with hsublist | ⟨k, hk, hconcat⟩
        · exact hold.sublist hsublist
        · rw [hconcat, List.pairwise_append]
          refine ⟨hold, List.pairwise_singleton _ _, ?_⟩
          intro j hj i hi n m hn hm
          obtain rfl := List.mem_singleton.mp hi
          have hlast : m = calls.length := by
            have hle : m ≤ calls.length := Nat.le_of_lt_succ (by simpa using hm.lt)
            refine Nat.le_antisymm hle (Nat.le_of_not_lt fun hlt => hk ?_)
            have hpresent := hm.present calls.length hlt (by simp)
            rwa [List.take_left] at hpresent
          exact hlast ▸ (hn.of_concat hj).lt

/-- A key that was dropped and is put in again comes last. -/
example :
    (after (κ := String) [.add "a" 1, .add "b" 2, .retain fun _ k w => (k != "a", 2 * w),
      .insertAbsent "b" 7, .add "a" 5]).entries = [("b", 4), ("a", 5)] := by
  decide

end Neologism.OrderedMap
