import Neologism.Proofs.OrderedMap.Calls

/-! # Maps with an index

A map can be stored with an index of the positions of its keys, so that finding a key does not go
through the entries. Every call has to keep the index in step with the entries: what is found and
what is written goes by it, and sifting moves the entries that stay to other positions.

Main statements: `InStep.perform?` says that a call keeps the index in step, and `calls_in_step` what
is held and found after any calls, with an index or without one. -/

namespace Neologism

open OrderedMap (Call Sieve sift)

/-- A map stored as its entries and the positions of its keys. -/
structure IndexedMap (κ α : Type) [DecidableEq κ] [Hashable κ] where
  entries : Array (κ × α) := #[]
  index : Std.HashMap κ Nat := ∅

namespace IndexedMap

variable {κ α : Type} [DecidableEq κ] [Hashable κ]

/-- The value under a key, if the key is in the index. It is a fault, and the outer answer is
`none`, if the index leads behind the entries. -/
def lookup? (s : IndexedMap κ α) (k : κ) : Option (Option α) :=
  match s.index[k]? with
  | none => some none
  | some i => s.entries[i]?.map fun e => some e.2

/-- Whether the key is in the index. -/
def contains (s : IndexedMap κ α) (k : κ) : Bool :=
  s.index.contains k

/-- Put an entry behind the others. -/
def push (s : IndexedMap κ α) (k : κ) (a : α) : IndexedMap κ α where
  entries := s.entries.push (k, a)
  index := s.index.insert k s.entries.size

/-- Add to the value under a key where the index leads, or put in a key that the index lacks. -/
def add? [Add α] (s : IndexedMap κ α) (k : κ) (a : α) : Option (IndexedMap κ α) :=
  match s.index[k]? with
  | none => some (s.push k a)
  | some i =>
      if i < s.entries.size then
        some { s with entries := s.entries.modify i fun e => (e.1, e.2 + a) }
      else none

/-- Put in a key that the index lacks. -/
def insertAbsent (s : IndexedMap κ α) (k : κ) (a : α) : IndexedMap κ α :=
  if s.index.contains k then s else s.push k a

/-- The positions of the keys of some entries. -/
def indexOf (entries : List (κ × α)) : Std.HashMap κ Nat :=
  entries.zipIdx.foldl (fun index e => index.insert e.1.1 e.2) ∅

/-- Show the entries to a sieve, drop those that do not stay, and build the index anew. -/
def retain (s : IndexedMap κ α) (sieve : Sieve κ α) : IndexedMap κ α :=
  let kept := sift sieve [] s.entries.toList
  { entries := kept.toArray, index := indexOf kept }

/-- The map after a call, unless there is a fault. -/
def perform? [Add α] (s : IndexedMap κ α) : Call κ α → Option (IndexedMap κ α)
  | .add k a => s.add? k a
  | .insertAbsent k a => some (s.insertAbsent k a)
  | .retain sieve => some (s.retain sieve)

/-- The map after calls in order on the empty one, unless there is a fault. -/
def after? [Add α] (calls : List (Call κ α)) : Option (IndexedMap κ α) :=
  calls.foldlM perform? {}

/-- The index has the keys, each with its position. -/
def Indexes (index : Std.HashMap κ Nat) (keys : List κ) : Prop :=
  ∀ (k : κ) (i : Nat), index[k]? = some i ↔ keys[i]? = some k

variable {index : Std.HashMap κ Nat} {keys : List κ} {k : κ} {i : Nat}

theorem Indexes.getElem?_eq_none_iff (h : Indexes index keys) (k : κ) :
    index[k]? = none ↔ k ∉ keys := by
  rw [Option.eq_none_iff_forall_ne_some, List.mem_iff_getElem?, not_exists]
  exact forall_congr' fun i => not_congr (h k i)

theorem Indexes.contains_eq (h : Indexes index keys) (k : κ) :
    index.contains k = decide (k ∈ keys) := by
  rw [Std.HashMap.contains_eq_isSome_getElem?, Bool.eq_iff_iff, decide_eq_true_iff,
    Option.isSome_iff_ne_none, Ne, h.getElem?_eq_none_iff, not_not]

theorem indexes_empty : Indexes (∅ : Std.HashMap κ Nat) [] := by
  simp [Indexes]

/-- A new key has the position behind the others. -/
theorem Indexes.insert (h : Indexes index keys) (hk : k ∉ keys) :
    Indexes (index.insert k keys.length) (keys ++ [k]) := by
  intro j i
  rw [Std.HashMap.getElem?_insert, List.getElem?_append]
  by_cases hj : k = j
  · subst hj
    have hnone : keys[i]? ≠ some k := fun hi => hk (List.mem_of_getElem? hi)
    grind
  · have hsame := h j i
    grind

theorem indexes_indexOf {entries : List (κ × α)} (h : (entries.map Prod.fst).Nodup) :
    Indexes (indexOf entries) (entries.map Prod.fst) := by
  induction entries using List.reverseRecOn with
  | nil => exact indexes_empty
  | append_singleton entries e ih =>
      rw [List.map_append, List.map_singleton, List.nodup_append] at h
      obtain ⟨hnodup, -, hnew⟩ := h
      have hk : e.1 ∉ entries.map Prod.fst := fun hmem => hnew _ hmem _ (by simp) rfl
      have hinsert := (ih hnodup).insert hk
      simpa [indexOf, List.zipIdx_append] using hinsert

omit [Hashable κ] in
/-- The entry at the position of a key is the one of the key. -/
theorem modify_eq_map {entries : List (κ × α)} {f : Option α → α}
    (h : (entries.map Prod.fst).Nodup) (hi : (entries.map Prod.fst)[i]? = some k) :
    entries.modify i (fun e => (e.1, f (some e.2))) =
      entries.map fun e => if e.1 = k then (k, f (some e.2)) else e := by
  apply List.ext_getElem?
  intro j
  rw [List.getElem?_modify, List.getElem?_map]
  cases hj : entries[j]? with
  | none => rfl
  | some e =>
      have hkey : (entries.map Prod.fst)[j]? = some e.1 := by simp [hj]
      have hplace : i = j ↔ e.1 = k := by
        constructor
        · rintro rfl
          exact Option.some.inj (hkey.symm.trans hi)
        · intro heq
          have hlt : i < (entries.map Prod.fst).length := (List.getElem?_eq_some_iff.mp hi).1
          exact (List.getElem?_inj hlt h).mp (hi.trans (heq ▸ hkey.symm))
      by_cases heq : e.1 = k
      · simp [hplace.mpr heq, heq]
      · simp [mt hplace.mp heq, heq]

/-- The entries are those of the ordered map, and the index has their positions. -/
structure InStep (s : IndexedMap κ α) (m : OrderedMap κ α) : Prop where
  entries_eq : s.entries.toList = m.entries
  indexes : Indexes s.index m.keys

namespace InStep

variable {s : IndexedMap κ α} {m : OrderedMap κ α}

theorem empty : InStep ({} : IndexedMap κ α) .empty where
  entries_eq := rfl
  indexes := indexes_empty

theorem size_eq (h : InStep s m) : s.entries.size = m.keys.length := by
  rw [← Array.length_toList, h.entries_eq, OrderedMap.keys, List.length_map]

/-- Where the index leads, there is the entry of the key. -/
theorem getElem?_entries (h : InStep s m) (hi : s.index[k]? = some i) :
    ∃ a, s.entries[i]? = some (k, a) ∧ m.get? k = some a := by
  have hkey : m.keys[i]? = some k := (h.indexes k i).mp hi
  rw [OrderedMap.keys, List.getElem?_map, Option.map_eq_some_iff] at hkey
  obtain ⟨⟨j, a⟩, hentry, rfl⟩ := hkey
  refine ⟨a, ?_, (m.get?_eq_some_iff j a).mpr (List.mem_of_getElem? hentry)⟩
  rw [← Array.getElem?_toList, h.entries_eq, hentry]

theorem lookup?_eq (h : InStep s m) (k : κ) : s.lookup? k = some (m.get? k) := by
  cases hi : s.index[k]? with
  | none =>
      have hk : k ∉ m.keys := (h.indexes.getElem?_eq_none_iff k).mp hi
      simp only [lookup?, hi, (m.get?_eq_none_iff k).mpr hk]
  | some i =>
      obtain ⟨a, hentry, hget⟩ := h.getElem?_entries hi
      simp only [lookup?, hi, hentry, hget, Option.map_some]

theorem contains_eq (h : InStep s m) (k : κ) : s.contains k = m.contains k := by
  rw [Bool.eq_iff_iff, m.contains_iff, contains, h.indexes.contains_eq, decide_eq_true_iff]

/-- Where the index does not lead, the key is put behind the others. -/
theorem push (h : InStep s m) (hk : k ∉ m.keys) {f : Option α → α} {a : α} (hf : f none = a) :
    InStep (s.push k a) (m.upsert k f) where
  entries_eq := by
    rw [m.entries_upsert, if_neg hk, hf, ← h.entries_eq]
    exact Array.toList_push
  indexes := by
    rw [OrderedMap.keys_upsert, if_neg hk, IndexedMap.push, h.size_eq]
    exact h.indexes.insert hk

/-- Where the index leads, the value is written in its place. -/
theorem modify (h : InStep s m) (hi : s.index[k]? = some i) (f : Option α → α) :
    InStep { s with entries := s.entries.modify i fun e => (e.1, f (some e.2)) }
      (m.upsert k f) := by
  have hkey : m.keys[i]? = some k := (h.indexes k i).mp hi
  have hk : k ∈ m.keys := List.mem_of_getElem? hkey
  constructor
  case entries_eq =>
    rw [m.entries_upsert, if_pos hk, ← modify_eq_map m.nodup_keys hkey, ← h.entries_eq]
    exact Array.toList_modify
  case indexes =>
    rw [OrderedMap.keys_upsert, if_pos hk]
    exact h.indexes

theorem add? [Add α] (h : InStep s m) (k : κ) (a : α) :
    ∃ s', s.add? k a = some s' ∧ InStep s' (m.add k a) := by
  cases hi : s.index[k]? with
  | none =>
      have hk : k ∉ m.keys := (h.indexes.getElem?_eq_none_iff k).mp hi
      exact ⟨s.push k a, by simp only [IndexedMap.add?, hi], h.push hk rfl⟩
  | some i =>
      have hlt : i < s.entries.size := by
        obtain ⟨b, hentry, -⟩ := h.getElem?_entries hi
        exact (Array.getElem?_eq_some_iff.mp hentry).1
      exact ⟨_, by simp only [IndexedMap.add?, hi, if_pos hlt], h.modify hi _⟩

theorem insertAbsent (h : InStep s m) (k : κ) (a : α) :
    InStep (s.insertAbsent k a) (m.insertAbsent k a) := by
  by_cases hk : k ∈ m.keys
  · have hindex : s.index.contains k = true := by simpa [h.indexes.contains_eq] using hk
    rwa [IndexedMap.insertAbsent, if_pos hindex, m.insertAbsent_of_mem hk]
  · have hindex : ¬ s.index.contains k = true := by simpa [h.indexes.contains_eq] using hk
    rw [IndexedMap.insertAbsent, if_neg hindex]
    exact h.push hk rfl

theorem retain (h : InStep s m) (sieve : Sieve κ α) : InStep (s.retain sieve) (m.retain sieve) where
  entries_eq := by
    change sift sieve [] s.entries.toList = sift sieve [] m.entries
    rw [h.entries_eq]
  indexes := by
    have hindexes := indexes_indexOf (m.retain sieve).nodup_keys
    change Indexes (indexOf (sift sieve [] s.entries.toList)) _
    rw [h.entries_eq]
    exact hindexes

/-- A call that is made in step has no fault and leaves everything in step. -/
theorem perform? [Add α] (h : InStep s m) (call : Call κ α) :
    ∃ s', s.perform? call = some s' ∧ InStep s' (m.perform call) := by
  cases call with
  | add k a => exact h.add? k a
  | insertAbsent k a => exact ⟨_, rfl, h.insertAbsent k a⟩
  | retain sieve => exact ⟨_, rfl, h.retain sieve⟩

end InStep

/-- After any calls, the index is in step with the entries. -/
theorem inStep_after? [Add α] (calls : List (Call κ α)) :
    ∃ s, after? calls = some s ∧ InStep s (OrderedMap.after calls) := by
  induction calls using List.reverseRecOn with
  | nil => exact ⟨{}, rfl, .empty⟩
  | append_singleton calls call ih =>
      obtain ⟨s, hafter, hstep⟩ := ih
      obtain ⟨s', hcall, hstep'⟩ := hstep.perform? call
      rw [after?] at hafter
      refine ⟨s', ?_, OrderedMap.after_concat calls call ▸ hstep'⟩
      rw [after?, List.foldlM_append, hafter]
      simpa using hcall

/-- After any calls, a map with an index holds and finds what the ordered map does: no call leads to a
fault. No key occurs twice; what is found under a key is its entry, and the keys that are found are
those of the entries. Keys stand in the order of the calls that put them in, since they were last
taken out. One more call does to the entries of both what it is meant to. -/
theorem calls_in_step [Add α] (calls : List (Call κ α)) :
    let m : OrderedMap κ α := .after calls
    ∃ s : IndexedMap κ α, after? calls = some s ∧ s.entries.toList = m.entries ∧
      (∀ k, s.lookup? k = some (m.get? k) ∧ s.contains k = m.contains k) ∧
      m.keys.Nodup ∧
      (∀ k a, m.get? k = some a ↔ (k, a) ∈ m.entries) ∧
      (∀ k, m.contains k = true ↔ k ∈ m.keys) ∧
      (∀ k ∈ m.keys, ∃ n, OrderedMap.InsertedAt calls n k) ∧
      (m.keys.Pairwise fun k j => ∀ n n',
        OrderedMap.InsertedAt calls n k → OrderedMap.InsertedAt calls n' j → n < n') ∧
      ∀ call, (m.perform call).entries = call.onEntries m.entries ∧
        ∃ s', s.perform? call = some s' ∧ s'.entries.toList = (m.perform call).entries := by
  intro m
  obtain ⟨s, hafter, hstep⟩ := inStep_after? calls
  obtain ⟨hinserted, hordered⟩ := OrderedMap.keys_after_ordered calls
  refine ⟨s, hafter, hstep.entries_eq, fun k => ⟨hstep.lookup?_eq k, hstep.contains_eq k⟩,
    m.nodup_keys, m.get?_eq_some_iff, m.contains_iff, hinserted, hordered, fun call => ?_⟩
  obtain ⟨s', hcall, hstep'⟩ := hstep.perform? call
  exact ⟨m.entries_perform call, s', hcall, hstep'.entries_eq⟩

end IndexedMap

end Neologism
