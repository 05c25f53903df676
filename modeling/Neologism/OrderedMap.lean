/-! # Insertion-ordered maps

A map lists its entries in the order in which their keys were first written, and no key
occurs twice. `upsert` writes one value in place or at the end; every other way of writing is
an instance of it. `filterMap` drops entries or changes their values, and keeps the order of
the rest.

Main statements: `get?_upsert` and `keys_upsert` describe a write by the values found
afterwards and by the order of the keys, `get?_filterMap` does so for `filterMap`, and
`ext_get?` says that these two views determine a map. -/

namespace Neologism

/-- A finite map with its entries in order of first insertion. -/
structure OrderedMap (κ α : Type) where
  /-- The entries, oldest key first. -/
  entries : List (κ × α)
  /-- No key occurs twice. -/
  nodup_keys : (entries.map Prod.fst).Nodup

namespace OrderedMap

variable {κ α : Type}

/-- Maps are equal when their entries are. -/
@[ext]
theorem ext {m n : OrderedMap κ α} (h : m.entries = n.entries) : m = n := by
  cases m
  cases n
  simp_all

instance [DecidableEq κ] [DecidableEq α] : DecidableEq (OrderedMap κ α) := fun m n =>
  decidable_of_iff (m.entries = n.entries) ⟨ext, congrArg entries⟩

/-- The map without entries. -/
def empty : OrderedMap κ α :=
  ⟨[], by simp⟩

instance : EmptyCollection (OrderedMap κ α) := ⟨empty⟩

instance : Inhabited (OrderedMap κ α) := ⟨empty⟩

/-- The keys, oldest first. -/
def keys (m : OrderedMap κ α) : List κ :=
  m.entries.map Prod.fst

/-- The number of entries. -/
def size (m : OrderedMap κ α) : Nat :=
  m.entries.length

/-- Whether there is no entry. -/
def isEmpty (m : OrderedMap κ α) : Bool :=
  m.entries.isEmpty

/-- Drop the entries that `f` refuses and give the others the value it answers. -/
def filterMap (f : κ → α → Option α) (m : OrderedMap κ α) : OrderedMap κ α where
  entries := m.entries.filterMap fun e => (f e.1 e.2).map (e.1, ·)
  nodup_keys := by
    have hsub : ((m.entries.filterMap fun e => (f e.1 e.2).map (e.1, ·)).map Prod.fst).Sublist
        (m.entries.map Prod.fst) := by
      induction m.entries with
      | nil => simp
      | cons e rest ih =>
          cases h : f e.1 e.2 with
          | none => simpa [h] using ih.cons e.1
          | some b => simpa [h] using ih
    exact hsub.nodup m.nodup_keys

variable [DecidableEq κ]

/-- The value under `k`, if the key is present. -/
def get? (m : OrderedMap κ α) (k : κ) : Option α :=
  m.entries.lookup k

/-- Whether the key is present. -/
def contains (m : OrderedMap κ α) (k : κ) : Bool :=
  (m.get? k).isSome

/-- Write the value under `k` in a list of entries: in place when the key is there, else at
the end. -/
def upsertEntries (k : κ) (f : Option α → α) : List (κ × α) → List (κ × α)
  | [] => [(k, f none)]
  | (j, a) :: rest =>
      if j = k then (j, f (some a)) :: rest else (j, a) :: upsertEntries k f rest

theorem keys_upsertEntries (k : κ) (f : Option α → α) (es : List (κ × α)) :
    (upsertEntries k f es).map Prod.fst =
      if k ∈ es.map Prod.fst then es.map Prod.fst else es.map Prod.fst ++ [k] := by
  induction es with
  | nil => simp [upsertEntries]
  | cons e rest ih =>
      obtain ⟨j, a⟩ := e
      by_cases h : j = k
      · simp [upsertEntries, h]
      · have hk : k ≠ j := fun e => h e.symm
        by_cases hm : k ∈ rest.map Prod.fst <;> simp [upsertEntries, h, hk, ih, hm]

private theorem lookup_cons_if (j : κ) (e : κ × α) (es : List (κ × α)) :
    (e :: es).lookup j = if j = e.1 then some e.2 else es.lookup j := by
  obtain ⟨k, a⟩ := e
  by_cases h : j = k
  · simp [h]
  · have hb : (j == k) = false := by simpa using h
    simp [List.lookup_cons, h, hb]

theorem lookup_upsertEntries (k j : κ) (f : Option α → α) (es : List (κ × α)) :
    (upsertEntries k f es).lookup j =
      if j = k then some (f (es.lookup k)) else es.lookup j := by
  induction es with
  | nil => simp [upsertEntries, lookup_cons_if]
  | cons e rest ih =>
      obtain ⟨i, a⟩ := e
      by_cases hi : i = k
      · subst hi
        by_cases hj : j = i <;> simp [upsertEntries, lookup_cons_if, hj]
      · have hk : k ≠ i := fun e => hi e.symm
        by_cases hj : j = i
        · subst hj
          simp [upsertEntries, hi, lookup_cons_if]
        · simp [upsertEntries, hi, lookup_cons_if, hj, ih, hk]

/-- Write under `k` the value that `f` gives for the present one, in place when the key is
there, else at the end. -/
def upsert (m : OrderedMap κ α) (k : κ) (f : Option α → α) : OrderedMap κ α where
  entries := upsertEntries k f m.entries
  nodup_keys := by
    rw [keys_upsertEntries]
    split
    · exact m.nodup_keys
    · rename_i h
      rw [List.nodup_append]
      refine ⟨m.nodup_keys, by simp, ?_⟩
      intro a ha b hb
      simp only [List.mem_singleton] at hb
      subst hb
      exact fun hab => h (hab ▸ ha)

/-- Bind `k` to `a`, whatever it was bound to. -/
def insert (m : OrderedMap κ α) (k : κ) (a : α) : OrderedMap κ α :=
  m.upsert k fun _ => a

/-- Bind `k` to `a` unless it is bound. -/
def insertAbsent (m : OrderedMap κ α) (k : κ) (a : α) : OrderedMap κ α :=
  m.upsert k (·.getD a)

/-- Add `a` to the value under `k`; an absent key gets `a` itself. -/
def add [Add α] (m : OrderedMap κ α) (k : κ) (a : α) : OrderedMap κ α :=
  m.upsert k fun
    | none => a
    | some b => b + a

@[simp]
theorem get?_empty (k : κ) : (empty : OrderedMap κ α).get? k = none :=
  rfl

omit [DecidableEq κ] in
@[simp]
theorem keys_empty : (empty : OrderedMap κ α).keys = [] :=
  rfl

theorem get?_isSome_iff (m : OrderedMap κ α) (k : κ) : (m.get? k).isSome ↔ k ∈ m.keys := by
  simp only [get?, keys]
  induction m.entries with
  | nil => simp
  | cons e rest ih =>
      by_cases h : k = e.1 <;> simp_all [lookup_cons_if]

theorem contains_iff (m : OrderedMap κ α) (k : κ) : m.contains k = true ↔ k ∈ m.keys :=
  m.get?_isSome_iff k

theorem get?_eq_none_iff (m : OrderedMap κ α) (k : κ) : m.get? k = none ↔ k ∉ m.keys := by
  rw [← m.get?_isSome_iff k]
  cases m.get? k <;> simp

/-- What `get?` finds is an entry, and every entry is found. -/
theorem get?_eq_some_iff (m : OrderedMap κ α) (k : κ) (a : α) :
    m.get? k = some a ↔ (k, a) ∈ m.entries := by
  have hn := m.nodup_keys
  simp only [get?]
  induction h : m.entries generalizing m with
  | nil => simp
  | cons e rest ih =>
      obtain ⟨j, b⟩ := e
      rw [h] at hn
      simp only [List.map_cons, List.nodup_cons] at hn
      have ih := ih ⟨rest, hn.2⟩ hn.2 rfl
      by_cases hk : k = j
      · subst hk
        have hnot : (k, a) ∉ rest := fun hm => hn.1 (List.mem_map.2 ⟨(k, a), hm, rfl⟩)
        simp [lookup_cons_if, hnot, eq_comm]
      · simp [lookup_cons_if, hk, ih]

/-- Maps are equal when they have the same keys in the same order and the same value under
each of them. -/
theorem ext_get? {m n : OrderedMap κ α} (hkeys : m.keys = n.keys)
    (hget : ∀ k, m.get? k = n.get? k) : m = n := by
  obtain ⟨es, hes⟩ := m
  obtain ⟨fs, hfs⟩ := n
  simp only [keys, get?] at hkeys hget
  apply ext
  simp only
  induction es generalizing fs with
  | nil => cases fs <;> simp_all
  | cons e es ih =>
      obtain ⟨k, a⟩ := e
      cases fs with
      | nil => simp at hkeys
      | cons f fs =>
          obtain ⟨j, b⟩ := f
          simp only [List.map_cons, List.cons.injEq, List.nodup_cons] at hkeys hes hfs
          obtain ⟨rfl, hkeys⟩ := hkeys
          have ha := hget k
          simp only [lookup_cons_if, ↓reduceIte, Option.some.injEq] at ha
          subst ha
          have hrest : es = fs := by
            apply ih hes.2 fs hfs.2 hkeys
            intro i
            by_cases hi : i = k
            · subst hi
              have hnone : ∀ gs : List (κ × α), i ∉ gs.map Prod.fst → gs.lookup i = none := by
                intro gs hgs
                rw [List.lookup_eq_none_iff]
                intro p hp
                have : i ≠ p.1 := fun h => hgs (h ▸ List.mem_map.2 ⟨p, hp, rfl⟩)
                simpa using this
              rw [hnone es hes.1, hnone fs hfs.1]
            · have := hget i
              simpa [lookup_cons_if, hi] using this
          rw [hrest]

/-- A write changes the value under its own key only. -/
theorem get?_upsert (m : OrderedMap κ α) (k j : κ) (f : Option α → α) :
    (m.upsert k f).get? j = if j = k then some (f (m.get? k)) else m.get? j :=
  lookup_upsertEntries k j f m.entries

/-- A write keeps the order of the keys and puts a new key last. -/
theorem keys_upsert (m : OrderedMap κ α) (k : κ) (f : Option α → α) :
    (m.upsert k f).keys = if k ∈ m.keys then m.keys else m.keys ++ [k] :=
  keys_upsertEntries k f m.entries

theorem mem_keys_upsert (m : OrderedMap κ α) (k j : κ) (f : Option α → α) :
    j ∈ (m.upsert k f).keys ↔ j = k ∨ j ∈ m.keys := by
  rw [keys_upsert]
  split
  · rename_i h
    exact ⟨.inr, fun hj => hj.elim (· ▸ h) id⟩
  · simp [or_comm]

/-- Filtering decides each entry by its own key and value. -/
theorem get?_filterMap (f : κ → α → Option α) (m : OrderedMap κ α) (k : κ) :
    (m.filterMap f).get? k = (m.get? k).bind (f k) := by
  obtain ⟨es, hn⟩ := m
  simp only [get?, filterMap]
  induction es with
  | nil => simp
  | cons e rest ih =>
      obtain ⟨j, a⟩ := e
      simp only [List.map_cons, List.nodup_cons] at hn
      have ih := ih hn.2
      by_cases hk : k = j
      · subst hk
        cases hf : f k a with
        | some b => simp [hf, lookup_cons_if]
        | none =>
            have hnone : rest.lookup k = none := by
              rw [List.lookup_eq_none_iff]
              intro p hp
              have : k ≠ p.1 := fun h => hn.1 (h ▸ List.mem_map.2 ⟨p, hp, rfl⟩)
              simpa using this
            rw [hnone] at ih
            simpa [hf, lookup_cons_if] using ih
      · cases hf : f j a <;> simp [hf, lookup_cons_if, hk, ih]

end OrderedMap

end Neologism
