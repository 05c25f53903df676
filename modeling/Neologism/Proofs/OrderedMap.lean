import Mathlib.Data.List.Basic
import Mathlib.Data.List.Induction
import Neologism.OrderedMap

/-! # Folds of writes into ordered maps

A fold whose steps write into a map only ever adds keys behind those that are there. The keys
after it are those before it and those that the steps write. The value of a key is what the writes
to that key make of it, one after the other.

Main statements: `entries_upsert` for a single write, `keys_prefix_foldl` and `mem_keys_foldl` for
the set of the keys, `keys_foldl_upsert` for their order, and `get?_foldl_upsert` for the values. -/

namespace Neologism.OrderedMap

variable {κ α β : Type} [DecidableEq κ]

/-- A write leaves the keys that are there in their places. -/
theorem keys_prefix_upsert (m : OrderedMap κ α) (k : κ) (f : Option α → α) :
    m.keys <+: (m.upsert k f).keys := by
  rw [keys_upsert]
  split
  · exact List.prefix_rfl
  · exact List.prefix_append _ _

theorem keys_prefix_add [Add α] (m : OrderedMap κ α) (k : κ) (a : α) :
    m.keys <+: (m.add k a).keys :=
  m.keys_prefix_upsert k _

theorem mem_keys_add [Add α] (m : OrderedMap κ α) (k j : κ) (a : α) :
    j ∈ (m.add k a).keys ↔ j ∈ m.keys ∨ j = k := by
  rw [add, mem_keys_upsert, or_comm]

theorem get?_add [Add α] (m : OrderedMap κ α) (k j : κ) (a : α) :
    (m.add k a).get? j = if j = k then some ((m.get? k).elim a (· + a)) else m.get? j := by
  rw [add, get?_upsert]
  cases m.get? k <;> rfl

omit [DecidableEq κ] in
theorem keys_prefix_foldl {step : OrderedMap κ α → β → OrderedMap κ α}
    (h : ∀ m b, m.keys <+: (step m b).keys) (m : OrderedMap κ α) (bs : List β) :
    m.keys <+: (bs.foldl step m).keys := by
  induction bs generalizing m with
  | nil => exact List.prefix_rfl
  | cons b bs ih => exact (h m b).trans (ih (step m b))

omit [DecidableEq κ] in
theorem mem_keys_foldl {step : OrderedMap κ α → β → OrderedMap κ α} {writes : β → κ → Prop}
    (h : ∀ m b k, k ∈ (step m b).keys ↔ k ∈ m.keys ∨ writes b k) (m : OrderedMap κ α)
    (bs : List β) (k : κ) :
    k ∈ (bs.foldl step m).keys ↔ k ∈ m.keys ∨ ∃ b ∈ bs, writes b k := by
  induction bs generalizing m with
  | nil => simp
  | cons b bs ih =>
      rw [List.foldl_cons, ih, h]
      simp [or_assoc]

omit [DecidableEq κ] in
theorem mem_keys_iff (m : OrderedMap κ α) (k : κ) : k ∈ m.keys ↔ ∃ a, (k, a) ∈ m.entries := by
  simp [keys]

omit [DecidableEq κ] in
theorem isEmpty_iff (m : OrderedMap κ α) : m.isEmpty = true ↔ ∀ k, k ∉ m.keys := by
  simp only [isEmpty, List.isEmpty_iff, ← List.eq_nil_iff_forall_not_mem, keys, List.map_eq_nil_iff]

theorem upsertEntries_eq (k : κ) (f : Option α → α) {entries : List (κ × α)}
    (h : (entries.map Prod.fst).Nodup) :
    upsertEntries k f entries =
      if k ∈ entries.map Prod.fst then
        entries.map fun e => if e.1 = k then (k, f (some e.2)) else e
      else entries ++ [(k, f none)] := by
  induction entries with
  | nil => rfl
  | cons e rest ih =>
      obtain ⟨j, a⟩ := e
      simp only [List.map_cons, List.nodup_cons] at h
      by_cases hj : j = k
      · subst hj
        have hrest : rest.map (fun e => if e.1 = j then (j, f (some e.2)) else e) = rest := by
          refine (List.map_congr_left fun e he => if_neg ?_).trans (List.map_id rest)
          rintro rfl
          exact h.1 (List.mem_map_of_mem he)
        simp [upsertEntries, hrest]
      · by_cases hk : k ∈ rest.map Prod.fst <;>
          simp [upsertEntries, hj, Ne.symm hj, ih h.2, hk]

/-- A write changes the entry of its key in its place, or puts one behind the others. -/
theorem entries_upsert (m : OrderedMap κ α) (k : κ) (f : Option α → α) :
    (m.upsert k f).entries =
      if k ∈ m.keys then m.entries.map fun e => if e.1 = k then (k, f (some e.2)) else e
      else m.entries ++ [(k, f none)] :=
  upsertEntries_eq k f m.nodup_keys

/-- A key that is there is not bound anew. -/
theorem insertAbsent_of_mem (m : OrderedMap κ α) {k : κ} (hk : k ∈ m.keys) (a : α) :
    m.insertAbsent k a = m := by
  refine ext_get? ?_ fun j => ?_
  · rw [insertAbsent, keys_upsert, if_pos hk]
  · rw [insertAbsent, get?_upsert]
    split
    · next heq =>
        obtain ⟨b, hb⟩ := Option.isSome_iff_exists.mp ((m.get?_isSome_iff k).mpr hk)
        rw [heq, hb, Option.getD_some]
    · rfl

/-- All values of a map have the property. -/
def All (P : α → Prop) (m : OrderedMap κ α) : Prop :=
  ∀ k a, m.get? k = some a → P a

theorem all_empty (P : α → Prop) : All P (empty : OrderedMap κ α) := by
  intro k a h
  cases h

theorem All.upsert {P : α → Prop} {m : OrderedMap κ α} (h : All P m) {f : Option α → α}
    (hf : ∀ old : Option α, (∀ a ∈ old, P a) → P (f old)) (k : κ) : All P (m.upsert k f) := by
  intro j a hj
  rw [get?_upsert] at hj
  split at hj
  · rw [← Option.some.inj hj]
    exact hf (m.get? k) fun b hb => h k b hb
  · exact h j a hj

theorem All.of_mem {P : α → Prop} {m : OrderedMap κ α} (h : All P m) {e : κ × α}
    (he : e ∈ m.entries) : P e.2 :=
  h e.1 e.2 ((m.get?_eq_some_iff e.1 e.2).mpr he)

theorem eraseDups_concat (ks : List κ) (k : κ) :
    (ks ++ [k]).eraseDups = if k ∈ ks then ks.eraseDups else ks.eraseDups ++ [k] := by
  by_cases h : k ∈ ks <;> simp [List.eraseDups_append, List.cons_removeAll, List.eraseDups_cons, h]

theorem eraseDups_of_nodup {ks : List κ} (h : ks.Nodup) : ks.eraseDups = ks := by
  induction ks using List.reverseRecOn with
  | nil => rfl
  | append_singleton ks k ih =>
      obtain ⟨hks, -, hnew⟩ := List.nodup_append.mp h
      have hk : k ∉ ks := fun hmem => hnew k hmem k (List.mem_singleton_self k) rfl
      rw [eraseDups_concat, if_neg hk, ih hks]

theorem eraseDups_append_left (ks js : List κ) :
    (ks.eraseDups ++ js).eraseDups = (ks ++ js).eraseDups := by
  have hself : ks.eraseDups.eraseDups = ks.eraseDups := by
    induction ks using List.reverseRecOn with
    | nil => rfl
    | append_singleton ks k ih =>
        rw [eraseDups_concat]
        split
        · exact ih
        · next hk => rw [eraseDups_concat, if_neg (mt List.mem_eraseDups.mp hk), ih]
  induction js using List.reverseRecOn with
  | nil => simpa using hself
  | append_singleton js j ih =>
      rw [← List.append_assoc, ← List.append_assoc, eraseDups_concat, eraseDups_concat, ih]
      simp only [List.mem_append, List.mem_eraseDups]

theorem eraseDups_append_right (ks js : List κ) :
    (ks ++ js.eraseDups).eraseDups = (ks ++ js).eraseDups := by
  induction js using List.reverseRecOn with
  | nil => simp
  | append_singleton js j ih =>
      rw [eraseDups_concat]
      split
      · next hj =>
          rw [ih, ← List.append_assoc, eraseDups_concat, if_pos (List.mem_append_right ks hj)]
      · rw [← List.append_assoc, ← List.append_assoc, eraseDups_concat, eraseDups_concat, ih]
        simp only [List.mem_append, List.mem_eraseDups]

/-- Writes put their keys behind those that are there, in the order of the first write to each. -/
theorem keys_foldl_upsert (key : β → κ) (write : β → Option α → α) (m : OrderedMap κ α)
    (bs : List β) :
    (bs.foldl (fun m b => m.upsert (key b) (write b)) m).keys =
      (m.keys ++ bs.map key).eraseDups := by
  induction bs using List.reverseRecOn with
  | nil => simp [eraseDups_of_nodup (show m.keys.Nodup from m.nodup_keys)]
  | append_singleton bs b ih =>
      rw [List.foldl_concat, keys_upsert, ih, List.map_append, List.map_singleton,
        ← List.append_assoc, eraseDups_concat]
      simp only [List.mem_eraseDups]

/-- The writes to a key follow each other, and the others leave its value alone. -/
theorem get?_foldl_upsert (key : β → κ) (write : β → Option α → α) (m : OrderedMap κ α)
    (bs : List β) (k : κ) :
    (bs.foldl (fun m b => m.upsert (key b) (write b)) m).get? k =
      (bs.filter (key · = k)).foldl (fun old b => some (write b old)) (m.get? k) := by
  induction bs generalizing m with
  | nil => rfl
  | cons b bs ih =>
      rw [List.foldl_cons, ih, get?_upsert]
      by_cases hk : key b = k
      · simp [hk]
      · simp [hk, Ne.symm hk]

/-- The entries of a key are its value. -/
theorem filter_entries (m : OrderedMap κ α) (k : κ) :
    m.entries.filter (·.1 = k) = ((m.get? k).map (k, ·)).toList := by
  obtain ⟨es, hn⟩ := m
  simp only [get?]
  induction es with
  | nil => rfl
  | cons e rest ih =>
      obtain ⟨j, a⟩ := e
      simp only [List.map_cons, List.nodup_cons] at hn
      by_cases hk : j = k
      · subst hk
        have hnone : rest.filter (·.1 = j) = [] := by
          rw [List.filter_eq_nil_iff]
          rintro p hp heq
          exact hn.1 (List.mem_map.mpr ⟨p, hp, of_decide_eq_true heq⟩)
        simp [hnone]
      · have hkj : (k == j) = false := by simpa using Ne.symm hk
        simp [hk, List.lookup_cons, hkj, ih hn.2]

end Neologism.OrderedMap
