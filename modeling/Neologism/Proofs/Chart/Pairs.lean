import Neologism.Proofs.Chart.Closure

/-! # Parents and children are put together once

A child that is complete meets a parent that waits for it where it starts. When both are in the
column that is being closed, either of them may have its turn first, and the list of the pairs that
were put together keeps the second turn from putting them together again.

Main statements: `nodup_combined_close` and `mem_combined_close` say that closing a column puts
together the pairs that meet, each of them once. -/

namespace Neologism.Chart

variable {g : Grammar} {earlier : List Column}

/-- The child is complete in the column, and the parent waits for it where it starts. -/
structure Meets (earlier : List Column) (column : Column) (parent child : Item) : Prop where
  child_mem : child ∈ column.keys
  child_complete : child.next? = none
  parent_mem : parent ∈ (Closure.columnAt earlier ⟨column, []⟩ child.start).keys
  parent_waits : parent.next? = some child.symbol

/-- Items that meet do so however the column grows. -/
theorem Meets.mono {column larger : Column} {parent child : Item}
    (h : Meets earlier column parent child) (hle : column.keys ⊆ larger.keys) :
    Meets earlier larger parent child where
  child_mem := hle h.child_mem
  child_complete := h.child_complete
  parent_mem := by
    have hparent := h.parent_mem
    by_cases hstart : child.start = earlier.length
    · rw [hstart, Closure.columnAt_here] at hparent ⊢
      exact hle hparent
    · rwa [Closure.columnAt_past _ hstart] at hparent ⊢
  parent_waits := h.parent_waits

/-- No two of the pairs are the same, all of them meet, and a child that starts before the column
came into a pair in its own turn only. The first `i` items had their turns. -/
structure Paired (earlier : List Column) (i : Nat) (s : Closure) : Prop where
  nodup : s.combined.Nodup
  meets : ∀ pair ∈ s.combined, Meets earlier s.column pair.1 pair.2
  turned : ∀ pair ∈ s.combined,
    pair.2.start = earlier.length ∨ pair.2 ∈ s.column.keys.take i

namespace Paired

variable {i : Nat} {s : Closure} {item : Item} {weight : Weight}

theorem start (column : Column) : Paired earlier 0 ⟨column, []⟩ where
  nodup := .nil
  meets := by simp
  turned := by simp

theorem succ (h : Paired earlier i s) : Paired earlier (i + 1) s where
  nodup := h.nodup
  meets := h.meets
  turned pair hpair :=
    (h.turned pair hpair).imp_right (List.take_subset_take_left _ (Nat.le_succ i) ·)

/-- The item at index `i` has its turn: pairs that are new and meet may be put together, if it is
the child of those whose child starts before. -/
theorem combine (h : Paired earlier i s) (hkey : s.column.keys[i]? = some item)
    {pairs : List (Item × Item × Weight)}
    (hnodup : (pairs.map fun pair => (pair.1, pair.2.1)).Nodup)
    (hnew : ∀ pair ∈ pairs, (pair.1, pair.2.1) ∉ s.combined)
    (hmeets : ∀ pair ∈ pairs, Meets earlier s.column pair.1 pair.2.1)
    (hturned : ∀ pair ∈ pairs, pair.2.1.start = earlier.length ∨ pair.2.1 = item) :
    Paired earlier (i + 1) (s.combine pairs) := by
  have hprefix := s.prefix_combine pairs
  have hturn := mem_take_succ hprefix hkey
  constructor
  case nodup =>
    refine List.nodup_append'.mpr ⟨hnodup, h.nodup, ?_⟩
    rintro _ hpair hold
    obtain ⟨source, hsource, rfl⟩ := List.mem_map.mp hpair
    exact hnew source hsource hold
  case meets =>
    intro pair hpair
    rcases List.mem_append.mp hpair with hpair | hold
    · obtain ⟨source, hsource, rfl⟩ := List.mem_map.mp hpair
      exact (hmeets source hsource).mono hprefix.subset
    · exact (h.meets pair hold).mono hprefix.subset
  case turned =>
    intro pair hpair
    rw [hturn]
    rcases List.mem_append.mp hpair with hpair | hold
    · obtain ⟨source, hsource, rfl⟩ := List.mem_map.mp hpair
      exact (hturned source hsource).imp_right .inr
    · exact (h.turned pair hold).imp_right .inl

/-- A complete item whose turn it is. -/
theorem complete (h : Paired earlier i s) (hkey : s.column.keys[i]? = some item)
    (hnext : item.next? = none) (weight : Weight) :
    Paired earlier (i + 1) (s.complete earlier item weight) := by
  refine h.combine hkey ?_ ?_ ?_ ?_
  · simp only [List.map_map]
    refine List.Nodup.map (fun _ _ heq => congrArg Prod.fst heq) (.filter _ ?_)
    exact (s.columnAt earlier item.start).nodup_keys
  · simp only [List.forall_mem_map, List.mem_filter, Bool.and_eq_true, Bool.or_eq_true]
    rintro parent ⟨-, -, hpast | hnew⟩ hold
    · -- The child starts before, so it would have had its turn already.
      have hstart : item.start ≠ earlier.length := by simpa using hpast
      have htaken := (h.turned _ hold).resolve_left hstart
      obtain ⟨j, hj, hget⟩ := List.mem_take_iff_getElem.mp htaken
      obtain ⟨hi, hitem⟩ := List.getElem?_eq_some_iff.mp hkey
      have := (List.Nodup.getElem_inj_iff s.column.nodup_keys).mp (hget.trans hitem.symm)
      omega
    · simp [hold] at hnew
  · simp only [List.forall_mem_map, List.mem_filter, Bool.and_eq_true, Item.awaits_iff]
    rintro parent ⟨hparent, hwait, -⟩
    exact ⟨List.mem_of_getElem? hkey, hnext, hparent, hwait⟩
  · rw [List.forall_mem_map]
    exact fun _ _ => .inr rfl

/-- A waiting item whose turn it is. -/
theorem completeEmpty (h : Paired earlier i s) (hkey : s.column.keys[i]? = some item) :
    Paired earlier (i + 1) (s.completeEmpty earlier.length item) := by
  refine h.combine hkey ?_ ?_ ?_ ?_
  · simp only [List.map_map]
    have hkeys : ((s.column.entries.map Prod.fst).map (item, ·)).Nodup :=
      List.Nodup.map (fun _ _ heq => congrArg Prod.snd heq) s.column.nodup_keys
    rw [List.map_map] at hkeys
    exact hkeys.sublist (List.filter_sublist.map _)
  · simp only [List.forall_mem_map, List.mem_filter, Bool.and_eq_true]
    rintro child ⟨-, -, hnew⟩ hold
    simp [hold] at hnew
  · simp only [List.forall_mem_map, List.mem_filter, Bool.and_eq_true, Item.awaits_iff,
      Item.isComplete_iff, beq_iff_eq]
    rintro child ⟨hchild, ⟨⟨hcomplete, hstart⟩, hwait⟩, -⟩
    refine ⟨(s.column.mem_keys_iff _).mpr ⟨_, hchild⟩, hcomplete, ?_, hwait⟩
    rw [hstart, Closure.columnAt_here]
    exact List.mem_of_getElem? hkey
  · simp only [List.forall_mem_map, List.mem_filter, Bool.and_eq_true, beq_iff_eq]
    rintro child ⟨-, ⟨⟨-, hstart⟩, -⟩, -⟩
    exact .inl hstart

theorem predict (h : Paired earlier i s) (here : Nat) (name : String) (weight : Weight) :
    Paired earlier i (s.predict g here name weight) where
  nodup := h.nodup
  meets pair hpair := (h.meets pair hpair).mono (s.prefix_predict here name weight).subset
  turned pair hpair := by
    obtain ⟨rest, hrest⟩ := s.prefix_predict (g := g) here name weight
    rw [← hrest, List.take_append]
    exact (h.turned pair hpair).imp_right (List.mem_append_left _)

theorem visit (h : Paired earlier i s) (hentry : s.column.entries[i]? = some (item, weight)) :
    Paired earlier (i + 1) (s.visit g earlier item weight) := by
  have hkey : s.column.keys[i]? = some item := by simp [OrderedMap.keys, hentry]
  cases hnext : item.next? with
  | none =>
      simp only [Closure.visit, hnext]
      exact h.complete hkey hnext weight
  | some symbol =>
      cases symbol with
      | cls name =>
          simp only [Closure.visit, hnext]
          exact h.succ
      | nonterminal name =>
          simp only [Closure.visit, hnext]
          refine (h.predict earlier.length name weight).completeEmpty ?_
          obtain ⟨rest, hrest⟩ := s.prefix_predict (g := g) earlier.length name weight
          rw [← hrest, List.getElem?_append_left (List.getElem?_eq_some_iff.mp hkey).1, hkey]

theorem walk (h : Paired earlier i s) (fuel : Nat) :
    ∃ n, Paired earlier n (Closure.walk g earlier fuel i s) := by
  induction fuel generalizing i s with
  | zero => exact ⟨i, h⟩
  | succ fuel ih =>
      simp only [Closure.walk]
      split
      · exact ⟨i, h⟩
      · next hentry => exact ih (h.visit hentry)

end Paired

section Close

variable {column : Column}

/-- A column that may be opened behind others: all of them hold items that fit. -/
structure Opening (g : Grammar) (earlier : List Column) (column : Column) : Prop where
  past : ∀ position < earlier.length, ∀ item ∈ (past earlier position).keys, item.Fits g position
  here : ∀ item ∈ column.keys, item.Fits g earlier.length

theorem Opening.walked (h : Opening g earlier column) :
    Walked g earlier (close g earlier column).column.keys.length (close g earlier column) :=
  (Walked.start h.here).walk (kept_fits h.past) (capacity g earlier.length) (Nat.le_refl _)

/-- No two items are put together twice. -/
theorem nodup_combined_close : (close g earlier column).combined.Nodup :=
  let ⟨_, h⟩ := (Paired.start column).walk (g := g) (capacity g earlier.length)
  h.nodup

/-- The items that are put together are those that meet in the closed column. -/
theorem mem_combined_close (hopening : Opening g earlier column) (parent child : Item) :
    (parent, child) ∈ (close g earlier column).combined ↔
      Meets earlier (close g earlier column).column parent child := by
  constructor
  · intro hpair
    obtain ⟨_, h⟩ := (Paired.start column).walk (g := g) (capacity g earlier.length)
    exact h.meets _ hpair
  · intro h
    refine hopening.walked.combined child ?_ h.child_complete parent h.parent_mem h.parent_waits ?_
    · rw [List.take_length]
      exact h.child_mem
    · intro hstart
      have hparent := h.parent_mem
      rw [hstart, Closure.columnAt_here] at hparent
      rwa [List.take_length]

end Close

end Neologism.Chart
