import Neologism.Proofs.Chart.Capacity
import Neologism.Proofs.OrderedMap

/-! # The closure of a column

Closing a column adds to it what its own items bring in and nothing else. The column grows while
it is walked through, and each item has its turn once.

Main statements: `prefix_close` and `kept_close` say that a closed column begins with the items
that were there and holds only items with any property that the operations keep. `closed_close`
says that at the end every nonterminal that is waited for was brought in, and every complete item
was combined with each item that waits for it where it starts. -/

namespace Neologism.Chart

variable {g : Grammar} {earlier : List Column}

/-- The column at a position before the one that is being closed. -/
def past (earlier : List Column) (position : Nat) : Column :=
  (earlier[earlier.length - 1 - position]?).getD .empty

namespace Closure

theorem columnAt_here (s : Closure) : s.columnAt earlier earlier.length = s.column := by
  simp [columnAt]

theorem columnAt_past (s : Closure) {position : Nat} (h : position ≠ earlier.length) :
    s.columnAt earlier position = past earlier position := by
  simp [columnAt, past, h]

theorem prefix_combine (s : Closure) (pairs : List (Item × Item × Weight)) :
    s.column.keys <+: (s.combine pairs).column.keys :=
  OrderedMap.keys_prefix_foldl (fun m _ => m.keys_prefix_add _ _) _ _

theorem mem_combine (s : Closure) (pairs : List (Item × Item × Weight)) (item : Item) :
    item ∈ (s.combine pairs).column.keys ↔
      item ∈ s.column.keys ∨ ∃ pair ∈ pairs, item = pair.1.advance := by
  apply OrderedMap.mem_keys_foldl
  intro m pair other
  exact m.mem_keys_add pair.1.advance other pair.2.2

theorem prefix_predict (s : Closure) (here : Nat) (name : String) (weight : Weight) :
    s.column.keys <+: (s.predict g here name weight).column.keys :=
  OrderedMap.keys_prefix_foldl (fun m _ => m.keys_prefix_add _ _) _ _

theorem mem_predict (s : Closure) (here : Nat) (name : String) (weight : Weight) (item : Item) :
    item ∈ (s.predict g here name weight).column.keys ↔
      item ∈ s.column.keys ∨ ∃ rule ∈ g.rules name, item = .ofRule name rule here := by
  apply OrderedMap.mem_keys_foldl
  intro m rule other
  exact m.mem_keys_add (.ofRule name rule here) other (weight * rule.weight)

/-- A parent that waits for a child where it starts is, after the child had its turn, either
advanced already or advanced now. -/
theorem mem_complete (s : Closure) (child : Item) (weight : Weight) (item : Item) :
    item ∈ (s.complete earlier child weight).column.keys ↔
      item ∈ s.column.keys ∨ ∃ parent ∈ (s.columnAt earlier child.start).keys,
        parent.awaits child = true ∧
          (child.start ≠ earlier.length ∨ (parent, child) ∉ s.combined) ∧
            item = parent.advance := by
  simp [complete, mem_combine, and_assoc]

theorem mem_completeEmpty (s : Closure) (here : Nat) (parent item : Item) :
    item ∈ (s.completeEmpty here parent).column.keys ↔
      item ∈ s.column.keys ∨ ∃ child ∈ s.column.keys,
        child.isComplete = true ∧ child.start = here ∧ parent.awaits child = true ∧
          (parent, child) ∉ s.combined ∧ item = parent.advance := by
  rw [completeEmpty, mem_combine]
  simp [OrderedMap.mem_keys_iff, and_assoc]

/-- An item that had its turn leaves the items that are there in their places. -/
theorem prefix_visit (s : Closure) (item : Item) (weight : Weight) :
    s.column.keys <+: (s.visit g earlier item weight).column.keys := by
  simp only [visit]
  split
  · exact s.prefix_combine _
  · exact (s.prefix_predict _ _ weight).trans (prefix_combine _ _)
  · exact List.prefix_rfl

theorem prefix_walk (fuel i : Nat) (s : Closure) :
    s.column.keys <+: (walk g earlier fuel i s).column.keys := by
  induction fuel generalizing i s with
  | zero => exact List.prefix_rfl
  | succ fuel ih =>
      simp only [walk]
      split
      · exact List.prefix_rfl
      · exact (s.prefix_visit _ _).trans (ih _ _)

end Closure

/-- A property of items that every operation at a column keeps, given the columns before it. -/
structure Kept (g : Grammar) (earlier : List Column) (p : Item → Prop) : Prop where
  predict {item : Item} {name : String} {rule : Rule} :
    p item → item.next? = some (.nonterminal name) → rule ∈ g.rules name →
      p (.ofRule name rule earlier.length)
  combinePast {parent child : Item} :
    p child → child.next? = none → child.start ≠ earlier.length →
      parent ∈ (past earlier child.start).keys → parent.next? = some child.symbol →
        p parent.advance
  combineHere {parent child : Item} :
    p child → child.next? = none → child.start = earlier.length → p parent →
      parent.next? = some child.symbol → p parent.advance

namespace Kept

variable {p : Item → Prop}

theorem visit (h : Kept g earlier p) {s : Closure} (hs : ∀ item ∈ s.column.keys, p item)
    {item : Item} (hitem : item ∈ s.column.keys) (weight : Weight) :
    ∀ other ∈ (s.visit g earlier item weight).column.keys, p other := by
  intro other hother
  simp only [Closure.visit] at hother
  split at hother
  next hnext =>
    rcases (s.mem_complete item weight other).mp hother with
      hold | ⟨parent, hparent, hawaits, -, rfl⟩
    · exact hs other hold
    · have hwait := (parent.awaits_iff item).mp hawaits
      by_cases hstart : item.start = earlier.length
      · rw [hstart, s.columnAt_here] at hparent
        exact h.combineHere (hs item hitem) hnext hstart (hs parent hparent) hwait
      · rw [s.columnAt_past hstart] at hparent
        exact h.combinePast (hs item hitem) hnext hstart hparent hwait
  next name hnext =>
    have hpredict : ∀ other ∈ (s.predict g earlier.length name weight).column.keys, p other := by
      intro other hother
      rcases (s.mem_predict _ _ _ _).mp hother with hold | ⟨rule, mem, rfl⟩
      · exact hs other hold
      · exact h.predict (hs item hitem) hnext mem
    rcases (Closure.mem_completeEmpty _ _ _ _).mp hother with
      hold | ⟨child, hchild, hcomplete, hstart, hawaits, -, rfl⟩
    · exact hpredict other hold
    · exact h.combineHere (hpredict child hchild) (child.isComplete_iff.mp hcomplete) hstart
        (hs item hitem) ((item.awaits_iff child).mp hawaits)
  next => exact hs other hother

theorem walk (h : Kept g earlier p) (fuel i : Nat) {s : Closure}
    (hs : ∀ item ∈ s.column.keys, p item) :
    ∀ item ∈ (Closure.walk g earlier fuel i s).column.keys, p item := by
  induction fuel generalizing i s with
  | zero => exact hs
  | succ fuel ih =>
      simp only [Closure.walk]
      split
      · exact hs
      · next item weight hentry =>
          have hitem : item ∈ s.column.keys :=
            (s.column.mem_keys_iff item).mpr ⟨weight, List.mem_of_getElem? hentry⟩
          exact ih (i + 1) (h.visit hs hitem weight)

end Kept

/-- Items that fit bring in items that fit, if those of the columns before do. -/
theorem kept_fits
    (hpast : ∀ position < earlier.length, ∀ item ∈ (past earlier position).keys,
      item.Fits g position) :
    Kept g earlier (Item.Fits g earlier.length) where
  predict _ _ mem := Item.fits_ofRule mem _
  combinePast hchild _ hstart hparent hwait := by
    have hlt := Nat.lt_of_le_of_ne hchild.start_le hstart
    exact (hpast _ hlt _ hparent).advance hlt.le hwait
  combineHere _ _ _ hparent hwait := hparent.advance (Nat.le_refl _) hwait

theorem mem_take_succ {α : Type} {l l' : List α} {i : Nat} {a : α} (h : l <+: l')
    (hi : l[i]? = some a) (b : α) : b ∈ l'.take (i + 1) ↔ b ∈ l.take i ∨ b = a := by
  obtain ⟨rest, rfl⟩ := h
  have hlt : i + 1 ≤ l.length := (List.getElem?_eq_some_iff.mp hi).1
  rw [List.take_append_of_le_length hlt, List.take_add_one, hi]
  simp

namespace Closure

/-- The pairs that count as combined were combined. -/
def Honest (s : Closure) : Prop :=
  ∀ pair ∈ s.combined, pair.1.advance ∈ s.column.keys

theorem Honest.combine {s : Closure} (h : s.Honest) (pairs : List (Item × Item × Weight)) :
    (s.combine pairs).Honest := by
  intro pair hpair
  rcases List.mem_append.mp hpair with hnew | hold
  · obtain ⟨source, hsource, rfl⟩ := List.mem_map.mp hnew
    exact (s.mem_combine pairs _).mpr (.inr ⟨source, hsource, rfl⟩)
  · exact (s.prefix_combine pairs).subset (h pair hold)

theorem Honest.predict {s : Closure} (h : s.Honest) (here : Nat) (name : String)
    (weight : Weight) : (s.predict g here name weight).Honest :=
  fun pair hpair => (s.prefix_predict here name weight).subset (h pair hpair)

theorem Honest.visit {s : Closure} (h : s.Honest) (item : Item) (weight : Weight) :
    (s.visit g earlier item weight).Honest := by
  simp only [Closure.visit]
  split
  · exact h.combine _
  · exact (h.predict _ _ weight).combine _
  · exact h

/-- After a child had its turn, it was put together with whatever waits for it where it starts. -/
theorem mem_combined_complete (s : Closure) {parent child : Item}
    (hparent : parent ∈ (s.columnAt earlier child.start).keys)
    (hwait : parent.next? = some child.symbol) (weight : Weight) :
    (parent, child) ∈ (s.complete earlier child weight).combined := by
  simp only [complete, combine, List.map_map, List.mem_append]
  by_cases hdone : (parent, child) ∈ s.combined
  · exact .inr hdone
  · exact .inl (by simp [hparent, parent.awaits_iff, hwait, hdone])

/-- After a parent had its turn, it was put together with whatever starts and ends here. -/
theorem mem_combined_completeEmpty (s : Closure) {parent child : Item} {here : Nat}
    (hchild : child ∈ s.column.keys) (hcomplete : child.next? = none)
    (hstart : child.start = here) (hwait : parent.next? = some child.symbol) :
    (parent, child) ∈ (s.completeEmpty here parent).combined := by
  simp only [completeEmpty, combine, List.map_map, List.mem_append]
  by_cases hdone : (parent, child) ∈ s.combined
  · exact .inr hdone
  · obtain ⟨weight, hentry⟩ := (s.column.mem_keys_iff child).mp hchild
    refine .inl (List.mem_map.mpr ⟨(child, weight), List.mem_filter.mpr ⟨hentry, ?_⟩, rfl⟩)
    simp [child.isComplete_iff, hcomplete, hstart, parent.awaits_iff, hwait, hdone]

/-- A turn does not take back that two items were put together. -/
theorem combined_subset_visit (s : Closure) (item : Item) (weight : Weight) :
    s.combined ⊆ (s.visit g earlier item weight).combined := by
  simp only [visit]
  split
  · exact List.subset_append_right _ _
  · exact List.subset_append_right _ _
  · exact List.Subset.refl _

end Closure

/-- The first `i` items of a column had their turns. Two of them that start and end here were put
together whichever came first; with a column before this one a child needs its own turn only. -/
structure Walked (g : Grammar) (earlier : List Column) (i : Nat) (s : Closure) : Prop where
  fits : ∀ item ∈ s.column.keys, item.Fits g earlier.length
  honest : s.Honest
  predicted : ∀ item ∈ s.column.keys.take i, ∀ name, item.next? = some (.nonterminal name) →
    ∀ rule ∈ g.rules name, .ofRule name rule earlier.length ∈ s.column.keys
  combined : ∀ child ∈ s.column.keys.take i, child.next? = none →
    ∀ parent ∈ (s.columnAt earlier child.start).keys, parent.next? = some child.symbol →
      (child.start = earlier.length → parent ∈ s.column.keys.take i) →
        (parent, child) ∈ s.combined

namespace Walked

theorem start {column : Column} (h : ∀ item ∈ column.keys, item.Fits g earlier.length) :
    Walked g earlier 0 ⟨column, []⟩ where
  fits := h
  honest := by simp [Closure.Honest]
  predicted := by simp
  combined := by simp

/-- An item whose turn it is brings in the rules that it waits for. -/
theorem predicted_visit {s : Closure} {item : Item} {name : String} {rule : Rule}
    (hnext : item.next? = some (.nonterminal name)) (mem : rule ∈ g.rules name)
    (weight : Weight) :
    .ofRule name rule earlier.length ∈ (s.visit g earlier item weight).column.keys := by
  simp only [Closure.visit, hnext]
  exact (Closure.prefix_combine _ _).subset
    ((s.mem_predict _ _ _ _).mpr (.inr ⟨rule, mem, rfl⟩))

/-- A complete item whose turn it is is put together with what waits for it where it starts. -/
theorem combined_visit_child {s : Closure} {parent item : Item} (hnext : item.next? = none)
    (hparent : parent ∈ (s.columnAt earlier item.start).keys)
    (hwait : parent.next? = some item.symbol) (weight : Weight) :
    (parent, item) ∈ (s.visit g earlier item weight).combined := by
  simp only [Closure.visit, hnext]
  exact s.mem_combined_complete hparent hwait weight

/-- A waiting item whose turn it is is put together with what is complete and starts here. -/
theorem combined_visit_parent {s : Closure} {item child : Item}
    (hfits : child.Fits g earlier.length) (hchild : child ∈ s.column.keys)
    (hcomplete : child.next? = none) (hstart : child.start = earlier.length)
    (hwait : item.next? = some child.symbol) (weight : Weight) :
    (item, child) ∈ (s.visit g earlier item weight).combined := by
  cases child with
  | scanned cls start =>
      -- A scanned class starts at the position before.
      have hbefore : start + 1 = earlier.length := hfits.1
      simp only [Item.start] at hstart
      omega
  | dotted lhs before after start =>
      simp only [Item.symbol] at hwait
      simp only [Closure.visit, hwait]
      exact Closure.mem_combined_completeEmpty _
        ((s.prefix_predict _ _ weight).subset hchild) hcomplete hstart hwait

theorem visit (hkept : Kept g earlier (Item.Fits g earlier.length)) {i : Nat} {s : Closure}
    (h : Walked g earlier i s) {item : Item} {weight : Weight}
    (hentry : s.column.entries[i]? = some (item, weight)) :
    Walked g earlier (i + 1) (s.visit g earlier item weight) := by
  have hprefix : s.column.keys <+: (s.visit g earlier item weight).column.keys :=
    s.prefix_visit item weight
  have hkey : s.column.keys[i]? = some item := by simp [OrderedMap.keys, hentry]
  have hitem : item ∈ s.column.keys := List.mem_of_getElem? hkey
  have hturn := mem_take_succ hprefix hkey
  have hkeep : s.combined ⊆ (s.visit g earlier item weight).combined :=
    s.combined_subset_visit item weight
  constructor
  case fits => exact hkept.visit h.fits hitem weight
  case honest => exact h.honest.visit item weight
  case predicted =>
    intro other hother name hnext rule mem
    rcases (hturn other).mp hother with hold | rfl
    · exact hprefix.subset (h.predicted other hold name hnext rule mem)
    · exact predicted_visit hnext mem weight
  case combined =>
    intro child hchild hcomplete parent hparent hwait hhere
    by_cases hstart : child.start = earlier.length
    · have hparent := (hturn parent).mp (hhere hstart)
      rcases (hturn child).mp hchild with hold | rfl
      · rcases hparent with hparent | rfl
        · have hcolumn : parent ∈ (s.columnAt earlier child.start).keys := by
            rw [hstart, s.columnAt_here]
            exact List.mem_of_mem_take hparent
          exact hkeep (h.combined child hold hcomplete parent hcolumn hwait fun _ => hparent)
        · have hchild := List.mem_of_mem_take hold
          exact combined_visit_parent (h.fits child hchild) hchild hcomplete hstart hwait weight
      · have hcolumn : parent ∈ (s.columnAt earlier child.start).keys := by
          rw [hstart, s.columnAt_here]
          exact hparent.elim List.mem_of_mem_take fun heq => heq ▸ hitem
        exact combined_visit_child hcomplete hcolumn hwait weight
    · rw [Closure.columnAt_past _ hstart, ← s.columnAt_past hstart] at hparent
      rcases (hturn child).mp hchild with hold | rfl
      · exact hkeep
          (h.combined child hold hcomplete parent hparent hwait fun heq => absurd heq hstart)
      · exact combined_visit_child hcomplete hparent hwait weight

/-- Once the turns are as many as the items, they are over. -/
theorem full {i : Nat} {s : Closure} (h : Walked g earlier i s) (hi : s.column.keys.length ≤ i) :
    Walked g earlier s.column.keys.length s := by
  have htake : s.column.keys.take i = s.column.keys := List.take_of_length_le hi
  constructor
  case fits => exact h.fits
  case honest => exact h.honest
  case predicted => simpa only [List.take_length, htake] using h.predicted
  case combined => simpa only [List.take_length, htake] using h.combined

theorem walk (hkept : Kept g earlier (Item.Fits g earlier.length)) (fuel : Nat) {i : Nat}
    {s : Closure} (h : Walked g earlier i s) (hroom : capacity g earlier.length ≤ fuel + i) :
    Walked g earlier (Closure.walk g earlier fuel i s).column.keys.length
      (Closure.walk g earlier fuel i s) := by
  induction fuel generalizing i s with
  | zero =>
      have hsize := length_keys_le h.fits
      have hnames := length_classNames_le g
      rw [capacity_eq] at hroom
      exact h.full (by omega)
  | succ fuel ih =>
      simp only [Closure.walk]
      split
      · next hnone =>
          have hlength : s.column.entries.length ≤ i := List.getElem?_eq_none_iff.mp hnone
          exact h.full (by simpa [OrderedMap.keys] using hlength)
      · next hentry => exact ih (h.visit hkept hentry) (by omega)

end Walked

/-- A column lacks nothing that its items ask for. -/
structure Closed (g : Grammar) (earlier : List Column) (column : Column) : Prop where
  predicted {item : Item} {name : String} {rule : Rule} :
    item ∈ column.keys → item.next? = some (.nonterminal name) → rule ∈ g.rules name →
      .ofRule name rule earlier.length ∈ column.keys
  completed {parent child : Item} :
    child ∈ column.keys → child.next? = none →
      parent ∈ (Closure.columnAt earlier ⟨column, []⟩ child.start).keys →
        parent.next? = some child.symbol → parent.advance ∈ column.keys

section Close

variable {column : Column}

theorem prefix_close : column.keys <+: (close g earlier column).column.keys :=
  Closure.prefix_walk (capacity g earlier.length) 0 ⟨column, []⟩

theorem kept_close {p : Item → Prop} (h : Kept g earlier p)
    (hcolumn : ∀ item ∈ column.keys, p item) :
    ∀ item ∈ (close g earlier column).column.keys, p item :=
  h.walk _ _ hcolumn

theorem closed_close
    (hpast : ∀ position < earlier.length, ∀ item ∈ (past earlier position).keys,
      item.Fits g position)
    (hcolumn : ∀ item ∈ column.keys, item.Fits g earlier.length) :
    Closed g earlier (close g earlier column).column := by
  have hwalked := (Walked.start hcolumn).walk (kept_fits hpast) (capacity g earlier.length)
    (Nat.le_refl _)
  constructor
  case predicted =>
    intro item name rule hitem hnext mem
    exact hwalked.predicted item (by rwa [List.take_length]) name hnext rule mem
  case completed =>
    intro parent child hchild hcomplete hparent hwait
    refine hwalked.honest _
      (hwalked.combined child (by rwa [List.take_length]) hcomplete parent hparent hwait ?_)
    intro hstart
    have hhere : parent ∈ (Closure.columnAt earlier ⟨(close g earlier column).column, []⟩
        earlier.length).keys := hstart ▸ hparent
    rw [Closure.columnAt_here] at hhere
    rwa [List.take_length]

end Close

end Neologism.Chart
