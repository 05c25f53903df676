import Neologism.Proofs.Chart.Pairs
import Neologism.Proofs.Chart.Termination

/-! # What adds to the weights of a column

While a column is closed, an item that waits for a nonterminal adds to the weights of the rules
that it brings in, and a complete child adds to the weight of the item behind a parent that it
meets. The contributions come in rounds: those of a round use the weights that were there before
it.

Main statements: `column_close` says that a closed column is what the rounds make of the opening
one, and `perm_contributions` lists the contributions without the order in which the items had
their turns. -/

namespace Neologism.Chart

variable {g : Grammar} {earlier : List Column}

/-- A way in which one item adds to the weight of another. -/
inductive Contribution where
  /-- An item that waits for a nonterminal brings in one of its rules. -/
  | brought (item : Item) (nonterminal : String) (rule : Rule)
  /-- A complete child moves the dot of a parent. -/
  | passed (parent child : Item)
deriving DecidableEq

namespace Contribution

/-- The item whose weight is made use of. -/
def source : Contribution → Item
  | brought item _ _ => item
  | passed _ child => child

/-- The item whose weight grows, in the column at the position `here`. -/
def target (here : Nat) : Contribution → Item
  | brought _ nonterminal rule => .ofRule nonterminal rule here
  | passed parent _ => parent.advance

/-- How much is added when the source has the weight. -/
def amount (weight : Weight) : Contribution → Weight
  | brought _ _ rule => weight * rule.weight
  | passed _ _ => weight

end Contribution

/-- The weight of an item in a column; an item that is missing has none. -/
def weightIn (column : Column) (item : Item) : Weight :=
  (column.get? item).getD 0.0

theorem weightIn_of_mem {column : Column} {e : Item × Weight} (h : e ∈ column.entries) :
    weightIn column e.1 = e.2 := by
  rw [weightIn, (column.get?_eq_some_iff e.1 e.2).mpr h, Option.getD_some]

/-- A round of contributions, with the weights that the sources have before it. -/
def perform (here : Nat) (column : Column) (contributions : List Contribution) : Column :=
  contributions.foldl
    (fun sum c => sum.add (c.target here) (c.amount (weightIn column c.source))) column

/-- What an item brings in. -/
def broughtBy (g : Grammar) (item : Item) : List Contribution :=
  match item.next? with
  | some (.nonterminal name) => (g.rules name).map (.brought item name)
  | _ => []

/-- What a child adds to the item behind a parent. -/
def passing (pair : Item × Item) : Contribution :=
  .passed pair.1 pair.2

namespace Closure

/-- The parents that a complete item is put together with in its turn. -/
def parents (earlier : List Column) (child : Item) (s : Closure) : List Item :=
  (s.columnAt earlier child.start).keys.filter fun parent =>
    parent.awaits child &&
      (child.start != earlier.length || !s.combined.contains (parent, child))

/-- The children that a waiting item is put together with in its turn, with their weights. -/
def children (here : Nat) (parent : Item) (s : Closure) : List (Item × Weight) :=
  s.column.entries.filter fun child =>
    child.1.isComplete && child.1.start == here && parent.awaits child.1 &&
      !s.combined.contains (parent, child.1)

theorem complete_eq (s : Closure) (child : Item) (weight : Weight) :
    s.complete earlier child weight =
      s.combine ((s.parents earlier child).map (·, child, weight)) :=
  rfl

theorem completeEmpty_eq (s : Closure) (here : Nat) (parent : Item) :
    s.completeEmpty here parent = s.combine ((s.children here parent).map (parent, ·)) :=
  rfl

/-- The rounds of the turn of an item. -/
def rounds (g : Grammar) (earlier : List Column) (item : Item) (weight : Weight) (s : Closure) :
    List (List Contribution) :=
  match item.next? with
  | none => [(s.parents earlier item).map (.passed · item)]
  | some (.nonterminal name) =>
      [(g.rules name).map (.brought item name),
        ((s.predict g earlier.length name weight).children earlier.length item).map
          (.passed item ·.1)]
  | some (.cls _) => []

/-- The rounds of the turns of all items from the index `i` on, `fuel` of them at most. -/
def schedule (g : Grammar) (earlier : List Column) :
    (fuel i : Nat) → Closure → List (List Contribution)
  | 0, _, _ => []
  | fuel + 1, i, s =>
      match s.column.entries[i]? with
      | none => []
      | some (item, weight) =>
          s.rounds g earlier item weight ++
            schedule g earlier fuel (i + 1) (s.visit g earlier item weight)

/-- A turn does to the column what its rounds do. -/
theorem column_visit (s : Closure) {item : Item} {weight : Weight}
    (hentry : (item, weight) ∈ s.column.entries) :
    (s.visit g earlier item weight).column =
      (s.rounds g earlier item weight).foldl (perform earlier.length) s.column := by
  have hweight : weightIn s.column item = weight := weightIn_of_mem hentry
  cases hnext : item.next? with
  | none =>
      simp only [visit, rounds, hnext, complete_eq, combine, perform, List.foldl_cons,
        List.foldl_nil, List.foldl_map, Contribution.target, Contribution.source,
        Contribution.amount, hweight]
  | some symbol =>
      cases symbol with
      | cls name => simp only [visit, rounds, hnext, List.foldl_nil]
      | nonterminal name =>
          have hpredict : (s.predict g earlier.length name weight).column =
              perform earlier.length s.column ((g.rules name).map (.brought item name)) := by
            simp only [predict, perform, List.foldl_map, Contribution.target, Contribution.source,
              Contribution.amount, hweight]
          simp only [visit, rounds, hnext, List.foldl_cons, List.foldl_nil, ← hpredict,
            completeEmpty_eq, combine, List.foldl_map]
          rw [perform, List.foldl_map]
          refine List.foldl_ext _ _ _ fun column child hchild => ?_
          rw [Contribution.source, Contribution.amount,
            weightIn_of_mem (List.mem_of_mem_filter hchild)]
          rfl

theorem column_walk (fuel i : Nat) (s : Closure) :
    (walk g earlier fuel i s).column =
      (schedule g earlier fuel i s).foldl (perform earlier.length) s.column := by
  induction fuel generalizing i s with
  | zero => rfl
  | succ fuel ih =>
      cases hentry : s.column.entries[i]? with
      | none => simp only [walk, schedule, hentry, List.foldl_nil]
      | some e =>
          simp only [walk, schedule, hentry, List.foldl_append]
          rw [ih, s.column_visit (List.mem_of_getElem? hentry)]

/-- What a turn contributes is what the item brings in, and what passes between the items that it
puts together. -/
theorem flatten_rounds (s : Closure) (item : Item) (weight : Weight) :
    (s.rounds g earlier item weight).flatten ++ s.combined.map passing =
      broughtBy g item ++ (s.visit g earlier item weight).combined.map passing := by
  cases hnext : item.next? with
  | none => simp [rounds, visit, broughtBy, hnext, complete_eq, combine, passing]
  | some symbol =>
      cases symbol with
      | cls name => simp [rounds, visit, broughtBy, hnext]
      | nonterminal name =>
          simp [rounds, visit, broughtBy, hnext, completeEmpty_eq, combine, predict, passing]

end Closure

theorem Turns.perm_schedule {i : Nat} {s last : Closure} {items : List Item}
    (h : Turns g earlier i s items last) {fuel : Nat} (hfuel : items.length ≤ fuel) :
    ((Closure.schedule g earlier fuel i s).flatten ++ s.combined.map passing).Perm
      (items.flatMap (broughtBy g) ++ last.combined.map passing) := by
  induction h generalizing fuel with
  | done hnone =>
      cases fuel with
      | zero => exact .refl _
      | succ fuel => simp [Closure.schedule, hnone]
  | @turn i s last item weight items hsome hrest ih =>
      obtain ⟨fuel, rfl⟩ : ∃ n, fuel = n + 1 := ⟨fuel - 1, by simp at hfuel; omega⟩
      have hlater := ih (Nat.le_of_succ_le_succ hfuel)
      simp only [Closure.schedule, hsome, List.flatten_append, List.flatMap_cons,
        List.append_assoc]
      refine (List.Perm.append_left _ List.perm_append_comm).trans ?_
      rw [← List.append_assoc, s.flatten_rounds, List.append_assoc]
      exact .append_left _ (List.perm_append_comm.trans hlater)

section Close

variable {column : Column}

/-- The rounds in which a column is closed. -/
def rounds (g : Grammar) (earlier : List Column) (column : Column) : List (List Contribution) :=
  Closure.schedule g earlier (capacity g earlier.length) 0 ⟨column, []⟩

/-- A closed column is what the rounds make of the one that was opened. -/
theorem column_close :
    (close g earlier column).column =
      (rounds g earlier column).foldl (perform earlier.length) column :=
  Closure.column_walk _ _ _

/-- Every item of the closed column brings in its rules once, and every two that meet are put
together once. -/
theorem perm_contributions (hopening : Opening g earlier column) :
    (rounds g earlier column).flatten.Perm
      ((close g earlier column).column.keys.flatMap (broughtBy g) ++
        (close g earlier column).combined.map passing) := by
  have hturns := (Walked.start hopening.here).turns (kept_fits hopening.past)
    (capacity g earlier.length) (Nat.le_refl _)
  have hroom : (close g earlier column).column.keys.length ≤ capacity g earlier.length := by
    have hsize := length_keys_le hopening.walked.fits
    have hnames := length_classNames_le g
    rw [capacity_eq]
    omega
  simpa [rounds, close] using hturns.perm_schedule hroom

end Close

theorem opening_seed (g : Grammar) (root : String) : Opening g [] (seed g root) where
  past _ hlt := absurd hlt (Nat.not_lt_zero _)
  here item hitem := by
    obtain ⟨rule, mem, rfl⟩ := (mem_seed g root item).mp hitem
    exact Item.fits_ofRule mem 0

theorem Tracks.opening_scan {lex : Lexicon} {root : String} {ts : List Token} {ch : Chart}
    (h : Tracks g lex root ts ch) (t : Token) :
    Opening g (ch.current :: ch.earlier) (ch.scan t) where
  past := h.past_fits
  here := h.length_columns.symm ▸ h.fits_scan

end Neologism.Chart
