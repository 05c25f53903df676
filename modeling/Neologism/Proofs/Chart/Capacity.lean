import Mathlib.Algebra.BigOperators.Ring.List
import Mathlib.Algebra.Ring.Nat
import Mathlib.Data.List.Dedup
import Mathlib.Data.List.Perm.Subperm
import Neologism.Chart.Closure
import Neologism.Proofs.Grammar.Validation

/-! # The items that fit a position

An item of a column is a rule of the grammar with a dot somewhere, or a class that a rule names.
Since it starts no later than it ends, only finitely many items fit a position.

Main statement: `length_keys_le` bounds the size of a column by the places for a dot, the
positions to start at and the class names. -/

namespace Neologism.Chart

variable {g : Grammar}

namespace Item

theorem awaits_iff (parent child : Item) :
    parent.awaits child = true ↔ parent.next? = some child.symbol := by
  simp [awaits]

theorem isComplete_iff (item : Item) : item.isComplete = true ↔ item.next? = none := by
  simp [isComplete]

/-- What waits for a symbol is a rule with the dot in front of it. -/
theorem next?_eq_some_iff (item : Item) (symbol : Symbol) :
    item.next? = some symbol ↔
      ∃ lhs before after start, item = .dotted lhs before (symbol :: after) start := by
  cases item with
  | scanned cls start => simp [next?]
  | dotted lhs before after start => cases after <;> simp [next?]

/-- The item is a dotted rule of the grammar, or a class that a rule names, and it starts no later
than at the position where it ends. -/
def Fits (g : Grammar) (position : Nat) : Item → Prop
  | .dotted lhs before after start =>
      start ≤ position ∧ ∃ rule ∈ g.rules lhs, rule.symbols = before ++ after
  | .scanned cls start => start + 1 = position ∧ .cls cls ∈ g.symbols

theorem fits_ofRule {name : String} {rule : Rule} (mem : rule ∈ g.rules name) (position : Nat) :
    (ofRule name rule position).Fits g position :=
  ⟨Nat.le_refl _, rule, mem, rfl⟩

theorem Fits.start_le {item : Item} {position : Nat} (h : item.Fits g position) :
    item.start ≤ position := by
  cases item with
  | dotted lhs before after start => exact h.1
  | scanned cls start => exact h.1 ▸ Nat.le_succ start

/-- Moving the dot, now or later, does not make an item unfit. -/
theorem Fits.advance {item : Item} {symbol : Symbol} {position later : Nat}
    (h : item.Fits g position) (hle : position ≤ later) (hnext : item.next? = some symbol) :
    item.advance.Fits g later := by
  obtain ⟨lhs, before, after, start, rfl⟩ := (next?_eq_some_iff item symbol).mp hnext
  obtain ⟨hstart, rule, mem, symbols⟩ := h
  exact ⟨Nat.le_trans hstart hle, rule, mem, by simpa using symbols⟩

end Item

/-- The class names that occur in rules, each once. -/
def classNames (g : Grammar) : List String :=
  (g.symbols.filterMap fun
    | .nonterminal _ => none
    | .cls name => some name).dedup

theorem mem_classNames (g : Grammar) (name : String) :
    name ∈ classNames g ↔ Symbol.cls name ∈ g.symbols := by
  simp only [classNames, List.mem_dedup, List.mem_filterMap]
  constructor
  · rintro ⟨symbol, mem, h⟩
    cases symbol with
    | nonterminal other => simp at h
    | cls other => simpa [← Option.some.inj h] using mem
  · intro mem
    exact ⟨.cls name, mem, rfl⟩

/-- All rules, each with its nonterminal. -/
def ruleList (g : Grammar) : List (String × Rule) :=
  g.ruleSets.entries.flatMap fun e => e.2.map (e.1, ·)

theorem mem_ruleList {name : String} {rule : Rule} :
    (name, rule) ∈ ruleList g ↔ rule ∈ g.rules name := by
  simp only [ruleList, Grammar.rules, List.mem_flatMap, List.mem_map, Prod.mk.injEq]
  constructor
  · rintro ⟨⟨_, rules⟩, entry, _, mem, rfl, rfl⟩
    rw [(g.ruleSets.get?_eq_some_iff _ rules).mpr entry]
    exact mem
  · intro mem
    cases h : g.ruleSets.get? name with
    | none => simp [h] at mem
    | some rules =>
        rw [h] at mem
        exact ⟨(name, rules), (g.ruleSets.get?_eq_some_iff name rules).mp h, rule, mem, rfl, rfl⟩

/-- A symbol that an item waits for stands in a rule. -/
theorem Item.Fits.mem_symbols {item : Item} {symbol : Symbol} {position : Nat}
    (h : item.Fits g position) (hnext : item.next? = some symbol) : symbol ∈ g.symbols := by
  obtain ⟨lhs, before, after, start, rfl⟩ := (item.next?_eq_some_iff symbol).mp hnext
  obtain ⟨-, rule, mem, symbols⟩ := h
  exact Grammar.mem_symbols_iff.mpr ⟨lhs, List.mem_flatMap.mpr ⟨rule, mem, by simp [symbols]⟩⟩

/-- The number of places for a dot in the rules. -/
def places (g : Grammar) : Nat :=
  ((ruleList g).map fun r => r.2.symbols.length + 1).sum

/-- The dotted forms of one rule that start no later than at a position. -/
def dottings (position : Nat) (r : String × Rule) : List Item :=
  (List.range (r.2.symbols.length + 1)).flatMap fun n =>
    (List.range (position + 1)).map
      (.dotted r.1 (r.2.symbols.take n) (r.2.symbols.drop n))

theorem length_dottings (position : Nat) (r : String × Rule) :
    (dottings position r).length = (position + 1) * (r.2.symbols.length + 1) := by
  simp only [dottings, List.length_flatMap, List.length_map, List.length_range, List.map_const',
    List.sum_replicate_nat, Nat.mul_comm]

/-- All items that fit a position. -/
def fitting (g : Grammar) (position : Nat) : List Item :=
  (ruleList g).flatMap (dottings position) ++ (classNames g).map (.scanned · (position - 1))

theorem mem_fitting {item : Item} {position : Nat} (h : item.Fits g position) :
    item ∈ fitting g position := by
  apply List.mem_append.mpr
  cases item with
  | dotted lhs before after start =>
      obtain ⟨hstart, rule, mem, symbols⟩ := h
      refine .inl (List.mem_flatMap.mpr ⟨(lhs, rule), mem_ruleList.mpr mem, ?_⟩)
      refine List.mem_flatMap.mpr ⟨before.length, ?_, List.mem_map.mpr ⟨start, ?_, ?_⟩⟩
      · simp only [symbols, List.length_append, List.mem_range]
        omega
      · exact List.mem_range.mpr (Nat.lt_succ_of_le hstart)
      · simp [symbols]
  | scanned cls start =>
      obtain ⟨rfl, mem⟩ := h
      exact .inr (List.mem_map.mpr ⟨cls, (mem_classNames g cls).mpr mem, rfl⟩)

theorem length_fitting (g : Grammar) (position : Nat) :
    (fitting g position).length = (position + 1) * places g + (classNames g).length := by
  simp only [fitting, List.length_append, List.length_map, List.length_flatMap, length_dottings,
    places, List.sum_map_mul_left]

theorem length_classNames_le (g : Grammar) : (classNames g).length ≤ g.symbols.length :=
  Nat.le_trans (List.dedup_sublist _).length_le (List.length_filterMap_le ..)

theorem capacity_eq (g : Grammar) (position : Nat) :
    capacity g position = (position + 1) * places g + g.symbols.length := by
  have hrules : g.ruleSets.entries.flatMap Prod.snd = (ruleList g).map Prod.snd := by
    simp [ruleList, List.map_flatMap, Function.comp_def]
  simp [capacity, hrules, places, List.sum, List.foldr_map]

/-- A column of items that fit its position has no more items than there are places for a dot and
a start, and class names. -/
theorem length_keys_le {column : Column} {position : Nat}
    (h : ∀ item ∈ column.keys, item.Fits g position) :
    column.keys.length ≤ (position + 1) * places g + (classNames g).length := by
  rw [← length_fitting]
  exact (List.Nodup.subperm column.nodup_keys fun item mem => mem_fitting (h item mem)).length_le

end Neologism.Chart
