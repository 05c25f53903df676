import Mathlib.Data.List.Induction
import Neologism.Chart.Basic
import Neologism.Grammar.Derivation
import Neologism.Proofs.Chart.Closure

/-! # Reading tokens

What a chart becomes when it reads tokens one after the other, and which tokens it would read
next. Reading a token closes one more column and leaves the columns before as they were.

Main statements: `isSome_advance?_iff` and `contains_allowed_iff` say that a token is read, and
counts as allowed, when some item of the current column waits for a class with it. `readAll?_induct`
is the induction over everything that was read. -/

namespace Neologism.Chart

/-- Read tokens in order, unless one of them is refused. -/
def readAll? (ch : Chart) : List Token → Option Chart
  | [] => some ch
  | token :: rest => (ch.advance? token).bind fun next => next.readAll? rest

@[simp]
theorem readAll?_nil (ch : Chart) : ch.readAll? [] = some ch :=
  rfl

theorem readAll?_append (ch : Chart) (ts us : List Token) :
    ch.readAll? (ts ++ us) = (ch.readAll? ts).bind fun mid => mid.readAll? us := by
  induction ts generalizing ch with
  | nil => rfl
  | cons t ts ih =>
      simp only [List.cons_append, readAll?, Option.bind_assoc]
      congr
      funext next
      exact ih next

theorem readAll?_concat (ch : Chart) (ts : List Token) (t : Token) :
    ch.readAll? (ts ++ [t]) = (ch.readAll? ts).bind fun mid => mid.advance? t := by
  rw [readAll?_append]
  congr
  funext mid
  simp [readAll?]

theorem readAll?_concat_eq_some_iff {ch next : Chart} {ts : List Token} {t : Token} :
    ch.readAll? (ts ++ [t]) = some next ↔
      ∃ mid, ch.readAll? ts = some mid ∧ mid.advance? t = some next := by
  rw [readAll?_concat, Option.bind_eq_some_iff]

/-- What holds of a chart before it reads, and is kept by each token it reads, holds of it
afterwards. -/
theorem readAll?_induct {first : Chart} {motive : List Token → Chart → Prop}
    (start : motive [] first)
    (step : ∀ ts ch t next, motive ts ch → ch.advance? t = some next → motive (ts ++ [t]) next)
    {ts : List Token} {ch : Chart} (h : first.readAll? ts = some ch) : motive ts ch := by
  induction ts using List.reverseRecOn generalizing ch with
  | nil =>
      obtain rfl : first = ch := Option.some.inj h
      exact start
  | append_singleton ts t ih =>
      obtain ⟨mid, hmid, hadvance⟩ := readAll?_concat_eq_some_iff.mp h
      exact step ts mid t ch (ih hmid) hadvance

/-- Some item of the current column waits for a class with the token. -/
def Offers (ch : Chart) (token : Token) : Prop :=
  ∃ item ∈ ch.current.keys, ∃ name,
    item.next? = some (.cls name) ∧ ch.lexicon.Holds name token

theorem awaitedClass_eq_some_iff (ch : Chart) (item : Item) (name : String) (c : CharClass) :
    ch.awaitedClass item = some (name, c) ↔
      item.next? = some (.cls name) ∧ ch.lexicon.get? name = some c := by
  cases h : item.next? with
  | none => simp [awaitedClass, h]
  | some symbol =>
      cases symbol with
      | nonterminal other => simp [awaitedClass, h]
      | cls other =>
          simp only [awaitedClass, h, Option.map_eq_some_iff, Prod.mk.injEq, Option.some.injEq,
            Symbol.cls.injEq]
          grind

/-- An item waits for a class with the token exactly when the class that it waits for is bound
and contains the token. -/
theorem waits_iff (ch : Chart) (item : Item) (name : String) (token : Token) :
    (item.next? = some (.cls name) ∧ ch.lexicon.Holds name token) ↔
      ∃ c, ch.awaitedClass item = some (name, c) ∧ c.contains token = true := by
  simp only [awaitedClass_eq_some_iff, Lexicon.Holds, ← exists_and_left, and_assoc]

theorem mem_scan (ch : Chart) (token : Token) (item : Item) :
    item ∈ (ch.scan token).keys ↔
      ∃ waiting ∈ ch.current.keys, ∃ name, waiting.next? = some (.cls name) ∧
        ch.lexicon.Holds name token ∧ item = .scanned name ch.position := by
  have hfold : item ∈ (ch.scan token).keys ↔
      item ∈ (OrderedMap.empty : Column).keys ∨ ∃ e ∈ ch.current.entries, ∃ name c,
        ch.awaitedClass e.1 = some (name, c) ∧ c.contains token = true ∧
          item = .scanned name ch.position := by
    apply OrderedMap.mem_keys_foldl
    intro column e other
    cases ch.awaitedClass e.1 with
    | none => simp
    | some found =>
        obtain ⟨name, c⟩ := found
        by_cases hc : c.contains token = true
        · simp [hc, OrderedMap.mem_keys_add]
        · simp [hc]
  rw [hfold]
  simp only [OrderedMap.keys_empty, List.not_mem_nil, false_or, ← and_assoc, waits_iff,
    OrderedMap.mem_keys_iff, Prod.exists, exists_and_right]

/-- A token is read exactly when some item waits for a class with it. -/
theorem isSome_advance?_iff (ch : Chart) (token : Token) :
    (ch.advance? token).isSome = true ↔ ch.Offers token := by
  have hnone : (ch.advance? token).isSome = true ↔ ¬ (ch.scan token).isEmpty = true := by
    rw [← ch.advance?_eq_none_iff token]
    exact Option.isSome_iff_ne_none
  rw [hnone, OrderedMap.isEmpty_iff]
  constructor
  · intro h
    obtain ⟨item, hitem⟩ := not_forall_not.mp h
    obtain ⟨waiting, hwaiting, name, hnext, hold, -⟩ := (ch.mem_scan token item).mp hitem
    exact ⟨waiting, hwaiting, name, hnext, hold⟩
  · rintro ⟨waiting, hwaiting, name, hnext, hold⟩ hempty
    exact hempty _ ((ch.mem_scan token _).mpr ⟨waiting, hwaiting, name, hnext, hold, rfl⟩)

theorem mem_keys_weighted (c : CharClass) (table : Table) (w : Weight) (token : Token) :
    token ∈ (c.entries.foldl (fun table t => table.add t.1 (t.2 * w)) table).keys ↔
      token ∈ table.keys ∨ token ∈ c.keys := by
  have hfold : token ∈ (c.entries.foldl (fun table t => table.add t.1 (t.2 * w)) table).keys ↔
      token ∈ table.keys ∨ ∃ t ∈ c.entries, token = t.1 := by
    apply OrderedMap.mem_keys_foldl
    intro table t other
    exact table.mem_keys_add t.1 other (t.2 * w)
  rw [hfold]
  simp only [OrderedMap.mem_keys_iff, Prod.exists]
  grind

/-- A token counts as allowed exactly when some item waits for a class with it, whatever its
weight is. -/
theorem contains_allowed_iff (ch : Chart) (token : Token) :
    ch.allowed.contains token = true ↔ ch.Offers token := by
  have hfold : token ∈ ch.allowed.keys ↔
      token ∈ (OrderedMap.empty : Table).keys ∨ ∃ e ∈ ch.current.entries, ∃ name c,
        ch.awaitedClass e.1 = some (name, c) ∧ c.contains token = true := by
    apply OrderedMap.mem_keys_foldl
    intro table e other
    cases ch.awaitedClass e.1 with
    | none => simp
    | some found =>
        obtain ⟨name, c⟩ := found
        simp [mem_keys_weighted, OrderedMap.contains_iff]
  rw [OrderedMap.contains_iff, hfold]
  simp only [OrderedMap.keys_empty, List.not_mem_nil, false_or, Offers, waits_iff,
    OrderedMap.mem_keys_iff, Prod.exists, exists_and_right]

/-- The column at a position that was reached. -/
def columnAt (ch : Chart) (position : Nat) : Column :=
  Closure.columnAt ch.earlier ⟨ch.current, []⟩ position

theorem columnAt_position (ch : Chart) : ch.columnAt ch.position = ch.current :=
  Closure.columnAt_here _

theorem advance?_eq_some_iff {ch next : Chart} {token : Token} :
    ch.advance? token = some next ↔ (ch.scan token).isEmpty = false ∧
      next = { ch with
        current := (close ch.grammar (ch.current :: ch.earlier) (ch.scan token)).column
        earlier := ch.current :: ch.earlier } := by
  cases h : (ch.scan token).isEmpty with
  | true => simp [advance?, h]
  | false =>
      simp only [advance?, h, Bool.false_eq_true, if_false, Option.some.injEq, true_and]
      exact eq_comm

theorem past_cons (ch : Chart) {position : Nat} (h : position ≤ ch.position) :
    past (ch.current :: ch.earlier) position = ch.columnAt position := by
  simp only [Chart.position] at h
  simp only [past, columnAt, Closure.columnAt, List.length_cons, Nat.add_sub_cancel]
  split
  · next heq => simp [heq]
  · next hne =>
      obtain ⟨n, hn⟩ : ∃ n, ch.earlier.length - position = n + 1 :=
        ⟨ch.earlier.length - position - 1, by omega⟩
      have hm : ch.earlier.length - 1 - position = n := by omega
      rw [hn, hm, List.getElem?_cons_succ]

/-- Reading a token leaves the columns that are there alone. -/
theorem columnAt_of_advance? {ch next : Chart} {token : Token}
    (h : ch.advance? token = some next) {position : Nat} (hle : position ≤ ch.position) :
    next.columnAt position = ch.columnAt position := by
  obtain ⟨-, rfl⟩ := advance?_eq_some_iff.mp h
  have hne : position ≠ (ch.current :: ch.earlier).length := by
    simp only [Chart.position] at hle
    simp only [List.length_cons]
    omega
  rw [columnAt, Closure.columnAt_past _ hne, ch.past_cons hle]

end Neologism.Chart
