import Neologism.Proofs.Chart.Reading

/-! # Taking tokens back

A chart is given tokens and told to take tokens back, in any order. What it is afterwards depends
on the tokens that it read and did not take back, and on nothing else that happened: it is the
chart that reads those tokens from the start.

Main statement: `readAll?_surviving`, with `readAll?_move` for one call and `flaggedColumns_prefix`
for the columns that more tokens leave alone. -/

namespace Neologism.Chart

/-- A call on a chart. -/
inductive Move where
  /-- Read a token, unless it is refused. -/
  | advance (token : Token)
  /-- Take the last token back, if there is one. -/
  | retreat
deriving DecidableEq, Repr

/-- The chart after a call. -/
def move (ch : Chart) : Move → Chart
  | .advance token => (ch.advance? token).getD ch
  | .retreat => ch.retreat

/-- The chart after calls in order. -/
def play (ch : Chart) (moves : List Move) : Chart :=
  moves.foldl move ch

/-- What a call makes of the tokens that the chart has read and not taken back. -/
def standing (ch : Chart) (tokens : List Token) : Move → List Token
  | .advance token => if (ch.advance? token).isSome then tokens ++ [token] else tokens
  | .retreat => tokens.dropLast

/-- The tokens that are read and not taken back after calls in order, `tokens` being those
before. -/
def surviving (ch : Chart) (tokens : List Token) : List Move → List Token
  | [] => tokens
  | m :: rest => (ch.move m).surviving (ch.standing tokens m) rest

/-- The columns from the first position on, each with whether a word of the root ends there. -/
def flaggedColumns (ch : Chart) : List (Column × Bool) :=
  (ch.current :: ch.earlier).reverse.map fun column =>
    (column, column.keys.any (Item.spans ch.root))

variable {first ch next : Chart} {ts : List Token} {t : Token}

theorem retreat_of_earlier_nil (h : ch.earlier = []) : ch.retreat = ch := by
  simp only [retreat, h]

/-- If a chart is what the tokens make of a new one, it is so after a call too. -/
theorem readAll?_move (hfirst : first.earlier = []) (h : first.readAll? ts = some ch) (m : Move) :
    first.readAll? (ch.standing ts m) = some (ch.move m) := by
  cases m with
  | advance t =>
      cases hread : ch.advance? t with
      | none => simpa [standing, move, hread] using h
      | some next =>
          simp only [standing, move, hread, Option.isSome_some, if_true, Option.getD_some]
          exact readAll?_concat_eq_some_iff.mpr ⟨ch, h, hread⟩
  | retreat =>
      cases ts using List.reverseRecOn with
      | nil =>
          obtain rfl : first = ch := Option.some.inj h
          simp [standing, move, retreat_of_earlier_nil hfirst]
      | append_singleton us u =>
          obtain ⟨mid, hmid, hstep⟩ := readAll?_concat_eq_some_iff.mp h
          simpa [standing, move, retreat_of_advance? hstep] using hmid

theorem readAll?_play (hfirst : first.earlier = []) (h : first.readAll? ts = some ch)
    (moves : List Move) : first.readAll? (ch.surviving ts moves) = some (ch.play moves) := by
  induction moves generalizing ch ts with
  | nil => exact h
  | cons m rest ih => exact ih (readAll?_move hfirst h m)

/-- Reading a token puts one more column behind those that are there. -/
theorem flaggedColumns_of_advance? (h : ch.advance? t = some next) :
    next.flaggedColumns = ch.flaggedColumns ++ [(next.current, next.isFinished)] := by
  obtain ⟨-, rfl⟩ := advance?_eq_some_iff.mp h
  simp [flaggedColumns, isFinished]

/-- Reading on leaves the columns that are there as they are, with their weights. -/
theorem flaggedColumns_prefix (h : ch.readAll? ts = some next) :
    ch.flaggedColumns <+: next.flaggedColumns := by
  induction ts generalizing ch with
  | nil =>
      obtain rfl : ch = next := Option.some.inj h
      exact List.prefix_rfl
  | cons t ts ih =>
      obtain ⟨mid, hmid, hrest⟩ := Option.bind_eq_some_iff.mp h
      have hone : ch.flaggedColumns <+: mid.flaggedColumns := by
        rw [flaggedColumns_of_advance? hmid]
        exact List.prefix_append _ _
      exact hone.trans (ih hrest)

/-- After any calls a chart is the one that reads the surviving tokens from the start, and the
columns that it has are those that the first of these tokens give. A token that is refused leaves
it as it is, and a token that is read can be taken back. -/
theorem readAll?_surviving (g : Grammar) (lex : Lexicon) (root : String) (moves : List Move) :
    let fresh := ofRoot g lex root
    let tokens := fresh.surviving [] moves
    let ch := fresh.play moves
    fresh.readAll? tokens = some ch ∧
      (∀ i, ∃ mid, fresh.readAll? (tokens.take i) = some mid ∧
        mid.flaggedColumns <+: ch.flaggedColumns) ∧
      ∀ token, match ch.advance? token with
        | none => ch.move (.advance token) = ch
        | some next => ch.move (.advance token) = next ∧ next.move .retreat = ch := by
  intro fresh tokens ch
  have hread : fresh.readAll? tokens = some ch := readAll?_play rfl (readAll?_nil fresh) moves
  refine ⟨hread, ?_, ?_⟩
  · intro i
    rw [← List.take_append_drop i tokens, readAll?_append] at hread
    obtain ⟨mid, hmid, hrest⟩ := Option.bind_eq_some_iff.mp hread
    exact ⟨mid, hmid, flaggedColumns_prefix hrest⟩
  · intro token
    cases hstep : ch.advance? token with
    | none => simp [move, hstep]
    | some next => exact ⟨by simp [move, hstep], retreat_of_advance? hstep⟩

end Neologism.Chart
