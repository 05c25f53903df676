import Mathlib.Data.List.Count
import Neologism.Proofs.Chart.Contributions

/-! # Closed columns are saturated

The loop over a column leaves nothing to do: what its items wait for is there, and wherever a
complete child meets a parent, the parent has moved past it. Each meeting counts once, also when
both are in the column and either of them may have been found or had its turn first.

Main statements: `saturates_close` for a column, and `columns_saturated` for every column of every
chart. -/

namespace Neologism.Chart

variable {g : Grammar} {earlier : List Column}

theorem passing_injective : Function.Injective passing := by
  rintro ⟨parent, child⟩ ⟨parent', child'⟩ h
  simpa [passing] using h

/-- What an item brings in does not pass between two others. -/
theorem passing_notMem_brought (items : List Item) (pair : Item × Item) :
    passing pair ∉ items.flatMap (broughtBy g) := by
  simp only [List.mem_flatMap, not_exists, not_and]
  intro item _ h
  simp only [broughtBy] at h
  split at h
  · obtain ⟨rule, -, hrule⟩ := List.mem_map.mp h
    exact Contribution.noConfusion hrule
  · cases h

/-- In the turns of all items, a child passes something on to a parent as often as the two count as
put together at the end. -/
theorem count_passing {opening : Column} (hopening : Opening g earlier opening)
    (pair : Item × Item) :
    (rounds g earlier opening).flatten.count (passing pair) =
      (close g earlier opening).combined.count pair := by
  rw [(perm_contributions hopening).count_eq, List.count_append,
    List.count_eq_zero.mpr (passing_notMem_brought _ pair), Nat.zero_add,
    List.count_map_of_injective _ passing passing_injective]

/-- The column is what the turns of its items make of the opening one, it lacks nothing that they
ask for, and in these turns every two items that meet are put together once, and no others. -/
structure Saturates (g : Grammar) (earlier : List Column) (opening column : Column) : Prop where
  made : column = (rounds g earlier opening).foldl (perform earlier.length) opening
  closed : Closed g earlier column
  once {parent child : Item} : Meets earlier column parent child →
    (rounds g earlier opening).flatten.count (.passed parent child) = 1
  only {parent child : Item} :
    .passed parent child ∈ (rounds g earlier opening).flatten → Meets earlier column parent child

theorem saturates_close {opening : Column} (hopening : Opening g earlier opening) :
    Saturates g earlier opening (close g earlier opening).column where
  made := column_close
  closed := closed_close hopening.past hopening.here
  once {parent child} hmeets := by
    have hpair : (parent, child) ∈ (close g earlier opening).combined :=
      (mem_combined_close hopening parent child).mpr hmeets
    exact (count_passing hopening (parent, child)).trans
      (List.count_eq_one_of_mem nodup_combined_close hpair)
  only {parent child} hpassed := by
    have hcount : 0 < (close g earlier opening).combined.count (parent, child) :=
      (count_passing hopening (parent, child)) ▸ List.count_pos_iff.mpr hpassed
    exact (mem_combined_close hopening parent child).mp (List.count_pos_iff.mp hcount)

/-- Every column of a chart is closed behind those before it, and closing one saturates it: the one
that is opened with the rules of the root, and each one that is opened with what a token is scanned
for. -/
theorem columns_saturated {lex : Lexicon} {root : String} {ts : List Token} {ch : Chart}
    (hread : (ofRoot g lex root).readAll? ts = some ch) :
    (∀ position ≤ ts.length, ClosedAt g ch position) ∧
      Saturates g [] (seed g root) (ofRoot g lex root).current ∧
        ∀ token next, ch.advance? token = some next →
          Saturates g (ch.current :: ch.earlier) (ch.scan token) next.current := by
  have htracks : Tracks g lex root ts ch := tracks_of_readAll? hread
  refine ⟨?_, saturates_close (opening_seed g root), ?_⟩
  · intro position hle
    have hclosed := htracks.closed (ts.take position) (List.take_prefix position ts)
    rwa [List.length_take_of_le hle] at hclosed
  · intro token next hstep
    rw [(advance?_eq_some_iff.mp hstep).2, htracks.grammar_eq]
    exact saturates_close (htracks.opening_scan token)

/-- Behind a token of the class `c` the root wants something that may be empty, and then a
nonterminal that wants the same once more. -/
def twiceOptional : Grammar where
  ruleSets := ⟨[("S", [⟨[.cls "c", .nonterminal "Opt", .nonterminal "T"], 1.0⟩]),
    ("T", [⟨[.nonterminal "Opt", .cls "a"], 1.0⟩]),
    ("Opt", [⟨[], 1.0⟩, ⟨[.cls "a"], 1.0⟩])], by decide⟩

/-- In the column of a token that `twiceOptional` reads, the empty child meets a parent that was
there before it had its turn, and one that was found later. It is put together with each of them
once. -/
theorem columns_saturated_twiceOptional :
    let lex : Lexicon := { classes := ⟨[("c", ⟨[("x", 1.0)], by decide⟩)], by decide⟩ }
    let ch := ofRoot twiceOptional lex "S"
    let child := Item.dotted "Opt" [] [] 1
    let first := Item.dotted "S" [.cls "c"] [.nonterminal "Opt", .nonterminal "T"] 0
    let late := Item.dotted "T" [] [.nonterminal "Opt", .cls "a"] 1
    let contributions := (rounds twiceOptional [ch.current] (ch.scan "x")).flatten
    ch.readAll? [] = some ch ∧ ∃ next, ch.advance? "x" = some next ∧
      next.current.keys.idxOf first < next.current.keys.idxOf child ∧
        next.current.keys.idxOf child < next.current.keys.idxOf late ∧
          contributions.count (.passed first child) = 1 ∧
            contributions.count (.passed late child) = 1 := by
  intro lex ch child first late contributions
  have hsome : (ch.advance? "x").isSome = true := by decide +kernel
  obtain ⟨next, hnext⟩ := Option.isSome_iff_exists.mp hsome
  have hplaces : ∀ next ∈ ch.advance? "x",
      child ∈ next.current.keys ∧ first ∈ next.current.keys ∧ late ∈ next.current.keys ∧
        next.current.keys.idxOf first < next.current.keys.idxOf child ∧
          next.current.keys.idxOf child < next.current.keys.idxOf late := by
    decide +kernel
  obtain ⟨hchild, hfirst, hlate, hbefore, hbehind⟩ := hplaces next hnext
  obtain ⟨-, -, hsaturates⟩ := columns_saturated (readAll?_nil ch)
  have hmeets {parent : Item} (hparent : parent ∈ next.current.keys)
      (hwaits : parent.next? = some child.symbol) :
      Meets [ch.current] next.current parent child :=
    ⟨hchild, rfl, hparent, hwaits⟩
  exact ⟨readAll?_nil ch, next, hnext, hbefore, hbehind,
    (hsaturates "x" next hnext).once (hmeets hfirst rfl),
    (hsaturates "x" next hnext).once (hmeets hlate rfl)⟩

end Neologism.Chart
