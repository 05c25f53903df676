import Neologism.Proofs.Chart.Columns
import Neologism.Proofs.Chart.Undoing

/-! # The loop over a column comes to an end

A column is closed by a loop that gives its items their turns from the first to the last, and the
turns add items at its end. `Turns` is that loop with nothing that limits the number of turns. An
item that was given a turn is not added again, and only finitely many items fit a position, so the
loop runs out of items.

Main statements: `Walked.turns` for the loop over items that fit, and `columns_settle` for every
column of every chart. -/

namespace Neologism.Chart

variable {g : Grammar} {earlier : List Column}

/-- What tells items apart: the left side and the symbols of the rule, the place of the dot, the
start, and whether the item is a token that was read. -/
def Item.identity : Item → String × List Symbol × Nat × Nat × Bool
  | .dotted lhs before after start => (lhs, before ++ after, before.length, start, false)
  | .scanned cls start => (cls, [], 0, start, true)

theorem Item.identity_injective : Function.Injective Item.identity := by
  intro x y h
  cases x with
  | scanned cls start =>
      cases y with
      | scanned cls' start' => simpa [identity] using h
      | dotted lhs' before' after' start' => simp [identity] at h
  | dotted lhs before after start =>
      cases y with
      | scanned cls' start' => simp [identity] at h
      | dotted lhs' before' after' start' =>
          simp only [identity, Prod.mk.injEq, and_true] at h
          obtain ⟨rfl, hsymbols, hdot, rfl⟩ := h
          obtain ⟨rfl, rfl⟩ := List.append_inj hsymbols hdot
          rfl

/-- The loop from an index on, to its end: which items have their turns, and what it leaves. -/
inductive Turns (g : Grammar) (earlier : List Column) :
    Nat → Closure → List Item → Closure → Prop
  /-- There is no item at the index. -/
  | done {i : Nat} {s : Closure} : s.column.entries[i]? = none → Turns g earlier i s [] s
  /-- The item at the index has its turn, and the loop goes on behind it. -/
  | turn {i : Nat} {s last : Closure} {item : Item} {weight : Weight} {items : List Item} :
      s.column.entries[i]? = some (item, weight) →
        Turns g earlier (i + 1) (s.visit g earlier item weight) items last →
          Turns g earlier i s (item :: items) last

namespace Turns

variable {i : Nat} {s last last' : Closure} {items items' : List Item}

/-- The loop has one outcome. -/
theorem unique (h : Turns g earlier i s items last) (h' : Turns g earlier i s items' last') :
    items = items' ∧ last = last' := by
  induction h generalizing items' with
  | done hnone =>
      cases h' with
      | done => exact ⟨rfl, rfl⟩
      | turn hsome => exact nomatch hnone.symm.trans hsome
  | turn hsome _ ih =>
      cases h' with
      | done hnone => exact nomatch hnone.symm.trans hsome
      | turn hsome' hrest' =>
          obtain ⟨rfl, rfl⟩ := Prod.mk.inj (Option.some.inj (hsome.symm.trans hsome'))
          obtain ⟨rfl, rfl⟩ := ih hrest'
          exact ⟨rfl, rfl⟩

/-- Whatever the number of turns is after which one looks, the items that are there are the first
ones of those at the end. -/
theorem walk_prefix (h : Turns g earlier i s items last) (n : Nat) :
    (Closure.walk g earlier n i s).column.keys <+: last.column.keys := by
  induction h generalizing n with
  | done hnone =>
      cases n with
      | zero => exact List.prefix_rfl
      | succ n => simp only [Closure.walk, hnone, List.prefix_rfl]
  | @turn i s last item weight items hsome hrest ih =>
      cases n with
      | zero => exact (s.prefix_visit item weight).trans (ih 0)
      | succ n => simpa only [Closure.walk, hsome] using ih n

end Turns

/-- Over items that fit, the loop comes to its end, and what it leaves is what a walk with room for
them leaves. Each item that is there at the end has had one turn. -/
theorem Walked.turns (hkept : Kept g earlier (Item.Fits g earlier.length)) (fuel : Nat) {i : Nat}
    {s : Closure} (h : Walked g earlier i s) (hroom : capacity g earlier.length ≤ fuel + i) :
    Turns g earlier i s ((Closure.walk g earlier fuel i s).column.keys.drop i)
      (Closure.walk g earlier fuel i s) := by
  induction fuel generalizing i s with
  | zero =>
      have hsize : s.column.keys.length ≤ i := by
        have hcount := length_keys_le h.fits
        have hnames := length_classNames_le g
        rw [capacity_eq] at hroom
        omega
      have hentries : s.column.entries.length ≤ i := by simpa [OrderedMap.keys] using hsize
      rw [Closure.walk, List.drop_eq_nil_of_le hsize]
      exact .done (List.getElem?_eq_none hentries)
  | succ fuel ih =>
      cases hentry : s.column.entries[i]? with
      | none =>
          have hsize : s.column.keys.length ≤ i := by
            simpa [OrderedMap.keys] using List.getElem?_eq_none_iff.mp hentry
          simp only [Closure.walk, hentry, List.drop_eq_nil_of_le hsize]
          exact .done hentry
      | some e =>
          obtain ⟨item, weight⟩ := e
          simp only [Closure.walk, hentry]
          have hkeys : s.column.keys <+:
              (Closure.walk g earlier fuel (i + 1) (s.visit g earlier item weight)).column.keys :=
            (s.prefix_visit item weight).trans (Closure.prefix_walk _ _ _)
          have hkey : s.column.keys[i]? = some item := by simp [OrderedMap.keys, hentry]
          obtain ⟨hlt, hget⟩ := List.getElem?_eq_some_iff.mp hkey
          rw [List.drop_eq_getElem_cons (Nat.lt_of_lt_of_le hlt hkeys.length_le),
            ← hkeys.getElem hlt, hget]
          exact .turn hentry (ih (h.visit hkept hentry) (by omega))

/-- The loop over an opening column comes to its end, always to the same one, and leaves the column:
every item of it has had one turn. Meanwhile the items stay in their places, no two of them have the
same identity, and they are no more than the places for a dot with a start, and the class names. -/
structure Settles (g : Grammar) (earlier : List Column) (opening column : Column) : Prop where
  ends : ∃ last, last.column = column ∧
    ∀ items s, Turns g earlier 0 ⟨opening, []⟩ items s ↔ items = column.keys ∧ s = last
  grows (n : Nat) : (Closure.walk g earlier n 0 ⟨opening, []⟩).column.keys <+: column.keys
  distinct (n : Nat) :
    ((Closure.walk g earlier n 0 ⟨opening, []⟩).column.keys.map Item.identity).Nodup
  bounded (n : Nat) : (Closure.walk g earlier n 0 ⟨opening, []⟩).column.keys.length ≤
    (earlier.length + 1) * places g + (classNames g).length

theorem nodup_identities (column : Column) : (column.keys.map Item.identity).Nodup :=
  List.Nodup.map Item.identity_injective column.nodup_keys

theorem settles_close {opening : Column}
    (hpast : ∀ position < earlier.length, ∀ item ∈ (past earlier position).keys,
      item.Fits g position)
    (hopening : ∀ item ∈ opening.keys, item.Fits g earlier.length) :
    Settles g earlier opening (close g earlier opening).column := by
  have hturns : Turns g earlier 0 ⟨opening, []⟩ (close g earlier opening).column.keys
      (close g earlier opening) :=
    (Walked.start hopening).turns (kept_fits hpast) (capacity g earlier.length) (Nat.le_refl _)
  constructor
  case ends =>
    refine ⟨close g earlier opening, rfl, fun items s => ⟨fun h => h.unique hturns, ?_⟩⟩
    rintro ⟨rfl, rfl⟩
    exact hturns
  case grows => exact hturns.walk_prefix
  case distinct => exact fun _ => nodup_identities _
  case bounded => exact fun n => length_keys_le ((kept_fits hpast).walk n 0 hopening)

/-- In every chart that a root comes to, however tokens are read, refused and taken back, the loop
that closes a column comes to its end: the one over the rules of the root, and the one over what a
token is scanned for. The columns that are there are no larger than their positions allow. -/
theorem columns_settle (g : Grammar) (lex : Lexicon) (root : String) (moves : List Move) :
    let fresh := ofRoot g lex root
    let ch := fresh.play moves
    Settles g [] (seed g root) fresh.current ∧
      (∀ token next, ch.advance? token = some next →
        Settles g (ch.current :: ch.earlier) (ch.scan token) next.current) ∧
          ∀ position ≤ ch.position,
            ((ch.columnAt position).keys.map Item.identity).Nodup ∧
              (ch.columnAt position).keys.length ≤
                (position + 1) * places g + (classNames g).length := by
  intro fresh ch
  have htracks : Tracks g lex root (fresh.surviving [] moves) ch :=
    tracks_of_readAll? (readAll?_play rfl (readAll?_nil fresh) moves)
  refine ⟨?_, ?_, ?_⟩
  · refine settles_close (by simp) fun item hitem => ?_
    obtain ⟨rule, mem, rfl⟩ := (mem_seed g root item).mp hitem
    exact Item.fits_ofRule mem 0
  · intro token next hstep
    rw [(advance?_eq_some_iff.mp hstep).2, htracks.grammar_eq]
    exact settles_close htracks.past_fits (htracks.length_columns.symm ▸ htracks.fits_scan)
  · intro position hle
    refine ⟨nodup_identities _, length_keys_le ?_⟩
    rw [htracks.position_eq] at hle
    rw [← List.length_take_of_le hle]
    exact htracks.fits _ (List.take_prefix position _)

/-- A root that is ambiguous without end: it derives the empty word, rewrites to itself through
another nonterminal, and is the first symbol of one of its rules. -/
def endless : Grammar where
  ruleSets := ⟨[("S", [⟨[.nonterminal "S", .nonterminal "S"], 1.0⟩, ⟨[.nonterminal "A"], 1.0⟩,
      ⟨[.cls "c"], 1.0⟩, ⟨[], 1.0⟩]),
    ("A", [⟨[.nonterminal "S"], 1.0⟩])], by decide⟩

/-- The root that is ambiguous without end reads a second token. The loop over its column comes to
its end, and the column of the first token has at most twenty-one items. -/
theorem columns_settle_endless :
    let lex : Lexicon := { classes := ⟨[("c", ⟨[("x", 1.0)], by decide⟩)], by decide⟩ }
    let ch := (ofRoot endless lex "S").play [.advance "x", .advance "y", .advance "x", .retreat]
    ∃ next, ch.advance? "x" = some next ∧
      Settles endless (ch.current :: ch.earlier) (ch.scan "x") next.current ∧
        (ch.columnAt 1).keys.length ≤ 21 := by
  intro lex ch
  obtain ⟨-, hadvance, hcolumns⟩ := columns_settle endless lex "S"
    [.advance "x", .advance "y", .advance "x", .retreat]
  have hsome : (ch.advance? "x").isSome = true := by decide +kernel
  obtain ⟨next, hnext⟩ := Option.isSome_iff_exists.mp hsome
  have hbound : (1 + 1) * places endless + (classNames endless).length = 21 := by decide +kernel
  exact ⟨next, hnext, hadvance "x" next hnext, hbound ▸ (hcolumns 1 (by decide +kernel)).2⟩

end Neologism.Chart
