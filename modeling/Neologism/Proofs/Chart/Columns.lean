import Neologism.Proofs.Chart.Justification
import Neologism.Proofs.Chart.Reading

/-! # What the columns of a chart hold

A chart that read some tokens has a column for every prefix of them. Each of its columns is
closed, and the columns are linked by the tokens between them.

Main statements: `tracks_of_readAll?` collects these facts for every chart that a root can come
to, and `mem_columnAt_iff` draws the conclusion: the column of a prefix holds exactly the items
that the prefix justifies. -/

namespace Neologism.Chart

open Grammar

variable {g : Grammar} {lex : Lexicon} {root : String}

/-- The column at a position lacks nothing that its items ask for. -/
structure ClosedAt (g : Grammar) (ch : Chart) (position : Nat) : Prop where
  predicted {item : Item} {name : String} {rule : Rule} :
    item ∈ (ch.columnAt position).keys → item.next? = some (.nonterminal name) →
      rule ∈ g.rules name → .ofRule name rule position ∈ (ch.columnAt position).keys
  completed {parent child : Item} :
    child ∈ (ch.columnAt position).keys → child.next? = none →
      parent ∈ (ch.columnAt child.start).keys → parent.next? = some child.symbol →
        parent.advance ∈ (ch.columnAt position).keys

theorem Closed.closedAt {ch : Chart} (h : Closed g ch.earlier ch.current) :
    ClosedAt g ch ch.position := by
  constructor
  case predicted =>
    intro item name rule hitem hnext mem
    rw [columnAt_position] at hitem ⊢
    exact h.predicted hitem hnext mem
  case completed =>
    intro parent child hchild hcomplete hparent hwait
    rw [columnAt_position] at hchild ⊢
    exact h.completed hchild hcomplete hparent hwait

/-- A closed column stays closed when more is read. -/
theorem ClosedAt.of_advance? {ch next : Chart} {token : Token} {position : Nat}
    (h : ClosedAt g ch position) (hstep : ch.advance? token = some next)
    (hle : position ≤ ch.position)
    (hfits : ∀ item ∈ (ch.columnAt position).keys, item.Fits g position) :
    ClosedAt g next position := by
  have hcolumn := columnAt_of_advance? hstep hle
  constructor
  case predicted =>
    intro item name rule hitem hnext mem
    rw [hcolumn] at hitem ⊢
    exact h.predicted hitem hnext mem
  case completed =>
    intro parent child hchild hcomplete hparent hwait
    rw [hcolumn] at hchild ⊢
    rw [columnAt_of_advance? hstep ((hfits child hchild).start_le.trans hle)] at hparent
    exact h.completed hchild hcomplete hparent hwait

/-- Justified items bring in justified items, if those of the columns before are. -/
theorem kept_justified {earlier : List Column} {us : List Token}
    (hlength : earlier.length = us.length)
    (hpast : ∀ xs ys, us = xs ++ ys → xs.length < us.length →
      ∀ item ∈ (past earlier xs.length).keys, item.Justified g lex root xs) :
    Kept g earlier (Item.Justified g lex root us) where
  predict hitem hnext mem := by
    rw [hlength]
    exact Item.justified_ofRule (hitem.anticipates_next hnext) mem
  combinePast := by
    intro parent child hchild hcomplete hstart hparent hwait
    obtain ⟨xs, ys, rfl, hxs, -⟩ := hchild.derives_symbol hcomplete
    rw [← hxs] at hparent hstart
    have hlt : xs.length < (xs ++ ys).length := by
      rw [hlength, List.length_append] at hstart
      rw [List.length_append]
      omega
    exact (hpast xs ys rfl hlt parent hparent).advance hchild hcomplete hxs.symm hwait
  combineHere := by
    intro parent child hchild hcomplete hstart hparent hwait
    rw [← List.append_nil us] at hchild ⊢
    exact hparent.advance hchild hcomplete (hstart.trans hlength) hwait

/-- The chart has read the tokens from the root on: it has a column for every prefix, closed and
holding fitting and justified items, the first begins with the rules of the root, and each token
was read wherever it was waited for. -/
structure Tracks (g : Grammar) (lex : Lexicon) (root : String) (ts : List Token) (ch : Chart) :
    Prop where
  grammar_eq : ch.grammar = g
  lexicon_eq : ch.lexicon = lex
  root_eq : ch.root = root
  position_eq : ch.position = ts.length
  fits : ∀ us, us <+: ts → ∀ item ∈ (ch.columnAt us.length).keys, item.Fits g us.length
  justified : ∀ us, us <+: ts →
    ∀ item ∈ (ch.columnAt us.length).keys, item.Justified g lex root us
  closed : ∀ us, us <+: ts → ClosedAt g ch us.length
  seeded : ∀ rule ∈ g.rules root, .ofRule root rule 0 ∈ (ch.columnAt 0).keys
  scanned : ∀ us t, us ++ [t] <+: ts → ∀ item ∈ (ch.columnAt us.length).keys,
    ∀ name, item.next? = some (.cls name) → lex.Holds name t →
      .scanned name us.length ∈ (ch.columnAt (us.length + 1)).keys

theorem mem_seed (g : Grammar) (root : String) (item : Item) :
    item ∈ (seed g root).keys ↔ ∃ rule ∈ g.rules root, item = .ofRule root rule 0 := by
  have hfold : item ∈ (seed g root).keys ↔ item ∈ (OrderedMap.empty : Column).keys ∨
      ∃ rule ∈ g.rules root, item = .ofRule root rule 0 := by
    apply OrderedMap.mem_keys_foldl
    intro column rule other
    exact column.mem_keys_add (.ofRule root rule 0) other rule.weight
  simpa using hfold

theorem tracks_ofRoot (g : Grammar) (lex : Lexicon) (root : String) :
    Tracks g lex root [] (ofRoot g lex root) := by
  have hfits : ∀ item ∈ (seed g root).keys, item.Fits g ([] : List Column).length := by
    intro item hitem
    obtain ⟨rule, mem, rfl⟩ := (mem_seed g root item).mp hitem
    exact Item.fits_ofRule mem 0
  have hjustified : ∀ item ∈ (seed g root).keys, item.Justified g lex root [] := by
    intro item hitem
    obtain ⟨rule, mem, rfl⟩ := (mem_seed g root item).mp hitem
    exact Item.justified_ofRule .root mem
  have hcolumn : (ofRoot g lex root).columnAt 0 = (close g [] (seed g root)).column :=
    (ofRoot g lex root).columnAt_position
  constructor
  case grammar_eq => rfl
  case lexicon_eq => rfl
  case root_eq => rfl
  case position_eq => rfl
  case fits =>
    intro us hus item hitem
    obtain rfl := List.prefix_nil.mp hus
    rw [List.length_nil, hcolumn] at hitem
    exact kept_close (kept_fits (by simp)) hfits item hitem
  case justified =>
    intro us hus item hitem
    obtain rfl := List.prefix_nil.mp hus
    rw [List.length_nil, hcolumn] at hitem
    exact kept_close (kept_justified rfl (by simp)) hjustified item hitem
  case closed =>
    intro us hus
    obtain rfl := List.prefix_nil.mp hus
    have hclosed : Closed g (ofRoot g lex root).earlier (ofRoot g lex root).current :=
      closed_close (by simp [ofRoot]) hfits
    exact hclosed.closedAt
  case seeded =>
    intro rule mem
    rw [hcolumn]
    exact prefix_close.subset ((mem_seed g root _).mpr ⟨rule, mem, rfl⟩)
  case scanned =>
    intro us t hus
    simp at hus

namespace Tracks

variable {ts : List Token} {ch next : Chart} {token : Token}

theorem fits_scan (h : Tracks g lex root ts ch) :
    ∀ item ∈ (ch.scan token).keys, item.Fits g (ts.length + 1) := by
  intro item hitem
  obtain ⟨waiting, hwaiting, name, hnext, -, rfl⟩ := (ch.mem_scan token item).mp hitem
  rw [← ch.columnAt_position, h.position_eq] at hwaiting
  have hmem := (h.fits ts List.prefix_rfl waiting hwaiting).mem_symbols hnext
  exact ⟨by rw [h.position_eq], hmem⟩

theorem justified_scan (h : Tracks g lex root ts ch) :
    ∀ item ∈ (ch.scan token).keys, item.Justified g lex root (ts ++ [token]) := by
  intro item hitem
  obtain ⟨waiting, hwaiting, name, hnext, hold, rfl⟩ := (ch.mem_scan token item).mp hitem
  rw [← ch.columnAt_position, h.position_eq] at hwaiting
  rw [h.lexicon_eq] at hold
  rw [h.position_eq]
  exact Item.justified_scanned
    ((h.justified ts List.prefix_rfl waiting hwaiting).anticipates_next hnext) hold

/-- Seen from the next column, the columns before are those of the prefixes. -/
theorem past_eq (h : Tracks g lex root ts ch) {us : List Token} (hus : us <+: ts) :
    past (ch.current :: ch.earlier) us.length = ch.columnAt us.length :=
  ch.past_cons (h.position_eq ▸ hus.length_le)

theorem length_columns (h : Tracks g lex root ts ch) :
    (ch.current :: ch.earlier).length = ts.length + 1 :=
  congrArg (· + 1) h.position_eq

theorem past_fits (h : Tracks g lex root ts ch) :
    ∀ position < (ch.current :: ch.earlier).length,
      ∀ item ∈ (past (ch.current :: ch.earlier) position).keys, item.Fits g position := by
  intro position hlt item hitem
  rw [h.length_columns] at hlt
  have hle : position ≤ ts.length := Nat.le_of_lt_succ hlt
  have hlength : (ts.take position).length = position := List.length_take_of_le hle
  rw [← hlength] at hitem ⊢
  rw [h.past_eq (List.take_prefix position ts)] at hitem
  exact h.fits _ (List.take_prefix position ts) item hitem

theorem past_justified (h : Tracks g lex root ts ch) (token : Token) (xs ys : List Token)
    (hsplit : ts ++ [token] = xs ++ ys) (hlt : xs.length < (ts ++ [token]).length) :
    ∀ item ∈ (past (ch.current :: ch.earlier) xs.length).keys, item.Justified g lex root xs := by
  intro item hitem
  have hle : xs.length ≤ ts.length := by
    rw [List.length_append, List.length_singleton] at hlt
    omega
  have hxs : xs <+: ts :=
    List.prefix_of_prefix_length_le ⟨ys, hsplit.symm⟩ (List.prefix_append ts [token]) hle
  rw [h.past_eq hxs] at hitem
  exact h.justified xs hxs item hitem

/-- The column that a token adds is what was scanned, closed. -/
theorem columnAt_last (h : Tracks g lex root ts ch) (hstep : ch.advance? token = some next) :
    next.columnAt (ts.length + 1) =
      (close g (ch.current :: ch.earlier) (ch.scan token)).column := by
  rw [← h.position_eq, ← position_of_advance? hstep, columnAt_position, ← h.grammar_eq]
  exact congrArg Chart.current (advance?_eq_some_iff.mp hstep).2

/-- The columns before it are those that were there. -/
theorem columnAt_before (h : Tracks g lex root ts ch) (hstep : ch.advance? token = some next)
    {us : List Token} (hus : us <+: ts) : next.columnAt us.length = ch.columnAt us.length :=
  columnAt_of_advance? hstep (h.position_eq ▸ hus.length_le)

theorem closed_last (h : Tracks g lex root ts ch) (hstep : ch.advance? token = some next) :
    ClosedAt g next (ts.length + 1) := by
  have hclosed : Closed g next.earlier next.current := by
    rw [(advance?_eq_some_iff.mp hstep).2, h.grammar_eq]
    exact closed_close h.past_fits (h.length_columns.symm ▸ h.fits_scan)
  rw [← h.position_eq, ← position_of_advance? hstep]
  exact hclosed.closedAt

/-- Reading one more token keeps track of what was read. -/
theorem advance (h : Tracks g lex root ts ch) (hstep : ch.advance? token = some next) :
    Tracks g lex root (ts ++ [token]) next := by
  have hlength : (ts ++ [token]).length = ts.length + 1 := List.length_append
  obtain ⟨-, hnext⟩ := advance?_eq_some_iff.mp hstep
  constructor
  case grammar_eq => rw [hnext, h.grammar_eq]
  case lexicon_eq => rw [hnext, h.lexicon_eq]
  case root_eq => rw [hnext, h.root_eq]
  case position_eq => rw [position_of_advance? hstep, h.position_eq, hlength]
  case fits =>
    intro us hus item hitem
    rcases List.prefix_concat_iff.mp hus with rfl | hus
    · rw [hlength, h.columnAt_last hstep] at hitem
      rw [hlength, ← h.length_columns]
      exact kept_close (kept_fits h.past_fits) (h.length_columns.symm ▸ h.fits_scan) item hitem
    · rw [h.columnAt_before hstep hus] at hitem
      exact h.fits us hus item hitem
  case justified =>
    intro us hus item hitem
    rcases List.prefix_concat_iff.mp hus with rfl | hus
    · rw [hlength, h.columnAt_last hstep] at hitem
      have hkept := kept_justified (h.length_columns.trans hlength.symm) (h.past_justified token)
      exact kept_close hkept h.justified_scan item hitem
    · rw [h.columnAt_before hstep hus] at hitem
      exact h.justified us hus item hitem
  case closed =>
    intro us hus
    rcases List.prefix_concat_iff.mp hus with rfl | hus
    · rw [hlength]
      exact h.closed_last hstep
    · exact (h.closed us hus).of_advance? hstep (h.position_eq ▸ hus.length_le) (h.fits us hus)
  case seeded =>
    intro rule mem
    rw [columnAt_of_advance? hstep (Nat.zero_le _)]
    exact h.seeded rule mem
  case scanned =>
    intro us t hus item hitem name hwait hhold
    rcases List.prefix_concat_iff.mp hus with heq | hus
    · obtain ⟨rfl, ht⟩ := List.append_inj' heq rfl
      obtain rfl : t = token := List.head_eq_of_cons_eq ht
      rw [h.columnAt_before hstep List.prefix_rfl, ← h.position_eq, columnAt_position] at hitem
      rw [h.columnAt_last hstep]
      refine prefix_close.subset ((ch.mem_scan t _).mpr ⟨item, hitem, name, hwait, ?_, ?_⟩)
      · rwa [h.lexicon_eq]
      · rw [h.position_eq]
    · have hlt : us.length + 1 ≤ ts.length := by simpa using hus.length_le
      rw [h.columnAt_before hstep ((List.prefix_append us [t]).trans hus)] at hitem
      rw [columnAt_of_advance? hstep (h.position_eq ▸ hlt)]
      exact h.scanned us t hus item hitem name hwait hhold

end Tracks

/-- Every chart that a root comes to keeps track of what it has read. -/
theorem tracks_of_readAll? {ts : List Token} {ch : Chart}
    (h : (ofRoot g lex root).readAll? ts = some ch) : Tracks g lex root ts ch :=
  readAll?_induct (tracks_ofRoot g lex root) (fun _ _ _ _ tracks step => tracks.advance step) h

namespace Tracks

variable {ts us vs : List Token} {ch : Chart}

/-- A dot moves over everything that derives the tokens between two columns. The induction is on
the derivation: a class was scanned, and a nonterminal was brought in where it was waited for and
is complete where its own derivation ends. -/
theorem move_dot (h : Tracks g lex root ts ch) {symbols : List Symbol}
    (hderives : Derives g lex symbols vs) {lhs : String} {before after : List Symbol} {start : Nat}
    (hus : us ++ vs <+: ts)
    (hitem : .dotted lhs before (symbols ++ after) start ∈ (ch.columnAt us.length).keys) :
    .dotted lhs (before ++ symbols) after start ∈ (ch.columnAt (us ++ vs).length).keys := by
  induction hderives generalizing us lhs before after start with
  | nil => simpa using hitem
  | @cls name token symbols tokens hold _ ih =>
      rw [List.append_cons] at hus
      have hone : us ++ [token] <+: ts := (List.prefix_append _ tokens).trans hus
      have hchild : .scanned name us.length ∈ (ch.columnAt (us ++ [token]).length).keys := by
        rw [List.length_append, List.length_singleton]
        exact h.scanned us token hone _ hitem name rfl hold
      have hmoved : .dotted lhs (before ++ [.cls name]) (symbols ++ after) start ∈
          (ch.columnAt (us ++ [token]).length).keys :=
        (h.closed _ hone).completed hchild rfl hitem rfl
      have hrest := ih hus hmoved
      rwa [← List.append_cons, ← List.append_cons] at hrest
  | @nonterminal name rule symbols inner tokens mem _ _ ihInner ihRest =>
      rw [← List.append_assoc] at hus
      have hone : us ++ inner <+: ts := (List.prefix_append _ tokens).trans hus
      have hus' : us <+: ts := (List.prefix_append us inner).trans hone
      have hruled : .dotted name [] (rule.symbols ++ []) us.length ∈
          (ch.columnAt us.length).keys := by
        rw [List.append_nil]
        exact (h.closed us hus').predicted hitem rfl mem
      have hchild := ihInner hone hruled
      have hmoved : .dotted lhs (before ++ [.nonterminal name]) (symbols ++ after) start ∈
          (ch.columnAt (us ++ inner).length).keys :=
        (h.closed _ hone).completed hchild rfl hitem rfl
      have hrest := ihRest hus hmoved
      rwa [← List.append_cons, List.append_assoc] at hrest

/-- What may come next after a prefix is met in its column: the rules of a nonterminal, and an
item that waits for a class. -/
theorem met_of_anticipates (h : Tracks g lex root ts ch) {symbol : Symbol}
    (hnext : Anticipates g lex root us symbol) (hus : us <+: ts) :
    (∀ name, symbol = .nonterminal name → ∀ rule ∈ g.rules name,
        .ofRule name rule us.length ∈ (ch.columnAt us.length).keys) ∧
      ∀ name, symbol = .cls name →
        ∃ item ∈ (ch.columnAt us.length).keys, item.next? = some (.cls name) := by
  induction hnext with
  | root =>
      constructor
      · intro name heq rule mem
        obtain rfl := Symbol.nonterminal.inj heq
        exact h.seeded rule mem
      · intro name heq
        cases heq
  | @within us vs lhs rule before after symbol _ mem symbols hbefore ih =>
      have hlhs := (ih ((List.prefix_append us vs).trans hus)).1 lhs rfl rule mem
      rw [Item.ofRule, symbols] at hlhs
      have hitem := h.move_dot hbefore hus hlhs
      constructor
      · rintro name rfl other hother
        exact (h.closed _ hus).predicted hitem rfl hother
      · rintro name rfl
        exact ⟨_, hitem, rfl⟩

/-- Every justified item is there. -/
theorem mem_of_justified (h : Tracks g lex root ts ch) {item : Item}
    (hitem : item.Justified g lex root us) (hus : us <+: ts) :
    item ∈ (ch.columnAt us.length).keys := by
  cases item with
  | dotted lhs before after start =>
      obtain ⟨⟨rule, mem, symbols⟩, xs, ys, rfl, rfl, hlhs, hbefore⟩ := hitem
      have hrule := (h.met_of_anticipates hlhs ((List.prefix_append xs ys).trans hus)).1 lhs rfl
        rule mem
      rw [Item.ofRule, symbols] at hrule
      exact h.move_dot hbefore hus hrule
  | scanned cls start =>
      obtain ⟨xs, token, rfl, rfl, hcls, hold⟩ := hitem
      obtain ⟨waiting, hwaiting, hnext⟩ :=
        (h.met_of_anticipates hcls ((List.prefix_append xs [token]).trans hus)).2 cls rfl
      rw [List.length_append, List.length_singleton]
      exact h.scanned xs token hus waiting hwaiting cls hnext hold

/-- The column of a prefix holds exactly the items that the prefix justifies. -/
theorem mem_columnAt_iff (h : Tracks g lex root ts ch) (hus : us <+: ts) (item : Item) :
    item ∈ (ch.columnAt us.length).keys ↔ item.Justified g lex root us :=
  ⟨h.justified us hus item, fun hitem => h.mem_of_justified hitem hus⟩

theorem mem_current_iff (h : Tracks g lex root ts ch) (item : Item) :
    item ∈ ch.current.keys ↔ item.Justified g lex root ts := by
  rw [← ch.columnAt_position, h.position_eq]
  exact h.mem_columnAt_iff List.prefix_rfl item

end Tracks

end Neologism.Chart
