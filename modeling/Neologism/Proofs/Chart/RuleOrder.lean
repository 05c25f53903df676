import Neologism.Proofs.Chart.Readout
import Neologism.Proofs.Chart.Recognition

/-! # The order of the rules

Two grammars that have the same rules in different orders accept the same words, and their charts
hold the same items. The weights may differ, because a weight that grows after it was made use of
is not made use of again.

Main statements: `mem_current_reordered` for the items, `under_of_timely` for the weights when one
of the two orders closes every column in time, and `likelihoods_reordered` for what a chart tells
about the tokens that may come next and about the end. -/

namespace Neologism

/-- Each nonterminal has the same rules in both grammars, perhaps in another order. -/
def Grammar.Reordered (g g' : Grammar) : Prop :=
  ∀ name, (g.rules name).Perm (g'.rules name)

theorem Grammar.Reordered.symm {g g' : Grammar} (h : g.Reordered g') : g'.Reordered g :=
  fun name => (h name).symm

namespace Chart

open Doubles Grammar

variable {g g' : Grammar} {lex : Lexicon} {root : String} {ts : List Token} {ch ch' : Chart}

theorem justified_reordered (hrules : g.Reordered g') {us : List Token} {item : Item} :
    item.Justified g' lex root us ↔ item.Justified g lex root us :=
  ⟨.mono fun name => (hrules.symm name).subset, .mono fun name => (hrules name).subset⟩

section Items

variable (hrules : g.Reordered g') (h : Tracks g lex root ts ch) (h' : Tracks g' lex root ts ch')
include hrules h h'

theorem mem_columnAt_reordered {us : List Token} (hus : us <+: ts) (item : Item) :
    item ∈ (ch'.columnAt us.length).keys ↔ item ∈ (ch.columnAt us.length).keys := by
  rw [h.mem_columnAt_iff hus, h'.mem_columnAt_iff hus, justified_reordered hrules]

theorem mem_current_reordered (item : Item) :
    item ∈ ch'.current.keys ↔ item ∈ ch.current.keys := by
  rw [h.mem_current_iff, h'.mem_current_iff, justified_reordered hrules]

theorem perm_keys_reordered : ch.current.keys.Perm ch'.current.keys :=
  (List.perm_ext_iff_of_nodup ch.current.nodup_keys ch'.current.nodup_keys).mpr fun item =>
    (mem_current_reordered hrules h h' item).symm

theorem isFinished_reordered : ch'.isFinished = ch.isFinished := by
  rw [isFinished, isFinished, h.root_eq, h'.root_eq]
  exact ((perm_keys_reordered hrules h h').any_eq).symm

theorem offers_reordered (t : Token) : ch'.Offers t ↔ ch.Offers t := by
  simp only [Offers, mem_current_reordered hrules h h', h.lexicon_eq, h'.lexicon_eq]

theorem contains_allowed_reordered (t : Token) :
    ch'.allowed.contains t = ch.allowed.contains t := by
  rw [Bool.eq_iff_iff, contains_allowed_iff, contains_allowed_iff, offers_reordered hrules h h']

end Items

/-- What one of the grammars reads, the other one reads too. -/
theorem exists_readAll?_reordered (hrules : g.Reordered g')
    (hread : (ofRoot g lex root).readAll? ts = some ch) :
    ∃ ch', (ofRoot g' lex root).readAll? ts = some ch' := by
  induction ts using List.reverseRecOn generalizing ch with
  | nil => exact ⟨_, readAll?_nil _⟩
  | append_singleton ts t ih =>
      obtain ⟨mid, hmid, hstep⟩ := readAll?_concat_eq_some_iff.mp hread
      obtain ⟨mid', hmid'⟩ := ih hmid
      have hoffers : mid'.Offers t :=
        (offers_reordered hrules (tracks_of_readAll? hmid) (tracks_of_readAll? hmid') t).mpr
          ((mid.isSome_advance?_iff t).mp (Option.isSome_of_eq_some hstep))
      obtain ⟨next, hnext⟩ := Option.isSome_iff_exists.mp ((mid'.isSome_advance?_iff t).mpr hoffers)
      exact ⟨next, readAll?_concat_eq_some_iff.mpr ⟨mid', hmid', hnext⟩⟩

/-- The two closings have the same items in all of their columns. -/
structure SameItems (g g' : Grammar) (earlier earlier' : List Column) (column column' : Column) :
    Prop where
  length_eq : earlier'.length = earlier.length
  past (position : Nat) : position < earlier.length → ∀ item,
    item ∈ (past earlier' position).keys ↔ item ∈ (past earlier position).keys
  closed (item : Item) :
    item ∈ (close g' earlier' column').column.keys ↔ item ∈ (close g earlier column).column.keys

section Column

variable {earlier earlier' : List Column} {column column' : Column}

theorem SameItems.mem_columnAt_iff (hsame : SameItems g g' earlier earlier' column column')
    {position : Nat} (hle : position ≤ earlier.length) (item : Item) :
    item ∈ (Closure.columnAt earlier' ⟨(close g' earlier' column').column, []⟩ position).keys ↔
      item ∈ (Closure.columnAt earlier ⟨(close g earlier column).column, []⟩ position).keys := by
  by_cases hhere : position = earlier.length
  · rw [hhere, Closure.columnAt_here, ← hsame.length_eq, Closure.columnAt_here]
    exact hsame.closed item
  · rw [Closure.columnAt_past _ hhere, Closure.columnAt_past _ (hsame.length_eq ▸ hhere)]
    exact hsame.past position (Nat.lt_of_le_of_ne hle hhere) item

/-- The same items meet. -/
theorem SameItems.meets_iff (hsame : SameItems g g' earlier earlier' column column')
    (hopening : Opening g earlier column) (parent child : Item) :
    Meets earlier' (close g' earlier' column').column parent child ↔
      Meets earlier (close g earlier column).column parent child := by
  have hstart (hchild : child ∈ (close g earlier column).column.keys) :
      child.start ≤ earlier.length :=
    (hopening.walked.fits child hchild).start_le
  constructor
  · rintro ⟨hchild, hcomplete, hparent, hwaits⟩
    have hchild := (hsame.closed child).mp hchild
    exact ⟨hchild, hcomplete, (hsame.mem_columnAt_iff (hstart hchild) parent).mp hparent, hwaits⟩
  · rintro ⟨hchild, hcomplete, hparent, hwaits⟩
    exact ⟨(hsame.closed child).mpr hchild, hcomplete,
      (hsame.mem_columnAt_iff (hstart hchild) parent).mpr hparent, hwaits⟩

/-- The same contributions are made, in some order. -/
theorem perm_rounds (hrules : g.Reordered g') (hopening : Opening g earlier column)
    (hopening' : Opening g' earlier' column')
    (hsame : SameItems g g' earlier earlier' column column') :
    (rounds g earlier column).flatten.Perm (rounds g' earlier' column').flatten := by
  have hkeys : (close g earlier column).column.keys.Perm
      (close g' earlier' column').column.keys :=
    (List.perm_ext_iff_of_nodup (close g earlier column).column.nodup_keys
      (close g' earlier' column').column.nodup_keys).mpr fun item => (hsame.closed item).symm
  have hbrought (item : Item) : (broughtBy g item).Perm (broughtBy g' item) := by
    simp only [broughtBy]
    split
    · exact (hrules _).map _
    · exact .refl _
  have hcombined : (close g earlier column).combined.Perm
      (close g' earlier' column').combined := by
    refine (List.perm_ext_iff_of_nodup nodup_combined_close nodup_combined_close).mpr ?_
    rintro ⟨parent, child⟩
    rw [mem_combined_close hopening, mem_combined_close hopening', hsame.meets_iff hopening]
  have hparts := (hkeys.flatMap fun item _ => hbrought item).append (hcombined.map passing)
  exact (perm_contributions hopening).trans (hparts.trans (perm_contributions hopening').symm)

/-- Rules with natural weights make no other contributions. -/
theorem natural_of_mem_rounds (hweights : ∀ name, ∀ rule ∈ g.rules name, Natural rule.weight)
    (hopening : Opening g earlier column) :
    ∀ c ∈ (rounds g earlier column).flatten, c.Natural := by
  intro c hc
  rw [(perm_contributions hopening).mem_iff, List.mem_append] at hc
  rcases hc with hbrought | hpassed
  · obtain ⟨item, -, hc⟩ := List.mem_flatMap.mp hbrought
    simp only [broughtBy] at hc
    split at hc
    · obtain ⟨rule, mem, rfl⟩ := List.mem_map.mp hc
      exact hweights _ rule mem
    · cases hc
  · obtain ⟨pair, -, rfl⟩ := List.mem_map.mp hpassed
    trivial

/-- A column that is closed in time has no less weight than one that opens with no more and is
closed by the same rules in another order. -/
theorem under_close (hrules : g.Reordered g')
    (hweights : ∀ name, ∀ rule ∈ g.rules name, Natural rule.weight)
    (hopening : Opening g earlier column) (hopening' : Opening g' earlier' column')
    (hsame : SameItems g g' earlier earlier' column column') {number number' : Item → Nat}
    (h : Tallies column number) (h' : Tallies column' number')
    (hle : ∀ item, number' item ≤ number item)
    (hnatural : ∀ e ∈ (close g earlier column).column.entries, Natural e.2)
    (htimely : Timely g earlier column) :
    Under (close g' earlier' column').column (close g earlier column).column := by
  obtain ⟨last, hlast, hsmall⟩ := Tallies.exists_of_natural hnatural
  have hcolumn : (close g earlier column).column =
      (rounds g earlier column).foldl (perform earlier.length) column := column_close
  obtain ⟨last', hlast', hle'⟩ := exists_tallies_le_of_inTime
    (natural_of_mem_rounds hweights hopening) (perm_rounds hrules hopening hopening' hsame) h h' hle
    (hcolumn ▸ hlast) hsmall (hcolumn ▸ htimely)
  refine ⟨last', last, ?_, hlast, hle', hsmall⟩
  rw [column_close, hsame.length_eq]
  exact hlast'

end Column

/-- The weights of a chart are natural numbers, so nothing was rounded on the way to them. -/
structure Exact (ch : Chart) : Prop where
  items : ∀ e ∈ ch.current.entries, Natural e.2
  allowed : ∀ e ∈ ch.allowed.entries, Natural e.2
  finished : Natural (ch.weightWhere (Item.spans ch.root))
  unfinished : Natural (ch.weightWhere fun item => !item.isComplete)

instance (ch : Chart) : Decidable ch.Exact :=
  decidable_of_iff
    ((∀ e ∈ ch.current.entries, Natural e.2) ∧ (∀ e ∈ ch.allowed.entries, Natural e.2) ∧
      Natural (ch.weightWhere (Item.spans ch.root)) ∧
        Natural (ch.weightWhere fun item => !item.isComplete))
    ⟨fun ⟨hi, ha, hf, hu⟩ => ⟨hi, ha, hf, hu⟩, fun ⟨hi, ha, hf, hu⟩ => ⟨hi, ha, hf, hu⟩⟩

/-- No weight is rounded while the tokens are read. -/
def ExactReading (g : Grammar) (lex : Lexicon) (root : String) (ts : List Token) : Prop :=
  ∀ us mid, us <+: ts → (ofRoot g lex root).readAll? us = some mid → mid.Exact

/-- Every column is closed in time while the tokens are read. -/
structure TimelyReading (g : Grammar) (lex : Lexicon) (root : String) (ts : List Token) : Prop where
  seed : Timely g [] (seed g root)
  scan : ∀ us t mid, us ++ [t] <+: ts → (ofRoot g lex root).readAll? us = some mid →
    Timely g (mid.current :: mid.earlier) (mid.scan t)

theorem TimelyReading.of_prefix {us : List Token} (h : TimelyReading g lex root ts)
    (hus : us <+: ts) : TimelyReading g lex root us where
  seed := h.seed
  scan vs t mid hvs := h.scan vs t mid (hvs.trans hus)

theorem TimelyReading.of_singleton {t : Token} (hseed : Timely g [] (Chart.seed g root))
    (hscan : Timely g [(ofRoot g lex root).current] ((ofRoot g lex root).scan t)) :
    TimelyReading g lex root [t] where
  seed := hseed
  scan us u mid hus hmid := by
    obtain ⟨rfl, rfl⟩ : us = [] ∧ u = t := by
      have hlength : us.length = 0 := by simpa using hus.length_le
      obtain rfl := List.length_eq_zero_iff.mp hlength
      simpa using hus
    obtain rfl := Option.some.inj hmid
    exact hscan

/-- The weights of rules and classes are natural numbers. -/
structure NaturalWeights (g : Grammar) (lex : Lexicon) : Prop where
  rules : ∀ name, ∀ rule ∈ g.rules name, Natural rule.weight
  classes : ∀ name c, lex.get? name = some c → ∀ t ∈ c.entries, Natural t.2

theorem NaturalWeights.of_entries (hrules : ∀ r ∈ ruleList g, Natural r.2.weight)
    (hclasses : ∀ e ∈ lex.classes.entries, ∀ t ∈ e.2.entries, Natural t.2) :
    NaturalWeights g lex where
  rules name rule mem := hrules (name, rule) (mem_ruleList.mpr mem)
  classes name c hget := hclasses (name, c) ((lex.classes.get?_eq_some_iff name c).mp hget)

theorem NaturalWeights.reordered (h : NaturalWeights g lex) (hrules : g.Reordered g') :
    NaturalWeights g' lex where
  rules name rule mem := h.rules name rule ((hrules name).mem_iff.mpr mem)
  classes := h.classes

section Charts

/-- The opening column holds what the weights of the rules add up to. -/
theorem tallies_seed (hweights : ∀ rule ∈ g.rules root, Natural rule.weight) :
    Tallies (seed g root)
      (received (.ofRule root · 0) (fun rule => count rule.weight) (g.rules root)) :=
  Tallies.foldl_add_empty fun rule mem => (hweights rule mem).counts

theorem under_seed (hrules : g.Reordered g') (hweights : NaturalWeights g lex)
    (hnatural : ∀ e ∈ (ofRoot g lex root).current.entries, Natural e.2)
    (htimely : Timely g [] (seed g root)) :
    Under (ofRoot g' lex root).current (ofRoot g lex root).current := by
  have hsame : SameItems g g' [] [] (seed g root) (seed g' root) :=
    ⟨rfl, fun _ hlt => absurd hlt (Nat.not_lt_zero _),
      mem_current_reordered hrules (tracks_ofRoot g lex root) (tracks_ofRoot g' lex root)⟩
  refine under_close hrules hweights.rules (opening_seed g root) (opening_seed g' root) hsame
    (tallies_seed (hweights.rules root)) (tallies_seed ((hweights.reordered hrules).rules root))
    (fun item => ?_) hnatural htimely
  exact (received_perm (hrules root).symm).le

variable {mid mid' : Chart} {t : Token}

theorem sameItems_scan (hrules : g.Reordered g') (h : Tracks g lex root ts mid)
    (h' : Tracks g' lex root ts mid') (hstep : mid.advance? t = some ch)
    (hstep' : mid'.advance? t = some ch') :
    SameItems g g' (mid.current :: mid.earlier) (mid'.current :: mid'.earlier) (mid.scan t)
      (mid'.scan t) where
  length_eq := h'.length_columns.trans h.length_columns.symm
  past position hlt item := by
    rw [h.length_columns] at hlt
    have hus : ts.take position <+: ts := List.take_prefix position ts
    have hlength : (ts.take position).length = position :=
      List.length_take_of_le (Nat.le_of_lt_succ hlt)
    rw [← hlength, h.past_eq hus, h'.past_eq hus]
    exact mem_columnAt_reordered hrules h h' hus item
  closed item := by
    rw [← h.columnAt_last hstep, ← h'.columnAt_last hstep']
    have hlength : (ts ++ [t]).length = ts.length + 1 := List.length_append
    rw [← hlength]
    exact mem_columnAt_reordered hrules (h.advance hstep) (h'.advance hstep') List.prefix_rfl item

theorem scans_reordered (h : Tracks g lex root ts mid) (h' : Tracks g' lex root ts mid')
    (items : List Item) : mid'.scans t items = mid.scans t items := by
  simp only [scans, awaitedClass, h.lexicon_eq, h'.lexicon_eq, h.position_eq, h'.position_eq]

theorem under_advance (hrules : g.Reordered g') (hweights : NaturalWeights g lex)
    (h : Tracks g lex root ts mid) (h' : Tracks g' lex root ts mid')
    (hstep : mid.advance? t = some ch) (hstep' : mid'.advance? t = some ch')
    (hunder : Under mid'.current mid.current) (hnatural : ∀ e ∈ ch.current.entries, Natural e.2)
    (htimely : Timely g (mid.current :: mid.earlier) (mid.scan t)) :
    Under ch'.current ch.current := by
  obtain ⟨number', number, hnumber', hnumber, hle, -⟩ := hunder
  have hcurrent : ch.current = (close g (mid.current :: mid.earlier) (mid.scan t)).column := by
    rw [(advance?_eq_some_iff.mp hstep).2, h.grammar_eq]
  have hcurrent' : ch'.current =
      (close g' (mid'.current :: mid'.earlier) (mid'.scan t)).column := by
    rw [(advance?_eq_some_iff.mp hstep').2, h'.grammar_eq]
  rw [hcurrent] at hnatural
  rw [hcurrent, hcurrent']
  refine under_close hrules hweights.rules (h.opening_scan t) (h'.opening_scan t)
    (sameItems_scan hrules h h' hstep hstep') (tallies_scan hnumber t) (tallies_scan hnumber' t)
    (fun item => ?_) hnatural htimely
  have hperm : (mid.scans t mid.current.keys).Perm (mid.scans t mid'.current.keys) :=
    (perm_keys_reordered hrules h h').filterMap _
  rw [scans_reordered h h', received_perm hperm]
  exact received_mono fun pair _ => hle pair.2

end Charts

/-- As long as an order of the rules closes the columns in time, no other order makes more of an
item. The induction is on the tokens. -/
theorem under_of_timely (hrules : g.Reordered g') (hweights : NaturalWeights g lex)
    (hnatural : ∀ us mid, us <+: ts → (ofRoot g lex root).readAll? us = some mid →
      ∀ e ∈ mid.current.entries, Natural e.2)
    (htimely : TimelyReading g lex root ts) (hread : (ofRoot g lex root).readAll? ts = some ch)
    (hread' : (ofRoot g' lex root).readAll? ts = some ch') : Under ch'.current ch.current := by
  induction ts using List.reverseRecOn generalizing ch ch' with
  | nil =>
      obtain rfl : ofRoot g lex root = ch := Option.some.inj hread
      obtain rfl : ofRoot g' lex root = ch' := Option.some.inj hread'
      exact under_seed hrules hweights (hnatural [] _ List.prefix_rfl hread) htimely.seed
  | append_singleton ts t ih =>
      obtain ⟨mid, hmid, hstep⟩ := readAll?_concat_eq_some_iff.mp hread
      obtain ⟨mid', hmid', hstep'⟩ := readAll?_concat_eq_some_iff.mp hread'
      have hts : ts <+: ts ++ [t] := List.prefix_append ts [t]
      have hunder := ih (fun us first hus => hnatural us first (hus.trans hts))
        (htimely.of_prefix hts) hmid hmid'
      exact under_advance hrules hweights (tracks_of_readAll? hmid) (tracks_of_readAll? hmid')
        hstep hstep' hunder (hnatural _ ch List.prefix_rfl hread)
        (htimely.scan ts t mid List.prefix_rfl hmid)

section Readout

variable (hrules : g.Reordered g') (h : Tracks g lex root ts ch) (h' : Tracks g' lex root ts ch')
include hrules h h'

theorem perm_offers_reordered :
    (ch'.offers ch'.current.keys).Perm (ch.offers ch.current.keys) := by
  have hoffers : ch'.offers ch'.current.keys = ch.offers ch'.current.keys := by
    simp only [offers, awaitedClass, h.lexicon_eq, h'.lexicon_eq]
  rw [hoffers]
  exact (perm_keys_reordered hrules h h').symm.flatMap fun _ _ => .refl _

/-- Items with no more weight give the tokens no more weight. -/
theorem under_allowed (hweights : NaturalWeights g lex)
    (hnatural : ∀ e ∈ ch.allowed.entries, Natural e.2)
    (hunder : Under ch'.current ch.current) : Under ch'.allowed ch.allowed := by
  obtain ⟨number', number, hnumber', hnumber, hle, hsmall⟩ := hunder
  have hallowed := tallies_allowed hnumber hsmall (h.lexicon_eq ▸ hweights.classes)
  have hallowed' := tallies_allowed hnumber' (fun item => (hle item).trans_lt (hsmall item))
    (h'.lexicon_eq ▸ hweights.classes)
  obtain ⟨total, htotal, hbound⟩ := Tallies.exists_of_natural hnatural
  refine ⟨_, _, hallowed', hallowed, fun t => ?_, fun t => ?_⟩
  · rw [received_perm (perm_offers_reordered hrules h h')]
    exact received_mono fun offer _ => Nat.mul_le_mul_left _ (hle offer.2)
  · rw [htotal.unique hbound hallowed t]
    exact hbound t

/-- Items of the same weights make up the same sums. -/
theorem weightWhere_reordered (hexact : ch.Exact)
    (hget : ∀ item, ch'.current.get? item = ch.current.get? item) {p : Item → Bool}
    (hp : Natural (ch.weightWhere p)) : ch'.weightWhere p = ch.weightWhere p := by
  obtain ⟨number, hnumber, -⟩ := Tallies.exists_of_natural hexact.items
  have hsum := counts_weightWhere hnumber p
  have hsum' := counts_weightWhere (hnumber.congr hget) p
  rw [(((perm_keys_reordered hrules h h').symm.filter p).map number).sum_eq] at hsum'
  have hsmall := hp.1
  rw [← hsum.eq_count hp] at hsmall
  rw [hsum.small hsmall, hsum'.small hsmall]

theorem termination_reordered (hexact : ch.Exact)
    (hget : ∀ item, ch'.current.get? item = ch.current.get? item) :
    ch'.termination = ch.termination := by
  have hroot : ch'.root = ch.root := h'.root_eq.trans h.root_eq.symm
  simp only [termination, hroot, weightWhere_reordered hrules h h' hexact hget hexact.finished,
    weightWhere_reordered hrules h h' hexact hget hexact.unfinished]

end Readout

/-- Two orders of the same rules read the same tokens, end at the same words and allow the same
tokens. When nothing is rounded and the first order closes its columns in time, the other one gives
no token more weight; when both do so, they agree on all weights and on the end. -/
theorem likelihoods_reordered (hrules : g.Reordered g')
    (hread : (ofRoot g lex root).readAll? ts = some ch) :
    ∃ ch', (ofRoot g' lex root).readAll? ts = some ch' ∧ ch'.isFinished = ch.isFinished ∧
      (∀ t, ch'.allowed.contains t = ch.allowed.contains t) ∧
      (NaturalWeights g lex → ExactReading g lex root ts → TimelyReading g lex root ts →
        (∀ t w, ch.allowed.get? t = some w →
          ∃ w', ch'.allowed.get? t = some w' ∧ Natural w' ∧ count w' ≤ count w) ∧
        (TimelyReading g' lex root ts →
          (∀ t, ch'.allowed.get? t = ch.allowed.get? t) ∧ ch'.termination = ch.termination)) := by
  obtain ⟨ch', hread'⟩ := exists_readAll?_reordered hrules hread
  have h := tracks_of_readAll? hread
  have h' := tracks_of_readAll? hread'
  have hcontains := contains_allowed_reordered hrules h h'
  refine ⟨ch', hread', isFinished_reordered hrules h h', hcontains, ?_⟩
  intro hweights hexact htimely
  have hunder {us : List Token} {mid mid' : Chart} (hus : us <+: ts)
      (hmid : (ofRoot g lex root).readAll? us = some mid)
      (hmid' : (ofRoot g' lex root).readAll? us = some mid') : Under mid'.current mid.current :=
    under_of_timely hrules hweights
      (fun vs first hvs hfirst => (hexact vs first (hvs.trans hus) hfirst).items)
      (htimely.of_prefix hus) hmid hmid'
  have hch : ch.Exact := hexact ts ch List.prefix_rfl hread
  have hallowed : Under ch'.allowed ch.allowed :=
    under_allowed hrules h h' hweights hch.allowed (hunder List.prefix_rfl hread hread')
  have hkeys (t : Token) : t ∈ ch'.allowed.keys ↔ t ∈ ch.allowed.keys := by
    rw [← OrderedMap.contains_iff, ← OrderedMap.contains_iff, hcontains t]
  constructor
  · intro t w hw
    have hmem : t ∈ ch'.allowed.keys :=
      (hkeys t).mpr ((ch.allowed.get?_isSome_iff t).mp (Option.isSome_of_eq_some hw))
    obtain ⟨w', hw'⟩ := Option.isSome_iff_exists.mp ((ch'.allowed.get?_isSome_iff t).mpr hmem)
    exact ⟨w', hw', hallowed.natural (t, w') ((ch'.allowed.get?_eq_some_iff t w').mp hw'),
      hallowed.count_le hw' hw⟩
  · intro htimely'
    -- The other order is exact too, because it makes no more of the items.
    have hnatural' : ∀ us mid', us <+: ts → (ofRoot g' lex root).readAll? us = some mid' →
        ∀ e ∈ mid'.current.entries, Natural e.2 := by
      intro us mid' hus hmid'
      obtain ⟨mid, hmid⟩ := exists_readAll?_reordered hrules.symm hmid'
      exact (hunder hus hmid hmid').natural
    have hunder' := under_of_timely hrules.symm (hweights.reordered hrules) hnatural' htimely'
      hread' hread
    have hallowed' := under_allowed hrules.symm h' h (hweights.reordered hrules) hallowed.natural
      hunder'
    refine ⟨hallowed.antisymm hallowed' hkeys, termination_reordered hrules h h' hch ?_⟩
    exact (hunder List.prefix_rfl hread hread').antisymm hunder' (mem_current_reordered hrules h h')

/-- A root with some rules, and two nonterminals that lead to the same third one, one of them by
way of the other. -/
def detour (rules : List Rule) : Grammar where
  ruleSets := ⟨[("S", rules), ("A", [⟨[.nonterminal "B"], 1.0⟩]),
    ("B", [⟨[.nonterminal "D"], 1.0⟩]), ("D", [⟨[.cls "c"], 1.0⟩])], by simp⟩

theorem detour_reordered {rules rules' : List Rule} (h : rules.Perm rules') :
    (detour rules).Reordered (detour rules') := by
  intro name
  simp only [Grammar.rules, OrderedMap.get?, detour, List.lookup]
  split
  · exact h
  · exact .refl _

/-- The class of the detour, with one token. -/
def oneToken : Lexicon where
  classes := .insert .empty "c" (.insert .empty "x" 1.0)

/-- The root goes the longer way. -/
def longer : Rule :=
  ⟨[.nonterminal "A"], 1.0⟩

/-- The root goes the shorter way. -/
def shorter : Rule :=
  ⟨[.nonterminal "B"], 1.0⟩

/-- The root goes on behind a token. -/
def repeated : Rule :=
  ⟨[.cls "c", .nonterminal "S"], 1.0⟩

/-- Put first or last, the rule that goes on behind a token makes no difference to the weights. The
longer way comes before the shorter one in both orders. -/
theorem likelihoods_reordered_detour :
    let g := detour [longer, shorter, repeated]
    let g' := detour [repeated, longer, shorter]
    ∃ ch ch', (ofRoot g oneToken "S").readAll? ["x"] = some ch ∧
      (ofRoot g' oneToken "S").readAll? ["x"] = some ch' ∧
        (∀ t, ch'.allowed.get? t = ch.allowed.get? t) ∧ ch'.termination = ch.termination := by
  intro g g'
  have hsome : ((ofRoot g oneToken "S").readAll? ["x"]).isSome = true := by decide +kernel
  obtain ⟨ch, hread⟩ := Option.isSome_iff_exists.mp hsome
  have hrules : g.Reordered g' :=
    detour_reordered (List.perm_append_singleton repeated [longer, shorter])
  have hweights : NaturalWeights g oneToken := .of_entries (by decide +kernel) (by decide +kernel)
  have hexact : ExactReading g oneToken "S" ["x"] := by
    intro us mid hus hmid
    have hall : ∀ us ∈ ["x"].inits, ∀ mid ∈ (ofRoot g oneToken "S").readAll? us, mid.Exact := by
      decide +kernel
    exact hall us ((List.mem_inits us ["x"]).mpr hus) mid hmid
  have htimely : TimelyReading g oneToken "S" ["x"] :=
    .of_singleton (by decide +kernel) (by decide +kernel)
  have htimely' : TimelyReading g' oneToken "S" ["x"] :=
    .of_singleton (by decide +kernel) (by decide +kernel)
  obtain ⟨ch', hread', -, -, hboth⟩ := likelihoods_reordered hrules hread
  exact ⟨ch, ch', hread, hread', (hboth hweights hexact htimely).2 htimely'⟩

/-- The order of the rules may make a difference. When the shorter way is gone first, the weight
that the longer one adds to the third nonterminal comes too late. -/
theorem not_likelihoods_reordered :
    ¬ ∀ (g g' : Grammar) (lex : Lexicon) (root : String) (ts : List Token) (ch ch' : Chart),
      g.Reordered g' → NaturalWeights g lex → ExactReading g lex root ts →
        ExactReading g' lex root ts → (ofRoot g lex root).readAll? ts = some ch →
          (ofRoot g' lex root).readAll? ts = some ch' →
            (∀ t, ch'.allowed.get? t = ch.allowed.get? t) ∧ ch'.termination = ch.termination := by
  intro hall
  have hrules : (detour [longer, shorter]).Reordered (detour [shorter, longer]) :=
    detour_reordered (.swap _ _ _)
  have hexact (rules : List Rule) (h : (ofRoot (detour rules) oneToken "S").Exact) :
      ExactReading (detour rules) oneToken "S" [] := by
    intro us mid hus hmid
    obtain rfl := List.prefix_nil.mp hus
    obtain rfl := Option.some.inj hmid
    exact h
  obtain ⟨hget, -⟩ := hall _ _ oneToken "S" [] _ _ hrules
    (.of_entries (by decide +kernel) (by decide +kernel)) (hexact _ (by decide +kernel))
    (hexact _ (by decide +kernel)) (readAll?_nil _) (readAll?_nil _)
  exact absurd (hget "x") (by decide +kernel)

end Chart

end Neologism
