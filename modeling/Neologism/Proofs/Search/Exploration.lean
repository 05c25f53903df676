import Mathlib.Data.List.Perm.Basic
import Neologism.Proofs.Chart.Recognition
import Neologism.Proofs.Phonotactics.Narrowing
import Neologism.Proofs.Search.Backtracking

/-! # What a search explores

A search decides whether the tokens chosen so far can be continued to a word with a new text: it
finds a continuation, or there is none. The order in which candidates are drawn and in which
ending and going on are tried has no part in this, since a draw only splits off one candidate and
each attempt that fails is followed by the others.

Main statement: `decides_step`. -/

namespace Neologism.Search

open State

/-- The journal has grown from one to the other, and tells of no refused token meanwhile. -/
def Quiet (before after : List Event) : Prop :=
  ∃ events, after = events ++ before ∧ ∀ token position, Event.rejected token position ∉ events

namespace Quiet

protected theorem refl (journal : List Event) : Quiet journal journal :=
  ⟨[], rfl, by simp⟩

protected theorem trans {first second third : List Event} (h : Quiet first second)
    (h' : Quiet second third) : Quiet first third := by
  obtain ⟨events, rfl, hevents⟩ := h
  obtain ⟨later, rfl, hlater⟩ := h'
  refine ⟨later ++ events, (List.append_assoc ..).symm, ?_⟩
  intro token position hmem
  exact (List.mem_append.mp hmem).elim (hlater token position) (hevents token position)

theorem cons (journal : List Event) {event : Event}
    (h : ∀ token position, event ≠ .rejected token position) : Quiet journal (event :: journal) :=
  ⟨[event], rfl, fun token position hmem => h token position (List.mem_singleton.mp hmem).symm⟩

end Quiet

/-- A token that is read leaves no mark of a refusal. -/
theorem quiet_tried {s : State} {token : Token} {chart : Chart}
    (h : s.chart.advance? token = some chart) : Quiet s.journal (s.tried token).journal := by
  apply Quiet.cons
  intro other position hne
  change s.chart.advanceEvent token (s.chart.advance? token) = _ at hne
  rw [h] at hne
  cases hne

/-- From the state, the attempt decides whether a wanted continuation of the chosen tokens exists:
it finds one and records its text, or there is none. The chart refuses no candidate meanwhile. -/
structure Decides (wanted : List Token → Prop) (a : Attempt) (s : State) : Prop where
  found : (a s).1 = true → ∃ rest, wanted rest ∧ (a s).2.chosen = s.chosen ++ rest ∧
    (a s).2.emitted = String.join (s.chosen ++ rest) :: s.emitted
  failed : (a s).1 = false → ∀ rest, ¬ wanted rest
  quiet : Quiet s.journal (a s).2.journal

section Decides

variable {wanted wanted' : List Token → Prop} {a first second goOn descend : Attempt} {s : State}

theorem Decides.congr (h : Decides wanted a s) (hwanted : ∀ rest, wanted' rest ↔ wanted rest) :
    Decides wanted' a s where
  found := by simpa only [hwanted] using h.found
  failed := by simpa only [hwanted] using h.failed
  quiet := h.quiet

/-- An attempt that comes to the same as another one from a state that differs in its random
source only. -/
theorem Decides.of_eq {b : Attempt} {r : State} (h : Decides wanted b r) (hr : Alike s r)
    (hjournal : r.journal = s.journal) (heq : a s = b r) : Decides wanted a s where
  found := by
    rw [heq, ← hr.chosen, ← hr.emitted]
    exact h.found
  failed := by
    rw [heq]
    exact h.failed
  quiet := by
    rw [heq, ← hjournal]
    exact h.quiet

theorem decides_fail : Decides (fun _ => False) (fun s => (false, s)) s where
  found := by simp
  failed := by simp
  quiet := .refl s.journal

theorem decides_finalize :
    Decides (fun rest => rest = [] ∧ s.text ∉ s.emitted) finalize s := by
  by_cases hseen : s.emitted.contains s.text = true
  · have hrun : finalize s = (false, s) := by rw [finalize, if_pos hseen]
    constructor
    case found => simp [hrun]
    case failed =>
      rintro - rest ⟨-, hnew⟩
      exact hnew (List.contains_iff_mem.mp hseen)
    case quiet =>
      rw [hrun]
      exact .refl s.journal
  · have hrun : finalize s = (true, { s with emitted := s.text :: s.emitted }) := by
      rw [finalize, if_neg hseen]
    constructor
    case found =>
      intro _
      rw [hrun]
      refine ⟨[], ⟨rfl, ?_⟩, (List.append_nil _).symm, by rw [List.append_nil]; rfl⟩
      exact fun hmem => hseen (List.contains_iff_mem.mpr hmem)
    case failed => simp [hrun]
    case quiet =>
      rw [hrun]
      exact .refl s.journal

/-- Two attempts in a row decide what either of them decides. -/
theorem decides_orElse (hfirst : Decides wanted first s) (hback : Backtracks first)
    (hsecond : ∀ r, Alike s r → Decides wanted' second r) :
    Decides (fun rest => wanted rest ∨ wanted' rest) (orElse first second) s := by
  cases h : (first s).1 with
  | true =>
      have hrun : orElse first second s = first s := orElse_of_found h
      constructor
      case found =>
        intro _
        obtain ⟨rest, hwanted, hrest⟩ := hfirst.found h
        rw [hrun]
        exact ⟨rest, .inl hwanted, hrest⟩
      case failed => simp [hrun, h]
      case quiet =>
        rw [hrun]
        exact hfirst.quiet
  | false =>
      have hrun : orElse first second s = second (first s).2 := orElse_of_failed h
      have halike := hback s h
      have hlater := hsecond _ halike
      constructor
      case found =>
        rw [hrun]
        intro hfound
        obtain ⟨rest, hwanted, hrest⟩ := hlater.found hfound
        rw [halike.chosen, halike.emitted] at hrest
        exact ⟨rest, .inr hwanted, hrest⟩
      case failed =>
        rw [hrun]
        rintro hfail rest (hwanted | hwanted)
        · exact hfirst.failed h rest hwanted
        · exact hlater.failed hfail rest hwanted
      case quiet =>
        rw [hrun]
        exact hfirst.quiet.trans hlater.quiet

/-- To follow a token that is read is to look for the continuations that begin with it. -/
theorem decides_follow {token : Token} {chart : Chart}
    (hread : s.chart.advance? token = some chart)
    (hdescend : Decides wanted descend ((s.tried token).enter token chart)) :
    Decides (fun rest => ∃ tail, rest = token :: tail ∧ wanted tail) (follow descend token) s := by
  have hquiet : Quiet s.journal (descend ((s.tried token).enter token chart)).2.journal :=
    (quiet_tried hread).trans hdescend.quiet
  rcases hr : descend ((s.tried token).enter token chart) with ⟨found, r⟩
  obtain ⟨hfound, hfailed, -⟩ := hdescend
  rw [hr] at hquiet hfound hfailed
  cases found with
  | true =>
      have hrun : follow descend token s = (true, r) := by simp only [follow, hread, hr]
      obtain ⟨tail, hwanted, hchosen, hemitted⟩ := hfound rfl
      have hsplit : s.chosen ++ [token] ++ tail = s.chosen ++ token :: tail := by simp
      constructor
      case found =>
        intro _
        refine ⟨token :: tail, ⟨tail, rfl, hwanted⟩, ?_, ?_⟩
        · rw [hrun, ← hsplit]
          exact hchosen
        · rw [hrun, ← hsplit]
          exact hemitted
      case failed => simp [hrun]
      case quiet => rwa [hrun]
  | false =>
      have hrun : follow descend token s = (false, r.pop) := by simp only [follow, hread, hr]
      constructor
      case found => simp [hrun]
      case failed =>
        rintro - rest ⟨tail, -, hwanted⟩
        exact hfailed rfl tail hwanted
      case quiet => rwa [hrun]

/-- Ending the word is decided along with going on, whichever is tried first. -/
theorem decides_settle (task : Task) (hback : Backtracks goOn)
    (hgoOn : ∀ r, Alike s r → Decides wanted goOn r) :
    Decides (fun rest => (rest = [] ∧ s.chart.isFinished = true ∧
      task.minimum ≤ s.chosen.length ∧ s.text ∉ s.emitted) ∨ wanted rest) (settle task goOn) s := by
  by_cases hend : s.chart.isFinished = true ∧ task.minimum ≤ s.chosen.length
  · have hfinalize : ∀ r, Alike s r →
        Decides (fun rest => rest = [] ∧ s.text ∉ s.emitted) finalize r := by
      intro r hr
      have htext : r.text = s.text := by rw [text, text, hr.chosen]
      have h : Decides (fun rest => rest = [] ∧ r.text ∉ r.emitted) finalize r := decides_finalize
      rwa [htext, hr.emitted] at h
    have hunit := s.alike_unit
    have hsettled : Decides (fun rest => (rest = [] ∧ s.text ∉ s.emitted) ∨ wanted rest)
        (settle task goOn) s := by
      by_cases hstop : s.unit.1 < s.unit.2.chart.termination
      · have hrun : settle task goOn s = orElse finalize goOn s.unit.2 := by
          simp only [settle, if_pos hend, if_pos hstop]
        exact (decides_orElse (hfinalize _ hunit) backtracks_finalize
          fun r hr => hgoOn r (hunit.trans hr)).of_eq hunit rfl hrun
      · have hrun : settle task goOn s = orElse goOn finalize s.unit.2 := by
          simp only [settle, if_pos hend, if_neg hstop]
        have hlast := decides_orElse (hgoOn _ hunit) hback fun r hr => hfinalize r (hunit.trans hr)
        exact (hlast.of_eq hunit rfl hrun).congr fun rest => or_comm
    exact hsettled.congr fun rest => by simp [hend]
  · have hrun : settle task goOn s = goOn s := by simp only [settle, if_neg hend]
    refine ((hgoOn s (.refl s)).of_eq (.refl s) rfl hrun).congr fun rest => ?_
    constructor
    · rintro (⟨-, hfinished, hmin, -⟩ | hwanted)
      · exact absurd ⟨hfinished, hmin⟩ hend
      · exact hwanted
    · exact .inr

/-- A draw from a pool with candidates splits one of them off. -/
theorem exists_take? {pool : Pool Weight} (h : pool.candidates ≠ []) (u : Weight) :
    ∃ candidate rest, pool.take? (pool.draw u) = some (candidate, rest) ∧
      (candidate :: rest.candidates).Perm pool.candidates := by
  have hlt := pool.draw_lt u h
  exact ⟨_, _, pool.take?_of_lt hlt, List.getElem_cons_eraseIdx_perm hlt⟩

/-- Drawing candidates until one leads to a word tries all of them, in whatever order. -/
theorem decides_tryPool (begun : Token → List Token → Prop) (hback : Backtracks descend)
    {size : Nat} (pool : Pool Weight) (hsize : pool.candidates.length = size)
    (hread : ∀ c ∈ pool.candidates, (s.chart.advance? c.1).isSome = true)
    (hdescend : ∀ c ∈ pool.candidates, ∀ r, Alike s r → ∀ chart,
      r.chart.advance? c.1 = some chart →
        Decides (begun c.1) descend ((r.tried c.1).enter c.1 chart)) :
    Decides (fun rest => ∃ c ∈ pool.candidates, ∃ tail, rest = c.1 :: tail ∧ begun c.1 tail)
      (tryPool descend size pool) s := by
  induction size generalizing pool s with
  | zero =>
      have hnil := List.length_eq_zero_iff.mp hsize
      exact decides_fail.congr fun rest => by simp [hnil]
  | succ size ih =>
      have hne : pool.candidates ≠ [] := List.ne_nil_of_length_eq_add_one hsize
      obtain ⟨candidate, rest, htake, hperm⟩ := exists_take? hne s.unit.1
      have hmem : ∀ c ∈ rest.candidates, c ∈ pool.candidates := fun c hc =>
        hperm.subset (List.mem_cons_of_mem _ hc)
      have hfirst : candidate ∈ pool.candidates := hperm.subset List.mem_cons_self
      obtain ⟨chart, hchart⟩ := Option.isSome_iff_exists.mp (hread candidate hfirst)
      have hfollow := decides_follow hchart (hdescend candidate hfirst s (.refl s) chart hchart)
      have hlater : ∀ r, Alike s r → Decides
          (fun tokens => ∃ c ∈ rest.candidates, ∃ tail, tokens = c.1 :: tail ∧ begun c.1 tail)
          (tryPool descend size rest) r := by
        intro r hr
        apply ih
        · have hlength := hperm.length_eq
          rw [List.length_cons] at hlength
          omega
        · intro c hc
          rw [hr.chart]
          exact hread c (hmem c hc)
        · intro c hc q hq
          exact hdescend c (hmem c hc) q (hr.trans hq)
      have hboth := decides_orElse hfollow (backtracks_follow hback _) hlater
      refine (hboth.of_eq (.refl s) rfl (tryPool_succ htake)).congr fun tokens => ?_
      simp only [← hperm.mem_iff, List.mem_cons, exists_eq_or_imp]

end Decides

variable {m : Model} {task : Task}

/-- The chart of the state has read the chosen tokens from the start of a word of the model. -/
def Follows (m : Model) (s : State) : Prop :=
  m.chart.readAll? s.chosen = some s.chart

namespace Follows

variable {s r : State}

theorem tracks (h : Follows m s) : s.chart.Tracks m.grammar m.lexicon m.root s.chosen :=
  Chart.tracks_of_readAll? h

theorem of_alike (h : Follows m s) (hr : Alike s r) : Follows m r := by
  rw [Follows, hr.chosen, hr.chart]
  exact h

/-- Reading one more candidate keeps the chart in step with the chosen tokens. -/
theorem enter (h : Follows m s) {token : Token} {chart : Chart}
    (hread : s.chart.advance? token = some chart) : Follows m ((s.tried token).enter token chart) :=
  Chart.readAll?_concat_eq_some_iff.mpr ⟨s.chart, h, hread⟩

end Follows

/-- The rest completes the chosen tokens to a word that is looked for: one of at most `room`
tokens more that is long enough, derived by the grammar, permitted token by token, and new. -/
structure Wanted (m : Model) (task : Task) (chosen : List Token) (emitted : List String)
    (room : Nat) (rest : List Token) : Prop where
  fits : rest.length ≤ room
  long : task.minimum ≤ (chosen ++ rest).length
  derives : m.grammar.Derives m.lexicon [.nonterminal m.root] (chosen ++ rest)
  permitted : task.phonotactics.PermitsAll task.marker chosen rest
  new : String.join (chosen ++ rest) ∉ emitted

theorem wanted_nil_iff {s : State} (h : Follows m s) (room : Nat) :
    Wanted m task s.chosen s.emitted room [] ↔ s.chart.isFinished = true ∧
      task.minimum ≤ s.chosen.length ∧ s.text ∉ s.emitted := by
  rw [h.tracks.isFinished_iff]
  constructor
  · rintro ⟨-, hlong, hderives, -, hnew⟩
    rw [List.append_nil] at hlong hderives hnew
    exact ⟨hderives, hlong, hnew⟩
  · rintro ⟨hderives, hlong, hnew⟩
    rw [← List.append_nil s.chosen] at hderives hlong
    refine ⟨Nat.zero_le _, hlong, hderives, trivial, ?_⟩
    rwa [List.append_nil]

/-- The candidates are the permitted ones of the tokens that the chart offers. -/
theorem contains_candidates_iff (task : Task) (s : State) (t : Token) :
    (candidates task s).contains t = true ↔
      s.chart.Offers t ∧ task.phonotactics.Permits (task.marker :: s.chosen) t := by
  rw [candidates, Phonotactics.contains_narrow_iff, Chart.contains_allowed_iff]

/-- A wanted rest begins with a candidate and goes on wanted behind it. -/
theorem wanted_cons_iff {s : State} (h : Follows m s) (emitted : List String) (room : Nat)
    (t : Token) (tail : List Token) :
    Wanted m task s.chosen emitted (room + 1) (t :: tail) ↔
      (candidates task s).contains t = true ∧
        Wanted m task (s.chosen ++ [t]) emitted room tail := by
  rw [contains_candidates_iff]
  constructor
  · rintro ⟨hfits, hlong, hderives, ⟨hpermits, hpermitted⟩, hnew⟩
    have hoffers := (h.tracks.offers_iff t).mpr (Grammar.anticipates_of_derives hderives)
    rw [List.append_cons] at hlong hderives hnew
    exact ⟨⟨hoffers, hpermits⟩, Nat.le_of_succ_le_succ hfits, hlong, hderives, hpermitted, hnew⟩
  · rintro ⟨⟨-, hpermits⟩, hfits, hlong, hderives, hpermitted, hnew⟩
    rw [← List.append_cons] at hlong hderives hnew
    exact ⟨Nat.succ_le_succ hfits, hlong, hderives, ⟨hpermits, hpermitted⟩, hnew⟩

/-- Going on is to look for a wanted rest that is not empty. -/
theorem decides_extend {descend : Attempt} {room : Nat} (hback : Backtracks descend)
    (hdescend : ∀ s, Follows m s → Decides (Wanted m task s.chosen s.emitted room) descend s)
    {s : State} (h : Follows m s) :
    Decides (fun rest => ∃ t tail, rest = t :: tail ∧
      Wanted m task s.chosen s.emitted (room + 1) rest) (extend task descend) s := by
  have hmem (c : Token × Weight) (hc : c ∈ (candidates task s).entries) :
      (candidates task s).contains c.1 = true :=
    ((candidates task s).contains_iff c.1).mpr (List.mem_map_of_mem hc)
  have hread (c : Token × Weight) (hc : c ∈ (candidates task s).entries) :
      (s.chart.advance? c.1).isSome = true :=
    (s.chart.isSome_advance?_iff c.1).mpr ((contains_candidates_iff task s c.1).mp (hmem c hc)).1
  have hafter (c : Token × Weight) (_ : c ∈ (candidates task s).entries) (r : State)
      (hr : Alike s r) (chart : Chart) (hchart : r.chart.advance? c.1 = some chart) :
      Decides (Wanted m task (s.chosen ++ [c.1]) s.emitted room) descend
        ((r.tried c.1).enter c.1 chart) := by
    rw [← hr.chosen, ← hr.emitted]
    exact hdescend _ ((h.of_alike hr).enter hchart)
  have htry : Decides (fun rest => ∃ c ∈ (candidates task s).entries, ∃ tail,
      rest = c.1 :: tail ∧ Wanted m task (s.chosen ++ [c.1]) s.emitted room tail)
      (extend task descend) s :=
    (decides_tryPool (fun t => Wanted m task (s.chosen ++ [t]) s.emitted room) hback
      (.ofList (candidates task s).entries) rfl hread hafter).of_eq (.refl s) rfl rfl
  refine htry.congr fun rest => ?_
  constructor
  · rintro ⟨t, tail, rfl, hwanted⟩
    obtain ⟨hcandidate, htail⟩ := (wanted_cons_iff h s.emitted room t tail).mp hwanted
    obtain ⟨w, hentry⟩ := (OrderedMap.mem_keys_iff _ _).mp
      (((candidates task s).contains_iff t).mp hcandidate)
    exact ⟨(t, w), hentry, tail, rfl, htail⟩
  · rintro ⟨c, hc, tail, rfl, htail⟩
    exact ⟨c.1, tail, rfl, (wanted_cons_iff h s.emitted room c.1 tail).mpr ⟨hmem c hc, htail⟩⟩

/-- A search step decides whether a wanted rest exists. -/
theorem decides_step (task : Task) (room : Nat) {s : State} (h : Follows m s) :
    Decides (Wanted m task s.chosen s.emitted room) (step task room) s := by
  induction room generalizing s with
  | zero =>
      have hsettle := decides_settle task backtracks_fail fun r (_ : Alike s r) => decides_fail
      refine hsettle.congr fun rest => ?_
      rw [or_false]
      constructor
      · intro hwanted
        obtain rfl := List.length_eq_zero_iff.mp (Nat.le_zero.mp hwanted.fits)
        exact ⟨rfl, (wanted_nil_iff h 0).mp hwanted⟩
      · rintro ⟨rfl, hends⟩
        exact (wanted_nil_iff h 0).mpr hends
  | succ room ih =>
      have hgoOn : ∀ r, Alike s r → Decides (fun rest => ∃ t tail, rest = t :: tail ∧
          Wanted m task s.chosen s.emitted (room + 1) rest) (extend task (step task room)) r := by
        intro r hr
        rw [← hr.chosen, ← hr.emitted]
        exact decides_extend (backtracks_step task room) (fun _ => ih) (h.of_alike hr)
      have hsettle := decides_settle task (backtracks_extend task (backtracks_step task room)) hgoOn
      refine hsettle.congr fun rest => ?_
      cases rest with
      | nil => simpa using wanted_nil_iff h (room + 1)
      | cons t tail => simp

theorem decides_run (task : Task) {s : State} (h : Follows m s) :
    Decides (Wanted m task s.chosen s.emitted (task.cap - s.chosen.length)) (run task) s :=
  (decides_step task (task.cap - s.chosen.length) h).of_eq (.refl s) rfl rfl

end Neologism.Search
