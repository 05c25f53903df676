import Neologism.Proofs.Grammar.Expansion
import Neologism.Proofs.Session.Enumeration

/-! # Sketches are words of the search

A sketch expands the root first and takes the tokens from the classes afterwards, where a search
narrows the tokens of all classes that may come next. Both come to admissible words: an expansion is
a derivation, and whether a token survives is a matter of that token and of what stands before it,
not of the table that it is taken from.

Main statement: `available_of_sketch`, from which `sketch_legal` reads off what holds of a sketch. -/

namespace Neologism.Session

variable {s : Session} {m : Model} {marker : String} {chosen tokens : List Token}
  {names : List String} {name : String} {src later after : Source} {c : CharClass}

theorem fill_cons_of_choose {token : Token} {weight : Weight} (hc : m.lexicon.get? name = some c)
    (hchoose : chooseWeighted Prod.snd (m.phonotactics.narrow c (marker :: chosen)).entries src =
      (.ok (some (token, weight)), later)) :
    fill m marker chosen (name :: names) src = fill m marker (chosen ++ [token]) names later := by
  rw [fill, hc]
  dsimp only
  rw [hchoose]

/-- A first slot that was filled has its token from the candidates at its place. -/
theorem fill_cons_eq_some
    (h : fill m marker chosen (name :: names) src = (.ok (some tokens), after)) :
    ∃ c token weight later, m.lexicon.get? name = some c ∧
      chooseWeighted Prod.snd (m.phonotactics.narrow c (marker :: chosen)).entries src =
          (.ok (some (token, weight)), later) ∧
        fill m marker (chosen ++ [token]) names later = (.ok (some tokens), after) := by
  rw [fill] at h
  split at h
  · cases h
  · next c hc =>
      dsimp only at h
      split at h
      · cases h
      · cases h
      · next token weight later hchoose => exact ⟨c, token, weight, later, hc, hchoose, h⟩

/-- A sketch is an expansion of the root whose slots were filled. -/
theorem sketch_eq_some_iff {w : Word} :
    s.sketch.1 = .ok (some w) ↔
      ∃ slots later,
        s.model.grammar.expand s.model.root (s.config.cap s.config.maxLength) s.source =
            (.ok (some slots), later) ∧
          (fill s.model s.config.boundary [] slots later).1 = .ok (some w.tokens) := by
  rw [sketch]
  rcases s.model.grammar.expand s.model.root (s.config.cap s.config.maxLength) s.source with
    ⟨fault | _ | slots, later⟩
  · simp
  · simp
  · obtain ⟨tokens⟩ := w
    rcases hfill : fill s.model s.config.boundary [] slots later with ⟨_ | _ | filled, after⟩
      <;> simp [Except.map, hfill]

/-- A sketch fails where the expansion fails, or where filling its slots fails. -/
theorem sketch_eq_error_iff {fault : Fault} :
    s.sketch.1 = .error fault ↔
      (s.model.grammar.expand s.model.root (s.config.cap s.config.maxLength) s.source).1 =
          .error fault ∨
        ∃ slots later,
          s.model.grammar.expand s.model.root (s.config.cap s.config.maxLength) s.source =
              (.ok (some slots), later) ∧
            (fill s.model s.config.boundary [] slots later).1 = .error fault := by
  rw [sketch]
  rcases s.model.grammar.expand s.model.root (s.config.cap s.config.maxLength) s.source with
    ⟨_ | _ | slots, later⟩
  · simp
  · simp
  · rcases hfill : fill s.model s.config.boundary [] slots later with ⟨_ | _ | filled, after⟩
      <;> simp [Except.map, hfill]

/-- Slots that were filled hold the tokens one by one, and each token is permitted where it
stands. -/
theorem holdsAll_of_fill (h : fill m marker chosen names src = (.ok (some tokens), after)) :
    ∃ rest, tokens = chosen ++ rest ∧ m.lexicon.HoldsAll names rest ∧
      m.phonotactics.PermitsAll marker chosen rest := by
  induction names generalizing chosen src with
  | nil =>
      obtain ⟨htokens, -⟩ := Prod.mk.inj h
      obtain rfl := Option.some.inj (Except.ok.inj htokens)
      exact ⟨[], (List.append_nil chosen).symm, .nil, trivial⟩
  | cons name names ih =>
      obtain ⟨c, t, w, later, hc, hchoose, hrest⟩ := fill_cons_eq_some h
      have hentry := mem_of_chooseWeighted hchoose
      have hsurvives : (m.phonotactics.narrow c (marker :: chosen)).contains t = true :=
        (OrderedMap.contains_iff _ t).mpr ((OrderedMap.mem_keys_iff _ t).mpr ⟨w, hentry⟩)
      obtain ⟨hclass, hpermits⟩ :=
        (m.phonotactics.contains_narrow_iff c (marker :: chosen) t).mp hsurvives
      obtain ⟨rest, rfl, hold, hpermitted⟩ := ih hrest
      exact ⟨t :: rest, by simp, .cons ⟨c, hc, hclass⟩ hold, hpermits, hpermitted⟩

/-- A sketch is available to a search that is given the sketch's limit, as long as its text was not
made. -/
theorem available_of_sketch {w : Word} (h : s.sketch.1 = .ok (some w)) {emitted : List String}
    (hnew : w.text ∉ emitted) :
    s.model.Available s.config emitted 0 s.config.maxLength w.tokens := by
  obtain ⟨slots, later, hexpand, hfill⟩ := sketch_eq_some_iff.mp h
  obtain ⟨hyields, hlength⟩ := Grammar.yields_of_expand hexpand
  obtain ⟨rest, htokens, hold, hpermitted⟩ := holdsAll_of_fill (Prod.ext hfill rfl)
  rw [List.nil_append] at htokens
  rw [← htokens] at hold hpermitted
  rw [hold.length_eq] at hlength
  exact ⟨⟨Grammar.derives_of_yields hyields hold, hpermitted⟩, Nat.zero_le _, hlength, hnew⟩

/-- The text of an available word is found by every search of the same language and settings that is
left with no other text. -/
theorem exists_generate_of_available {minimum maximum : UInt64} {tokens : List Token}
    (h : ¬ Crossed minimum maximum)
    (havailable : s.model.Available s.config [] minimum maximum tokens) :
    ∃ emitted, ∀ source, ∃ w,
      ({ s with source := source, emitted := emitted }.generate minimum maximum).1 = .ok (some w) ∧
        w.text = String.join tokens := by
  let fresh : Session := { s with emitted := [] }
  have hfinite := fresh.finite_availableTexts minimum maximum
  have hword : String.join tokens ∈ fresh.availableTexts minimum maximum :=
    ⟨tokens, havailable, rfl⟩
  refine ⟨(hfinite.toFinset.erase (String.join tokens)).toList, fun source => ?_⟩
  generalize hr : { s with
    source := source
    emitted := (hfinite.toFinset.erase (String.join tokens)).toList } = r
  have hleft : r.availableTexts minimum maximum =
      fresh.availableTexts minimum maximum \
        {text | text ∈ (hfinite.toFinset.erase (String.join tokens)).toList} := by
    rw [← hr]
    exact availableTexts_of_emitted rfl rfl fun text => by simp [fresh]
  have hone : r.availableTexts minimum maximum = {String.join tokens} := by
    rw [hleft]
    ext text
    by_cases heq : text = String.join tokens <;> simp [heq, hword]
  obtain ⟨others, havailableOthers, -⟩ : String.join tokens ∈ r.availableTexts minimum maximum := by
    rw [hone]
    rfl
  have houtcome := r.generate_outcome minimum maximum
  generalize r.generate minimum maximum = answer at houtcome
  cases houtcome with
  | crossed hcrossed => exact absurd hcrossed h
  | exhausted _ unavailable => exact absurd havailableOthers (unavailable others)
  | @found found _ _ available =>
      have hfound : String.join found ∈ r.availableTexts minimum maximum := ⟨found, available, rfl⟩
      rw [hone] at hfound
      exact ⟨⟨found⟩, rfl, hfound⟩

/-- A sketch keeps to the limit, is read by a new chart that is finished behind it, and has each of
its tokens from the candidates of a search at its place. Some search of the same language and
settings comes to its text, whatever the source is. -/
theorem sketch_legal {w : Word} (h : s.sketch.1 = .ok (some w)) :
    w.length ≤ (s.config.cap s.config.maxLength).toNat ∧
      (∃ ch, s.model.chart.readAll? w.tokens = some ch ∧ ch.isFinished = true) ∧
      (∀ i (hi : i < w.tokens.length), ∃ ch,
        s.model.chart.readAll? (w.tokens.take i) = some ch ∧
          (s.model.phonotactics.narrow ch.allowed
            (s.config.boundary :: w.tokens.take i)).contains w.tokens[i] = true) ∧
      ∃ emitted, ∀ source, ∃ found,
        ({ s with source := source, emitted := emitted }.generate 0 s.config.maxLength).1 =
            .ok (some found) ∧ found.text = w.text := by
  have havailable := available_of_sketch h (List.not_mem_nil (a := w.text))
  refine ⟨havailable.short, havailable.admissible.finishes, ?_, ?_⟩
  · intro i hi
    have hadmissible := havailable.admissible
    rw [← List.take_append_drop i w.tokens, ← List.getElem_cons_drop hi] at hadmissible
    exact hadmissible.survives
  · have hopen : ¬ Crossed 0 s.config.maxLength := fun hcrossed => UInt64.lt_irrefl 0 hcrossed.1
    exact exists_generate_of_available hopen havailable

/-- The small language, with a source whose values are the greatest one and zero in turn. -/
def alternating : Session :=
  { sample with source := .cyclic #[0xFFFFFFFFFFFFFFFF, 0] }

/-- The small language is sketched, and a chart that has read the sketch is finished behind it. -/
theorem sketch_legal_alternating :
    alternating.sketch.1 = .ok (some ⟨["t", "p"]⟩) ∧
      ∃ ch, alternating.model.chart.readAll? ["t", "p"] = some ch ∧ ch.isFinished = true := by
  have hsketch : alternating.sketch.1 = .ok (some ⟨["t", "p"]⟩) := by decide +kernel
  exact ⟨hsketch, (sketch_legal hsketch).2.1⟩

end Neologism.Session
