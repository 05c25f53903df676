import Neologism.Proofs.Session.Faults

/-! # Raising the limit

What fits into a limit fits into a greater one, and a greater budget of choices does no harm. So an
expansion and a sketch stay as they are when the limit is raised, up to the point where the budget
no longer fits into a word: from there on every expansion fails.

Main statements: `Grammar.expand_budget_iff`, `Grammar.expand_of_le` and `raised_limit`. -/

namespace Neologism

namespace Grammar

variable {g : Grammar} {root : String} {limit larger : UInt64} {names : List String}
  {src after : Source}

theorem budget_lt_size_iff (limit : UInt64) :
    Grammar.budget limit < UInt64.size ↔ limit.toNat < 2 ^ 60 - 1 := by
  simp only [Grammar.budget, UInt64.size]
  omega

theorem choose_ne_budget (name : String) : (g.choose name src).1 ≠ .error .budget := by
  intro h
  obtain ⟨hfault, -⟩ := chooseWeighted_eq_error_iff.mp h
  cases hfault

/-- The budget of choices is a fault from a limit of `2 ^ 60 - 1` on, whatever is expanded. -/
theorem expand_budget_iff :
    (g.expand root limit src).1 = .error .budget ↔ 2 ^ 60 - 1 ≤ limit.toNat := by
  rw [← Nat.not_lt, ← budget_lt_size_iff]
  constructor
  · intro h hsize
    obtain ⟨-, -, name, -, later, -, -, -, hchoose⟩ :=
      (expand_eq_error_iff hsize).mp (Prod.ext h rfl)
    exact choose_ne_budget name (congrArg Prod.fst hchoose)
  · intro hsize
    rw [expand, if_neg hsize]

/-- A greater limit leaves an expansion that was not given up as it is, or is a fault. -/
theorem expand_of_le (hle : limit ≤ larger)
    (h : g.expand root limit src = (.ok (some names), after)) :
    g.expand root larger src =
      if larger.toNat < 2 ^ 60 - 1 then (.ok (some names), after) else (.error .budget, src) := by
  have hlimit : limit.toNat ≤ larger.toNat := UInt64.le_iff_toNat_le.mp hle
  obtain ⟨-, hlength, made, hmade, hunfolds⟩ := expand_eq_some_iff.mp h
  by_cases hsize : Grammar.budget larger < UInt64.size
  · rw [if_pos ((budget_lt_size_iff larger).mp hsize)]
    refine expand_eq_some_iff.mpr ⟨hsize, hlength.trans hlimit, made, ?_, hunfolds⟩
    exact hmade.trans (Nat.mul_le_mul_left 16 (Nat.succ_le_succ hlimit))
  · rw [if_neg (mt (budget_lt_size_iff larger).mpr hsize), expand, if_neg hsize]

end Grammar

namespace Session

variable {s : Session} {w : Word}

theorem fill_ne_budget (m : Model) (marker : String) (chosen : List Token) (names : List String)
    (src : Source) : (fill m marker chosen names src).1 ≠ .error .budget := by
  intro h
  obtain ⟨_, _, _, _, _, _, -, -, -, hchoose⟩ := fill_eq_error_iff.mp h
  obtain ⟨hfault, -⟩ := chooseWeighted_eq_error_iff.mp hchoose
  cases hfault

/-- The budget is a fault of a sketch exactly where it is one of its expansion. -/
theorem sketch_budget_iff :
    s.sketch.1 = .error .budget ↔
      2 ^ 60 - 1 ≤ (s.config.cap s.config.maxLength).toNat := by
  rw [sketch_eq_error_iff, Grammar.expand_budget_iff]
  refine or_iff_left ?_
  rintro ⟨slots, later, -, hfill⟩
  exact fill_ne_budget _ _ _ _ _ hfill

/-- Under settings with a greater limit and the same marker a sketch comes to the same word, or is a
fault. -/
theorem sketch_of_le {config : Config} (hboundary : config.boundary = s.config.boundary)
    (hle : s.config.cap s.config.maxLength ≤ config.cap config.maxLength)
    (h : s.sketch.1 = .ok (some w)) :
    ({ s with config := config }.sketch).1 =
      if (config.cap config.maxLength).toNat < 2 ^ 60 - 1 then .ok (some w)
      else .error .budget := by
  obtain ⟨slots, later, hexpand, hfill⟩ := sketch_eq_some_iff.mp h
  have hraised := Grammar.expand_of_le hle hexpand
  split at hraised
  · next hsize =>
      rw [if_pos hsize]
      refine sketch_eq_some_iff.mpr ⟨slots, later, hraised, ?_⟩
      rw [← hfill, ← hboundary]
  · next hsize =>
      rw [if_neg hsize]
      exact sketch_eq_error_iff.mpr (.inl (congrArg Prod.fst hraised))

/-- The budget of an expansion or a sketch does not fit into a word exactly from a limit of
`2 ^ 60 - 1` on. Below it, a greater limit leaves every expansion and every sketch that came to
something as it is; from there on it makes each of them fail. -/
theorem raised_limit (g : Grammar) (root : String) (src : Source) (s : Session) :
    (∀ limit, (g.expand root limit src).1 = .error .budget ↔ 2 ^ 60 - 1 ≤ limit.toNat) ∧
    (s.sketch.1 = .error .budget ↔ 2 ^ 60 - 1 ≤ (s.config.cap s.config.maxLength).toNat) ∧
    (∀ limit larger names after, limit ≤ larger →
      g.expand root limit src = (.ok (some names), after) →
        g.expand root larger src =
          if larger.toNat < 2 ^ 60 - 1 then (.ok (some names), after)
          else (.error .budget, src)) ∧
    ∀ (config : Config) (w : Word), config.boundary = s.config.boundary →
      s.config.cap s.config.maxLength ≤ config.cap config.maxLength →
        s.sketch.1 = .ok (some w) →
          ({ s with config := config }.sketch).1 =
            if (config.cap config.maxLength).toNat < 2 ^ 60 - 1 then .ok (some w)
            else .error .budget :=
  ⟨fun _ => Grammar.expand_budget_iff, sketch_budget_iff, fun _ _ _ _ => Grammar.expand_of_le,
    fun _ _ => sketch_of_le⟩

/-- An expansion and a sketch stay as they are when their limit is raised to 64, and fail when it is
raised to the greatest word. -/
theorem raised_limit_alternating :
    (Grammar.lasting.expand "W" 3 alternating.source).1 = .ok (some ["C", "C"]) ∧
      (Grammar.lasting.expand "W" 64 alternating.source).1 = .ok (some ["C", "C"]) ∧
      (Grammar.lasting.expand "W" 0xFFFFFFFFFFFFFFFF alternating.source).1 = .error .budget ∧
      alternating.sketch.1 = .ok (some ⟨["t", "p"]⟩) ∧
      ({ alternating with config := { maxLength := 64 } }.sketch).1 =
        .ok (some ⟨["t", "p"]⟩) ∧
      ({ alternating with config := { maxLength := 0xFFFFFFFFFFFFFFFF } }.sketch).1 =
        .error .budget := by
  have hexpand : (Grammar.lasting.expand "W" 3 alternating.source).1 = .ok (some ["C", "C"]) := by
    decide +kernel
  have hsketch : alternating.sketch.1 = .ok (some ⟨["t", "p"]⟩) := by decide +kernel
  obtain ⟨hbudget, -, hlarger, hraised⟩ :=
    raised_limit Grammar.lasting "W" alternating.source alternating
  refine ⟨hexpand, ?_, (hbudget _).mpr (by decide), hsketch, ?_, ?_⟩
  · exact congrArg Prod.fst (hlarger 3 64 _ _ (by decide) (Prod.ext hexpand rfl))
  · exact hraised { maxLength := 64 } _ rfl (by decide) hsketch
  · exact hraised { maxLength := 0xFFFFFFFFFFFFFFFF } _ rfl (by decide) hsketch

/-- The budget does not fit into a word for every limit, and a greater limit can turn an expansion
and a sketch that came to something into a fault. -/
theorem not_raised_limit :
    (¬ ∀ limit : UInt64, Grammar.budget limit < UInt64.size) ∧
    (¬ ∀ (g : Grammar) (root : String) (limit larger : UInt64) (names : List String)
      (src : Source), limit ≤ larger → (g.expand root limit src).1 = .ok (some names) →
        ∃ others, (g.expand root larger src).1 = .ok (some others)) ∧
    ¬ ∀ (s : Session) (config : Config) (w : Word), config.boundary = s.config.boundary →
      s.config.cap s.config.maxLength ≤ config.cap config.maxLength →
        s.sketch.1 = .ok (some w) →
          ∃ other, ({ s with config := config }.sketch).1 = .ok (some other) := by
  refine ⟨fun hsize => ?_, fun hexpand => ?_, fun hsketch => ?_⟩
  · exact absurd (hsize 0xFFFFFFFFFFFFFFFF) (by decide)
  · have hsome : (Grammar.lasting.expand "W" 3 (.cyclic #[0xFFFFFFFFFFFFFFFF, 0])).1 =
        .ok (some ["C", "C"]) := by decide +kernel
    obtain ⟨others, hothers⟩ := hexpand Grammar.lasting "W" 3 0xFFFFFFFFFFFFFFFF ["C", "C"] _
      (by decide) hsome
    rw [Grammar.expand_budget_iff.mpr (by decide)] at hothers
    cases hothers
  · have hsome : alternating.sketch.1 = .ok (some ⟨["t", "p"]⟩) := by decide +kernel
    have hfault : ({ alternating with config := { maxLength := 0xFFFFFFFFFFFFFFFF } }.sketch).1 =
        .error .budget := sketch_of_le rfl (by decide) hsome
    obtain ⟨other, hother⟩ := hsketch alternating { maxLength := 0xFFFFFFFFFFFFFFFF } _ rfl
      (by decide) hsome
    rw [hfault] at hother
    cases hother

end Session

end Neologism
