import Neologism.Proofs.Grammar.Unfolding

/-! # Expansions are leftmost derivations

An expansion follows the derivation of its root that chance drives. It ends with the classes of the
form that is left without nonterminals, unless it is given up before: it counts the classes in front
of the first nonterminal and the choices it makes, and both are limited. Nothing is lost by giving
up early, since classes in front of a form stay there.

Main statements: `expandFrom_outcome` lists the ways in which an expansion stops, and
`expandFrom_eq_some_iff`, `expandFrom_eq_none_iff` and `expandFrom_eq_error_iff` read off it when an
expansion comes to class names, is given up and fails. `expandBy_counted` counts the choices, and
`expand_leftmost` says all of this of a root. -/

namespace Neologism.Grammar

variable {g : Grammar} {n budget limit : Nat} {names : List String} {name : String}
  {rest start form other : List Symbol} {src next later after : Source}

/-- The classes so far may as well stand in front of what is pending. -/
theorem expandFrom_restart (g : Grammar) (budget room : Nat) (slots : List String)
    (pending : List Symbol) (src : Source) :
    g.expandFrom budget room slots pending src =
      g.expandFrom budget (slots.length + room) [] (slots.reverse.map Symbol.cls ++ pending)
        src := by
  rw [expandFrom.eq_def, expandFrom.eq_def g budget (slots.length + room)]
  simp only [leading_append, List.length_append, List.length_reverse, List.reverse_append,
    List.reverse_reverse, List.append_nil, Nat.add_lt_add_iff_left, Nat.add_sub_add_left]

theorem expandFrom_names (h : names.length ≤ limit) :
    g.expandFrom budget limit [] (names.map Symbol.cls) src = (.ok (some names), src) := by
  rw [expandFrom.eq_def]
  simp [leading_names, Nat.not_lt.mpr h]

theorem expandFrom_crowded (h : Crowded limit form) :
    g.expandFrom budget limit [] form src = (.ok none, src) := by
  rw [expandFrom.eq_def]
  exact if_pos (crowded_iff.mp h)

theorem expandFrom_spent :
    g.expandFrom 0 limit [] (names.map Symbol.cls ++ .nonterminal name :: rest) src =
      (.ok none, src) := by
  rw [expandFrom.eq_def]
  simp [leading_nonterminal]

/-- As long as there is room and budget, the first nonterminal gives way to a rule. -/
theorem expandFrom_nonterminal (h : names.length ≤ limit) :
    g.expandFrom (budget + 1) limit [] (names.map Symbol.cls ++ .nonterminal name :: rest) src =
      match g.choose name src with
      | (.ok (some rule), next) =>
          g.expandFrom budget limit [] (names.map Symbol.cls ++ (rule.symbols ++ rest)) next
      | (.ok none, next) => (.ok none, next)
      | (.error fault, next) => (.error fault, next) := by
  rw [expandFrom.eq_def]
  simp only [leading_nonterminal, Nat.not_lt.mpr h, if_false, List.append_nil]
  rcases g.choose name src with ⟨_ | _ | rule, next⟩
  · rfl
  · rfl
  · dsimp only
    rw [expandFrom_restart, List.length_reverse, List.reverse_reverse, Nat.add_sub_cancel' h]

/-- The ways in which an expansion stops at a form that it has come to, by what is left of its
budget. -/
inductive Stops (g : Grammar) (limit : Nat) :
    (left : Nat) → List Symbol → Source → Except Fault (Option (List String)) × Source → Prop where
  /-- No nonterminal is left. -/
  | finished {left : Nat} {names : List String} {src : Source} : names.length ≤ limit →
      Stops g limit left (names.map Symbol.cls) src (.ok (some names), src)
  /-- There are too many classes. -/
  | crowded {left : Nat} {form : List Symbol} {src : Source} : Crowded limit form →
      Stops g limit left form src (.ok none, src)
  /-- The budget is spent and a nonterminal is left. -/
  | spent {names : List String} {name : String} {rest : List Symbol} {src : Source} :
      Stops g limit 0 (names.map Symbol.cls ++ .nonterminal name :: rest) src (.ok none, src)
  /-- No rule can be chosen for the first nonterminal. -/
  | stuck {left : Nat} {names : List String} {name : String} {rest : List Symbol}
      {src next : Source} : names.length ≤ limit → g.choose name src = (.ok none, next) →
      Stops g limit (left + 1) (names.map Symbol.cls ++ .nonterminal name :: rest) src
        (.ok none, next)
  /-- The choice for the first nonterminal fails. -/
  | failed {left : Nat} {names : List String} {name : String} {rest : List Symbol} {fault : Fault}
      {src next : Source} : names.length ≤ limit → g.choose name src = (.error fault, next) →
      Stops g limit (left + 1) (names.map Symbol.cls ++ .nonterminal name :: rest) src
        (.error fault, next)

/-- An expansion follows its derivation until it stops. -/
theorem expandFrom_outcome (g : Grammar) (budget limit : Nat) (start : List Symbol)
    (src : Source) :
    ∃ made form later, made ≤ budget ∧ g.Unfolds made start src form later ∧
      g.Stops limit (budget - made) form later (g.expandFrom budget limit [] start src) := by
  have here {budget : Nat} {start : List Symbol} {src : Source}
      {answer : Except Fault (Option (List String)) × Source}
      (h : g.Stops limit budget start src answer) :
      ∃ made form later, made ≤ budget ∧ g.Unfolds made start src form later ∧
        g.Stops limit (budget - made) form later answer :=
    ⟨0, start, src, Nat.zero_le budget, .refl start src, h⟩
  induction budget generalizing start src with
  | zero =>
      rcases form_cases limit start with hcrowded | ⟨names, hroom, rfl⟩ | ⟨_, _, _, hroom, rfl⟩
      · exact here (expandFrom_crowded hcrowded ▸ .crowded hcrowded)
      · exact here (expandFrom_names hroom ▸ .finished hroom)
      · exact here (expandFrom_spent ▸ .spent)
  | succ budget ih =>
      rcases form_cases limit start with
        hcrowded | ⟨names, hroom, rfl⟩ | ⟨names, name, rest, hroom, rfl⟩
      · exact here (expandFrom_crowded hcrowded ▸ .crowded hcrowded)
      · exact here (expandFrom_names hroom ▸ .finished hroom)
      · rw [expandFrom_nonterminal hroom]
        rcases hchoose : g.choose name src with ⟨fault | _ | rule, next⟩
        · exact here (.failed hroom hchoose)
        · exact here (.stuck hroom hchoose)
        · obtain ⟨made, form, later, hmade, hunfolds, hstops⟩ :=
            ih (names.map Symbol.cls ++ (rule.symbols ++ rest)) next
          refine ⟨made + 1, form, later, Nat.succ_le_succ hmade, .step hchoose hunfolds, ?_⟩
          rwa [Nat.add_sub_add_right]

/-- An expansion goes along its derivation as long as there is room. -/
theorem expandFrom_of_unfolds {left : Nat} (h : g.Unfolds n start src form after)
    (hroom : ¬ Crowded limit form) :
    g.expandFrom (n + left) limit [] start src = g.expandFrom left limit [] form after := by
  induction h with
  | refl => rw [Nat.zero_add]
  | @step n names _ _ _ _ _ _ _ hchoose hrest ih =>
      have hnames : names.length ≤ limit := by
        refine Nat.not_lt.mp fun hlong => hroom ?_
        exact Crowded.unfolds ⟨names, _, rfl, hlong⟩ (.step hchoose hrest)
      rw [Nat.add_right_comm, expandFrom_nonterminal hnames, hchoose]
      exact ih hroom

theorem expandFrom_eq_some_iff :
    g.expandFrom budget limit [] start src = (.ok (some names), after) ↔
      names.length ≤ limit ∧
        ∃ made ≤ budget, g.Unfolds made start src (names.map Symbol.cls) after := by
  constructor
  · intro h
    obtain ⟨made, form, later, hmade, hunfolds, hstops⟩ :=
      g.expandFrom_outcome budget limit start src
    rw [h] at hstops
    generalize budget - made = left at hstops
    cases hstops with
    | finished hroom => exact ⟨hroom, made, hmade, hunfolds⟩
  · rintro ⟨hroom, made, hmade, hunfolds⟩
    have hleft : made + (budget - made) = budget := Nat.add_sub_cancel' hmade
    rw [← hleft, expandFrom_of_unfolds hunfolds (not_crowded_names hroom), expandFrom_names hroom]

theorem expandFrom_eq_error_iff {fault : Fault} :
    g.expandFrom budget limit [] start src = (.error fault, after) ↔
      ∃ (made : Nat) (names : List String) (name : String) (rest : List Symbol) (later : Source),
        made < budget ∧ names.length ≤ limit ∧
          g.Unfolds made start src (names.map Symbol.cls ++ .nonterminal name :: rest) later ∧
            g.choose name later = (.error fault, after) := by
  constructor
  · intro h
    obtain ⟨made, form, later, hmade, hunfolds, hstops⟩ :=
      g.expandFrom_outcome budget limit start src
    rw [h] at hstops
    generalize hleft : budget - made = left at hstops
    cases hstops with
    | failed hroom hchoose => exact ⟨made, _, _, _, later, by omega, hroom, hunfolds, hchoose⟩
  · rintro ⟨made, names, name, rest, later, hmade, hroom, hunfolds, hchoose⟩
    have hleft : made + ((budget - made - 1) + 1) = budget := by omega
    rw [← hleft, expandFrom_of_unfolds hunfolds (not_crowded_nonterminal hroom),
      expandFrom_nonterminal hroom, hchoose]

/-- A derivation gives an expansion up at a form: there are too many classes in front, the choices
are spent while a nonterminal is left, or no rule can be chosen for the first nonterminal. -/
def GivesUp (g : Grammar) (budget limit made : Nat) (form : List Symbol) (src : Source) : Prop :=
  Crowded limit form ∨ (budget ≤ made ∧ ∃ name, .nonterminal name ∈ form) ∨
    ∃ (names : List String) (name : String) (rest : List Symbol),
      form = names.map Symbol.cls ++ .nonterminal name :: rest ∧
        (g.choose name src).1 = .ok none

theorem GivesUp.eq_of_halted {made made' : Nat} {later : Source}
    (h : g.GivesUp budget limit made form later) (hform : g.Unfolds made start src form later)
    (hother : g.Unfolds made' start src other after) (hhalted : g.Halted other after)
    (hmade : made' ≤ budget) (hroom : ¬ Crowded limit other) :
    made' = made ∧ other = form ∧ after = later := by
  obtain ⟨more, rfl⟩ := Nat.exists_eq_add_of_le (hform.le_of_halted hother hhalted)
  have hrest := hother.of_add hform
  have hmore : more = 0 := by
    rcases h with hcrowded | ⟨hspent, -⟩ | ⟨names, name, rest, rfl, hchoose⟩
    · exact absurd (hcrowded.unfolds hrest) hroom
    · omega
    · cases more with
      | zero => rfl
      | succ more =>
          exact absurd hrest (halted_of_choose (fun rule => by simp [hchoose]) more other after)
  subst hmore
  exact ⟨rfl, hrest.eq_of_zero⟩

theorem not_givesUp_names {made : Nat} (hroom : names.length ≤ limit) :
    ¬ g.GivesUp budget limit made (names.map Symbol.cls) src := by
  rintro (hcrowded | ⟨-, name, hmem⟩ | ⟨others, name, rest, hform, -⟩)
  · exact not_crowded_names hroom hcrowded
  · simp at hmem
  · exact names_ne_nonterminal _ _ _ _ hform

theorem not_givesUp_of_choose {made : Nat} (hroom : names.length ≤ limit) (hmade : made < budget)
    (hchoose : (g.choose name src).1 ≠ .ok none) :
    ¬ g.GivesUp budget limit made (names.map Symbol.cls ++ .nonterminal name :: rest) src := by
  rintro (hcrowded | ⟨hspent, -⟩ | ⟨others, other, behind, hform, hnone⟩)
  · exact not_crowded_nonterminal hroom hcrowded
  · exact absurd hmade (Nat.not_lt.mpr hspent)
  · obtain ⟨-, rfl, -⟩ := nonterminal_inj hform
    exact hchoose hnone

/-- An expansion is given up when its derivation comes to a form at which it has to be. -/
theorem expandFrom_eq_none_iff :
    (g.expandFrom budget limit [] start src).1 = .ok none ↔
      ∃ made form later, g.Unfolds made start src form later ∧
        g.GivesUp budget limit made form later := by
  constructor
  · intro h
    obtain ⟨made, form, later, hmade, hunfolds, hstops⟩ :=
      g.expandFrom_outcome budget limit start src
    refine ⟨made, form, later, hunfolds, ?_⟩
    generalize hleft : budget - made = left at hstops
    generalize g.expandFrom budget limit [] start src = answer at h hstops
    cases hstops with
    | finished | failed => cases h
    | crowded hcrowded => exact .inl hcrowded
    | @spent _ name => exact .inr (.inl ⟨by omega, name, by simp⟩)
    | stuck _ hchoose => exact .inr (.inr ⟨_, _, _, rfl, congrArg Prod.fst hchoose⟩)
  · rintro ⟨made, form, later, hform, hgivesUp⟩
    obtain ⟨made', other, after, hmade, hother, hstops⟩ :=
      g.expandFrom_outcome budget limit start src
    generalize hleft : budget - made' = left at hstops
    generalize g.expandFrom budget limit [] start src = answer at hstops
    cases hstops with
    | crowded | spent | stuck => rfl
    | finished hroom =>
        obtain ⟨rfl, rfl, rfl⟩ := hgivesUp.eq_of_halted hform hother halted_names hmade
          (not_crowded_names hroom)
        exact absurd hgivesUp (not_givesUp_names hroom)
    | failed hroom hchoose =>
        obtain ⟨rfl, rfl, rfl⟩ := hgivesUp.eq_of_halted hform hother
          (halted_of_choose fun rule => by simp [hchoose]) hmade (not_crowded_nonterminal hroom)
        exact absurd hgivesUp (not_givesUp_of_choose hroom (by omega) (by simp [hchoose]))

section Roots

variable {root : String} {limit : UInt64}

theorem expand_of_budget (h : Grammar.budget limit < UInt64.size) :
    g.expand root limit src =
      g.expandFrom (Grammar.budget limit) limit.toNat [] [.nonterminal root] src :=
  if_pos h

theorem expand_eq_some_iff :
    g.expand root limit src = (.ok (some names), after) ↔
      Grammar.budget limit < UInt64.size ∧ names.length ≤ limit.toNat ∧
        ∃ made ≤ Grammar.budget limit,
          g.Unfolds made [.nonterminal root] src (names.map Symbol.cls) after := by
  by_cases h : Grammar.budget limit < UInt64.size
  · rw [expand_of_budget h, expandFrom_eq_some_iff, and_iff_right h]
  · simp [expand, h]

theorem expand_eq_none_iff (h : Grammar.budget limit < UInt64.size) :
    (g.expand root limit src).1 = .ok none ↔
      ∃ made form later, g.Unfolds made [.nonterminal root] src form later ∧
        g.GivesUp (Grammar.budget limit) limit.toNat made form later := by
  rw [expand_of_budget h, expandFrom_eq_none_iff]

theorem expand_eq_error_iff {fault : Fault} (h : Grammar.budget limit < UInt64.size) :
    g.expand root limit src = (.error fault, after) ↔
      ∃ (made : Nat) (names : List String) (name : String) (rest : List Symbol) (later : Source),
        made < Grammar.budget limit ∧ names.length ≤ limit.toNat ∧
          g.Unfolds made [.nonterminal root] src
            (names.map Symbol.cls ++ .nonterminal name :: rest) later ∧
              g.choose name later = (.error fault, after) := by
  rw [expand_of_budget h, expandFrom_eq_error_iff]

/-- An expansion of a root that is not given up is a yield of it within the limit. -/
theorem yields_of_expand (h : g.expand root limit src = (.ok (some names), after)) :
    g.Yields [.nonterminal root] names ∧ names.length ≤ limit.toNat := by
  obtain ⟨-, hlength, made, -, hunfolds⟩ := expand_eq_some_iff.mp h
  refine ⟨yields_iff_rewrites.mpr ?_, hlength⟩
  exact hunfolds.rewritesFirst.lift id fun _ _ step => step.rewrites

end Roots

section Counting

variable {σ : Type}

/-- The expansion of pending symbols with the choices left to a function on states. -/
def expandBy (choose : String → σ → Except Fault (Option Rule) × σ) :
    (budget room : Nat) → (slots : List String) → (pending : List Symbol) → σ →
      Except Fault (Option (List String)) × σ
  | budget, room, slots, pending, s =>
      let (names, open?) := leading pending
      if room < names.length then (.ok none, s)
      else
        let slots := names.reverse ++ slots
        match open?, budget with
        | none, _ => (.ok (some slots.reverse), s)
        | some _, 0 => (.ok none, s)
        | some (name, rest), budget + 1 =>
            match choose name s with
            | (.ok (some rule), s) =>
                expandBy choose budget (room - names.length) slots (rule.symbols ++ rest) s
            | (.ok none, s) => (.ok none, s)
            | (.error fault, s) => (.error fault, s)

/-- A function on states that counts its calls. -/
def counted (choose : String → σ → Except Fault (Option Rule) × σ) (name : String)
    (s : σ × Nat) : Except Fault (Option Rule) × (σ × Nat) :=
  ((choose name s.1).1, (choose name s.1).2, s.2 + 1)

/-- An expansion is one whose choices are left to the grammar and the source. -/
theorem expandBy_choose (g : Grammar) (budget room : Nat) (slots : List String)
    (pending : List Symbol) (src : Source) :
    expandBy g.choose budget room slots pending src =
      g.expandFrom budget room slots pending src := by
  induction budget generalizing room slots pending src with
  | zero =>
      rw [expandBy.eq_def, expandFrom.eq_def]
      dsimp only
      rcases leading pending with ⟨names, _ | first⟩ <;> rfl
  | succ budget ih =>
      rw [expandBy.eq_def, expandFrom.eq_def]
      dsimp only
      rcases leading pending with ⟨names, _ | ⟨name, rest⟩⟩
      · rfl
      · dsimp only
        rcases g.choose name src with ⟨fault | _ | rule, next⟩
        · rfl
        · rfl
        · simp only [ih]

/-- An expansion makes no more choices than its budget allows. -/
theorem expandBy_counted (choose : String → σ → Except Fault (Option Rule) × σ)
    (budget room : Nat) (slots : List String) (pending : List Symbol) (s : σ) (before : Nat) :
    ∃ calls ≤ budget, expandBy (counted choose) budget room slots pending (s, before) =
      ((expandBy choose budget room slots pending s).1,
        (expandBy choose budget room slots pending s).2, before + calls) := by
  induction budget generalizing room slots pending s before with
  | zero =>
      refine ⟨0, Nat.le_refl 0, ?_⟩
      rw [expandBy.eq_def, expandBy.eq_def choose]
      dsimp only
      rcases leading pending with ⟨names, _ | first⟩ <;> dsimp only <;> split <;> rfl
  | succ budget ih =>
      rw [expandBy.eq_def, expandBy.eq_def choose]
      dsimp only [counted]
      rcases leading pending with ⟨names, _ | ⟨name, rest⟩⟩ <;> dsimp only <;> split
      · exact ⟨0, Nat.zero_le _, rfl⟩
      · exact ⟨0, Nat.zero_le _, rfl⟩
      · exact ⟨0, Nat.zero_le _, rfl⟩
      · rcases choose name s with ⟨fault | _ | rule, next⟩
        · exact ⟨1, Nat.succ_pos budget, rfl⟩
        · exact ⟨1, Nat.succ_pos budget, rfl⟩
        · obtain ⟨calls, hcalls, heq⟩ := ih (room - names.length) (names.reverse ++ slots)
            (rule.symbols ++ rest) next (before + 1)
          refine ⟨calls + 1, Nat.succ_le_succ hcalls, ?_⟩
          rw [← Nat.add_assoc, Nat.add_right_comm]
          exact heq

end Counting

/-- An expansion is the leftmost derivation of its root that the source drives, in at most sixteen
steps for each class and for the end, and with as many choices at most. It comes to the class names
that the derivation ends in, is given up exactly where the derivation runs over a limit or has no
rule to choose, and fails exactly where a choice within the limits fails. -/
theorem expand_leftmost {limit : UInt64} (hbudget : 16 * (limit.toNat + 1) < 2 ^ 64)
    (g : Grammar) (root : String) (src : Source) :
    (∃ calls ≤ 16 * (limit.toNat + 1),
      expandBy (counted g.choose) (16 * (limit.toNat + 1)) limit.toNat [] [.nonterminal root]
          (src, 0) =
        ((g.expand root limit src).1, (g.expand root limit src).2, calls)) ∧
      (∀ names after, g.expand root limit src = (.ok (some names), after) ↔
        names.length ≤ limit.toNat ∧ ∃ made ≤ 16 * (limit.toNat + 1),
          g.Unfolds made [.nonterminal root] src (names.map Symbol.cls) after) ∧
      ((g.expand root limit src).1 = .ok none ↔
        ∃ made form later, g.Unfolds made [.nonterminal root] src form later ∧
          g.GivesUp (16 * (limit.toNat + 1)) limit.toNat made form later) ∧
      ∀ fault after, g.expand root limit src = (.error fault, after) ↔
        ∃ (made : Nat) (names : List String) (name : String) (rest : List Symbol)
          (later : Source), made < 16 * (limit.toNat + 1) ∧ names.length ≤ limit.toNat ∧
            g.Unfolds made [.nonterminal root] src
              (names.map Symbol.cls ++ .nonterminal name :: rest) later ∧
                g.choose name later = (.error fault, after) := by
  have hsize : Grammar.budget limit < UInt64.size := hbudget
  refine ⟨?_, fun names after => ?_, expand_eq_none_iff hsize, fun fault after =>
    expand_eq_error_iff hsize⟩
  · obtain ⟨calls, hcalls, heq⟩ := expandBy_counted g.choose (Grammar.budget limit) limit.toNat []
      [.nonterminal root] src 0
    rw [expandBy_choose, ← expand_of_budget hsize, Nat.zero_add] at heq
    exact ⟨calls, hcalls, heq⟩
  · rw [expand_eq_some_iff, and_iff_right hsize]
    rfl

/-- A nonterminal with a rule that ends and a rule that goes on. -/
def lasting : Grammar :=
  ⟨⟨[("W", [⟨[.cls "C"], 1.0⟩, ⟨[.cls "C", .nonterminal "W"], 1.0⟩])], by decide⟩⟩

/-- The greatest value chooses the rule that goes on, and zero the one that ends. -/
theorem expand_leftmost_lasting :
    16 * ((3 : UInt64).toNat + 1) < 2 ^ 64 ∧
      ∃ made after, lasting.Unfolds made [.nonterminal "W"] (.cyclic #[0xFFFFFFFFFFFFFFFF, 0])
        [.cls "C", .cls "C"] after := by
  have hsize : 16 * ((3 : UInt64).toNat + 1) < 2 ^ 64 := by decide
  obtain ⟨-, hsome, -, -⟩ :=
    expand_leftmost hsize lasting "W" (.cyclic #[0xFFFFFFFFFFFFFFFF, 0])
  have hexpand : (lasting.expand "W" 3 (.cyclic #[0xFFFFFFFFFFFFFFFF, 0])).1 =
      .ok (some ["C", "C"]) := by decide +kernel
  obtain ⟨-, made, -, hunfolds⟩ := (hsome ["C", "C"] _).mp (Prod.ext hexpand rfl)
  exact ⟨hsize, made, _, hunfolds⟩

/-- Two rules of weight 1e308 for one nonterminal. -/
def overweight : Grammar :=
  ⟨⟨[("S", [⟨[.cls "a"], immense⟩, ⟨[.cls "a"], immense⟩])], by decide⟩⟩

/-- Where the derivation does not end within the limits, an expansion need not be given up: it may
fail. -/
theorem not_expand_leftmost :
    ¬ ∀ (g : Grammar) (root : String) (limit : UInt64) (src : Source),
      16 * (limit.toNat + 1) < 2 ^ 64 →
        (¬ ∃ (names : List String) (after : Source), names.length ≤ limit.toNat ∧
          ∃ made ≤ 16 * (limit.toNat + 1),
            g.Unfolds made [.nonterminal root] src (names.map Symbol.cls) after) →
              (g.expand root limit src).1 = .ok none := by
  intro hclaim
  have hfault : (overweight.expand "S" 5 default).1 = .error .infiniteTotal := by decide +kernel
  have hnone : (overweight.expand "S" 5 default).1 = .ok none := by
    refine hclaim overweight "S" 5 default (by decide) ?_
    rintro ⟨names, after, hlength, made, hmade, hunfolds⟩
    have hsome : overweight.expand "S" 5 default = (.ok (some names), after) :=
      expand_eq_some_iff.mpr ⟨by decide, hlength, made, hmade, hunfolds⟩
    rw [hsome] at hfault
    cases hfault
  rw [hnone] at hfault
  cases hfault

end Neologism.Grammar
