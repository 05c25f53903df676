import Mathlib.Data.List.Infix
import Neologism.Search.Admissible

/-! # Which tokens survive narrowing

Narrowing looks at every text that the tokens before end in. Whether a token survives depends on
that token alone, not on its weight and not on the other tokens.

Main statements: `contains_narrow_iff`, and `admissible_iff` for the tokens of a whole word. -/

namespace Neologism.Phonotactics

/-- One context lets a token through unless it excludes it or has a condition without it. -/
def Admits (p : Phonotactics) (context : String) (token : Token) : Prop :=
  (∀ c, p.exclusions.get? context = some c → c.contains token = false) ∧
    ∀ c, p.conditions.get? context = some c → c.contains token = true

/-- The suffixes of a sequence that are not empty, from the longest to the shortest. -/
def suffixes (trailing : List Token) : List (List Token) :=
  trailing.tails.dropLast

theorem suffixes_cons (token : Token) (rest : List Token) :
    suffixes (token :: rest) = (token :: rest) :: suffixes rest := by
  have hne : rest.tails ≠ [] := List.ne_nil_of_mem ((List.mem_tails rest rest).mpr List.suffix_rfl)
  exact List.dropLast_cons_of_ne_nil hne

theorem mem_suffixes_iff (suffix trailing : List Token) :
    suffix ∈ suffixes trailing ↔ suffix ≠ [] ∧ suffix <:+ trailing := by
  induction trailing with
  | nil => simp [suffixes, List.suffix_nil]
  | cons token rest ih =>
      rw [suffixes_cons, List.mem_cons, ih, List.suffix_cons_iff]
      constructor
      · rintro (rfl | ⟨hne, hsuffix⟩)
        · exact ⟨List.cons_ne_nil token rest, .inl rfl⟩
        · exact ⟨hne, .inr hsuffix⟩
      · rintro ⟨hne, rfl | hsuffix⟩
        · exact .inl rfl
        · exact .inr ⟨hne, hsuffix⟩

/-- The trailing texts are the texts of the suffixes. -/
theorem trailingTexts_eq (trailing : List Token) :
    trailingTexts trailing = (suffixes trailing).map String.join := by
  induction trailing with
  | nil => rfl
  | cons token rest ih => rw [trailingTexts, suffixes_cons, List.map_cons, ih]

/-- The trailing texts are those of the suffixes that are not empty. -/
theorem mem_trailingTexts_iff (ts : List Token) (text : String) :
    text ∈ trailingTexts ts ↔
      ∃ suffix, suffix ≠ [] ∧ suffix <:+ ts ∧ String.join suffix = text := by
  simp only [trailingTexts_eq, List.mem_map, mem_suffixes_iff, and_assoc]

/-- A token is permitted when each suffix of what stands before admits it after its text. -/
theorem permits_iff (p : Phonotactics) (trailing : List Token) (token : Token) :
    p.Permits trailing token ↔
      ∀ suffix, suffix ≠ [] → suffix <:+ trailing → p.Admits (String.join suffix) token := by
  constructor
  · intro h suffix hne hsuffix
    exact h _ ((mem_trailingTexts_iff trailing _).mpr ⟨suffix, hne, hsuffix, rfl⟩)
  · intro h context hcontext
    obtain ⟨suffix, hne, hsuffix, rfl⟩ := (mem_trailingTexts_iff trailing context).mp hcontext
    exact h suffix hne hsuffix

theorem contains_narrowBy_iff (p : Phonotactics) (t : Table) (context : String) (token : Token) :
    (p.narrowBy t context).contains token = true ↔
      t.contains token = true ∧ p.Admits context token := by
  simp only [OrderedMap.contains, Admits, get?_narrowBy]
  cases t.get? token with
  | none => simp
  | some weight =>
      cases p.exclusions.get? context with
      | none => cases p.conditions.get? context <;> simp
      | some excluded =>
          cases hexcluded : excluded.get? token <;>
            cases p.conditions.get? context <;> simp [hexcluded]

/-- The survivors are the tokens that every text at the end of what stands before admits. -/
theorem contains_narrow_iff (p : Phonotactics) (base : Table) (trailing : List Token)
    (token : Token) :
    (p.narrow base trailing).contains token = true ↔
      base.contains token = true ∧ p.Permits trailing token := by
  change _ ↔ _ ∧ ∀ context ∈ trailingTexts trailing, p.Admits context token
  rw [narrow]
  induction trailingTexts trailing generalizing base with
  | nil => simp
  | cons context rest ih =>
      rw [List.foldl_cons, ih, contains_narrowBy_iff, List.forall_mem_cons, and_assoc]

/-- Tokens are permitted one after the other when each of them is where it stands. -/
theorem permitsAll_iff (p : Phonotactics) (marker : String) (before tokens : List Token) :
    p.PermitsAll marker before tokens ↔
      ∀ us t vs, tokens = us ++ t :: vs → p.Permits (marker :: (before ++ us)) t := by
  induction tokens generalizing before with
  | nil => simp [PermitsAll]
  | cons token tokens ih =>
      rw [PermitsAll, ih]
      constructor
      · rintro ⟨hfirst, hrest⟩ us t vs hsplit
        rcases List.cons_eq_append_iff.mp hsplit with ⟨rfl, hhead⟩ | ⟨us, rfl, htail⟩
        · obtain ⟨rfl, -⟩ := List.cons.inj hhead
          rwa [List.append_nil]
        · have hpermits := hrest us t vs htail
          rwa [← List.append_cons] at hpermits
      · intro h
        constructor
        · have hfirst := h [] token tokens rfl
          rwa [List.append_nil] at hfirst
        · rintro us t vs rfl
          rw [← List.append_cons]
          exact h (token :: us) t vs rfl

end Neologism.Phonotactics

namespace Neologism.Model

/-- A word is admissible when the root derives it, and when every suffix of the marker and the
tokens before a token admits that token after its text. -/
theorem admissible_iff (m : Model) (marker : String) (tokens : List Token) :
    m.Admissible marker tokens ↔
      m.grammar.Derives m.lexicon [.nonterminal m.root] tokens ∧
        ∀ us t vs, tokens = us ++ t :: vs → ∀ suffix, suffix ≠ [] → suffix <:+ marker :: us →
          m.phonotactics.Admits (String.join suffix) t := by
  simp only [Admissible, Phonotactics.permitsAll_iff, Phonotactics.permits_iff, List.nil_append]

end Neologism.Model
