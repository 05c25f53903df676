import Mathlib.Data.List.Basic
import Mathlib.Data.List.Induction
import Neologism.Proofs.OrderedMap
import Neologism.Proofs.Phonotactics.Narrowing

/-! # Tables with one class more

A class is written into a table after each of some texts, united with what is there. Two
phonotactics, one of which has a class besides after some texts, keep this difference through
whatever is written into both, and it is all that their candidates differ by.

Main statements: `With.addConditions` and `With.addExclusions` for what is written later,
`With.admits_iff` for a single context, and `With.narrow_eq` for words that end in none of the
texts. -/

namespace Neologism

namespace CharClass

theorem contains_mergeSum_iff (a b : CharClass) (t : Token) :
    (a.mergeSum b).contains t = true ↔ a.contains t = true ∨ b.contains t = true := by
  have hfold : t ∈ (a.mergeSum b).keys ↔ t ∈ a.keys ∨ ∃ e ∈ b.entries, t = e.1 := by
    rw [mergeSum]
    exact OrderedMap.mem_keys_foldl (fun m e k => m.mem_keys_add e.1 k e.2) a b.entries t
  rw [OrderedMap.contains_iff, OrderedMap.contains_iff, OrderedMap.contains_iff, hfold,
    OrderedMap.mem_keys_iff b]
  simp

theorem contains_mergeUnion_iff (a b : CharClass) (t : Token) :
    (a.mergeUnion b).contains t = true ↔ a.contains t = true ∨ b.contains t = true := by
  have hfold : t ∈ (a.mergeUnion b).keys ↔ t ∈ a.keys ∨ ∃ e ∈ b.entries, t = e.1 := by
    rw [mergeUnion]
    exact OrderedMap.mem_keys_foldl
      (fun m e k => (m.mem_keys_upsert e.1 k (·.getD 0.0)).trans or_comm) a b.entries t
  rw [OrderedMap.contains_iff, OrderedMap.contains_iff, OrderedMap.contains_iff, hfold,
    OrderedMap.mem_keys_iff b]
  simp

end CharClass

namespace Phonotactics

variable {texts : List String} {c other : CharClass} {t t' : OrderedMap String CharClass}
  {write : Option CharClass → CharClass}

/-- The entry of a text has the token. -/
def Lists (t : OrderedMap String CharClass) (text : String) (token : Token) : Prop :=
  ∃ e, t.get? text = some e ∧ e.contains token = true

/-- What is written has the tokens of the class and those that were there. -/
def Unites (write : Option CharClass → CharClass) (c : CharClass) : Prop :=
  ∀ old token, (write old).contains token = true ↔
    c.contains token = true ∨ ∃ e, old = some e ∧ e.contains token = true

/-- A table has what another one has, and after the texts the tokens of the class besides. -/
structure Extends (texts : List String) (c : CharClass) (t t' : OrderedMap String CharClass) :
    Prop where
  elsewhere : ∀ text, text ∉ texts → t'.get? text = t.get? text
  bound : ∀ text ∈ texts, t'.get? text ≠ none
  lists : ∀ text ∈ texts, ∀ token,
    Lists t' text token ↔ c.contains token = true ∨ Lists t text token

protected theorem Extends.refl (c : CharClass) (t : OrderedMap String CharClass) :
    Extends [] c t t :=
  ⟨fun _ _ => rfl, by simp, by simp⟩

theorem lists_upsert_iff (h : Unites write c) (k text : String) (token : Token) :
    Lists (t.upsert k write) text token ↔
      (text = k ∧ c.contains token = true) ∨ Lists t text token := by
  rw [Lists, OrderedMap.get?_upsert]
  by_cases hk : text = k
  · subst hk
    simp [h _ token, Lists]
  · simp [hk, Lists]

/-- A write that unites a class with what is there does so in both tables. -/
theorem Extends.upsert (h : Extends texts c t t') (hwrite : Unites write other) (k : String) :
    Extends texts c (t.upsert k write) (t'.upsert k write) where
  elsewhere := by
    intro text htext
    rw [OrderedMap.get?_upsert, OrderedMap.get?_upsert]
    split
    · next heq => rw [← heq, h.elsewhere text htext]
    · exact h.elsewhere text htext
  bound := by
    intro text htext
    rw [OrderedMap.get?_upsert]
    split
    · simp
    · exact h.bound text htext
  lists := by
    intro text htext token
    rw [lists_upsert_iff hwrite, lists_upsert_iff hwrite, h.lists text htext]
    exact or_left_comm

theorem Extends.foldl (h : Extends texts c t t') (hwrite : Unites write other)
    (ks : List String) :
    Extends texts c (ks.foldl (fun t k => t.upsert k write) t)
      (ks.foldl (fun t k => t.upsert k write) t') := by
  induction ks generalizing t t' with
  | nil => exact h
  | cons k ks ih => exact ih (h.upsert hwrite k)

/-- Writing the class after each of the texts extends a table by it. -/
theorem extends_foldl (h : Unites write c) (texts : List String)
    (t : OrderedMap String CharClass) :
    Extends texts c t (texts.foldl (fun t text => t.upsert text write) t) := by
  induction texts using List.reverseRecOn with
  | nil => exact .refl c t
  | append_singleton texts k ih =>
      rw [List.foldl_concat]
      refine ⟨fun text htext => ?_, fun text htext => ?_, fun text htext token => ?_⟩
      · rw [List.mem_append, List.mem_singleton, not_or] at htext
        rw [OrderedMap.get?_upsert, if_neg htext.2]
        exact ih.elsewhere text htext.1
      · rw [OrderedMap.get?_upsert]
        by_cases hk : text = k
        · simp [hk]
        · rw [List.mem_append, List.mem_singleton] at htext
          rw [if_neg hk]
          exact ih.bound text (htext.resolve_right hk)
      · rw [lists_upsert_iff h]
        by_cases htexts : text ∈ texts
        · rw [ih.lists text htexts]
          grind
        · have hk : text = k := by simpa [htexts] using htext
          simp [hk, Lists, ih.elsewhere k (hk ▸ htexts)]

/-- What stands in the conditions once a class is added to what is there. -/
def sumWith (c : CharClass) : Option CharClass → CharClass
  | none => c
  | some old => old.mergeSum c

/-- What stands in the exclusions once a class is added to what is there. -/
def unionWith (c : CharClass) : Option CharClass → CharClass
  | none => c
  | some old => old.mergeUnion c

theorem unites_sumWith (c : CharClass) : Unites (sumWith c) c := by
  intro old token
  cases old with
  | none => simp [sumWith]
  | some e => simp [sumWith, CharClass.contains_mergeSum_iff, or_comm]

theorem unites_unionWith (c : CharClass) : Unites (unionWith c) c := by
  intro old token
  cases old with
  | none => simp [unionWith]
  | some e => simp [unionWith, CharClass.contains_mergeUnion_iff, or_comm]

theorem foldl_addCondition (texts : List String) (c : CharClass) (p : Phonotactics) :
    texts.foldl (fun p text => p.addCondition text c) p =
      { p with conditions := texts.foldl (fun t text => t.upsert text (sumWith c)) p.conditions } := by
  induction texts generalizing p with
  | nil => rfl
  | cons text texts ih => exact ih (p.addCondition text c)

theorem foldl_addExclusion (texts : List String) (c : CharClass) (p : Phonotactics) :
    texts.foldl (fun p text => p.addExclusion text c) p =
      { p with
        exclusions := texts.foldl (fun t text => t.upsert text (unionWith c)) p.exclusions } := by
  induction texts generalizing p with
  | nil => rfl
  | cons text texts ih => exact ih (p.addExclusion text c)

/-- The second phonotactics has what the first one has, and the class besides: as a condition after
some texts, and as an exclusion after others. -/
structure With (onConditions onExclusions : List String) (c : CharClass) (p p' : Phonotactics) :
    Prop where
  conditions : Extends onConditions c p.conditions p'.conditions
  exclusions : Extends onExclusions c p.exclusions p'.exclusions

variable {p p' : Phonotactics} {onConditions onExclusions : List String}

theorem with_addConditions (texts : List String) (c : CharClass) (p : Phonotactics) :
    With texts [] c p (texts.foldl (fun p text => p.addCondition text c) p) := by
  rw [foldl_addCondition]
  exact ⟨extends_foldl (unites_sumWith c) texts p.conditions, .refl c p.exclusions⟩

theorem with_addExclusions (texts : List String) (c : CharClass) (p : Phonotactics) :
    With [] texts c p (texts.foldl (fun p text => p.addExclusion text c) p) := by
  rw [foldl_addExclusion]
  exact ⟨.refl c p.conditions, extends_foldl (unites_unionWith c) texts p.exclusions⟩

namespace With

theorem addConditions (h : With onConditions onExclusions c p p') (texts : List String)
    (other : CharClass) :
    With onConditions onExclusions c (texts.foldl (fun p text => p.addCondition text other) p)
      (texts.foldl (fun p text => p.addCondition text other) p') := by
  rw [foldl_addCondition, foldl_addCondition]
  exact ⟨h.conditions.foldl (unites_sumWith other) texts, h.exclusions⟩

theorem addExclusions (h : With onConditions onExclusions c p p') (texts : List String)
    (other : CharClass) :
    With onConditions onExclusions c (texts.foldl (fun p text => p.addExclusion text other) p)
      (texts.foldl (fun p text => p.addExclusion text other) p') := by
  rw [foldl_addExclusion, foldl_addExclusion]
  exact ⟨h.conditions, h.exclusions.foldl (unites_unionWith other) texts⟩

/-- Where no text of a word has the class besides, the candidates are the same. -/
theorem narrow_eq (h : With onConditions onExclusions c p p') {trailing : List Token}
    (hfree : ∀ text ∈ trailingTexts trailing, text ∉ onConditions ∧ text ∉ onExclusions)
    (base : Table) : p'.narrow base trailing = p.narrow base trailing := by
  rw [narrow, narrow]
  apply List.foldl_ext
  intro t text htext
  obtain ⟨hconditions, hexclusions⟩ := hfree text htext
  rw [narrowBy, narrowBy, condition, condition, exclude, exclude,
    h.conditions.elsewhere text hconditions, h.exclusions.elsewhere text hexclusions]

end With

/-- A context admits a token that its exclusion does not list, and that its condition lists if there
is one. -/
theorem admits_iff (p : Phonotactics) (context : String) (token : Token) :
    p.Admits context token ↔ ¬ Lists p.exclusions context token ∧
      (p.conditions.get? context = none ∨ Lists p.conditions context token) := by
  rw [Admits, Lists, Lists]
  cases p.exclusions.get? context <;> cases p.conditions.get? context <;> simp

/-- Where a context has the class besides as an exclusion, it does not admit the tokens of the
class. Where it has the class as a condition, it admits only those and the ones of the condition
that is there. -/
theorem With.admits_iff (h : With onConditions onExclusions c p p') (context : String)
    (token : Token) :
    p'.Admits context token ↔
      (¬ Lists p.exclusions context token ∧
          (context ∈ onExclusions → c.contains token = false)) ∧
        (Lists p.conditions context token ∨
          (context ∈ onConditions ∧ c.contains token = true) ∨
            (context ∉ onConditions ∧ p.conditions.get? context = none)) := by
  rw [Phonotactics.admits_iff]
  apply and_congr
  · by_cases hon : context ∈ onExclusions
    · simp [hon, h.exclusions.lists context hon, and_comm]
    · simp [hon, Lists, h.exclusions.elsewhere context hon]
  · by_cases hon : context ∈ onConditions
    · simp [hon, h.conditions.bound context hon, h.conditions.lists context hon, or_comm]
    · simp [hon, Lists, h.conditions.elsewhere context hon, or_comm]

end Phonotactics

end Neologism
