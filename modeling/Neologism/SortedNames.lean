/-! # Sorted names

Names in strictly increasing order of their code points, each once. -/

namespace Neologism

/-- Put a name into its place in a sorted list, unless it is there. -/
def insertName (name : String) : List String → List String
  | [] => [name]
  | other :: rest =>
      if name = other then other :: rest
      else if name < other then name :: other :: rest
      else other :: insertName name rest

/-- The distinct names of a list in increasing order. -/
def sortedNames (names : List String) : List String :=
  names.foldr insertName []

theorem mem_insertName (name other : String) (names : List String) :
    other ∈ insertName name names ↔ other = name ∨ other ∈ names := by
  induction names with
  | nil => simp [insertName]
  | cons first rest ih =>
      simp only [insertName]
      split
      · rename_i h
        subst h
        simp
      · split
        · simp
        · simp only [List.mem_cons, ih]
          grind

/-- Sorting keeps the set of names. -/
theorem mem_sortedNames (name : String) (names : List String) :
    name ∈ sortedNames names ↔ name ∈ names := by
  induction names with
  | nil => simp [sortedNames]
  | cons first rest ih =>
      have h := mem_insertName first name (sortedNames rest)
      simp only [sortedNames, List.foldr_cons] at h ih ⊢
      simp [h, ih]

theorem insertName_pairwise (name : String) {names : List String}
    (h : names.Pairwise (· < ·)) : (insertName name names).Pairwise (· < ·) := by
  induction names with
  | nil => simp [insertName]
  | cons first rest ih =>
      rw [List.pairwise_cons] at h
      simp only [insertName]
      split
      · exact List.pairwise_cons.2 h
      · rename_i hne
        split
        · rename_i hlt
          rw [List.pairwise_cons]
          refine ⟨fun other hm => ?_, List.pairwise_cons.2 h⟩
          rcases List.mem_cons.1 hm with rfl | hm
          · exact hlt
          · exact String.lt_trans hlt (h.1 other hm)
        · rename_i hnot
          rw [List.pairwise_cons]
          refine ⟨fun other hm => ?_, ih h.2⟩
          rcases (mem_insertName name other rest).1 hm with rfl | hm
          · apply Decidable.byContradiction
            intro hge
            exact hne (String.le_antisymm (String.not_lt.1 hge) (String.not_lt.1 hnot))
          · exact h.1 other hm

/-- Sorted names increase strictly, so none stands twice. -/
theorem sortedNames_pairwise (names : List String) : (sortedNames names).Pairwise (· < ·) := by
  induction names with
  | nil => simp [sortedNames]
  | cons first rest ih => exact insertName_pairwise first ih

end Neologism
