import Mathlib.Data.List.Basic
import Neologism.Proofs.Phonotactics.Narrowing

/-! # What narrowing makes of a table

Narrowing goes through the suffixes of what stands before, and drops and rescales entries at each of
them. All of it comes to one pass over the table: an entry is kept if every suffix admits its token,
and its weight is multiplied by the weights that conditions on these suffixes give the token.

Main statements: `entries_narrowBy` for one text, `entries_foldl_narrowBy` for texts one after the
other, and `narrow_closed_form` for the suffixes. -/

namespace Neologism.Phonotactics

variable {p p' : Phonotactics}

theorem admits_iff_all (p : Phonotactics) (context : String) (token : Token) :
    p.Admits context token ↔
      ((p.conditions.get? context).all (·.contains token) &&
        (p.exclusions.get? context).all fun c => !c.contains token) = true := by
  simp [Admits, Option.all_eq_true, and_comm]

instance (p : Phonotactics) (context : String) (token : Token) :
    Decidable (p.Admits context token) :=
  decidable_of_iff _ (p.admits_iff_all context token).symm

/-- The weight that the condition on a context gives a token. -/
def factor? (p : Phonotactics) (context : String) (token : Token) : Option Weight :=
  (p.conditions.get? context).bind (·.get? token)

theorem entries_exclude (p : Phonotactics) (t : Table) (context : String) :
    (p.exclude context t).entries =
      t.entries.filter fun e => (p.exclusions.get? context).all fun c => !c.contains e.1 := by
  rw [exclude]
  cases p.exclusions.get? context with
  | none => exact (List.filter_true _).symm
  | some c =>
      rw [← List.filterMap_eq_filter]
      apply List.filterMap_congr
      intro e _
      cases h : c.contains e.1 <;> simp [h, Option.guard]

theorem entries_condition (p : Phonotactics) (t : Table) (context : String) :
    (p.condition context t).entries =
      (t.entries.filter fun e => (p.conditions.get? context).all (·.contains e.1)).map fun e =>
        (e.1, (p.factor? context e.1).elim e.2 (e.2 * ·)) := by
  simp only [condition, factor?]
  cases p.conditions.get? context with
  | none => simp [List.filter_true]
  | some c =>
      rw [← List.filterMap_eq_map, List.filterMap_filter]
      apply List.filterMap_congr
      intro e _
      cases h : c.get? e.1 <;> simp [h, OrderedMap.contains]

/-- One text keeps the entries whose tokens it admits, each multiplied by its factor. -/
theorem entries_narrowBy (p : Phonotactics) (t : Table) (context : String) :
    (p.narrowBy t context).entries =
      (t.entries.filter fun e => p.Admits context e.1).map fun e =>
        (e.1, (p.factor? context e.1).elim e.2 (e.2 * ·)) := by
  rw [narrowBy, entries_condition, entries_exclude, List.filter_filter]
  simp only [admits_iff_all, Bool.decide_eq_true]

/-- Texts one after the other keep the entries whose tokens all of them admit, each multiplied by
its factors in the same order. -/
theorem entries_foldl_narrowBy (p : Phonotactics) (t : Table) (contexts : List String) :
    (contexts.foldl p.narrowBy t).entries =
      (t.entries.filter fun e => ∀ context ∈ contexts, p.Admits context e.1).map fun e =>
        (e.1, (contexts.filterMap (p.factor? · e.1)).foldl (· * ·) e.2) := by
  induction contexts generalizing t with
  | nil => simp [List.filter_true]
  | cons context contexts ih =>
      rw [List.foldl_cons, ih, entries_narrowBy, List.filter_map, List.map_map, List.filter_filter]
      congr 1
      · funext e
        cases h : p.factor? context e.1 <;> simp [h]
      · apply List.filter_congr
        intro e _
        simp [Bool.and_comm]

/-- The weights that the conditions on what stands before give a token, that of the longest suffix
first. -/
def factors (p : Phonotactics) (trailing : List Token) (token : Token) : List Weight :=
  (suffixes trailing).filterMap fun suffix => p.factor? (String.join suffix) token

/-- The same tokens are listed for each context, be it with other weights. -/
structure SameTokens (p p' : Phonotactics) : Prop where
  conditions (context : String) :
    (p.conditions.get? context).map (·.keys) = (p'.conditions.get? context).map (·.keys)
  exclusions (context : String) :
    (p.exclusions.get? context).map (·.keys) = (p'.exclusions.get? context).map (·.keys)

/-- What a context admits can be seen from the keys that are listed for it. -/
theorem admits_iff_keys (p : Phonotactics) (context : String) (token : Token) :
    p.Admits context token ↔
      (∀ ks, (p.exclusions.get? context).map (·.keys) = some ks → token ∉ ks) ∧
        ∀ ks, (p.conditions.get? context).map (·.keys) = some ks → token ∈ ks := by
  simp only [Admits, Option.map_eq_some_iff, forall_exists_index, and_imp,
    forall_apply_eq_imp_iff₂, ← OrderedMap.contains_iff, Bool.not_eq_true]

theorem SameTokens.admits_iff (h : p.SameTokens p') (context : String) (token : Token) :
    p.Admits context token ↔ p'.Admits context token := by
  rw [admits_iff_keys, admits_iff_keys, h.conditions, h.exclusions]

/-- Narrowing keeps the entries of a table whose tokens are admitted after the text of every suffix
of what stands before, in their order. It multiplies the weight of each by the weights of its token
in the conditions on these suffixes, from the longest to the shortest. So a token of two tables
survives in both or in neither, whatever else they hold and whatever the weights are. -/
theorem narrow_closed_form (p : Phonotactics) (base : Table) (trailing : List Token) :
    (p.narrow base trailing).entries =
        (base.entries.filter fun e =>
          ∀ suffix ∈ suffixes trailing, p.Admits (String.join suffix) e.1).map
            (fun e => (e.1, (p.factors trailing e.1).foldl (· * ·) e.2)) ∧
      ∀ (p' : Phonotactics) (base' : Table) (token : Token), p.SameTokens p' →
        base.contains token = base'.contains token →
          (p.narrow base trailing).contains token = (p'.narrow base' trailing).contains token := by
  constructor
  · rw [narrow, trailingTexts_eq, entries_foldl_narrowBy]
    simp only [List.forall_mem_map, List.filterMap_map, Function.comp_def, factors]
  · intro p' base' token hsame hbase
    have hpermits : p.Permits trailing token ↔ p'.Permits trailing token :=
      forall₂_congr fun context _ => hsame.admits_iff context token
    rw [Bool.eq_iff_iff, contains_narrow_iff, contains_narrow_iff, hbase, hpermits]

/-- After t only p and k may stand, but not k after t at the start of a word. -/
def cluster : Phonotactics where
  conditions := .insert .empty "t" ⟨[("p", 2.0), ("k", 3.0)], by decide⟩
  exclusions := .insert .empty "_t" ⟨[("k", 0.0)], by decide⟩

/-- The same with other weights. -/
def clusterRescaled : Phonotactics where
  conditions := .insert .empty "t" ⟨[("p", 0.5), ("k", 0.0)], by decide⟩
  exclusions := .insert .empty "_t" ⟨[("k", 1.0)], by decide⟩

theorem sameTokens_cluster : cluster.SameTokens clusterRescaled where
  conditions context := by
    simp only [cluster, clusterRescaled, OrderedMap.insert, OrderedMap.get?_upsert]
    split <;> simp [OrderedMap.keys]
  exclusions context := by
    simp only [cluster, clusterRescaled, OrderedMap.insert, OrderedMap.get?_upsert]
    split <;> simp [OrderedMap.keys]

/-- Behind the marker and t, p is left with its weight multiplied and k is not left, and other
weights leave the same token. -/
theorem narrow_closed_form_cluster :
    (cluster.narrow ⟨[("k", 1.0), ("p", 1.5), ("r", 1.0)], by decide⟩ ["_", "t"]).entries =
        [("p", 3.0)] ∧
      cluster.SameTokens clusterRescaled ∧
        (clusterRescaled.narrow ⟨[("p", 0.0)], by decide⟩ ["_", "t"]).contains "p" = true := by
  obtain ⟨hentries, hsame⟩ := narrow_closed_form cluster
    ⟨[("k", 1.0), ("p", 1.5), ("r", 1.0)], by decide⟩ ["_", "t"]
  refine ⟨?_, sameTokens_cluster, ?_⟩
  · rw [hentries]
    decide +kernel
  · rw [← hsame clusterRescaled ⟨[("p", 0.0)], by decide⟩ "p" sameTokens_cluster (by decide),
      OrderedMap.contains_iff, OrderedMap.keys, hentries]
    decide +kernel

end Neologism.Phonotactics
