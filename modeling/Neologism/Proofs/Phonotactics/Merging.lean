import Neologism.Proofs.OrderedMap
import Neologism.Proofs.Phonotactics.Tables

/-! # Classes merged into one entry

A table keeps one class for a text. The first class that is written for it is the entry, and every
later one is merged into the entry: a condition adds the weights up, an exclusion only takes the
tokens over.

Main statements: `Kind.keys_into` and `Kind.get?_into` for one merge, and `Kind.entry_foldl` for the
entry of a text after a class was written for many texts. -/

namespace Neologism.Phonotactics

/-- What a table says about the tokens of a class. -/
inductive Kind where
  | condition
  | exclusion
deriving DecidableEq, Repr

/-- The table of a kind. -/
def table (p : Phonotactics) : Kind → OrderedMap String CharClass
  | .condition => p.conditions
  | .exclusion => p.exclusions

namespace Kind

/-- The weight of a token in a merged class, from its weights in the two classes. -/
def join : Kind → Option Weight → Option Weight → Option Weight
  | .condition, some v, some w => some (v + w)
  | .condition, v, w => v.or w
  | .exclusion, v, w => v.or (w.map fun _ => 0.0)

/-- The weight of a token in an entry, from its weights in the classes that were written, in order.
Conditions sum the weights that are there. An exclusion keeps the weight in the first class, and the
tokens of the others weigh nothing. -/
def weigh : Kind → List (Option Weight) → Option Weight
  | .condition, ws =>
      match ws.filterMap id with
      | [] => none
      | v :: vs => some (vs.foldl (· + ·) v)
  | .exclusion, [] => none
  | .exclusion, v :: ws => v.or (if ws.any Option.isSome then some 0.0 else none)

/-- The entry of a text for which classes were written in some order: none without a class, and
else the tokens of all classes, each where it came first, with the weights of the kind. -/
def Entry (kind : Kind) (classes : List CharClass) : Option CharClass → Prop
  | none => classes = []
  | some entry => classes ≠ [] ∧
      entry.keys = (classes.flatMap OrderedMap.keys).eraseDups ∧
        ∀ token, entry.get? token = kind.weigh (classes.map (·.get? token))

/-- What an entry becomes when a class is written. -/
def into : Kind → CharClass → Option CharClass → CharClass
  | .condition => sumWith
  | .exclusion => unionWith

variable {kind : Kind} {classes : List CharClass} {entry : Option CharClass}

theorem keys_into (kind : Kind) (c e : CharClass) :
    (kind.into c (some e)).keys = (e.keys ++ c.keys).eraseDups := by
  cases kind with
  | condition | exclusion => exact OrderedMap.keys_foldl_upsert Prod.fst _ e c.entries

theorem get?_into (kind : Kind) (c e : CharClass) (token : Token) :
    (kind.into c (some e)).get? token = kind.join (e.get? token) (c.get? token) := by
  cases kind with
  | condition | exclusion =>
      refine (OrderedMap.get?_foldl_upsert Prod.fst _ e c.entries token).trans ?_
      rw [OrderedMap.filter_entries]
      cases e.get? token <;> cases c.get? token <;> rfl

theorem weigh_singleton (kind : Kind) (w : Option Weight) : kind.weigh [w] = w := by
  cases kind <;> cases w <;> rfl

/-- The weight in an entry is joined with the weight in the class that comes next. -/
theorem weigh_concat (kind : Kind) {ws : List (Option Weight)} (h : ws ≠ []) (w : Option Weight) :
    kind.weigh (ws ++ [w]) = kind.join (kind.weigh ws) w := by
  cases kind with
  | condition =>
      simp only [weigh, List.filterMap_append]
      cases ws.filterMap id with
      | nil => cases w <;> rfl
      | cons v vs => cases w <;> simp [join]
  | exclusion =>
      cases ws with
      | nil => exact absurd rfl h
      | cons v ws =>
          cases v with
          | some v => rfl
          | none =>
              simp only [List.cons_append, weigh, List.any_append, Option.none_or, join]
              cases ws.any Option.isSome <;> cases w <;> rfl

/-- A class that is written becomes the last one of its entry. -/
theorem Entry.concat (h : kind.Entry classes entry) (c : CharClass) :
    kind.Entry (classes ++ [c]) (some (kind.into c entry)) := by
  cases entry with
  | none =>
      obtain rfl : classes = [] := h
      have hfirst : kind.into c none = c := by cases kind <;> rfl
      refine ⟨by simp, ?_, fun token => ?_⟩
      · simp [hfirst, OrderedMap.eraseDups_of_nodup (show c.keys.Nodup from c.nodup_keys)]
      · simp [hfirst, weigh_singleton]
  | some e =>
      obtain ⟨hne, hkeys, hweights⟩ := h
      refine ⟨by simp, ?_, fun token => ?_⟩
      · rw [keys_into, hkeys, OrderedMap.eraseDups_append_left, List.flatMap_append,
          List.flatMap_singleton]
      · have hmap : classes.map (·.get? token) ≠ [] := by simpa using hne
        rw [get?_into, hweights, List.map_append, List.map_singleton, weigh_concat kind hmap]

/-- A class that is written for many texts is written for one of them as often as it occurs. -/
theorem entry_foldl {t : OrderedMap String CharClass} {text : String} (c : CharClass)
    (texts : List String) (h : kind.Entry classes (t.get? text)) :
    kind.Entry (classes ++ List.replicate (texts.count text) c)
      ((texts.foldl (fun t text => t.upsert text (kind.into c)) t).get? text) := by
  induction texts generalizing t classes with
  | nil => simpa using h
  | cons k texts ih =>
      rw [List.foldl_cons]
      by_cases hk : k = text
      · subst hk
        have hnext : kind.Entry (classes ++ [c]) ((t.upsert k (kind.into c)).get? k) := by
          rw [OrderedMap.get?_upsert, if_pos rfl]
          exact h.concat c
        have hrest := ih hnext
        rwa [List.append_assoc, ← List.replicate_one, List.replicate_append_replicate,
          Nat.add_comm, ← List.count_cons_self] at hrest
      · have hnext : kind.Entry classes ((t.upsert k (kind.into c)).get? text) := by
          rwa [OrderedMap.get?_upsert, if_neg (Ne.symm hk)]
        rw [List.count_cons_of_ne hk]
        exact ih hnext

end Kind

end Neologism.Phonotactics
