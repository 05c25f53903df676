import Neologism.Proofs.Document.Nodes

/-! # Written records read back

A record is told from a tuple by the colon behind its first identifier. Its fields are read one
after the other, each up to what ends its value, whether the value counts as optional or not.

Main statements: `ReadsBack.record`, `ReadsBack.namedRecord` and `ReadsBack.present`, and
`ReadsBack.read?_render` for whole documents. -/

namespace Neologism.Document

/-- The name is an identifier, and the value reads back. -/
def FieldReadsBack (f : String × Node) : Prop :=
  isWord f.1 = true ∧ ReadsBack f.2

variable {implicitSome : Bool} {fuel : Nat} {optionals : List String} {s : String} {v : Node}
  {cs rest : List Char} {f : String × Node} {fs : List (String × Node)}

/-- What follows the value of the first field ends it. -/
theorem exists_renderFields_cons (f : String × Node) (fs : List (String × Node))
    (rest : List Char) : ∃ more, Ended more ∧
      renderFields (f :: fs) ++ ')' :: rest = f.1.toList ++ ':' :: (f.2.render ++ more) := by
  obtain ⟨k, v⟩ := f
  cases fs with
  | nil =>
      refine ⟨')' :: rest, ended_cons (by simp) rest, ?_⟩
      rw [renderFields, List.append_assoc, List.cons_append]
  | cons g gs =>
      refine ⟨',' :: (renderFields (g :: gs) ++ ')' :: rest), ended_cons (by simp) _, ?_⟩
      rw [renderFields, List.append_assoc, List.cons_append, List.append_assoc, List.cons_append]

theorem skip_renderFields (h : FieldReadsBack f) (rest : List Char) :
    skip (renderFields (f :: fs) ++ ')' :: rest) =
      some (renderFields (f :: fs) ++ ')' :: rest) := by
  obtain ⟨more, -, heq⟩ := exists_renderFields_cons f fs rest
  obtain ⟨c, cs, hs, -, hc⟩ := exists_cons_of_isWord h.1
  simp only [List.mem_cons, not_or] at hc
  rw [heq, hs]
  exact skip_of_notMem hc.2.2.2.2.2 _

theorem head?_renderFields_ne (h : FieldReadsBack f) (fs : List (String × Node))
    (rest : List Char) :
    (renderFields (f :: fs) ++ ')' :: rest).head? ≠ some ')' := by
  obtain ⟨more, -, heq⟩ := exists_renderFields_cons f fs rest
  obtain ⟨c, cs, hs, -, hc⟩ := exists_cons_of_isWord h.1
  rw [heq, hs, List.cons_append, List.head?_cons]
  rintro ⟨⟩
  simp [nonStarters] at hc

theorem startsField_renderFields (h : FieldReadsBack f) (rest : List Char) :
    startsField (renderFields (f :: fs) ++ ')' :: rest) = true := by
  obtain ⟨more, -, heq⟩ := exists_renderFields_cons f fs rest
  rw [heq, startsField_toList h.1 (delimited_cons (by simp) _)]
  rfl

/-- What a field comes to with what stands behind it. -/
def fieldsBehind? (implicitSome : Bool) (fuel : Nat) (optionals : List String)
    (f : String × Node) : List Char → Option (List (String × Node) × List Char)
  | ',' :: cs => do
      let (fs, cs) ← fields? implicitSome fuel optionals (← skip cs)
      return (f :: fs, cs)
  | ')' :: cs => some ([f], cs)
  | _ => none

/-- A field is read by its name and its value, and what ends the value tells what follows. -/
theorem fields?_field (h : FieldReadsBack f) (hrest : Ended rest)
    (hfuel : 4 * f.2.render.length < fuel) (hhead : cs.head? ≠ some ')')
    (hcs : cs = f.1.toList ++ ':' :: (f.2.render ++ rest)) :
    fields? implicitSome (fuel + 1) optionals cs =
      fieldsBehind? implicitSome fuel optionals f rest := by
  have hname : name? cs = some (⟨f.1, false⟩, ':' :: (f.2.render ++ rest)) := by
    rw [hcs]
    exact name?_toList h.1 (delimited_cons (by simp) _)
  have hcolon : skip (':' :: (f.2.render ++ rest)) = some (':' :: (f.2.render ++ rest)) :=
    skip_of_notMem (by simp [nonStarters]) _
  have hexpect : expect ':' (':' :: (f.2.render ++ rest)) = some (f.2.render ++ rest) := by
    rw [expect, if_pos rfl]
    exact h.2.skip_append rest
  have hskip := skip_of_delimited hrest.delimited
  rw [fields?, if_neg hhead]
  simp only [hname, hcolon, hexpect, Option.bind_eq_bind, Option.bind_some]
  split
  · simp only [h.2.optional _ _ _ hrest hfuel, Option.bind_some, hskip]
    rfl
  · simp only [h.2.node _ _ _ _ hrest hfuel.le, Option.bind_some, hskip]
    rfl

/-- Fields that read back are read one after the other. -/
theorem fields?_renderFields (hne : fs ≠ []) (h : ∀ f ∈ fs, FieldReadsBack f)
    (hfuel : 4 * (renderFields fs).length ≤ fuel) :
    fields? implicitSome fuel optionals (renderFields fs ++ ')' :: rest) = some (fs, rest) := by
  induction fs generalizing fuel with
  | nil => exact absurd rfl hne
  | cons f fs ih =>
      obtain ⟨k, v⟩ := f
      have hf := h (k, v) List.mem_cons_self
      have hhead := head?_renderFields_ne hf fs rest
      cases fs with
      | nil =>
          rw [renderFields, List.length_append, List.length_cons] at hfuel
          obtain ⟨fuel, rfl⟩ : ∃ n, fuel = n + 1 := ⟨fuel - 1, by omega⟩
          have hvalue : 4 * v.render.length < fuel := by omega
          have hform : renderFields [(k, v)] ++ ')' :: rest =
              k.toList ++ ':' :: (v.render ++ ')' :: rest) := by
            rw [renderFields, List.append_assoc, List.cons_append]
          exact fields?_field hf (ended_cons (by simp) rest) hvalue hhead hform
      | cons g gs =>
          rw [renderFields, List.length_append, List.length_cons, List.length_append,
            List.length_cons] at hfuel
          obtain ⟨fuel, rfl⟩ : ∃ n, fuel = n + 1 := ⟨fuel - 1, by omega⟩
          have hgs : ∀ u ∈ g :: gs, FieldReadsBack u := fun u hu => h u (List.mem_cons_of_mem _ hu)
          have hvalue : 4 * v.render.length < fuel := by omega
          have hform : renderFields ((k, v) :: g :: gs) ++ ')' :: rest =
              k.toList ++ ':' :: (v.render ++ ',' :: (renderFields (g :: gs) ++ ')' :: rest)) := by
            rw [renderFields, List.append_assoc, List.cons_append, List.append_assoc,
              List.cons_append]
          have hmore : fields? implicitSome fuel optionals (renderFields (g :: gs) ++ ')' :: rest) =
              some (g :: gs, rest) := ih (List.cons_ne_nil _ _) hgs (by omega)
          rw [fields?_field hf (ended_cons (by simp) _) hvalue hhead hform, fieldsBehind?,
            skip_renderFields (hgs g List.mem_cons_self)]
          simp only [Option.bind_eq_bind, Option.bind_some, hmore]
          rfl

/-- With a field at the front, what stands in parentheses is a record. -/
theorem body?_renderFields (hne : fs ≠ []) (h : ∀ f ∈ fs, FieldReadsBack f) (name : Option String)
    (hfuel : 4 * (renderFields fs).length ≤ fuel) :
    body? implicitSome (fuel + 1) optionals name (renderFields fs ++ ')' :: rest) =
      some (.record name fs, rest) := by
  obtain ⟨f, fs, rfl⟩ := List.exists_cons_of_ne_nil hne
  rw [body?, startsField_renderFields (h f List.mem_cons_self), if_pos rfl,
    fields?_renderFields hne h hfuel]
  rfl

theorem ReadsBack.namedRecord (hword : isPlainWord s = true) (hreserved : reserved? s = none)
    (hne : fs ≠ []) (h : ∀ f ∈ fs, FieldReadsBack f) : ReadsBack (.record (some s) fs) := by
  apply ReadsBack.of_named hword hreserved (renderFields fs)
  · rw [Node.render]
    rfl
  · intro rest
    obtain ⟨f, fs, rfl⟩ := List.exists_cons_of_ne_nil hne
    exact skip_renderFields (h f List.mem_cons_self) rest
  · exact fun _ _ _ _ _ hfuel => body?_renderFields hne h (some s) hfuel.le

theorem ReadsBack.record (hne : fs ≠ []) (h : ∀ f ∈ fs, FieldReadsBack f) :
    ReadsBack (.record none fs) := by
  obtain ⟨f, gs, rfl⟩ := List.exists_cons_of_ne_nil hne
  have hf := h f List.mem_cons_self
  apply ReadsBack.of_parentheses (renderFields (f :: gs))
  · rw [Node.render]
    rfl
  · exact head?_renderFields_ne hf gs
  · exact skip_renderFields hf
  · exact fun _ _ _ _ _ hfuel => body?_renderFields hne h none hfuel.le

theorem present?_render (h : ReadsBack v) (hfuel : 4 * v.render.length ≤ fuel) :
    present? implicitSome (fuel + 1) ('(' :: (v.render ++ ')' :: rest)) =
      some (.present v, rest) := by
  have hskip : skip (')' :: rest) = some (')' :: rest) :=
    skip_of_delimited (delimited_cons (by simp) rest)
  have hcomma : optionalComma (')' :: rest) = some (')' :: rest) := by
    rw [optionalComma, hskip]
    rfl
  rw [present?, h.skip_append]
  simp only [Option.bind_eq_bind, Option.bind_some, hcomma,
    h.node implicitSome fuel [] (')' :: rest) (ended_cons (by simp) rest) hfuel]
  rfl

theorem render_present_append (v : Node) (rest : List Char) :
    (Node.present v).render ++ rest =
      'S' :: 'o' :: 'm' :: 'e' :: '(' :: (v.render ++ ')' :: rest) := by
  rw [Node.render, List.append_assoc, List.append_assoc, List.singleton_append]
  rfl

theorem length_render_present (v : Node) :
    (Node.present v).render.length = v.render.length + 6 := by
  have hrender := congrArg List.length (render_present_append v [])
  simpa using hrender

-- `Some` is the one identifier read apart where a value is optional, so `ReadsBack.of_node` is of
-- no use here: both readers come to the same parenthesis, each by its own test.
theorem ReadsBack.present (h : ReadsBack v) : ReadsBack (.present v) := by
  have hskip : ∀ rest, skip ('(' :: (v.render ++ ')' :: rest)) =
      some ('(' :: (v.render ++ ')' :: rest)) :=
    fun rest => skip_of_delimited (delimited_cons (by simp) _)
  refine ⟨?_, ?_, ?_, ?_⟩
  · refine ⟨'S', 'o' :: 'm' :: 'e' :: '(' :: (v.render ++ [')']), ?_, by simp [nonStarters]⟩
    rw [← render_present_append, List.append_nil]
  · intro rest _
    have hsome : (Node.present v).render ++ rest =
        "Some".toList ++ '(' :: (v.render ++ ')' :: rest) := render_present_append v rest
    rw [hsome, startsField_toList (by decide) (delimited_cons (by simp) _)]
    rfl
  · intro implicitSome fuel optionals rest _ hfuel
    rw [length_render_present] at hfuel
    obtain ⟨fuel, rfl⟩ : ∃ n, fuel = n + 2 := ⟨fuel - 2, by omega⟩
    have hbehind : behindSomeWord? ('S' :: 'o' :: 'm' :: 'e' :: '(' :: (v.render ++ ')' :: rest)) =
        some ('(' :: (v.render ++ ')' :: rest)) := rfl
    rw [render_present_append, node?, if_neg (by decide), if_neg (by decide), if_neg (by decide),
      if_neg (by decide), if_neg (by decide), text?_eq_none (by decide) (by decide), hbehind]
    simp only [Option.bind_eq_bind, Option.bind_some, hskip]
    exact present?_render h (by omega)
  · intro implicitSome fuel rest _ hfuel
    rw [length_render_present] at hfuel
    obtain ⟨fuel, rfl⟩ : ∃ n, fuel = n + 2 := ⟨fuel - 2, by omega⟩
    have hbehind : behindSome? ('S' :: 'o' :: 'm' :: 'e' :: '(' :: (v.render ++ ')' :: rest)) =
        some ('(' :: (v.render ++ ')' :: rest)) := rfl
    rw [render_present_append, optional?, hbehind]
    simp only [Option.bind_eq_bind, Option.bind_some, hskip]
    exact present?_render h (by omega)

/-- A document of a node that reads back is read as the node, with no attributes before it. -/
theorem ReadsBack.read?_render (h : ReadsBack v) (optionals : List String) :
    read? optionals (String.ofList v.render) = some ⟨false, v⟩ := by
  obtain ⟨c, cs, hrender, hc⟩ := h.head
  have hskip : skip v.render = some v.render := by
    rw [hrender]
    exact skip_of_notMem hc cs
  have hattributes : attributes? (v.render.length + 1) v.render = some (false, v.render) := by
    have hhead : v.render.head? ≠ some '#' := by
      rw [hrender, List.head?_cons]
      rintro ⟨⟩
      simp [nonStarters] at hc
    rw [attributes?, if_neg hhead]
  have hnode : node? false (4 * v.render.length + 4) optionals v.render = some (v, []) := by
    have hnode := h.node false _ optionals [] ended_nil (Nat.le_add_right (4 * v.render.length) 4)
    rwa [List.append_nil] at hnode
  have hend : skip [] = some [] := rfl
  rw [read?, String.toList_ofList]
  simp only [Option.bind_eq_bind, Option.bind_some, hskip, hattributes, hnode, hend,
    List.isEmpty_nil, if_true]
  rfl

/-- With no fields at all, and no name, parentheses are left of a record. -/
theorem read?_parentheses (optionals : List String) :
    read? optionals (String.ofList (Node.record none []).render) = some ⟨false, .unit⟩ := by
  rw [read?, String.toList_ofList]
  rfl

end Neologism.Document
