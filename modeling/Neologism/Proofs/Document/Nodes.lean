import Neologism.Proofs.Document.Lexemes
import Neologism.Document.Reader

/-! # Written nodes read back

The reader decides by the first character what it reads, and where a part ends by what stands
behind it. A node reads back if it does so before anything that ends a value, given enough fuel.
What is built of nodes that read back reads back too: one lemma says so for each way of building.

Main statements: `ReadsBack.number`, `ReadsBack.text`, `ReadsBack.word` and `ReadsBack.absent` for
what is written in one piece, and `ReadsBack.list`, `ReadsBack.tuple` and `ReadsBack.namedTuple`. -/

namespace Neologism.Document

variable {implicitSome : Bool} {fuel : Nat} {optionals : List String} {s : String} {v : Node}
  {vs : List Node} {cs rest : List Char}

/-- Only what ends a value stands first, or nothing at all. -/
def Ended (rest : List Char) : Prop :=
  ∀ c ∈ rest.head?, c ∈ [',', ')', ']']

theorem Ended.delimited (h : Ended rest) : Delimited rest :=
  fun c hc => List.mem_cons.mpr ((List.mem_cons.mp (h c hc)).imp_right fun hc => by simp_all)

theorem Ended.head?_ne (h : Ended rest) : rest.head? ≠ some ':' := by
  intro hcolon
  have hmem := h ':' hcolon
  simp at hmem

theorem ended_nil : Ended [] := by
  simp [Ended]

theorem ended_cons {c : Char} (h : c ∈ [',', ')', ']']) (cs : List Char) : Ended (c :: cs) := by
  intro d hd
  cases hd
  exact h

/-- Blanks, what comments and attributes start with, and the ends of lists and tuples. -/
def nonStarters : List Char :=
  [' ', '\t', '\n', '\r', '/', '#', ')', ']']

/-- A character with a property is none of those that lack it. -/
theorem notMem_of_all {p : Char → Bool} {c : Char} {ds : List Char} (h : p c = true)
    (hds : (ds.all fun d => !p d) = true) : c ∉ ds := by
  intro hc
  have hnot := List.all_eq_true.mp hds c hc
  rw [h] at hnot
  cases hnot

theorem skip_of_notMem {c : Char} (h : c ∉ nonStarters) (cs : List Char) :
    skip (c :: cs) = some (c :: cs) := by
  simp only [nonStarters, List.mem_cons, not_or] at h
  apply skip_cons
  · simp [isBlank, h]
  · exact h.2.2.2.2.1

/-- The node is read before all that ends a value, wherever it may stand. No character takes more
than four calls of the readers, so four times the length is fuel enough. -/
structure ReadsBack (v : Node) : Prop where
  head : ∃ c cs, v.render = c :: cs ∧ c ∉ nonStarters
  startsField : ∀ rest, Ended rest → startsField (v.render ++ rest) = false
  node : ∀ implicitSome fuel optionals rest, Ended rest → 4 * v.render.length ≤ fuel →
    node? implicitSome fuel optionals (v.render ++ rest) = some (v, rest)
  optional : ∀ implicitSome fuel rest, Ended rest → 4 * v.render.length < fuel →
    optional? implicitSome fuel (v.render ++ rest) = some (v, rest)

namespace ReadsBack

theorem skip_append (h : ReadsBack v) (rest : List Char) :
    skip (v.render ++ rest) = some (v.render ++ rest) := by
  obtain ⟨c, cs, hrender, hc⟩ := h.head
  rw [hrender]
  exact skip_of_notMem hc _

theorem head?_ne (h : ReadsBack v) {close : Char} (hclose : close ∈ [')', ']']) (rest : List Char) :
    (v.render ++ rest).head? ≠ some close := by
  obtain ⟨c, cs, hrender, hc⟩ := h.head
  rw [hrender, List.cons_append, List.head?_cons]
  rintro ⟨⟩
  exact hc (List.mem_append_right [' ', '\t', '\n', '\r', '/', '#'] hclose)

end ReadsBack

theorem behindSome?_cons {c : Char} (hc : c ≠ 'S') (cs : List Char) :
    behindSome? (c :: cs) = none := by
  rw [behindSome?]
  rintro cs' ⟨⟩
  exact hc rfl

/-- A node that starts with another letter than `Some` is read alike where its value is optional. -/
theorem ReadsBack.of_node {c : Char} (hrender : v.render = c :: cs) (hc : c ∉ 'S' :: nonStarters)
    (hfield : ∀ rest, Ended rest → Document.startsField (v.render ++ rest) = false)
    (hnode : ∀ implicitSome fuel optionals rest, Ended rest → 4 * v.render.length ≤ fuel →
      node? implicitSome fuel optionals (v.render ++ rest) = some (v, rest)) : ReadsBack v where
  head := ⟨c, cs, hrender, mt (List.mem_cons_of_mem _) hc⟩
  startsField := hfield
  node := hnode
  optional := by
    intro implicitSome fuel rest hrest hfuel
    obtain ⟨fuel, rfl⟩ := Nat.exists_eq_add_one_of_ne_zero (Nat.ne_zero_of_lt hfuel)
    have hsome : behindSome? (v.render ++ rest) = none := by
      rw [hrender]
      exact behindSome?_cons (fun heq => hc (heq ▸ List.mem_cons_self)) _
    rw [optional?, hsome]
    exact hnode _ _ _ _ hrest (Nat.le_of_lt_succ hfuel)

theorem startsField_eq_false {c : Char} (h : isNameStart c = false) (cs : List Char) :
    startsField (c :: cs) = false := by
  rw [startsField, name?_eq_none h]

theorem node?_of_isNumberStart {c : Char} (h : isNumberStart c = true) :
    node? implicitSome (fuel + 1) optionals (c :: cs) =
      (number? (c :: cs)).map fun (s, rest) => (.number s, rest) := by
  have hc : c ∉ ['[', '\x7b', '(', '\''] := notMem_of_all h rfl
  simp only [List.mem_cons, List.not_mem_nil, or_false, not_or] at hc
  rw [node?, if_neg hc.1, if_neg hc.2.1, if_neg hc.2.2.1, if_neg hc.2.2.2, if_pos h]

theorem ReadsBack.number (h : IsLexeme s) : ReadsBack (.number s) := by
  obtain ⟨c, cs, hs⟩ : ∃ c cs, s.toList = c :: cs := by
    have hstart := h.start
    cases hs : s.toList with
    | nil => rw [hs] at hstart; cases hstart
    | cons c cs => exact ⟨c, cs, rfl⟩
  have hrender : (Node.number s).render = c :: cs := hs
  have hstart : isNumberStart c = true := by
    have hstart := h.start
    rw [hs] at hstart
    exact hstart
  apply ReadsBack.of_node hrender (notMem_of_all hstart rfl)
  · intro rest _
    rw [hrender]
    exact startsField_eq_false (isNameStart_of_isNumberStart hstart) _
  · intro implicitSome fuel optionals rest hrest hfuel
    have hlength : 0 < (Node.number s).render.length := by simp [hrender]
    obtain ⟨fuel, rfl⟩ : ∃ n, fuel = n + 1 := ⟨fuel - 1, by omega⟩
    rw [hrender, List.cons_append, node?_of_isNumberStart hstart, ← List.cons_append, ← hs,
      number?_toList h hrest.delimited]
    rfl

theorem ReadsBack.text (s : String) : ReadsBack (.text s) := by
  obtain ⟨cs, hrender⟩ : ∃ cs, (Node.text s).render = '"' :: cs := ⟨_, rfl⟩
  apply ReadsBack.of_node hrender (by simp [nonStarters])
  · intro rest _
    rw [hrender]
    exact startsField_eq_false rfl _
  · intro implicitSome fuel optionals rest hrest hfuel
    have hlength : 0 < (Node.text s).render.length := by simp [hrender]
    obtain ⟨fuel, rfl⟩ : ∃ n, fuel = n + 1 := ⟨fuel - 1, by omega⟩
    have htext : text? ('"' :: (cs ++ rest)) = some (s, rest) := by
      rw [← List.cons_append, ← hrender]
      exact text?_writtenText s rest
    rw [hrender, List.cons_append, node?, htext]
    rfl

/-- An identifier that neither `Some` nor a raw text or identifier starts like. -/
def isPlainWord (s : String) : Bool :=
  isWord s && s.toList.head?.all fun c => c != 'r' && c != 'S'

theorem isWord_of_isPlainWord (h : isPlainWord s = true) : isWord s = true :=
  (Bool.and_eq_true_iff.mp h).1

/-- The first character of an identifier starts nothing else. -/
theorem exists_cons_of_isWord (h : isWord s = true) : ∃ c cs, s.toList = c :: cs ∧
    isNameStart c = true ∧ c ∉ '[' :: '\x7b' :: '(' :: '\'' :: '"' :: nonStarters := by
  obtain ⟨hstart, -⟩ := Bool.and_eq_true_iff.mp h
  cases hs : s.toList with
  | nil => rw [hs] at hstart; cases hstart
  | cons c cs =>
      rw [hs] at hstart
      exact ⟨c, cs, rfl, hstart, notMem_of_all (p := isNameStart) hstart rfl⟩

theorem ne_of_isPlainWord (h : isPlainWord s = true) {c : Char} (hs : s.toList = c :: cs) :
    c ≠ 'r' ∧ c ≠ 'S' := by
  simpa [isPlainWord, isWord_of_isPlainWord h, hs] using h

theorem text?_eq_none {c : Char} (hquote : c ≠ '"') (hr : c ≠ 'r') (cs : List Char) :
    text? (c :: cs) = none := by
  rw [text?]
  · rintro cs' ⟨⟩
    exact hquote rfl
  · rintro cs' ⟨⟩
    exact hr rfl

/-- Behind an identifier the reader goes on by what follows it. -/
theorem node?_word (h : isPlainWord s = true) (hrest : Delimited rest) :
    node? implicitSome (fuel + 1) optionals (s.toList ++ rest) =
      named? implicitSome fuel optionals ⟨s, false⟩ rest := by
  have hname := name?_toList (isWord_of_isPlainWord h) hrest
  obtain ⟨c, cs, hs, hstart, hc⟩ := exists_cons_of_isWord (isWord_of_isPlainWord h)
  obtain ⟨hr, hsome⟩ := ne_of_isPlainWord h hs
  simp only [List.mem_cons, not_or] at hc
  have hnumber : ¬ isNumberStart c = true := fun hnumber => by
    rw [isNameStart_of_isNumberStart hnumber] at hstart
    cases hstart
  have htext : text? (c :: (cs ++ rest)) = none := text?_eq_none hc.2.2.2.2.1 hr _
  have hbehind : behindSomeWord? (c :: (cs ++ rest)) = none := by
    rw [behindSomeWord?, behindSome?_cons hsome]
    rfl
  rw [hs, List.cons_append] at hname ⊢
  rw [node?, if_neg hc.1, if_neg hc.2.1, if_neg hc.2.2.1, if_neg hc.2.2.2.1, if_neg hnumber, htext,
    hbehind, hname]
  simp only [Option.bind_eq_bind, Option.bind_some, skip_of_delimited hrest]

/-- An identifier starts a field if a colon is next. -/
theorem startsField_toList (h : isWord s = true) (hrest : Delimited rest) :
    startsField (s.toList ++ rest) = (rest.head? == some ':') := by
  rw [startsField, name?_toList h hrest]
  simp only [skip_of_delimited hrest]
  split
  · next heq =>
      cases heq
      rfl
  · next hcolon =>
      cases rest with
      | nil => rfl
      | cons c cs =>
          have hc : c ≠ ':' := by
            rintro rfl
            exact hcolon cs rfl
          simp [hc]

/-- What is written with an identifier at the front reads back if what is behind it does. -/
theorem ReadsBack.of_word (h : isPlainWord s = true) (cs : List Char)
    (hrender : v.render = s.toList ++ cs)
    (hcs : ∀ rest, Ended rest → Delimited (cs ++ rest) ∧ (cs ++ rest).head? ≠ some ':')
    (hnamed : ∀ implicitSome fuel optionals rest, Ended rest → 4 * cs.length < fuel →
      named? implicitSome fuel optionals ⟨s, false⟩ (cs ++ rest) = some (v, rest)) :
    ReadsBack v := by
  obtain ⟨c, ds, hs, -, hc⟩ := exists_cons_of_isWord (isWord_of_isPlainWord h)
  have hc' : c ∉ 'S' :: nonStarters := by
    simp only [List.mem_cons, not_or] at hc ⊢
    exact ⟨(ne_of_isPlainWord h hs).2, hc.2.2.2.2.2⟩
  have hhead : v.render = c :: (ds ++ cs) := by rw [hrender, hs, List.cons_append]
  apply ReadsBack.of_node hhead hc'
  · intro rest hrest
    obtain ⟨hdelimited, hcolon⟩ := hcs rest hrest
    rw [hrender, List.append_assoc, startsField_toList (isWord_of_isPlainWord h) hdelimited]
    exact beq_eq_false_iff_ne.mpr hcolon
  · intro implicitSome fuel optionals rest hrest hfuel
    have hlength : cs.length < v.render.length := by simp [hhead]
    obtain ⟨fuel, rfl⟩ : ∃ n, fuel = n + 1 := ⟨fuel - 1, by omega⟩
    rw [hrender, List.append_assoc, node?_word h (hcs rest hrest).1]
    exact hnamed _ _ _ _ hrest (by omega)

theorem ReadsBack.absent : ReadsBack .absent := by
  apply ReadsBack.of_word (s := "None") (by decide) [] rfl
  · exact fun rest hrest => ⟨hrest.delimited, hrest.head?_ne⟩
  · intro implicitSome fuel optionals rest _ hfuel
    obtain ⟨fuel, rfl⟩ := Nat.exists_eq_add_one_of_ne_zero (Nat.ne_zero_of_lt hfuel)
    rfl

theorem ReadsBack.word (h : isPlainWord s = true) (hreserved : reserved? s = none) :
    ReadsBack (.word s) := by
  apply ReadsBack.of_word h [] (List.append_nil _).symm
  · exact fun rest hrest => ⟨hrest.delimited, hrest.head?_ne⟩
  · intro implicitSome fuel optionals rest hrest hfuel
    obtain ⟨fuel, rfl⟩ := Nat.exists_eq_add_one_of_ne_zero (Nat.ne_zero_of_lt hfuel)
    rw [List.nil_append, named?]
    · simp only [Bool.false_eq_true, if_false, hreserved]
    · rintro cs rfl
      have hparen := hrest '(' rfl
      simp at hparen

theorem values?_last {close : Char} (hclose : close ∈ [')', ']']) (h : cs.head? ≠ some close)
    (hnode : node? implicitSome fuel [] cs = some (v, close :: rest)) :
    values? implicitSome (fuel + 1) close cs = some ([v], rest) := by
  have hskip : skip (close :: rest) = some (close :: rest) :=
    skip_of_delimited (ended_cons (List.mem_cons_of_mem _ hclose) rest).delimited
  rw [values?, if_neg h, hnode]
  simp only [Option.bind_eq_bind, Option.bind_some, hskip]
  split
  · next heq =>
      cases heq
      simp at hclose
  · next heq =>
      cases heq
      exact if_pos rfl
  · next heq => cases heq

theorem values?_next {close : Char} (h : cs.head? ≠ some close) {more : List Char}
    (hnode : node? implicitSome fuel [] cs = some (v, ',' :: more)) (hskip : skip more = some more)
    (hvalues : values? implicitSome fuel close more = some (vs, rest)) :
    values? implicitSome (fuel + 1) close cs = some (v :: vs, rest) := by
  have hcomma : skip (',' :: more) = some (',' :: more) := skip_of_notMem (by simp [nonStarters]) _
  rw [values?, if_neg h, hnode]
  simp only [Option.bind_eq_bind, Option.bind_some, hcomma, hskip, hvalues]
  rfl

/-- What follows the first node ends it. -/
theorem exists_renderValues_cons (close : Char) (hclose : close ∈ [')', ']']) (v : Node)
    (vs : List Node) (rest : List Char) :
    ∃ more, Ended more ∧ renderValues (v :: vs) ++ close :: rest = v.render ++ more := by
  cases vs with
  | nil =>
      refine ⟨close :: rest, ended_cons (List.mem_cons_of_mem _ hclose) rest, ?_⟩
      rw [renderValues]
  | cons w ws =>
      refine ⟨',' :: (renderValues (w :: ws) ++ close :: rest), ended_cons (by simp) _, ?_⟩
      rw [renderValues, List.append_assoc, List.cons_append]

theorem skip_renderValues {close : Char} (hclose : close ∈ [')', ']'])
    (h : ∀ v ∈ vs, ReadsBack v) (rest : List Char) :
    skip (renderValues vs ++ close :: rest) = some (renderValues vs ++ close :: rest) := by
  cases vs with
  | nil => exact skip_of_delimited (ended_cons (List.mem_cons_of_mem _ hclose) rest).delimited
  | cons v vs =>
      obtain ⟨more, -, heq⟩ := exists_renderValues_cons close hclose v vs rest
      rw [heq]
      exact (h v List.mem_cons_self).skip_append more

theorem startsField_renderValues (h : ∀ v ∈ vs, ReadsBack v) (rest : List Char) :
    startsField (renderValues vs ++ ')' :: rest) = false := by
  cases vs with
  | nil => exact startsField_eq_false rfl rest
  | cons v vs =>
      obtain ⟨more, hmore, heq⟩ := exists_renderValues_cons ')' (by simp) v vs rest
      rw [heq]
      exact (h v List.mem_cons_self).startsField more hmore

/-- Nodes that read back are read one after the other. -/
theorem values?_renderValues {close : Char} (hclose : close ∈ [')', ']'])
    (h : ∀ v ∈ vs, ReadsBack v) (hfuel : 4 * (renderValues vs).length < fuel) :
    values? implicitSome fuel close (renderValues vs ++ close :: rest) = some (vs, rest) := by
  have hend : Ended (close :: rest) := ended_cons (List.mem_cons_of_mem _ hclose) rest
  induction vs generalizing fuel with
  | nil =>
      obtain ⟨fuel, rfl⟩ := Nat.exists_eq_add_one_of_ne_zero (Nat.ne_zero_of_lt hfuel)
      rw [values?]
      exact if_pos rfl
  | cons v vs ih =>
      have hv := h v List.mem_cons_self
      obtain ⟨fuel, rfl⟩ := Nat.exists_eq_add_one_of_ne_zero (Nat.ne_zero_of_lt hfuel)
      cases vs with
      | nil =>
          rw [renderValues] at hfuel ⊢
          exact values?_last hclose (hv.head?_ne hclose _) (hv.node _ _ _ _ hend (by omega))
      | cons w ws =>
          rw [renderValues, List.length_append, List.length_cons] at hfuel
          rw [renderValues, List.append_assoc, List.cons_append]
          have hws : ∀ u ∈ w :: ws, ReadsBack u := fun u hu => h u (List.mem_cons_of_mem _ hu)
          have hnode := hv.node implicitSome fuel []
            (',' :: (renderValues (w :: ws) ++ close :: rest)) (ended_cons (by simp) _) (by omega)
          exact values?_next (hv.head?_ne hclose _) hnode (skip_renderValues hclose hws rest)
            (ih hws (by omega))

theorem ReadsBack.list (h : ∀ v ∈ vs, ReadsBack v) : ReadsBack (.list vs) := by
  have hrender : (Node.list vs).render = '[' :: (renderValues vs ++ [']']) := by rw [Node.render]
  apply ReadsBack.of_node hrender (by simp [nonStarters])
  · intro rest _
    rw [hrender]
    exact startsField_eq_false rfl _
  · intro implicitSome fuel optionals rest hrest hfuel
    rw [hrender, List.length_cons, List.length_append] at hfuel
    obtain ⟨fuel, rfl⟩ : ∃ n, fuel = n + 1 := ⟨fuel - 1, by omega⟩
    rw [hrender, List.cons_append, List.append_assoc, List.singleton_append, node?, if_pos rfl,
      skip_renderValues (by simp) h]
    simp only [Option.bind_eq_bind, Option.bind_some]
    rw [values?_renderValues (by simp) h (by omega)]
    rfl

/-- With no field at the front, what stands in parentheses is a tuple. -/
theorem body?_renderValues (h : ∀ v ∈ vs, ReadsBack v) (name : Option String)
    (hfuel : 4 * (renderValues vs).length < fuel) :
    body? implicitSome (fuel + 1) optionals name (renderValues vs ++ ')' :: rest) =
      some (.tuple name vs, rest) := by
  rw [body?, startsField_renderValues h, if_neg Bool.false_ne_true,
    values?_renderValues (by simp) h hfuel]
  rfl

/-- What stands in parentheses reads back if it is read up to the closing one. -/
theorem ReadsBack.of_parentheses (cs : List Char) (hrender : v.render = '(' :: (cs ++ [')']))
    (hhead : ∀ rest, (cs ++ ')' :: rest).head? ≠ some ')')
    (hskip : ∀ rest, skip (cs ++ ')' :: rest) = some (cs ++ ')' :: rest))
    (hbody : ∀ implicitSome fuel optionals rest, Ended rest → 4 * cs.length < fuel →
      body? implicitSome (fuel + 1) optionals none (cs ++ ')' :: rest) = some (v, rest)) :
    ReadsBack v := by
  apply ReadsBack.of_node hrender (by simp [nonStarters])
  · intro rest _
    rw [hrender]
    exact startsField_eq_false rfl _
  · intro implicitSome fuel optionals rest hrest hfuel
    rw [hrender, List.length_cons, List.length_append] at hfuel
    obtain ⟨fuel, rfl⟩ : ∃ n, fuel = n + 2 := ⟨fuel - 2, by omega⟩
    rw [hrender, List.cons_append, List.append_assoc, List.singleton_append, node?,
      if_neg (by decide), if_neg (by decide), if_pos rfl, if_neg (hhead rest), hskip]
    simp only [Option.bind_eq_bind, Option.bind_some]
    exact hbody _ _ _ _ hrest (by omega)

theorem ReadsBack.tuple (hne : vs ≠ []) (h : ∀ v ∈ vs, ReadsBack v) :
    ReadsBack (.tuple none vs) := by
  apply ReadsBack.of_parentheses (renderValues vs)
  · rw [Node.render]
    rfl
  · intro rest
    obtain ⟨v, vs, rfl⟩ := List.exists_cons_of_ne_nil hne
    obtain ⟨more, -, heq⟩ := exists_renderValues_cons ')' (by simp) v vs rest
    rw [heq]
    exact (h v List.mem_cons_self).head?_ne (by simp) more
  · exact skip_renderValues (by simp) h
  · exact fun _ _ _ _ _ hfuel => body?_renderValues h none hfuel

/-- An opening parenthesis behind an identifier makes it the name of a tuple or a record. -/
theorem named?_parenthesis (hreserved : reserved? s = none) (hskip : skip cs = some cs) :
    named? implicitSome (fuel + 1) optionals ⟨s, false⟩ ('(' :: cs) =
      body? implicitSome fuel optionals (some s) cs := by
  rw [named?]
  simp only [Bool.false_eq_true, if_false, hreserved, hskip, Option.bind_eq_bind, Option.bind_some]

theorem ReadsBack.of_named (hword : isPlainWord s = true) (hreserved : reserved? s = none)
    (cs : List Char) (hrender : v.render = s.toList ++ '(' :: (cs ++ [')']))
    (hskip : ∀ rest, skip (cs ++ ')' :: rest) = some (cs ++ ')' :: rest))
    (hbody : ∀ implicitSome fuel optionals rest, Ended rest → 4 * cs.length < fuel →
      body? implicitSome (fuel + 1) optionals (some s) (cs ++ ')' :: rest) = some (v, rest)) :
    ReadsBack v := by
  apply ReadsBack.of_word hword _ hrender
  · exact fun rest _ => ⟨delimited_cons (by simp) _, by simp⟩
  · intro implicitSome fuel optionals rest hrest hfuel
    rw [List.length_cons, List.length_append] at hfuel
    obtain ⟨fuel, rfl⟩ : ∃ n, fuel = n + 2 := ⟨fuel - 2, by omega⟩
    rw [List.cons_append, List.append_assoc, List.singleton_append,
      named?_parenthesis hreserved (hskip rest)]
    exact hbody _ _ _ _ hrest (by omega)

theorem ReadsBack.namedTuple (hword : isPlainWord s = true) (hreserved : reserved? s = none)
    (h : ∀ v ∈ vs, ReadsBack v) : ReadsBack (.tuple (some s) vs) := by
  apply ReadsBack.of_named hword hreserved (renderValues vs)
  · rw [Node.render]
    rfl
  · exact skip_renderValues (by simp) h
  · exact fun _ _ _ _ _ hfuel => body?_renderValues h (some s) hfuel

end Neologism.Document
