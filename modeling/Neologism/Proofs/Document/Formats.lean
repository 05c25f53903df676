import Neologism.Document.Standard
import Neologism.Proofs.Document.Records

/-! # What a format has to accept

A description or settings can survive only if the format reads what it writes. What it is trusted
with is said here, one kind of node at a time: some forms of nodes are accepted, which means that
they are read as they were written, and a node made of accepted ones is accepted. A format may limit
how deep nodes are nested, so a form is accepted with a number of levels, and nothing is asked of
nodes that are nested deeper than those of descriptions.

Main statements: `acceptsDescriptions_standard` and `acceptsSettings_standard`, that the standard
format can be trusted with both. -/

namespace Neologism.Document

/-- The names of what stands around one value. -/
def wrapperNames : List String :=
  ["Ref", "Inline", "Nonterminal", "ClassRef", "InlineClass", "Class"]

/-- The names of commands. -/
def commandNames : List String :=
  ["Production", "Definition", "Condition", "Exclusion"]

/-- The names of the fields of commands. -/
def commandFields : List String :=
  ["nonterminal", "symbols", "weight", "name", "class", "context"]

/-- The names that the record of settings may have. -/
def configNames : List (Option String) :=
  [none, some "GeneratorConfig"]

/-- The levels of a description, from the list of its commands down to the pairs of a literal. -/
def deepest : Nat :=
  7

namespace Format

/-- Nodes of accepted forms are read as they were written, if they are not nested too deeply, and
texts are among them. -/
structure Accepts (F : Format) (accepted : Nat → Node → Prop) : Prop where
  read {v : Node} (optionals : List String) :
    accepted deepest v → F.read? optionals (F.render v) = some ⟨false, v⟩
  text (depth : Nat) (s : String) : accepted depth (.text s)

/-- The format is trusted with descriptions: finite weights are read as they were written, and
lists, pairs and the variants with a value, with fields or with neither are accepted. -/
structure AcceptsDescriptions (F : Format) (accepted : Nat → Node → Prop) : Prop
    extends F.Accepts accepted where
  weight {w : Weight} (depth : Nat) : w.isFinite = true → accepted depth (F.ofWeight w)
  weight_eq {w : Weight} : w.isFinite = true → F.weight? (F.weightLexeme w) = some w
  list {depth : Nat} {vs : List Node} : (∀ v ∈ vs, accepted depth v) →
    accepted (depth + 1) (.list vs)
  pair {depth : Nat} {v w : Node} : accepted depth v → accepted depth w →
    accepted (depth + 1) (.tuple none [v, w])
  wrapper {depth : Nat} {name : String} {v : Node} : name ∈ wrapperNames → accepted depth v →
    accepted (depth + 1) (.tuple (some name) [v])
  command {depth : Nat} {name : String} {fields : List (String × Node)} : name ∈ commandNames →
    fields ≠ [] → (∀ f ∈ fields, f.1 ∈ commandFields ∧ accepted depth f.2) →
      accepted (depth + 1) (.record (some name) fields)
  boundary (depth : Nat) : accepted depth (.word "Boundary")

/-- The format is trusted with settings: counts are read as they were written, and optional values
and records are accepted. Of a record without fields the parentheses are left. -/
structure AcceptsSettings (F : Format) (accepted : Nat → Node → Prop) : Prop
    extends F.Accepts accepted where
  unsigned (depth : Nat) (n : UInt64) : accepted depth (F.ofUnsigned n)
  unsigned_eq (n : UInt64) : F.unsigned? (F.unsignedLexeme n) = some n
  absent (depth : Nat) : accepted depth .absent
  present {depth : Nat} {v : Node} : accepted depth v → accepted (depth + 1) (.present v)
  settings {depth : Nat} {name : Option String} {fields : List (String × Node)} :
    name ∈ configNames → fields ≠ [] →
      (∀ f ∈ fields, f.1 ∈ configFields ∧ accepted depth f.2) →
        accepted (depth + 1) (.record name fields)
  hollow {name : Option String} (optionals : List String) : name ∈ configNames →
    F.read? optionals (F.render (.record name [])) = some ⟨false, .hollow name⟩

end Format

theorem isPlainWord_of_mem : ∀ name ∈ wrapperNames ++ commandNames,
    isPlainWord name = true ∧ (reserved? name).isNone = true := by
  decide

theorem isWord_of_mem : ∀ name ∈ commandFields ++ configFields, isWord name = true := by
  decide

theorem accepts_standard : Format.standard.Accepts (fun _ => ReadsBack) where
  read optionals h := h.read?_render optionals
  text _ := .text

theorem acceptsDescriptions_standard :
    Format.standard.AcceptsDescriptions (fun _ => ReadsBack) where
  toAccepts := accepts_standard
  weight _ h := .number (isLexeme_weightLexeme h)
  weight_eq h := weight?_weightLexeme h
  list h := .list h
  pair hv hw := .tuple (List.cons_ne_nil _ _) (by simp [hv, hw])
  wrapper hname hv := by
    obtain ⟨hword, hreserved⟩ := isPlainWord_of_mem _ (List.mem_append_left _ hname)
    exact .namedTuple hword (Option.isNone_iff_eq_none.mp hreserved) (by simpa using hv)
  command hname hne h := by
    obtain ⟨hword, hreserved⟩ := isPlainWord_of_mem _ (List.mem_append_right _ hname)
    exact .namedRecord hword (Option.isNone_iff_eq_none.mp hreserved) hne fun f hf =>
      ⟨isWord_of_mem _ (List.mem_append_left _ (h f hf).1), (h f hf).2⟩
  boundary _ := .word (by decide) rfl

theorem acceptsSettings_standard : Format.standard.AcceptsSettings (fun _ => ReadsBack) where
  toAccepts := accepts_standard
  unsigned _ n := .number (isLexeme_repr n.toNat)
  unsigned_eq := unsigned?_repr
  absent _ := .absent
  present h := .present h
  settings {_ name fields} hname hne h := by
    have hfields : ∀ f ∈ fields, FieldReadsBack f := fun f hf =>
      ⟨isWord_of_mem _ (List.mem_append_right _ (h f hf).1), (h f hf).2⟩
    simp only [configNames, List.mem_cons, List.not_mem_nil, or_false] at hname
    rcases hname with rfl | rfl
    · exact .record hne hfields
    · exact .namedRecord (by decide) rfl hne hfields
  hollow {name} optionals hname := by
    simp only [configNames, List.mem_cons, List.not_mem_nil, or_false] at hname
    rcases hname with rfl | rfl
    · exact read?_parentheses optionals
    · have htuple : ReadsBack (.tuple (some "GeneratorConfig") []) :=
        .namedTuple (by decide) rfl (by simp)
      have hrender : (Node.record (some "GeneratorConfig") []).render =
          (Node.tuple (some "GeneratorConfig") []).render := by
        rw [Node.render, Node.render]
        rfl
      change Document.read? optionals (String.ofList (Node.record _ []).render) = _
      rw [hrender]
      exact htuple.read?_render optionals

end Neologism.Document
