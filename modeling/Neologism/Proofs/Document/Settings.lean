import Neologism.Proofs.Document.Descriptions

/-! # Written settings read back

Fields of settings are found by their names, so their order does not matter, and a field that is
not there has its default. A format that is trusted with settings so keeps every choice of the
fields in every order of them, with the name of the record or without it.

Main statement: `readConfig?_of_fields`. -/

namespace Neologism

/-- The settings with the values of the named fields, and all others at their defaults. -/
def Config.keeping (c : Config) (names : List String) : Config :=
  let plain : Config := {}
  { seed := if "seed" ∈ names then c.seed else plain.seed
    minLength := if "min_length" ∈ names then c.minLength else plain.minLength
    maxLength := if "max_length" ∈ names then c.maxLength else plain.maxLength
    depthLimit := if "depth_limit" ∈ names then c.depthLimit else plain.depthLimit
    boundary := if "boundary" ∈ names then c.boundary else plain.boundary
    root := if "root" ∈ names then c.root else plain.root }

namespace Document

variable {α : Type} {F : Format} {accepted : Nat → Node → Prop} {depth : Nat}
  {read : Node → Option α} {a : α} {v : Node} {c : Config} {fields : List (String × Node)}

theorem nodup_configFields : configFields.Nodup := by
  decide

/-- Among fields taken from a record a value is found under its name, if its field is there. -/
theorem lookup_of_subset {all : List (String × Node)} (hnodup : (all.map Prod.fst).Nodup)
    (hfields : fields ⊆ all) {name : String} (hv : (name, v) ∈ all) :
    fields.lookup name = if name ∈ fields.map Prod.fst then some v else none := by
  cases hlookup : fields.lookup name with
  | none =>
      have habsent : name ∉ fields.map Prod.fst := by
        rw [List.mem_map]
        rintro ⟨f, hf, rfl⟩
        have hne := List.lookup_eq_none_iff.mp hlookup f hf
        simp at hne
      rw [if_neg habsent]
  | some w =>
      obtain ⟨before, after, rfl, -⟩ := List.lookup_eq_some_iff.mp hlookup
      have hw : (name, w) ∈ before ++ (name, w) :: after := by simp
      cases List.inj_on_of_nodup_map hnodup (hfields hw) hv rfl
      rw [if_pos (List.mem_map_of_mem hw)]

theorem field?_of_subset {all : List (String × Node)} (hnodup : (all.map Prod.fst).Nodup)
    (hfields : fields ⊆ all) {name : String} (hv : (name, v) ∈ all) (h : read v = some a)
    (default : α) :
    field? fields name default read =
      some (if name ∈ fields.map Prod.fst then a else default) := by
  rw [field?, lookup_of_subset hnodup hfields hv]
  by_cases hname : name ∈ fields.map Prod.fst
  · simp only [if_pos hname, h]
  · simp only [if_neg hname]

namespace Format

theorem fieldsAreValid_of_subperm (h : fields.Subperm (F.fieldsOfConfig c)) :
    F.fieldsAreValid configFields 2 fields = true := by
  rw [fieldsAreValid, Bool.and_eq_true, List.all_eq_true, List.all_eq_true]
  constructor
  · intro name _
    have hcount : (F.fieldsOfConfig c).countP (·.1 == name) = configFields.count name := rfl
    have hle := h.countP_le (·.1 == name)
    have hone := List.nodup_iff_count_le_one.mp nodup_configFields name
    exact decide_eq_true (by omega)
  · intro f hf
    have hmem : f.1 ∈ configFields := List.mem_map_of_mem (h.subset hf)
    rw [List.contains_iff_mem.mpr hmem, Bool.true_or]

theorem keeping_of_perm (h : fields.Perm (F.fieldsOfConfig c)) :
    c.keeping (fields.map Prod.fst) = c := by
  have hmem : ∀ name ∈ configFields, name ∈ fields.map Prod.fst :=
    fun name hname => (h.map Prod.fst).mem_iff.mpr hname
  simp only [configFields, List.forall_mem_cons] at hmem
  simp [Config.keeping, hmem]

namespace AcceptsSettings

theorem denotes_unsigned (hF : F.AcceptsSettings accepted) (depth : Nat) (n : UInt64) :
    Denotes (accepted depth) (Node.unsigned? F) n (F.ofUnsigned n) :=
  ⟨hF.unsigned depth n, hF.unsigned_eq n⟩

theorem denotes_option (hF : F.AcceptsSettings accepted) {write : α → Node}
    (h : ∀ a, Denotes (accepted depth) read a (write a)) (o : Option α) :
    Denotes (accepted (depth + 1)) (option? false read) o (ofOption write o) := by
  cases o with
  | none => exact ⟨hF.absent _, rfl⟩
  | some a =>
      refine ⟨hF.present (h a).form, ?_⟩
      rw [ofOption, option?, (h a).read_eq, Option.map_some]

theorem form_of_mem (hF : F.AcceptsSettings accepted) {f : String × Node}
    (h : f ∈ F.fieldsOfConfig c) : accepted 6 f.2 := by
  simp only [fieldsOfConfig, List.mem_cons, List.not_mem_nil, or_false] at h
  rcases h with rfl | rfl | rfl | rfl | rfl | rfl
  · exact (hF.denotes_option (hF.denotes_unsigned 5) c.seed).form
  · exact hF.unsigned 6 c.minLength
  · exact hF.unsigned 6 c.maxLength
  · exact hF.unsigned 6 c.depthLimit
  · exact hF.text 6 c.boundary
  · exact (hF.denotes_option (hF.denotes_text 5) c.root).form

/-- The fields that are there give their values, whatever their order, and all others their
defaults. -/
theorem configOfFields?_eq (hF : F.AcceptsSettings accepted)
    (h : fields.Subperm (F.fieldsOfConfig c)) :
    F.configOfFields? false fields = some (c.keeping (fields.map Prod.fst)) := by
  have hnodup : ((F.fieldsOfConfig c).map Prod.fst).Nodup := nodup_configFields
  have hfield : ∀ {α : Type} {read : Node → Option α} {a : α} {name : String} {v : Node},
      (name, v) ∈ F.fieldsOfConfig c → Denotes (accepted 6) read a v → ∀ default,
        field? fields name default read =
          some (if name ∈ fields.map Prod.fst then a else default) :=
    fun hv hdenotes => field?_of_subset hnodup h.subset hv hdenotes.read_eq
  rw [configOfFields?, if_pos (fieldsAreValid_of_subperm h),
    hfield (by simp [fieldsOfConfig]) (hF.denotes_option (hF.denotes_unsigned 5) c.seed),
    hfield (by simp [fieldsOfConfig]) (hF.denotes_unsigned 6 c.minLength),
    hfield (by simp [fieldsOfConfig]) (hF.denotes_unsigned 6 c.maxLength),
    hfield (by simp [fieldsOfConfig]) (hF.denotes_unsigned 6 c.depthLimit),
    hfield (by simp [fieldsOfConfig]) (hF.denotes_text 6 c.boundary),
    hfield (by simp [fieldsOfConfig]) (hF.denotes_option (hF.denotes_text 5) c.root)]
  rfl

theorem readConfig?_eq (hF : F.AcceptsSettings accepted) {name : Option String}
    (hname : name ∈ configNames) (h : fields.Subperm (F.fieldsOfConfig c)) :
    F.readConfig? (F.render (.record name fields)) = some (c.keeping (fields.map Prod.fst)) := by
  rw [readConfig?]
  by_cases hempty : fields = []
  · subst hempty
    rw [hF.hollow _ hname]
    simp only [configNames, List.mem_cons, List.not_mem_nil, or_false] at hname
    rcases hname with rfl | rfl <;> rfl
  · have hform : accepted deepest (.record name fields) := by
      refine hF.settings hname hempty fun f hf => ⟨?_, hF.form_of_mem (h.subset hf)⟩
      exact List.mem_map_of_mem (f := Prod.fst) (h.subset hf)
    rw [hF.read _ hform, Option.bind_some, config?]
    simp only [configNames, List.mem_cons, List.not_mem_nil, or_false] at hname
    rcases hname with rfl | rfl <;> rw [Option.getD, if_pos rfl, hF.configOfFields?_eq h]

end AcceptsSettings

/-- With a format that is trusted with settings, they are read from the text of any of their fields
in any order: those that are there have their values and all others their defaults. With all fields
these are the settings themselves. -/
theorem readConfig?_of_fields (hF : F.AcceptsSettings accepted) (c : Config) :
    (∀ name ∈ configNames, ∀ fields : List (String × Node),
      (fields.Subperm (F.fieldsOfConfig c) →
        F.readConfig? (F.render (.record name fields)) =
          some (c.keeping (fields.map Prod.fst))) ∧
      (fields.Perm (F.fieldsOfConfig c) →
        F.readConfig? (F.render (.record name fields)) = some c)) ∧
      F.readConfig? (F.renderConfig c) = some c := by
  have hall : ∀ name ∈ configNames, ∀ fields : List (String × Node),
      fields.Perm (F.fieldsOfConfig c) →
        F.readConfig? (F.render (.record name fields)) = some c := by
    intro name hname fields h
    rw [hF.readConfig?_eq hname h.subperm, keeping_of_perm h]
  exact ⟨fun name hname fields => ⟨hF.readConfig?_eq hname, hall name hname fields⟩,
    hall none (by simp [configNames]) _ (.refl _)⟩

/-- Settings with a quote in the name of their root. -/
def quotedConfig : Config :=
  { seed := some 7, minLength := 3, root := some "a\"b" }

/-- In the standard format, of two of its fields, the latter stands first. -/
theorem readConfig?_of_fields_quoted :
    [("root", Node.present (.text "a\"b")), ("seed", Node.present (.number "7"))].Subperm
        (standard.fieldsOfConfig quotedConfig) ∧
      standard.readConfig? "(root:Some(\"a\\\"b\"),seed:Some(7))" =
        some { seed := some 7, root := some "a\"b" } := by
  have hfields : [("root", Node.present (.text "a\"b")), ("seed", .present (.number "7"))].Subperm
      (standard.fieldsOfConfig quotedConfig) :=
    ⟨_, .swap _ _ _, .cons_cons _ (.cons _ (.cons _ (.cons _ (.cons _ (.cons_cons _ .slnil)))))⟩
  have hread := ((readConfig?_of_fields acceptsSettings_standard quotedConfig).1 none
    (by simp [configNames]) _).1 hfields
  exact ⟨hfields, Eq.trans (congrArg standard.readConfig? (by decide +kernel)) hread⟩

end Format

end Document

end Neologism
