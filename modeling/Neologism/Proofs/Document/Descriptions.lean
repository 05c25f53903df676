import Neologism.Proofs.Document.Formats

/-! # Written descriptions read back

A format that is trusted with descriptions reads the node of each part of one as it was written,
and the node is read as the part that it is the node of. Parts are put together to larger ones in a
few ways only, so this is shown from the pairs of a literal up to the list of commands. A production
may come without its weight if that is the one it then gets.

Main statement: `readDescription?_of_written`. -/

namespace Neologism

/-- The weights of a class as a command has it. -/
def ClassSpec.weights : ClassSpec → List Weight
  | .ref _ => []
  | .inline literal => literal.map Prod.snd

/-- The weights of a symbol of a production. -/
def ProductionItem.weights : ProductionItem → List Weight
  | .nonterminal _ | .classRef _ => []
  | .inlineClass literal => literal.map Prod.snd

/-- The weights of a place of a context. -/
def ContextItem.weights : ContextItem → List Weight
  | .boundary => []
  | .cls spec => spec.weights

/-- All weights that a command names. -/
def Command.weights : Command → List Weight
  | .production _ items weight => weight :: items.flatMap ProductionItem.weights
  | .definition _ spec => spec.weights
  | .condition context spec | .exclusion context spec =>
      context.flatMap ContextItem.weights ++ spec.weights

namespace Document

variable {α : Type} {F : Format} {accepted : Nat → Node → Prop} {depth : Nat}
  {read : Node → Option α} {a : α} {v : Node}

/-- The node has the property and is read as the value. -/
structure Denotes (p : Node → Prop) (read : Node → Option α) (a : α) (v : Node) : Prop where
  form : p v
  read_eq : read v = some a

namespace Format

/-- The node of a command, or of a production without its weight if that is the default one. -/
inductive WrittenAs (F : Format) : Command → Node → Prop where
  | whole (command : Command) : WrittenAs F command (F.ofCommand command)
  | unweighted (nonterminal : String) (items : List ProductionItem) :
      WrittenAs F (.production nonterminal items Command.defaultWeight)
        (.record (some "Production")
          [("nonterminal", .text nonterminal), ("symbols", .list (items.map F.ofProductionItem))])

theorem wrapped?_eq_none {name other : String} (h : other ≠ name) (v : Node) :
    (Node.tuple (some other) [v]).wrapped? name = none := by
  rw [Node.wrapped?, if_neg h]

theorem Accepts.denotes_text (hF : F.Accepts accepted) (depth : Nat) (s : String) :
    Denotes (accepted depth) Node.text? s (.text s) :=
  ⟨hF.text depth s, rfl⟩

namespace AcceptsDescriptions

theorem denotes_list (hF : F.AcceptsDescriptions accepted) {as : List α} {vs : List Node}
    (h : List.Forall₂ (Denotes (accepted depth) read) as vs) :
    Denotes (accepted (depth + 1)) (Node.list? read) as (.list vs) := by
  have hboth : (∀ v ∈ vs, accepted depth v) ∧ vs.mapM read = some as := by
    induction h with
    | nil => exact ⟨by simp, rfl⟩
    | cons hv _ ih =>
        refine ⟨List.forall_mem_cons.mpr ⟨hv.form, ih.1⟩, ?_⟩
        rw [List.mapM_cons, hv.read_eq, ih.2]
        rfl
  exact ⟨hF.list hboth.1, hboth.2⟩

theorem denotes_map (hF : F.AcceptsDescriptions accepted) {as : List α} {write : α → Node}
    (h : ∀ a ∈ as, Denotes (accepted depth) read a (write a)) :
    Denotes (accepted (depth + 1)) (Node.list? read) as (.list (as.map write)) :=
  hF.denotes_list (List.forall₂_map_right_iff.mpr (List.forall₂_same.mpr h))

/-- A value under a name is read by the name, and by no other. -/
theorem denotes_wrapper (hF : F.AcceptsDescriptions accepted)
    (h : Denotes (accepted depth) read a v) (name : String) (hname : name ∈ wrapperNames) :
    Denotes (accepted (depth + 1)) (fun u => (u.wrapped? name).bind read) a
      (.tuple (some name) [v]) where
  form := hF.wrapper hname h.form
  read_eq := by rw [Node.wrapped?, if_pos rfl, Option.bind_some, h.read_eq]

theorem denotes_weight (hF : F.AcceptsDescriptions accepted) (depth : Nat) {w : Weight}
    (h : w.isFinite = true) : Denotes (accepted depth) (Node.weight? F) w (F.ofWeight w) :=
  ⟨hF.weight depth h, hF.weight_eq h⟩

theorem denotes_pair (hF : F.AcceptsDescriptions accepted) (depth : Nat) {e : Token × Weight}
    (h : e.2.isFinite = true) :
    Denotes (accepted (depth + 1)) F.pair? e (.tuple none [.text e.1, F.ofWeight e.2]) where
  form := hF.pair (hF.text depth e.1) (hF.weight depth h)
  read_eq := by
    rw [pair?, (hF.denotes_text depth e.1).read_eq, (hF.denotes_weight depth h).read_eq]
    rfl

theorem denotes_literal (hF : F.AcceptsDescriptions accepted) (depth : Nat)
    {literal : ClassLiteral} (h : ∀ w ∈ literal.map Prod.snd, w.isFinite = true) :
    Denotes (accepted (depth + 2)) F.literal? literal (F.ofLiteral literal) :=
  hF.denotes_map fun e he => hF.denotes_pair depth (h e.2 (List.mem_map_of_mem he))

theorem denotes_classSpec (hF : F.AcceptsDescriptions accepted) (depth : Nat) {spec : ClassSpec}
    (h : ∀ w ∈ spec.weights, w.isFinite = true) :
    Denotes (accepted (depth + 3)) F.classSpec? spec (F.ofClassSpec spec) := by
  cases spec with
  | ref name =>
      have hname := hF.denotes_wrapper (hF.denotes_text (depth + 2) name) "Ref" (by decide)
      exact ⟨hname.form, by simp [classSpec?, ofClassSpec, hname.read_eq]⟩
  | inline literal =>
      have hliteral := hF.denotes_wrapper (hF.denotes_literal depth h) "Inline" (by decide)
      exact ⟨hliteral.form, by simp [classSpec?, ofClassSpec, wrapped?_eq_none, hliteral.read_eq]⟩

theorem denotes_productionItem (hF : F.AcceptsDescriptions accepted) (depth : Nat)
    {item : ProductionItem} (h : ∀ w ∈ item.weights, w.isFinite = true) :
    Denotes (accepted (depth + 3)) F.productionItem? item (F.ofProductionItem item) := by
  cases item with
  | nonterminal name =>
      have hname := hF.denotes_wrapper (hF.denotes_text (depth + 2) name) "Nonterminal" (by decide)
      exact ⟨hname.form, by simp [productionItem?, ofProductionItem, hname.read_eq]⟩
  | classRef name =>
      have hname := hF.denotes_wrapper (hF.denotes_text (depth + 2) name) "ClassRef" (by decide)
      exact ⟨hname.form,
        by simp [productionItem?, ofProductionItem, wrapped?_eq_none, hname.read_eq]⟩
  | inlineClass literal =>
      have hliteral := hF.denotes_wrapper (hF.denotes_literal depth h) "InlineClass" (by decide)
      exact ⟨hliteral.form,
        by simp [productionItem?, ofProductionItem, wrapped?_eq_none, hliteral.read_eq]⟩

theorem denotes_contextItem (hF : F.AcceptsDescriptions accepted) (depth : Nat)
    {item : ContextItem} (h : ∀ w ∈ item.weights, w.isFinite = true) :
    Denotes (accepted (depth + 4)) F.contextItem? item (F.ofContextItem item) := by
  cases item with
  | boundary => exact ⟨hF.boundary _, rfl⟩
  | cls spec =>
      have hspec := hF.denotes_wrapper (hF.denotes_classSpec depth h) "Class" (by decide)
      exact ⟨hspec.form, by simp [contextItem?, ofContextItem, hspec.read_eq]⟩

section Fields

variable {nonterminal name : String} {items : List ProductionItem} {context : List ContextItem}
  {spec : ClassSpec} {weight : Weight}

theorem denotes_items (hF : F.AcceptsDescriptions accepted) (depth : Nat)
    (h : ∀ w ∈ items.flatMap ProductionItem.weights, w.isFinite = true) :
    Denotes (accepted (depth + 4)) (Node.list? F.productionItem?) items
      (.list (items.map F.ofProductionItem)) :=
  hF.denotes_map fun item hitem =>
    hF.denotes_productionItem depth fun w hw => h w (List.mem_flatMap.mpr ⟨item, hitem, hw⟩)

theorem denotes_context (hF : F.AcceptsDescriptions accepted) (depth : Nat)
    (h : ∀ w ∈ context.flatMap ContextItem.weights, w.isFinite = true) :
    Denotes (accepted (depth + 5)) (Node.list? F.contextItem?) context
      (.list (context.map F.ofContextItem)) :=
  hF.denotes_map fun item hitem =>
    hF.denotes_contextItem depth fun w hw => h w (List.mem_flatMap.mpr ⟨item, hitem, hw⟩)

theorem denotes_production (hF : F.AcceptsDescriptions accepted) (hweight : weight.isFinite = true)
    (h : ∀ w ∈ items.flatMap ProductionItem.weights, w.isFinite = true) :
    Denotes (accepted 6) F.command? (.production nonterminal items weight)
      (F.ofCommand (.production nonterminal items weight)) := by
  have hname := hF.denotes_text 5 nonterminal
  have hitems := hF.denotes_items 1 h
  have hvalue := hF.denotes_weight 5 hweight
  refine ⟨hF.command (by decide) (List.cons_ne_nil _ _) ?_, ?_⟩
  · simp [commandFields, hname.form, hitems.form, hvalue.form]
  · simp [ofCommand, command?, commandOfFields?, fieldsAreValid, List.lookup, hname.read_eq,
      hitems.read_eq, hvalue.read_eq]

theorem denotes_unweighted (hF : F.AcceptsDescriptions accepted)
    (h : ∀ w ∈ items.flatMap ProductionItem.weights, w.isFinite = true) :
    Denotes (accepted 6) F.command? (.production nonterminal items Command.defaultWeight)
      (.record (some "Production")
        [("nonterminal", .text nonterminal),
          ("symbols", .list (items.map F.ofProductionItem))]) := by
  have hname := hF.denotes_text 5 nonterminal
  have hitems := hF.denotes_items 1 h
  refine ⟨hF.command (by decide) (List.cons_ne_nil _ _) ?_, ?_⟩
  · simp [commandFields, hname.form, hitems.form]
  · simp [command?, commandOfFields?, fieldsAreValid, List.lookup, hname.read_eq, hitems.read_eq]

theorem denotes_definition (hF : F.AcceptsDescriptions accepted)
    (h : ∀ w ∈ spec.weights, w.isFinite = true) :
    Denotes (accepted 6) F.command? (.definition name spec)
      (F.ofCommand (.definition name spec)) := by
  have hname := hF.denotes_text 5 name
  have hspec := hF.denotes_classSpec 2 h
  refine ⟨hF.command (by decide) (List.cons_ne_nil _ _) ?_, ?_⟩
  · simp [commandFields, hname.form, hspec.form]
  · simp [ofCommand, command?, commandOfFields?, fieldsAreValid, List.lookup, hname.read_eq,
      hspec.read_eq]

/-- A condition and an exclusion are written and read alike. -/
theorem denotes_restriction (hF : F.AcceptsDescriptions accepted)
    (hcontext : ∀ w ∈ context.flatMap ContextItem.weights, w.isFinite = true)
    (h : ∀ w ∈ spec.weights, w.isFinite = true) :
    Denotes (accepted 6) F.command? (.condition context spec)
        (F.ofCommand (.condition context spec)) ∧
      Denotes (accepted 6) F.command? (.exclusion context spec)
        (F.ofCommand (.exclusion context spec)) := by
  have hitems := hF.denotes_context 0 hcontext
  have hspec := hF.denotes_classSpec 2 h
  have hfields : ∀ f ∈ [("context", Node.list (context.map F.ofContextItem)),
      ("class", F.ofClassSpec spec)], f.1 ∈ commandFields ∧ accepted 5 f.2 := by
    simp [commandFields, hitems.form, hspec.form]
  constructor <;> refine ⟨hF.command (by decide) (List.cons_ne_nil _ _) hfields, ?_⟩ <;>
    simp [ofCommand, command?, commandOfFields?, fieldsAreValid, List.lookup, hitems.read_eq,
      hspec.read_eq]

end Fields

/-- However a command is written, it is read back. -/
theorem denotes_command (hF : F.AcceptsDescriptions accepted) {command : Command}
    (h : F.WrittenAs command v) (hweights : ∀ w ∈ command.weights, w.isFinite = true) :
    Denotes (accepted 6) F.command? command v := by
  cases h with
  | unweighted nonterminal items =>
      exact hF.denotes_unweighted fun w hw => hweights w (List.mem_cons_of_mem _ hw)
  | whole =>
      cases command with
      | production nonterminal items weight =>
          obtain ⟨hweight, hitems⟩ := List.forall_mem_cons.mp hweights
          exact hF.denotes_production hweight hitems
      | definition name spec => exact hF.denotes_definition hweights
      | condition context spec =>
          obtain ⟨hcontext, hspec⟩ := List.forall_mem_append.mp hweights
          exact (hF.denotes_restriction hcontext hspec).1
      | exclusion context spec =>
          obtain ⟨hcontext, hspec⟩ := List.forall_mem_append.mp hweights
          exact (hF.denotes_restriction hcontext hspec).2

theorem denotes_description (hF : F.AcceptsDescriptions accepted) {d : Description}
    {nodes : List Node} (hweights : ∀ w ∈ d.flatMap Command.weights, w.isFinite = true)
    (h : List.Forall₂ F.WrittenAs d nodes) :
    Denotes (accepted deepest) (Node.list? F.command?) d (.list nodes) := by
  apply hF.denotes_list
  induction h with
  | nil => exact .nil
  | cons hhead _ ih =>
      rw [List.flatMap_cons, List.forall_mem_append] at hweights
      exact .cons (hF.denotes_command hhead hweights.1) (ih hweights.2)

theorem readDescription?_eq (hF : F.AcceptsDescriptions accepted) {d : Description}
    (h : Denotes (accepted deepest) (Node.list? F.command?) d v) :
    F.readDescription? (F.render v) = some d := by
  rw [Format.readDescription?, hF.read [] h.form, Option.bind_some, h.read_eq]

end AcceptsDescriptions

/-- With a format that is trusted with descriptions, a description of finite weights is read from
its text, also where productions come without a weight that is the default one. -/
theorem readDescription?_of_written (hF : F.AcceptsDescriptions accepted) {d : Description}
    (hweights : ∀ w ∈ d.flatMap Command.weights, w.isFinite = true) :
    F.readDescription? (F.renderDescription d) = some d ∧
      ∀ nodes, List.Forall₂ F.WrittenAs d nodes →
        F.readDescription? (F.render (.list nodes)) = some d := by
  have hwritten : ∀ nodes, List.Forall₂ F.WrittenAs d nodes →
      F.readDescription? (F.render (.list nodes)) = some d :=
    fun nodes h => hF.readDescription?_eq (hF.denotes_description hweights h)
  refine ⟨hwritten (d.map F.ofCommand) ?_, hwritten⟩
  exact List.forall₂_map_right_iff.mpr (List.forall₂_same.mpr fun command _ => .whole command)

/-- A description with an escape in a text, an empty pattern and two default weights. -/
def quotedDescription : Description :=
  [.production "S" [.classRef "a\"b"] 1.0, .production "S" [] 1.0,
    .exclusion [] (.inline [("\n", 0.5)])]

/-- In the standard format, the weight of its first production is left out, that of the second one
is not. -/
theorem readDescription?_of_written_quoted :
    standard.readDescription? (standard.renderDescription quotedDescription) =
        some quotedDescription ∧
      standard.readDescription? ("[Production(nonterminal:\"S\",symbols:[ClassRef(\"a\\\"b\")])," ++
        "Production(nonterminal:\"S\",symbols:[],weight:1.0)," ++
        "Exclusion(context:[],class:Inline([(\"\\n\",0.5)]))]") = some quotedDescription := by
  have hweights : ∀ w ∈ quotedDescription.flatMap Command.weights, w.isFinite = true := by
    decide +kernel
  obtain ⟨hwhole, hnodes⟩ := readDescription?_of_written acceptsDescriptions_standard hweights
  have hwritten := hnodes [_, _, _] (.cons (.unweighted "S" [.classRef "a\"b"])
    (.cons (.whole _) (.cons (.whole _) .nil)))
  refine ⟨hwhole, Eq.trans (congrArg standard.readDescription? ?_) hwritten⟩
  decide +kernel

end Format

end Document

end Neologism
