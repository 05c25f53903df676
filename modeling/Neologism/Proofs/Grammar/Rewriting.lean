import Mathlib.Logic.Relation
import Neologism.Grammar.Derivation

/-! # Rewriting of sentential forms

A form is a list of symbols. A rewriting step replaces one nonterminal of a form by one of its
right-hand sides; a leftmost step replaces the first nonterminal. The relations of derivation
follow the structure of symbol lists instead, which is what inductions need.

Main statements: `yields_iff_rewrites` says that to yield class names is to be rewritten into
them in any number of steps, and `anticipates_iff` says which symbols may come next after some
tokens by the leftmost forms of the root. -/

namespace Neologism

/-- One token of a row of tokens is held by the name that stands in its place. -/
theorem Lexicon.HoldsAll.split_at {lex : Lexicon} {names : List String} {us vs : List Token}
    {t : Token} (h : lex.HoldsAll names (us ++ t :: vs)) :
    ∃ before name after, names = before ++ name :: after ∧ lex.HoldsAll before us ∧
      lex.Holds name t := by
  induction us generalizing names with
  | nil =>
      cases h with
      | cons hold _ => exact ⟨[], _, _, rfl, .nil, hold⟩
  | cons u us ih =>
      cases h with
      | cons first rest =>
          obtain ⟨before, name, after, rfl, hbefore, hold⟩ := ih rest
          exact ⟨_ :: before, name, after, rfl, .cons first hbefore, hold⟩

namespace Grammar

open Relation

variable {g : Grammar} {lex : Lexicon}

/-- Some nonterminal of a form is replaced by one of its right-hand sides. -/
inductive Rewrites (g : Grammar) : List Symbol → List Symbol → Prop where
  | replace (before after : List Symbol) {name : String} {rule : Rule} :
      rule ∈ g.rules name →
      Rewrites g (before ++ .nonterminal name :: after) (before ++ (rule.symbols ++ after))

/-- The first nonterminal of a form is replaced: nothing but classes stands before it. -/
inductive RewritesFirst (g : Grammar) : List Symbol → List Symbol → Prop where
  | replace (names : List String) (after : List Symbol) {name : String} {rule : Rule} :
      rule ∈ g.rules name →
      RewritesFirst g (names.map Symbol.cls ++ .nonterminal name :: after)
        (names.map Symbol.cls ++ (rule.symbols ++ after))

theorem RewritesFirst.rewrites {a b : List Symbol} (h : RewritesFirst g a b) : Rewrites g a b := by
  cases h with
  | replace names after mem => exact .replace (names.map Symbol.cls) after mem

/-- What stands behind a form does not matter to a leftmost step in it. -/
theorem RewritesFirst.append_right {a b : List Symbol} (h : RewritesFirst g a b)
    (c : List Symbol) : RewritesFirst g (a ++ c) (b ++ c) := by
  cases h with
  | replace names after mem =>
      simpa only [List.append_assoc, List.cons_append] using
        RewritesFirst.replace names (after ++ c) mem

/-- Classes in front of a form do not matter to a leftmost step in it. -/
theorem RewritesFirst.names_append {a b : List Symbol} (h : RewritesFirst g a b)
    (names : List String) :
    RewritesFirst g (names.map Symbol.cls ++ a) (names.map Symbol.cls ++ b) := by
  cases h with
  | replace others after mem =>
      simpa only [List.map_append, List.append_assoc] using
        RewritesFirst.replace (names ++ others) after mem

theorem rewritesFirst_append_right {a b : List Symbol}
    (h : ReflTransGen g.RewritesFirst a b) (c : List Symbol) :
    ReflTransGen g.RewritesFirst (a ++ c) (b ++ c) :=
  h.lift (· ++ c) fun _ _ step => step.append_right c

theorem rewritesFirst_names_append {a b : List Symbol}
    (h : ReflTransGen g.RewritesFirst a b) (names : List String) :
    ReflTransGen g.RewritesFirst (names.map Symbol.cls ++ a) (names.map Symbol.cls ++ b) :=
  h.lift (names.map Symbol.cls ++ ·) fun _ _ step => step.names_append names

theorem Yields.append {ss rs : List Symbol} {ns ms : List String} (h : Yields g ss ns)
    (h' : Yields g rs ms) : Yields g (ss ++ rs) (ns ++ ms) := by
  induction h with
  | nil => exact h'
  | cls _ ih => exact .cls ih
  | nonterminal mem inner _ _ ih =>
      rw [List.append_assoc]
      exact .nonterminal mem inner ih

/-- The yield of a form is put together from the yields of its parts. -/
theorem yields_append_iff {ss rs : List Symbol} {ns : List String} :
    Yields g (ss ++ rs) ns ↔ ∃ ms ks, ns = ms ++ ks ∧ Yields g ss ms ∧ Yields g rs ks := by
  constructor
  · intro h
    induction ss generalizing ns with
    | nil => exact ⟨[], ns, rfl, .nil, h⟩
    | cons s ss ih =>
        cases h with
        | cls rest =>
            obtain ⟨ms, ks, rfl, hm, hk⟩ := ih rest
            exact ⟨_ :: ms, ks, rfl, .cls hm, hk⟩
        | @nonterminal name rule _ inner _ mem body rest =>
            obtain ⟨ms, ks, rfl, hm, hk⟩ := ih rest
            exact ⟨inner ++ ms, ks, (List.append_assoc ..).symm, .nonterminal mem body hm, hk⟩
  · rintro ⟨ms, ks, rfl, hm, hk⟩
    exact hm.append hk

/-- A form of classes yields its own names. -/
theorem yields_names (names : List String) : Yields g (names.map Symbol.cls) names := by
  induction names with
  | nil => exact .nil
  | cons name names ih => exact .cls ih

/-- A form yields what it can be rewritten into a form for. -/
theorem Yields.of_rewrites {a b : List Symbol} {ns : List String} (h : Rewrites g a b)
    (hb : Yields g b ns) : Yields g a ns := by
  cases h with
  | replace before after mem =>
      obtain ⟨xs, rest, rfl, hx, hrest⟩ := yields_append_iff.mp hb
      obtain ⟨ys, zs, rfl, hy, hz⟩ := yields_append_iff.mp hrest
      exact hx.append (.nonterminal mem hy hz)

/-- Leftmost steps are enough to reach every yield. -/
theorem Yields.rewritesFirst {ss : List Symbol} {ns : List String} (h : Yields g ss ns) :
    ReflTransGen g.RewritesFirst ss (ns.map Symbol.cls) := by
  induction h with
  | nil => exact .refl
  | @cls name _ _ _ ih => simpa using rewritesFirst_names_append ih [name]
  | @nonterminal name rule symbols inner names mem _ _ ihInner ihRest =>
      have first : RewritesFirst g (.nonterminal name :: symbols) (rule.symbols ++ symbols) :=
        .replace [] symbols mem
      rw [List.map_append]
      exact (ReflTransGen.head first (rewritesFirst_append_right ihInner symbols)).trans
        (rewritesFirst_names_append ihRest inner)

/-- To yield class names is to be rewritten into them in any number of steps. -/
theorem yields_iff_rewrites {ss : List Symbol} {ns : List String} :
    Yields g ss ns ↔ ReflTransGen g.Rewrites ss (ns.map Symbol.cls) := by
  constructor
  · intro h
    exact h.rewritesFirst.lift id fun _ _ step => step.rewrites
  · intro h
    induction h using ReflTransGen.head_induction_on with
    | refl => exact yields_names ns
    | head step _ ih => exact .of_rewrites step ih

/-- The tokens of a form are put together from the tokens of its parts. -/
theorem derives_append_iff {ss rs : List Symbol} {ts : List Token} :
    Derives g lex (ss ++ rs) ts ↔
      ∃ us vs, ts = us ++ vs ∧ Derives g lex ss us ∧ Derives g lex rs vs := by
  constructor
  · intro h
    obtain ⟨ns, hy, hold⟩ := yields_of_derives h
    obtain ⟨ms, ks, rfl, hm, hk⟩ := yields_append_iff.mp hy
    obtain ⟨us, vs, rfl, hu, hv⟩ := hold.split
    exact ⟨us, vs, rfl, derives_of_yields hm hu, derives_of_yields hk hv⟩
  · rintro ⟨us, vs, rfl, hu, hv⟩
    exact hu.append hv

theorem derives_names {names : List String} {ts : List Token} (h : lex.HoldsAll names ts) :
    Derives g lex (names.map Symbol.cls) ts :=
  derives_of_yields (yields_names names) h

/-- One nonterminal derives what one of its right-hand sides derives. -/
theorem derives_nonterminal_iff {name : String} {ts : List Token} :
    Derives g lex [.nonterminal name] ts ↔
      ∃ rule ∈ g.rules name, Derives g lex rule.symbols ts := by
  constructor
  · intro h
    cases h with
    | nonterminal mem inner rest =>
        cases rest
        exact ⟨_, mem, by simpa using inner⟩
  · rintro ⟨rule, mem, inner⟩
    simpa using Derives.nonterminal mem inner .nil

/-- To derive tokens is to be rewritten into classes that hold them one by one. -/
theorem derives_iff_rewrites {ss : List Symbol} {ts : List Token} :
    Derives g lex ss ts ↔
      ∃ ns, ReflTransGen g.Rewrites ss (ns.map Symbol.cls) ∧ lex.HoldsAll ns ts := by
  simp only [derives_iff_yields, yields_iff_rewrites]

/-- A symbol may come next after some tokens: it is the root before anything was read, or it
stands in a rule of a nonterminal that could come next earlier, behind symbols that derive the
tokens read since. What is to follow need not derive anything. -/
inductive Anticipates (g : Grammar) (lex : Lexicon) (root : String) :
    List Token → Symbol → Prop where
  | root : Anticipates g lex root [] (.nonterminal root)
  | within {us vs : List Token} {name : String} {rule : Rule} {before after : List Symbol}
      {symbol : Symbol} :
      Anticipates g lex root us (.nonterminal name) → rule ∈ g.rules name →
      rule.symbols = before ++ symbol :: after → Derives g lex before vs →
      Anticipates g lex root (us ++ vs) symbol

variable {root : String}

theorem rewritesFirst_of_anticipates {ts : List Token} {symbol : Symbol}
    (h : Anticipates g lex root ts symbol) :
    ∃ before after, ReflTransGen g.RewritesFirst [.nonterminal root] (before ++ symbol :: after) ∧
      Derives g lex before ts := by
  induction h with
  | root => exact ⟨[], [], .refl, .nil⟩
  | @within us vs name rule inner rest symbol _ mem symbols hv ih =>
      obtain ⟨before, after, reach, hu⟩ := ih
      -- Only once everything in front is made of classes is the nonterminal the first one.
      obtain ⟨names, hy, hold⟩ := yields_of_derives hu
      have front := rewritesFirst_append_right hy.rewritesFirst (.nonterminal name :: after)
      have step : RewritesFirst g (names.map Symbol.cls ++ .nonterminal name :: after)
          (names.map Symbol.cls ++ (rule.symbols ++ after)) := .replace names after mem
      refine ⟨names.map Symbol.cls ++ inner, rest ++ after, ?_, (derives_names hold).append hv⟩
      have whole := (reach.trans front).tail step
      simpa [symbols] using whole

/-- A symbol of a form lies in front of a nonterminal of the form that was rewritten into it, in
the right-hand side that was put in, or behind. -/
theorem split_replaced {front inner behind before after : List Symbol} {symbol : Symbol}
    (h : front ++ (inner ++ behind) = before ++ symbol :: after) :
    (∃ rest, front = before ++ symbol :: rest) ∨
      (∃ middle rest, inner = middle ++ symbol :: rest ∧ before = front ++ middle) ∨
      ∃ middle rest, behind = middle ++ symbol :: rest ∧ before = front ++ (inner ++ middle) := by
  rcases List.append_eq_append_iff.mp h with ⟨xs, hb, hrest⟩ | ⟨xs, hf, hrest⟩
  · rcases List.append_eq_append_iff.mp hrest with ⟨ys, hx, hr⟩ | ⟨ys, hi, hr⟩
    · exact .inr (.inr ⟨ys, after, hr, by rw [hb, hx]⟩)
    · cases ys with
      | nil => exact .inr (.inr ⟨[], after, by simpa using hr.symm, by simp [hb, hi]⟩)
      | cons y ys =>
          obtain ⟨rfl, -⟩ := List.cons.inj hr
          exact .inr (.inl ⟨xs, ys, hi, hb⟩)
  · cases xs with
    | nil =>
        cases inner with
        | nil => exact .inr (.inr ⟨[], after, by simpa using hrest.symm, by simp [hf]⟩)
        | cons i inner =>
            obtain ⟨rfl, -⟩ := List.cons.inj hrest
            exact .inr (.inl ⟨[], inner, rfl, by simp [hf]⟩)
    | cons x xs =>
        obtain ⟨rfl, -⟩ := List.cons.inj hrest
        exact .inl ⟨xs, hf⟩

theorem anticipates_of_rewritesFirst {form : List Symbol}
    (h : ReflTransGen g.RewritesFirst [.nonterminal root] form) {before after : List Symbol}
    {symbol : Symbol} {ts : List Token} (hform : form = before ++ symbol :: after)
    (hts : Derives g lex before ts) : Anticipates g lex root ts symbol := by
  induction h generalizing before after symbol ts with
  | refl =>
      cases before with
      | nil =>
          obtain ⟨rfl, -⟩ := List.cons.inj hform
          cases hts
          exact .root
      | cons s before => simp at hform
  | tail _ step ih =>
      cases step with
      | @replace names behind name rule mem =>
          rcases split_replaced hform with
            ⟨rest, hfront⟩ | ⟨middle, rest, hinner, rfl⟩ | ⟨middle, rest, hbehind, rfl⟩
          · exact ih (by rw [hfront, List.append_assoc]; rfl) hts
          · obtain ⟨us, vs, rfl, hu, hv⟩ := derives_append_iff.mp hts
            exact .within (ih rfl hu) mem hinner hv
          · obtain ⟨us, rest', rfl, hu, hrest⟩ := derives_append_iff.mp hts
            obtain ⟨vs, ws, rfl, hv, hw⟩ := derives_append_iff.mp hrest
            exact ih (by rw [hbehind, List.append_assoc]; rfl) (hu.append (.nonterminal mem hv hw))

/-- A symbol may come next after some tokens when it stands in a leftmost form of the root
behind symbols that derive the tokens. -/
theorem anticipates_iff {ts : List Token} {symbol : Symbol} :
    Anticipates g lex root ts symbol ↔
      ∃ before after,
        ReflTransGen g.RewritesFirst [.nonterminal root] (before ++ symbol :: after) ∧
          Derives g lex before ts := by
  constructor
  · exact rewritesFirst_of_anticipates
  · rintro ⟨before, after, reach, hts⟩
    exact anticipates_of_rewritesFirst reach rfl hts

/-- Each token of a word of the root is held by a class that may come next after the tokens
before it. -/
theorem anticipates_of_derives {us vs : List Token} {t : Token}
    (h : Derives g lex [.nonterminal root] (us ++ t :: vs)) :
    ∃ name, Anticipates g lex root us (.cls name) ∧ lex.Holds name t := by
  obtain ⟨names, hy, hold⟩ := yields_of_derives h
  obtain ⟨before, name, after, rfl, hbefore, hname⟩ := hold.split_at
  have reach := hy.rewritesFirst
  rw [List.map_append, List.map_cons] at reach
  exact ⟨name, anticipates_of_rewritesFirst reach rfl (derives_names hbefore), hname⟩

section Mono

variable {larger : Grammar}

/-- More rules derive more. -/
theorem Derives.mono (hrules : ∀ name, g.rules name ⊆ larger.rules name) {ss : List Symbol}
    {ts : List Token} (h : Derives g lex ss ts) : Derives larger lex ss ts := by
  induction h with
  | nil => exact .nil
  | cls hold _ ih => exact .cls hold ih
  | nonterminal mem _ _ ihInner ihRest => exact .nonterminal (hrules _ mem) ihInner ihRest

theorem Anticipates.mono (hrules : ∀ name, g.rules name ⊆ larger.rules name) {ts : List Token}
    {symbol : Symbol} (h : Anticipates g lex root ts symbol) :
    Anticipates larger lex root ts symbol := by
  induction h with
  | root => exact .root
  | within _ mem symbols hbefore ih => exact .within ih (hrules _ mem) symbols (hbefore.mono hrules)

end Mono

end Grammar

end Neologism
