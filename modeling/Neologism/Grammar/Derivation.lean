import Neologism.Grammar.Basic

/-! # Derivations

What a grammar derives, said without any recognizer. `Yields` turns symbols into the names of
classes, and `Derives` turns them into tokens of those classes.

Main statement: `Grammar.derives_iff_yields` says that to derive tokens is to yield classes that
hold them one by one. -/

namespace Neologism

/-- The name is bound to a class that the token belongs to. -/
def Lexicon.Holds (lex : Lexicon) (name : String) (token : Token) : Prop :=
  ∃ c, lex.get? name = some c ∧ c.contains token = true

/-- The names are bound to classes that the tokens belong to, one by one. -/
inductive Lexicon.HoldsAll (lex : Lexicon) : List String → List Token → Prop where
  | nil : HoldsAll lex [] []
  | cons {name : String} {token : Token} {names : List String} {tokens : List Token} :
      lex.Holds name token → HoldsAll lex names tokens →
      HoldsAll lex (name :: names) (token :: tokens)

namespace Lexicon.HoldsAll

variable {lex : Lexicon}

theorem append {ns ms : List String} {ts us : List Token} (h : HoldsAll lex ns ts)
    (h' : HoldsAll lex ms us) : HoldsAll lex (ns ++ ms) (ts ++ us) := by
  induction h with
  | nil => exact h'
  | cons hold _ ih => exact .cons hold ih

theorem split {ns ms : List String} {ts : List Token} (h : HoldsAll lex (ns ++ ms) ts) :
    ∃ us vs, ts = us ++ vs ∧ HoldsAll lex ns us ∧ HoldsAll lex ms vs := by
  induction ns generalizing ts with
  | nil => exact ⟨[], ts, rfl, .nil, h⟩
  | cons name ns ih =>
      cases h with
      | cons hold rest =>
          obtain ⟨us, vs, rfl, hu, hv⟩ := ih rest
          exact ⟨_ :: us, vs, rfl, .cons hold hu, hv⟩

theorem length_eq {ns : List String} {ts : List Token} (h : HoldsAll lex ns ts) :
    ns.length = ts.length := by
  induction h with
  | nil => rfl
  | cons _ _ ih => simp [ih]

end Lexicon.HoldsAll

namespace Grammar

variable {g : Grammar} {lex : Lexicon}

/-- The rules turn the symbols into these class names. -/
inductive Yields (g : Grammar) : List Symbol → List String → Prop where
  | nil : Yields g [] []
  | cls {name : String} {symbols : List Symbol} {names : List String} :
      Yields g symbols names → Yields g (.cls name :: symbols) (name :: names)
  | nonterminal {name : String} {rule : Rule} {symbols : List Symbol}
      {inner names : List String} :
      rule ∈ g.rules name → Yields g rule.symbols inner → Yields g symbols names →
      Yields g (.nonterminal name :: symbols) (inner ++ names)

/-- The rules turn the symbols into these tokens, each taken from its class. -/
inductive Derives (g : Grammar) (lex : Lexicon) : List Symbol → List Token → Prop where
  | nil : Derives g lex [] []
  | cls {name : String} {token : Token} {symbols : List Symbol} {tokens : List Token} :
      lex.Holds name token → Derives g lex symbols tokens →
      Derives g lex (.cls name :: symbols) (token :: tokens)
  | nonterminal {name : String} {rule : Rule} {symbols : List Symbol}
      {inner tokens : List Token} :
      rule ∈ g.rules name → Derives g lex rule.symbols inner → Derives g lex symbols tokens →
      Derives g lex (.nonterminal name :: symbols) (inner ++ tokens)

theorem Derives.append {ss rs : List Symbol} {ts us : List Token} (h : Derives g lex ss ts)
    (h' : Derives g lex rs us) : Derives g lex (ss ++ rs) (ts ++ us) := by
  induction h with
  | nil => exact h'
  | cls hold _ ih => exact .cls hold ih
  | nonterminal mem inner _ _ ih =>
      rw [List.append_assoc]
      exact .nonterminal mem inner ih

theorem derives_of_yields {ss : List Symbol} {ns : List String} {ts : List Token}
    (h : Yields g ss ns) (hold : lex.HoldsAll ns ts) : Derives g lex ss ts := by
  induction h generalizing ts with
  | nil =>
      cases hold
      exact .nil
  | cls _ ih =>
      cases hold with
      | cons first rest => exact .cls first (ih rest)
  | nonterminal mem _ _ ihInner ihRest =>
      obtain ⟨us, vs, rfl, hu, hv⟩ := hold.split
      exact .nonterminal mem (ihInner hu) (ihRest hv)

theorem yields_of_derives {ss : List Symbol} {ts : List Token} (h : Derives g lex ss ts) :
    ∃ ns, Yields g ss ns ∧ lex.HoldsAll ns ts := by
  induction h with
  | nil => exact ⟨[], .nil, .nil⟩
  | cls hold _ ih =>
      obtain ⟨ns, hy, ha⟩ := ih
      exact ⟨_ :: ns, .cls hy, .cons hold ha⟩
  | nonterminal mem _ _ ihInner ihRest =>
      obtain ⟨ns, hy, ha⟩ := ihInner
      obtain ⟨ms, hy', ha'⟩ := ihRest
      exact ⟨ns ++ ms, .nonterminal mem hy hy', ha.append ha'⟩

/-- To derive tokens is to yield classes that hold them. -/
theorem derives_iff_yields {ss : List Symbol} {ts : List Token} :
    Derives g lex ss ts ↔ ∃ ns, Yields g ss ns ∧ lex.HoldsAll ns ts :=
  ⟨yields_of_derives, fun ⟨_, hy, ha⟩ => derives_of_yields hy ha⟩

end Grammar

end Neologism
