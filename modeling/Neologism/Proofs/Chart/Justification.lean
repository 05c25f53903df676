import Neologism.Chart.Item
import Neologism.Proofs.Grammar.Rewriting

/-! # Justified items

Which items belong at the end of some tokens, said without any chart: the part of a rule in front
of the dot derives what was read since the item starts, and the nonterminal of the rule may come
next where the item starts.

Main statements: `Justified.anticipates_next` says that what stands behind the dot may come next,
and `Justified.advance` that a justified child moves the dot of a justified parent. -/

namespace Neologism.Chart.Item

open Grammar

variable {g : Grammar} {lex : Lexicon} {root : String}

/-- The item is a partial derivation that fits what was read. -/
def Justified (g : Grammar) (lex : Lexicon) (root : String) (tokens : List Token) : Item → Prop
  | .dotted lhs before after start =>
      (∃ rule ∈ g.rules lhs, rule.symbols = before ++ after) ∧
        ∃ us vs, tokens = us ++ vs ∧ us.length = start ∧
          Anticipates g lex root us (.nonterminal lhs) ∧ Derives g lex before vs
  | .scanned cls start =>
      ∃ us token, tokens = us ++ [token] ∧ us.length = start ∧
        Anticipates g lex root us (.cls cls) ∧ lex.Holds cls token

/-- The rules of a nonterminal that may come next are justified with the dot in front. -/
theorem justified_ofRule {us : List Token} {name : String} {rule : Rule}
    (h : Anticipates g lex root us (.nonterminal name)) (mem : rule ∈ g.rules name) :
    (ofRule name rule us.length).Justified g lex root us :=
  ⟨⟨rule, mem, rfl⟩, us, [], by simp, rfl, h, .nil⟩

theorem justified_scanned {us : List Token} {name : String} {token : Token}
    (h : Anticipates g lex root us (.cls name)) (hold : lex.Holds name token) :
    (scanned name us.length).Justified g lex root (us ++ [token]) :=
  ⟨us, token, rfl, rfl, h, hold⟩

namespace Justified

variable {us vs : List Token} {item parent child : Item}

/-- What stands behind the dot may come next. -/
theorem anticipates_next {symbol : Symbol} (h : item.Justified g lex root us)
    (hnext : item.next? = some symbol) : Anticipates g lex root us symbol := by
  cases item with
  | scanned cls start => simp [next?] at hnext
  | dotted lhs before after start =>
      cases after with
      | nil => simp [next?] at hnext
      | cons s after =>
          obtain rfl : s = symbol := by simpa [next?] using hnext
          obtain ⟨⟨rule, mem, symbols⟩, xs, ys, rfl, -, hlhs, hbefore⟩ := h
          exact .within hlhs mem symbols hbefore

/-- A complete item derives what was read since it starts from its symbol. -/
theorem derives_symbol (h : item.Justified g lex root us) (hcomplete : item.next? = none) :
    ∃ xs ys, us = xs ++ ys ∧ xs.length = item.start ∧ Derives g lex [item.symbol] ys := by
  cases item with
  | scanned cls start =>
      obtain ⟨xs, token, rfl, hstart, -, hold⟩ := h
      exact ⟨xs, [token], rfl, hstart, .cls hold .nil⟩
  | dotted lhs before after start =>
      cases after with
      | cons s after => simp [next?] at hcomplete
      | nil =>
          obtain ⟨⟨rule, mem, symbols⟩, xs, ys, rfl, hstart, -, hbefore⟩ := h
          rw [List.append_nil] at symbols
          exact ⟨xs, ys, rfl, hstart, derives_nonterminal_iff.mpr ⟨rule, mem, symbols ▸ hbefore⟩⟩

/-- A complete child moves the dot of a parent that waits for it where it starts. -/
theorem advance (hparent : parent.Justified g lex root us)
    (hchild : child.Justified g lex root (us ++ vs)) (hcomplete : child.next? = none)
    (hstart : child.start = us.length) (hwait : parent.next? = some child.symbol) :
    parent.advance.Justified g lex root (us ++ vs) := by
  obtain ⟨xs, ys, htokens, hxs, hys⟩ := hchild.derives_symbol hcomplete
  obtain ⟨rfl, rfl⟩ := List.append_inj htokens (hstart ▸ hxs.symm)
  cases parent with
  | scanned cls start => simp [next?] at hwait
  | dotted lhs before after start =>
      cases after with
      | nil => simp [next?] at hwait
      | cons s after =>
          obtain rfl : s = child.symbol := by simpa [next?] using hwait
          obtain ⟨⟨rule, mem, symbols⟩, ps, qs, rfl, hps, hlhs, hbefore⟩ := hparent
          refine ⟨⟨rule, mem, by simpa using symbols⟩, ps, qs ++ vs, ?_, hps, hlhs, ?_⟩
          · rw [List.append_assoc]
          · exact hbefore.append hys

/-- More rules justify more items. -/
theorem mono {larger : Grammar} (hrules : ∀ name, g.rules name ⊆ larger.rules name)
    (h : item.Justified g lex root us) : item.Justified larger lex root us := by
  cases item with
  | dotted lhs before after start =>
      obtain ⟨⟨rule, mem, symbols⟩, xs, ys, rfl, hxs, hlhs, hbefore⟩ := h
      exact ⟨⟨rule, hrules lhs mem, symbols⟩, xs, ys, rfl, hxs, hlhs.mono hrules,
        hbefore.mono hrules⟩
  | scanned cls start =>
      obtain ⟨xs, token, rfl, hxs, hcls, hold⟩ := h
      exact ⟨xs, token, rfl, hxs, hcls.mono hrules, hold⟩

end Justified

end Neologism.Chart.Item
