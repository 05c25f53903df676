import Neologism.Proofs.Session.Generation

/-! # The words of a session are distinct

A session is used by calls in any order. What it has emitted is read off the answers alone: the
texts of the words that were handed out, each of them once. A call that hands out no word, and a
sketch in any case, leaves what was emitted as it is.

Main statement: `emitted_eq_returned`, with `records_answer` for one call and `records_answerAll`
for a history of calls. -/

namespace Neologism

/-- A way to use a session. -/
inductive Call where
  | generate (minimum maximum : UInt64)
  | batch (count minimum maximum : UInt64)
  | configured (count : UInt64)
  | sketch
deriving DecidableEq, Repr

/-- What a session answers to a call. -/
inductive Answer where
  | one (result : Except BoundsError (Option Word))
  | many (result : Except BatchError (List Word))
  | sketched (result : Except Fault (Option Word))

/-- The texts of the words that an answer hands out as new. There are none in a complaint, and a
sketch is not handed out as new. -/
def Answer.texts : Answer → List String
  | .one (.ok (some word)) => [word.text]
  | .many (.ok words) => words.map Word.text
  | _ => []

namespace Session

variable {s r q : Session} {minimum maximum : UInt64}

/-- The answer to a call, and the session after it. -/
def answer (s : Session) : Call → Answer × Session
  | .generate minimum maximum => (s.generate minimum maximum).map .one id
  | .batch count minimum maximum => (s.batch count minimum maximum).map .many id
  | .configured count => (s.generateConfigured count).map .many id
  | .sketch => s.sketch.map .sketched id

/-- The answers to calls in order, and the session after them. -/
def answerAll (s : Session) : List Call → List Answer × Session
  | [] => ([], s)
  | call :: rest =>
      let (answer, s) := s.answer call
      let (answers, s) := s.answerAll rest
      (answer :: answers, s)

/-- From one session to the other the texts were emitted in order, each of them for the first
time. -/
structure Records (texts : List String) (s r : Session) : Prop where
  emitted : r.emitted = texts.reverse ++ s.emitted
  nodup : s.emitted.Nodup → r.emitted.Nodup

namespace Records

variable {ts us : List String} {text : String}

theorem nil (h : r.emitted = s.emitted) : Records [] s r :=
  ⟨h, fun hnodup => h ▸ hnodup⟩

theorem single (h : r.emitted = text :: s.emitted) (hnew : text ∉ s.emitted) :
    Records [text] s r where
  emitted := h
  nodup hnodup := by
    rw [h]
    exact List.nodup_cons.mpr ⟨hnew, hnodup⟩

protected theorem trans (h : Records ts s r) (h' : Records us r q) : Records (ts ++ us) s q where
  emitted := by rw [h'.emitted, h.emitted, List.reverse_append, List.append_assoc]
  nodup := h'.nodup ∘ h.nodup

end Records

/-- A call of `generate` emits the text of its word, if it has one. -/
theorem records_generate (s : Session) (minimum maximum : UInt64) :
    Records (Answer.one (s.generate minimum maximum).1).texts s
      (s.generate minimum maximum).2 := by
  have houtcome := s.generate_outcome minimum maximum
  generalize s.generate minimum maximum = result at houtcome
  cases houtcome with
  | crossed => exact .nil rfl
  | found _ available emitted => exact .single emitted available.new
  | exhausted _ _ emitted => exact .nil emitted

/-- Words that are handed out are recorded. -/
theorem HandsOut.records {count : Nat} {words : List Word}
    (h : HandsOut minimum maximum count s words r) : Records (words.map Word.text) s r := by
  induction h with
  | enough => exact .nil rfl
  | exhausted _ emitted => exact .nil emitted
  | found available emitted _ ih => exact (Records.single emitted available.new).trans ih

/-- Where the bounds cross, a batch hands out nothing and leaves the session alone. -/
theorem generateUpTo_of_crossed (h : Crossed minimum maximum) (count : Nat) (s : Session) :
    (Answer.many ((generateUpTo minimum maximum count s).1.mapError .bounds)).texts = [] ∧
      (generateUpTo minimum maximum count s).2 = s := by
  have hcrossed : s.generate minimum maximum =
      (.error (.minimumExceedsMaximum minimum maximum), s) := if_pos h
  cases count with
  | zero => exact ⟨rfl, rfl⟩
  | succ count =>
      rw [generateUpTo, hcrossed]
      exact ⟨rfl, rfl⟩

/-- A batch emits the texts of its words. -/
theorem records_batch (s : Session) (count minimum maximum : UInt64) :
    Records (Answer.many (s.batch count minimum maximum).1).texts s
      (s.batch count minimum maximum).2 := by
  simp only [batch]
  split
  · exact .nil rfl
  · by_cases h : Crossed minimum maximum
    · obtain ⟨htexts, hsession⟩ := generateUpTo_of_crossed h count.toNat s
      rw [htexts, hsession]
      exact .nil rfl
    · obtain ⟨words, after, hwords, hhanded⟩ := handsOut_generateUpTo h count.toNat s
      rw [hwords]
      exact hhanded.records

/-- A sketch emits nothing. -/
theorem emitted_sketch (s : Session) : s.sketch.2.emitted = s.emitted := by
  simp only [sketch]
  split <;> rfl

/-- A call emits the texts that its answer hands out. -/
theorem records_answer (s : Session) (call : Call) :
    Records (s.answer call).1.texts s (s.answer call).2 := by
  cases call with
  | generate minimum maximum => exact s.records_generate minimum maximum
  | batch count minimum maximum => exact s.records_batch count minimum maximum
  | configured count => exact s.records_batch count s.config.minLength s.config.maxLength
  | sketch => exact .nil s.emitted_sketch

theorem records_answerAll (s : Session) (calls : List Call) :
    Records ((s.answerAll calls).1.flatMap Answer.texts) s (s.answerAll calls).2 := by
  induction calls generalizing s with
  | nil => exact .nil rfl
  | cons call rest ih => exact (s.records_answer call).trans (ih _)

/-- After any history of calls the texts that were handed out are distinct, and they are what the
session has emitted. One call more adds the texts of the words that it hands out; if it answers
that there is none, complains, or sketches, it leaves what was emitted as it is. -/
theorem emitted_eq_returned (model : Model) (config : Config) (source : Source)
    (calls : List Call) :
    let texts := ((ofModel model config source).answerAll calls).1.flatMap Answer.texts
    let after := ((ofModel model config source).answerAll calls).2
    texts.Nodup ∧ (∀ text, after.hasEmitted text = true ↔ text ∈ texts) ∧
      ∀ call, match after.answer call with
        | (.one (.ok (some word)), last) => last.emitted = word.text :: after.emitted
        | (.many (.ok words), last) =>
            last.emitted = (words.map Word.text).reverse ++ after.emitted
        | (_, last) => last.emitted = after.emitted := by
  intro texts after
  obtain ⟨hemitted, hnodup⟩ := (ofModel model config source).records_answerAll calls
  have hreverse : after.emitted = texts.reverse := hemitted.trans (List.append_nil _)
  refine ⟨?_, ?_, ?_⟩
  · rw [← List.nodup_reverse, ← hreverse]
    exact hnodup List.nodup_nil
  · intro text
    rw [hasEmitted, hreverse, List.contains_iff_mem, List.mem_reverse]
  · intro call
    have hcall := (after.records_answer call).emitted
    generalize after.answer call = result at hcall
    obtain ⟨answer, last⟩ := result
    cases answer with
    | one result => rcases result with _ | _ | word <;> exact hcall
    | many result => cases result <;> exact hcall
    | sketched => exact hcall

end Session

end Neologism
