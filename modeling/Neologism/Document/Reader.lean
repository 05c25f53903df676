import Neologism.Document.Writer

/-! # Reading documents

A document is one node, with blanks and comments allowed between lexemes, behind attributes
that switch extensions on. Of the extensions only `implicit_some` matters for reading: with it
an optional value may stand without `Some`, or behind a `Some` without parentheses.

Where an optional value is asked for, `Some` counts as a word of its own also when letters
follow it at once. That is the case for some fields of the outermost record, so the readers are
told their names; elsewhere such letters make one identifier.

Lists, tuples, records and maps allow a comma behind their last part. The readers of nodes take
fuel; four times the length of the text is enough, since of four nested calls at least one
takes a character. -/

namespace Neologism.Document

/-- The node that a plain identifier stands for by itself, if it is a reserved one. -/
def reserved? : String → Option Node
  | "true" => some (.truth true)
  | "false" => some (.truth false)
  | "None" => some .absent
  | "inf" => some (.number "inf")
  | "NaN" => some (.number "NaN")
  | _ => none

/-- Whether a field stands first: an identifier and a colon. -/
def startsField (cs : List Char) : Bool :=
  match name? cs with
  | none => false
  | some (_, cs) =>
      match skip cs with
      | some (':' :: _) => true
      | _ => false

/-- Read a comma, if one stands first, and the blanks before and behind it. -/
def optionalComma (cs : List Char) : Option (List Char) :=
  (skip cs).bind fun
    | ',' :: cs => skip cs
    | cs => some cs

/-- What stands behind a `Some` at the front, if there is one. -/
def behindSome? : List Char → Option (List Char)
  | 'S' :: 'o' :: 'm' :: 'e' :: cs => some cs
  | _ => none

/-- What stands behind a `Some` at the front that no letter, digit or underscore follows. -/
def behindSomeWord? (cs : List Char) : Option (List Char) :=
  (behindSome? cs).filter fun rest => !(rest.head?.map isNameChar).getD false

mutual

/-- Read a node. No blanks stand first. `optionals` are the fields with optional values in case
that the node is a record. -/
def node? (implicitSome : Bool) :
    (fuel : Nat) → (optionals : List String) → List Char → Option (Node × List Char)
  | 0, _, _ => none
  | _ + 1, _, [] => none
  | fuel + 1, optionals, c :: cs =>
      if c = '[' then do
        let (vs, cs) ← values? implicitSome fuel ']' (← skip cs)
        return (.list vs, cs)
      else if c = '\x7b' then do
        let (es, cs) ← entries? implicitSome fuel (← skip cs)
        return (.map es, cs)
      else if c = '(' then
        if cs.head? = some ')' then some (.unit, cs.tail)
        else do body? implicitSome fuel optionals none (← skip cs)
      else if c = '\'' then (char? (c :: cs)).map fun (d, cs) => (.char d, cs)
      else if isNumberStart c then (number? (c :: cs)).map fun (s, cs) => (.number s, cs)
      else
        match text? (c :: cs), behindSomeWord? (c :: cs) with
        | some (s, cs), _ => some (.text s, cs)
        | none, some cs => do present? implicitSome fuel (← skip cs)
        | none, none => do
            let (name, cs) ← name? (c :: cs)
            named? implicitSome fuel optionals name (← skip cs)

/-- Read the value that follows `Some`, in parentheses or bare. -/
def present? (implicitSome : Bool) : (fuel : Nat) → List Char → Option (Node × List Char)
  | 0, _ => none
  | fuel + 1, '(' :: cs => do
      let (v, cs) ← node? implicitSome fuel [] (← skip cs)
      match ← optionalComma cs with
      | ')' :: cs => return (.present v, cs)
      | _ => none
  | fuel + 1, cs =>
      if implicitSome then
        (node? implicitSome fuel [] cs).map fun (v, cs) => (.present v, cs)
      else none

/-- Read an optional value. -/
def optional? (implicitSome : Bool) : (fuel : Nat) → List Char → Option (Node × List Char)
  | 0, _ => none
  | fuel + 1, cs =>
      match behindSome? cs with
      | some cs => do present? implicitSome fuel (← skip cs)
      | none => node? implicitSome fuel [] cs

/-- Read what follows an identifier: nothing, or the body of a tuple or a record. -/
def named? (implicitSome : Bool) :
    (fuel : Nat) → (optionals : List String) → Name → List Char → Option (Node × List Char)
  | 0, _, _, _ => none
  | fuel + 1, optionals, name, cs =>
      match if name.raw then none else reserved? name.text with
      | some v => some (v, cs)
      | none =>
          match cs with
          | '(' :: cs => do body? implicitSome fuel optionals (some name.text) (← skip cs)
          | cs => some (.word name.text, cs)

/-- Read the parts of a tuple or of a record, up to the closing parenthesis. -/
def body? (implicitSome : Bool) :
    (fuel : Nat) → (optionals : List String) → Option String → List Char →
      Option (Node × List Char)
  | 0, _, _, _ => none
  | fuel + 1, optionals, name, cs =>
      if startsField cs then
        (fields? implicitSome fuel optionals cs).map fun (fs, cs) => (.record name fs, cs)
      else (values? implicitSome fuel ')' cs).map fun (vs, cs) => (.tuple name vs, cs)

/-- Read nodes with commas between them, up to a closing character. -/
def values? (implicitSome : Bool) :
    (fuel : Nat) → Char → List Char → Option (List Node × List Char)
  | 0, _, _ => none
  | fuel + 1, close, cs =>
      if cs.head? = some close then some ([], cs.tail)
      else do
        let (v, cs) ← node? implicitSome fuel [] cs
        match ← skip cs with
        | ',' :: cs => do
            let (vs, cs) ← values? implicitSome fuel close (← skip cs)
            return (v :: vs, cs)
        | d :: cs => if d = close then some ([v], cs) else none
        | [] => none

/-- Read the entries of a map, up to the closing brace. -/
def entries? (implicitSome : Bool) :
    (fuel : Nat) → List Char → Option (List (Node × Node) × List Char)
  | 0, _ => none
  | fuel + 1, cs =>
      if cs.head? = some '\x7d' then some ([], cs.tail)
      else do
        let (k, cs) ← node? implicitSome fuel [] cs
        let (v, cs) ← node? implicitSome fuel [] (← expect ':' (← skip cs))
        match ← skip cs with
        | ',' :: cs => do
            let (es, cs) ← entries? implicitSome fuel (← skip cs)
            return ((k, v) :: es, cs)
        | '\x7d' :: cs => some ([(k, v)], cs)
        | _ => none

/-- Read the fields of a record, up to the closing parenthesis. -/
def fields? (implicitSome : Bool) :
    (fuel : Nat) → (optionals : List String) → List Char →
      Option (List (String × Node) × List Char)
  | 0, _, _ => none
  | fuel + 1, optionals, cs =>
      if cs.head? = some ')' then some ([], cs.tail)
      else do
        let (name, cs) ← name? cs
        let cs ← expect ':' (← skip cs)
        let (v, cs) ←
          if optionals.contains name.text then optional? implicitSome fuel cs
          else node? implicitSome fuel [] cs
        match ← skip cs with
        | ',' :: cs => do
            let (fs, cs) ← fields? implicitSome fuel optionals (← skip cs)
            return ((name.text, v) :: fs, cs)
        | ')' :: cs => some ([(name.text, v)], cs)
        | _ => none

end

/-- Whether an extension lets optional values stand bare; `none` if there is no such extension. -/
def extension? : String → Option Bool
  | "implicit_some" => some true
  | "unwrap_newtypes" => some false
  | "unwrap_variant_newtypes" => some false
  | _ => none

/-- Read the names of extensions with commas between them. The comma behind the last one may be
there or not. -/
def extensions? : (fuel : Nat) → List Char → Option (Bool × List Char)
  | 0, _ => none
  | fuel + 1, cs => do
      let (name, cs) ← name? cs
      let on ← extension? name.text
      match ← skip cs with
      | ',' :: cs => do
          let cs ← skip cs
          if (cs.head?.map isNameChar).getD false then
            let (more, cs) ← extensions? fuel cs
            return (on || more, cs)
          else return (on, cs)
      | cs => return (on, cs)

/-- Read given characters one after the other, and the blanks behind each. -/
def expectAll (lexemes : List String) (cs : List Char) : Option (List Char) :=
  lexemes.foldl
    (fun left lexeme => left.bind fun cs =>
      if lexeme.toList.isPrefixOf cs then skip (cs.drop lexeme.length) else none)
    (some cs)

/-- Read the attributes that stand first, `fuel` of them at most. -/
def attributes? : (fuel : Nat) → List Char → Option (Bool × List Char)
  | 0, _ => none
  | fuel + 1, cs =>
      if cs.head? = some '#' then do
        let (on, cs) ← extensions? (cs.length + 1) (← expectAll ["#", "!", "[", "enable", "("] cs)
        let cs ← expectAll [")", "]"] cs
        let (more, cs) ← attributes? fuel cs
        return (on || more, cs)
      else some (false, cs)

/-- Read a document. Nothing but blanks may follow its node. `optionals` are the fields with
optional values in case that the node is a record. -/
def read? (optionals : List String) (text : String) : Option Contents := do
  let cs ← skip text.toList
  let (implicitSome, cs) ← attributes? (cs.length + 1) cs
  let (root, cs) ← node? implicitSome (4 * cs.length + 4) optionals cs
  if (← skip cs).isEmpty then return ⟨implicitSome, root⟩ else none

end Neologism.Document
