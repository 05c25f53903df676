import Neologism.Decimal.Text

/-! # Lexemes of documents

Blanks and comments, identifiers, quoted text, and the digits of numbers. Every reader takes
the characters that are left and answers what it read with the characters behind it. -/

namespace Neologism.Document

/-- What is being skipped. -/
inductive Skipping where
  /-- Blanks between lexemes. -/
  | blanks
  /-- A comment up to the end of its line. -/
  | line
  /-- A block comment inside of so many others. -/
  | block (depth : Nat)

/-- Space, tab, line feed and carriage return. -/
def isBlank (c : Char) : Bool :=
  c == ' ' || c == '\t' || c == '\n' || c == '\r'

/-- Skip blanks and comments. Block comments nest and must be closed; another character than
a slash or a star behind a slash is an error. -/
def skipFrom : Skipping → List Char → Option (List Char)
  | .blanks, '/' :: '/' :: cs => skipFrom .line cs
  | .blanks, '/' :: '*' :: cs => skipFrom (.block 0) cs
  | .blanks, '/' :: _ => none
  | .blanks, c :: cs => if isBlank c then skipFrom .blanks cs else some (c :: cs)
  | .blanks, [] => some []
  | .line, c :: cs => skipFrom (if c = '\n' then .blanks else .line) cs
  | .line, [] => some []
  | .block depth, '/' :: '*' :: cs => skipFrom (.block (depth + 1)) cs
  | .block 0, '*' :: '/' :: cs => skipFrom .blanks cs
  | .block (depth + 1), '*' :: '/' :: cs => skipFrom (.block depth) cs
  | .block depth, _ :: cs => skipFrom (.block depth) cs
  | .block _, [] => none

/-- Skip the blanks and comments that stand first. -/
def skip (cs : List Char) : Option (List Char) :=
  skipFrom .blanks cs

/-- Read one given character and the blanks behind it. -/
def expect (c : Char) : List Char → Option (List Char)
  | d :: cs => if d = c then skip cs else none
  | [] => none

/-- Letters and the underscore. -/
def isNameStart (c : Char) : Bool :=
  c.isAlpha || c == '_'

/-- Letters, digits and the underscore. -/
def isNameChar (c : Char) : Bool :=
  c.isAlphanum || c == '_'

/-- The characters of raw identifiers and of numbers. -/
def isRawNameChar (c : Char) : Bool :=
  isNameChar c || c == '.' || c == '+' || c == '-'

/-- An identifier, and whether it was written raw, with `r#` before it. -/
structure Name where
  text : String
  raw : Bool
deriving DecidableEq, Repr

/-- Read an identifier. A plain one must not run on into a point or a sign. -/
def name? : List Char → Option (Name × List Char)
  | 'r' :: '#' :: cs =>
      let name := cs.takeWhile isRawNameChar
      if name.isEmpty then none
      else some (⟨String.ofList name, true⟩, cs.dropWhile isRawNameChar)
  | 'r' :: '"' :: _ => none
  | c :: cs =>
      if isNameStart c then
        let name := c :: cs.takeWhile isNameChar
        let rest := cs.dropWhile isNameChar
        if (rest.head?.map isRawNameChar).getD false then none
        else some (⟨String.ofList name, false⟩, rest)
      else none
  | [] => none

/-- The value of a hexadecimal digit. -/
def hexDigit? (c : Char) : Option Nat :=
  if '0' ≤ c ∧ c ≤ '9' then some (c.toNat - '0'.toNat)
  else if 'a' ≤ c ∧ c ≤ 'f' then some (c.toNat - 'a'.toNat + 10)
  else if 'A' ≤ c ∧ c ≤ 'F' then some (c.toNat - 'A'.toNat + 10)
  else none

/-- The value of a list of hexadecimal digits. -/
def hexValue? (cs : List Char) : Option Nat :=
  cs.foldl (fun value c => value.bind fun n => (hexDigit? c).map (16 * n + ·)) (some 0)

/-- What the characters behind a backslash come to so far. -/
inductive Escape where
  /-- More characters are needed. -/
  | open
  | char (c : Char)
  | malformed
deriving DecidableEq

/-- The character with a code point, if it is one. -/
def Escape.ofCode : Option Nat → Escape
  | none => .malformed
  | some n => if n.isValidChar then .char (Char.ofNat n) else .malformed

/-- Read the characters behind a backslash: a letter or a mark for itself, `x` and two
hexadecimal digits, or `u` and one to six of them in braces. -/
def Escape.of : List Char → Escape
  | [] => .open
  | ['"'] => .char '"'
  | ['\''] => .char '\''
  | ['\\'] => .char '\\'
  | ['n'] => .char '\n'
  | ['r'] => .char '\r'
  | ['t'] => .char '\t'
  | ['0'] => .char '\x00'
  | ['x'] => .open
  | ['x', _] => .open
  | ['x', a, b] => .ofCode (hexValue? [a, b])
  | ['u'] => .open
  | 'u' :: '\x7b' :: cs =>
      match cs.getLast? with
      | some '\x7d' =>
          let digits := cs.dropLast
          if digits.isEmpty then .malformed else .ofCode (hexValue? digits)
      | _ => if cs.length ≤ 6 then .open else .malformed
  | _ => .malformed

/-- Read text up to the closing quote. `escape` holds the characters behind a backslash that
has not come to anything yet. -/
def quoted (quote : Char) (escape : Option (List Char)) :
    List Char → Option (List Char × List Char)
  | [] => none
  | c :: cs =>
      match escape with
      | some started =>
          match Escape.of (started ++ [c]) with
          | .open => quoted quote (some (started ++ [c])) cs
          | .char d => (quoted quote none cs).map fun (ds, rest) => (d :: ds, rest)
          | .malformed => none
      | none =>
          if c = quote then some ([], cs)
          else if c = '\\' then quoted quote (some []) cs
          else (quoted quote none cs).map fun (ds, rest) => (c :: ds, rest)

/-- Read text up to a quote with the given number of hash marks behind it. -/
def rawText (hashes : Nat) : List Char → Option (List Char × List Char)
  | [] => none
  | c :: cs =>
      if c = '"' ∧ (cs.take hashes) = List.replicate hashes '#' then some ([], cs.drop hashes)
      else (rawText hashes cs).map fun (ds, rest) => (c :: ds, rest)

/-- Read text: quoted, or raw behind `r` and any number of hash marks. -/
def text? : List Char → Option (String × List Char)
  | '"' :: cs => (quoted '"' none cs).map fun (ds, rest) => (String.ofList ds, rest)
  | 'r' :: cs =>
      let hashes := (cs.takeWhile (· == '#')).length
      match cs.drop hashes with
      | '"' :: cs => (rawText hashes cs).map fun (ds, rest) => (String.ofList ds, rest)
      | _ => none
  | _ => none

/-- Read one quoted character. -/
def char? : List Char → Option (Char × List Char)
  | '\'' :: cs =>
      match quoted '\'' none cs with
      | some ([c], rest) => some (c, rest)
      | _ => none
  | _ => none

/-- Whether a character starts a number. -/
def isNumberStart (c : Char) : Bool :=
  c.isDigit || c == '+' || c == '-' || c == '.'

/-- Read the characters of a number. -/
def number? (cs : List Char) : Option (String × List Char) :=
  let lexeme := cs.takeWhile isRawNameChar
  if lexeme.isEmpty then none else some (String.ofList lexeme, cs.dropWhile isRawNameChar)

/-- The value of digits of a base with underscores among them. -/
def digits? (base : Nat) (cs : List Char) : Option Nat :=
  (cs.filter (· != '_')).foldl
    (fun value c => value.bind fun n =>
      (hexDigit? c).bind fun d => if d < base then some (base * n + d) else none)
    (some 0)

/-- A natural number: decimal, or hexadecimal, binary or octal behind `0x`, `0b` or `0o`. There
is a digit, and no underscore comes first. -/
def natural? (lexeme : List Char) : Option Nat :=
  let (base, cs) :=
    match lexeme with
    | '0' :: 'x' :: cs => (16, cs)
    | '0' :: 'b' :: cs => (2, cs)
    | '0' :: 'o' :: cs => (8, cs)
    | cs => (10, cs)
  match cs with
  | [] => none
  | '_' :: _ => none
  | cs => digits? base cs

/-- A natural number of at most 64 bits. -/
def unsigned? (lexeme : String) : Option UInt64 :=
  (natural? lexeme.toList).bind fun n => if n < UInt64.size then some n.toUInt64 else none

/-- A weight: digits with an optional sign, point and exponent, or infinity or no number at
all by name. -/
def weight? (lexeme : String) : Option Float :=
  if lexeme = "inf" ∨ lexeme = "+inf" then some Decimal.infinity
  else if lexeme = "-inf" then some (-Decimal.infinity)
  else if lexeme = "NaN" ∨ lexeme = "+NaN" ∨ lexeme = "-NaN" then
    some (Decimal.infinity - Decimal.infinity)
  else Decimal.read? lexeme.toList

/-- Whether a lexeme is a number of any kind: a natural one of 64 bits, one with a sign that
fits into 64 bits, or a weight. -/
def isNumber (lexeme : String) : Bool :=
  let whole :=
    match lexeme.toList with
    | '-' :: cs => (natural? cs).any (· ≤ 0x8000000000000000)
    | '+' :: cs => (natural? cs).any (· < 0x8000000000000000)
    | cs => (natural? cs).any (· < UInt64.size)
  whole || (weight? lexeme).isSome

end Neologism.Document
