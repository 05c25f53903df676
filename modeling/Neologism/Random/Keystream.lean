import Neologism.Random.Source

/-! # Keystream source

The values of a ChaCha keystream with twelve rounds: counter blocks from zero on, no nonce,
and a key that a 64-bit seed is spread over.

A block is kept as four rows of four words. A round mixes the columns, all four at once; the
diagonals are mixed as columns of rows that were rotated by 0, 1, 2 and 3. -/

namespace Neologism.Keystream

/-- Four words that are worked on side by side. -/
structure Row where
  x : UInt32
  y : UInt32
  z : UInt32
  w : UInt32
deriving DecidableEq, Repr

namespace Row

/-- Apply an operation to two rows word by word. -/
def zipWith (f : UInt32 → UInt32 → UInt32) (a b : Row) : Row :=
  ⟨f a.x b.x, f a.y b.y, f a.z b.z, f a.w b.w⟩

/-- Move every word one place to the left, the first one to the end. -/
def shift (a : Row) : Row :=
  ⟨a.y, a.z, a.w, a.x⟩

/-- The words in order. -/
def toList (a : Row) : List UInt32 :=
  [a.x, a.y, a.z, a.w]

end Row

/-- A block of sixteen words. -/
structure Block where
  a : Row
  b : Row
  c : Row
  d : Row
deriving DecidableEq, Repr

/-- Turn a word to the left by `n` bits, `0 < n < 32`. -/
def rotateLeft (v n : UInt32) : UInt32 :=
  (v <<< n) ||| (v >>> (32 - n))

/-- Add, combine and turn: the three-word step that a quarter round makes four times. -/
def mixInto (n : UInt32) (sum addend target : Row) : Row × Row :=
  let sum := sum.zipWith (· + ·) addend
  (sum, target.zipWith (fun t s => rotateLeft (t ^^^ s) n) sum)

/-- A quarter round on each column. -/
def mixColumns (s : Block) : Block :=
  let (a, d) := mixInto 16 s.a s.b s.d
  let (c, b) := mixInto 12 s.c d s.b
  let (a, d) := mixInto 8 a b d
  let (c, b) := mixInto 7 c d b
  ⟨a, b, c, d⟩

/-- Two rounds: the columns, then the diagonals. -/
def doubleRound (s : Block) : Block :=
  let s := mixColumns s
  let s := mixColumns ⟨s.a, s.b.shift, s.c.shift.shift, s.d.shift.shift.shift⟩
  ⟨s.a, s.b.shift.shift.shift, s.c.shift.shift, s.d.shift⟩

/-- The words that open every block. -/
def constants : Row :=
  ⟨0x61707865, 0x3320646E, 0x79622D32, 0x6B206574⟩

/-- A key of eight words. -/
structure Key where
  low : Row
  high : Row
deriving DecidableEq, Repr

/-- The keystream words of the block with the given number. -/
def block (key : Key) (number : UInt64) : List UInt32 :=
  let start : Block :=
    ⟨constants, key.low, key.high, ⟨number.toUInt32, (number >>> 32).toUInt32, 0, 0⟩⟩
  let mixed := Nat.repeat doubleRound 6 start
  (mixed.a.zipWith (· + ·) start.a).toList ++ (mixed.b.zipWith (· + ·) start.b).toList ++
    (mixed.c.zipWith (· + ·) start.c).toList ++ (mixed.d.zipWith (· + ·) start.d).toList

/-- One step of the generator that spreads a seed: its next state and the word it puts out,
a mix of the state turned to the right by its upper five bits. -/
def spread (state : UInt64) : UInt32 × UInt64 :=
  let state := state * 6364136223846793005 + 11634580027462260723
  let mixed := (((state >>> 18) ^^^ state) >>> 27).toUInt32
  let turn := (state >>> 59).toUInt32
  ((mixed >>> turn) ||| (mixed <<< ((32 - turn) % 32)), state)

/-- Four words from the spreading generator. -/
def spreadRow (state : UInt64) : Row × UInt64 :=
  let (x, state) := spread state
  let (y, state) := spread state
  let (z, state) := spread state
  let (w, state) := spread state
  (⟨x, y, z, w⟩, state)

/-- The key of a seed. -/
def Key.ofSeed (seed : UInt64) : Key :=
  let (low, state) := spreadRow seed
  let (high, _) := spreadRow state
  ⟨low, high⟩

/-- Value `n` of the keystream: two of its words, the low half first. -/
def value (key : Key) (n : Nat) : UInt64 :=
  let words := block key (n / 8).toUInt64
  let low := words.getD (2 * (n % 8)) 0
  let high := words.getD (2 * (n % 8) + 1) 0
  high.toUInt64 <<< 32 ||| low.toUInt64

/-- The keystream of a seed as a source. -/
def source (seed : UInt64) : Source :=
  let key := Key.ofSeed seed
  ⟨value key, 0⟩

end Neologism.Keystream
