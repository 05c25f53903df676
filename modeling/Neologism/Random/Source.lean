/-! # Sources of random words

A source is an infinite sequence of 64-bit values and the number of values that were taken
from it. Everything random in this library is a function of a source, so a source replays. -/

namespace Neologism

/-- A sequence of 64-bit values and a place in it. -/
structure Source where
  /-- The values by their index. -/
  value : Nat → UInt64
  /-- How many values were taken. -/
  drawn : Nat := 0

namespace Source

instance : Inhabited Source := ⟨⟨fun _ => 0, 0⟩⟩

/-- Take the next value. -/
def next (s : Source) : UInt64 × Source :=
  (s.value s.drawn, { s with drawn := s.drawn + 1 })

/-- A value as a double in [0, 1): its upper 53 bits as a fraction of 2^53. -/
def unitOf (v : UInt64) : Float :=
  (v >>> 11).toFloat * Float.ofBits 0x3CA0000000000000

/-- Take the next value as a double in [0, 1). -/
def unit (s : Source) : Float × Source :=
  let (v, s) := s.next
  (unitOf v, s)

/-- The given values, over and over; zeros if there are none. -/
def cyclic (values : Array UInt64) : Source :=
  ⟨fun n => (values[n % values.size]?).getD 0, 0⟩

/-- The values that lie `increment` apart from `start` on, modulo 2^64. -/
def arithmetic (start increment : UInt64) : Source :=
  ⟨fun n => start + increment * n.toUInt64, 0⟩

end Source

end Neologism
