/-!
# Noise

Bytes that look random and are the same on every run: a 64-bit linear
congruential sequence, of which each step shows the eight bits above bit 32.
-/

namespace CodeSpans.Noise

/-- One step of the sequence; the arithmetic is modulo `2 ^ 64`. -/
def next (state : UInt64) : UInt64 :=
  state * 6364136223846793005 + 1442695040888963407

/-- `count` bytes of the sequence that starts after `seed`. -/
def bytes (seed : UInt64) : (count : Nat) → List UInt8
  | 0 => []
  | count + 1 => (next seed >>> 33).toUInt8 :: bytes (next seed) count

end CodeSpans.Noise
