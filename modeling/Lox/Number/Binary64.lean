/-!
Numbers as exact multiples of the least positive one.

A finite number is `significand * 2 ^ shift` units of `2 ^ -1074`, so both parts are natural
numbers and every comparison below is exact. `decode` reads the 64 bits of a number this way, and
`nearest` goes back: it rounds a quotient of two natural numbers to the closest pattern of bits.
-/

namespace Lox.Number

/-- The least positive number is `2 ^ -1074`; it is the unit in which magnitudes are counted. -/
def unitsPerOne : Nat := Nat.pow 2 1074

/-- The patterns of numbers that are equally spaced come in blocks of this many. -/
def blockSize : Nat := Nat.pow 2 52

/-- The pattern of positive infinity. The patterns below it are the finite numbers without a sign,
in increasing order. -/
def infinityPattern : Nat := 2047 * blockSize

/-- A finite number without its sign: `significand * 2 ^ shift` units. -/
structure Magnitude where
  significand : Nat
  shift : Nat
  deriving DecidableEq, Repr

namespace Magnitude

def units (x : Magnitude) : Nat := x.significand * Nat.pow 2 x.shift

/-- The magnitude of a finite pattern. In the first block the pattern is itself the significand;
after the second one, each block doubles the spacing of the one before it. -/
def ofPattern (pattern : Nat) : Magnitude :=
  if pattern < blockSize then ⟨pattern, 0⟩
  else ⟨blockSize + pattern % blockSize, pattern / blockSize - 1⟩

/-- The number has no fraction. -/
def isIntegral (x : Magnitude) : Bool := x.units % unitsPerOne = 0

/-- The part before the decimal point. -/
def integerPart (x : Magnitude) : Nat := x.units / unitsPerOne

end Magnitude

/-- What the bits of a number stand for. -/
inductive Datum
  | nan
  | infinite (negative : Bool)
  | finite (negative : Bool) (magnitude : Magnitude)
  deriving DecidableEq, Repr

/-- The sign is the highest bit; of the rest, the patterns above infinity's are no numbers. -/
def decode (x : Float) : Datum :=
  let bits := x.toBits.toNat
  let negative : Bool := Nat.pow 2 63 ≤ bits
  let pattern := bits % Nat.pow 2 63
  if pattern < infinityPattern then .finite negative (.ofPattern pattern)
  else if pattern = infinityPattern then .infinite negative
  else .nan

/-- The quotient rounded to a whole number; a half goes to the even neighbour. -/
def divNearest (numerator denominator : Nat) : Nat :=
  let quotient := numerator / denominator
  let twice := 2 * (numerator % denominator)
  if twice < denominator ∨ twice = denominator ∧ quotient % 2 = 0 then quotient
  else quotient + 1

/-- The pattern of the number nearest to `numerator / denominator`.

The shift is the one that leaves a significand of 53 bits, or zero where the quotient is too small
for that. Because a pattern counts a block for each shift, a significand that rounds up to
`2 ^ 53` is carried into the next block by the addition itself. -/
def nearest (numerator denominator : Nat) : Nat :=
  let units := numerator * unitsPerOne
  let shift := (units / denominator).log2 - 52
  min infinityPattern (shift * blockSize + divNearest units (denominator * Nat.pow 2 shift))

/-- The number nearest to `numerator / denominator`. -/
def ofQuotient (numerator denominator : Nat) : Float :=
  Float.ofBits (nearest numerator denominator).toUInt64

end Lox.Number
