import Lox.Number.Binary64

/-!
The shortest decimal that reads back as a given number.

The decimals of a given last place form a grid, and of all points of that grid the two neighbours
of the number are the only ones that can be closest to it. Grids are tried from coarse to fine, and
the first one with a neighbour inside the interval of values that round to the number gives the
digits.
-/

namespace Lox.Number

/-- Where a number goes that lies midway between two shortest decimals. -/
inductive Tie
  | up
  | even
  deriving DecidableEq, Repr

/-- The values that round to a number, in quarters of a unit. The ends belong to it if `closed`. -/
structure Interval where
  low : Nat
  middle : Nat
  high : Nat
  closed : Bool
  deriving DecidableEq, Repr

/-- The interval reaches half way to the next number on each side. Below a power of two the
spacing is halved, so there the lower half is a quarter. -/
def Magnitude.interval (x : Magnitude) : Interval :=
  let middle := 4 * x.units
  let gap := Nat.pow 2 x.shift
  { low := middle - if x.significand = blockSize ∧ x.shift ≠ 0 then gap else 2 * gap
    middle
    high := middle + 2 * gap
    closed := x.significand % 2 = 0 }

/-- Decimal places are counted from this one after the point, which is far enough to the right for
seventeen digits of the least positive number. -/
def lastPlace : Nat := 343

/-- The value one in quarters of a unit and as a multiple of the last place. -/
def quartersPerOne : Nat := 4 * unitsPerOne

/-- A grid point is compared with the ends of the interval after both are multiplied by
`10 ^ lastPlace`. -/
def Interval.contains (i : Interval) (point : Nat) : Bool :=
  let low := i.low * Nat.pow 10 lastPlace
  let high := i.high * Nat.pow 10 lastPlace
  if i.closed then low ≤ point && point ≤ high else low < point && point < high

/-- The point of the grid `10 ^ place` that stands for the number, if there is one: a neighbour of
the middle inside the interval, the nearer one if both are, and by `tie` if neither is nearer. -/
def Interval.onGrid? (tie : Tie) (i : Interval) (place : Nat) : Option Nat :=
  let step := Nat.pow 10 place * quartersPerOne
  let middle := i.middle * Nat.pow 10 lastPlace
  let below := middle / step
  let above := below + 1
  let takesBelow :=
    2 * middle < (below + above) * step ||
      (2 * middle = (below + above) * step && tie = .even && below % 2 = 0)
  if i.contains (below * step) then
    if i.contains (above * step) && !takesBelow then some above else some below
  else if i.contains (above * step) then some above
  else none

/-- The coarsest grid from `place` down that has a point for the number, with that point. -/
def Interval.coarsest (tie : Tie) (i : Interval) : Nat → Nat × Nat
  | 0 => ((i.onGrid? tie 0).getD (i.middle * Nat.pow 10 lastPlace / quartersPerOne), 0)
  | place + 1 =>
      match i.onGrid? tie (place + 1) with
      | some point => (point, place + 1)
      | none => i.coarsest tie place

/-- A positive decimal `d₁.d₂…dₙ · 10 ^ exponent` with no zero at its end; zero has no digits. -/
structure Decimal where
  digits : List Char
  exponent : Int
  deriving DecidableEq, Repr

/-- The decimal of a point of the grid `10 ^ place`. -/
def Decimal.ofPoint (point place : Nat) : Decimal :=
  let digits := Nat.toDigits 10 point
  { digits := (digits.reverse.dropWhile (· == '0')).reverse
    exponent := (place + digits.length : Int) - 1 - lastPlace }

/-- The shortest decimal that rounds to `x`, and the nearest to it of those. -/
def Magnitude.shortest (tie : Tie) (x : Magnitude) : Decimal :=
  let i := x.interval
  let leading := (Nat.toDigits 10 (i.middle * Nat.pow 10 lastPlace / quartersPerOne)).length - 1
  let found := i.coarsest tie leading
  .ofPoint found.1 found.2

end Lox.Number
