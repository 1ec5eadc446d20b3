import Lox.Number.Shortest

namespace Lox.Number

/-- The decimal without an exponent: zeros fill the places up to the point on either side. -/
def Decimal.positional (d : Decimal) : List Char :=
  if d.exponent < 0 then
    '0' :: '.' :: List.replicate (-d.exponent - 1).toNat '0' ++ d.digits
  else
    let places := d.exponent.toNat + 1
    if d.digits.length ≤ places then
      d.digits ++ List.replicate (places - d.digits.length) '0'
    else d.digits.take places ++ '.' :: d.digits.drop places

/-- The decimal with one digit before the point and a signed exponent. -/
def Decimal.scientific (d : Decimal) : List Char :=
  let fraction := if d.digits.length ≤ 1 then [] else '.' :: d.digits.drop 1
  let sign := if d.exponent < 0 then '-' else '+'
  d.digits.take 1 ++ fraction ++ 'e' :: sign :: Nat.toDigits 10 d.exponent.natAbs

/-- A way to write the shortest decimal: how ties go, which exponents of the leading digit are
written out in places, and whether a whole number keeps a fraction of zero. -/
structure Layout where
  tie : Tie
  writesOut : Int → Bool
  keepsFraction : Bool

/-- Programs print every digit, and no fraction that says nothing. -/
def Layout.printed : Layout := ⟨.up, fun _ => true, false⟩

/-- JSON marks each number as one with a fraction and leaves very large and very small ones to the
exponent. -/
def Layout.json : Layout := ⟨.even, fun exponent => -5 ≤ exponent && exponent ≤ 15, true⟩

def Layout.write (layout : Layout) (x : Magnitude) : List Char :=
  let d := x.shortest layout.tie
  let whole := d.digits.length ≤ d.exponent.toNat + 1 && 0 ≤ d.exponent
  if layout.writesOut d.exponent then
    d.positional ++ if layout.keepsFraction && whole then ['.', '0'] else []
  else d.scientific

def signed (negative : Bool) (text : List Char) : List Char :=
  if negative then '-' :: text else text

/-- A program prints all digits of a whole number and the shortest decimal of any other. -/
def printed (x : Float) : List Char :=
  match decode x with
  | .nan => ['N', 'a', 'N']
  | .infinite negative => signed negative ['i', 'n', 'f']
  | .finite negative m =>
      signed negative
        (if m.isIntegral then Nat.toDigits 10 m.integerPart else Layout.printed.write m)

def text (x : Float) : String := String.ofList (printed x)

/-- A token shows whole numbers below `10 ^ 15` as integers with a fraction of zero, among which
zero has no sign, and any other number by its shortest decimal. -/
def tokenText (x : Float) : String :=
  match decode x with
  | .finite negative m =>
      if m.isIntegral && m.integerPart < Nat.pow 10 15 then
        String.ofList
          (signed (negative && m.integerPart ≠ 0) (Nat.toDigits 10 m.integerPart ++ ['.', '0']))
      else String.ofList (signed negative (Layout.printed.write m))
  | _ => text x

/-- JSON has no form for what is not finite. -/
def jsonText (x : Float) : String :=
  match decode x with
  | .finite negative m =>
      String.ofList (signed negative (if m.units = 0 then ['0', '.', '0'] else Layout.json.write m))
  | _ => "null"

end Lox.Number
