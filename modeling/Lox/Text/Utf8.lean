/-!
Bytes as text.

A character is written in one to four bytes. The first byte tells how many follow and in which
range the next one lies; all others lie in the range of continuations. Bytes that break this rule
are refused with the place of the first character that cannot be read.
-/

namespace Lox.Utf8

/-- Why bytes are no text. `index` counts the bytes before the character at fault. -/
inductive Fault
  /-- The `length` bytes at `index` cannot start a character. -/
  | invalid (length index : Nat)
  /-- The bytes end inside a character. -/
  | incomplete (index : Nat)
  deriving DecidableEq, Repr

def Fault.message : Fault → String
  | invalid length index =>
      "invalid utf-8 sequence of " ++ toString length ++ " bytes from index " ++ toString index
  | incomplete index => "incomplete utf-8 byte sequence from index " ++ toString index

/-- A range of bytes, ends included. -/
structure Range where
  low : UInt8
  high : UInt8

def Range.contains (r : Range) (b : UInt8) : Bool := r.low ≤ b && b ≤ r.high

def continuation : Range := ⟨0x80, 0xbf⟩

/-- The bits of the first byte that belong to the character, and the ranges of the bytes that
follow. The narrower ranges leave out longer forms of characters that have shorter ones, surrogates,
and what lies beyond the last character. -/
def opening? (first : UInt8) : Option (Nat × List Range) :=
  if first < 0x80 then some (first.toNat, [])
  else if first < 0xc2 then none
  else if first < 0xe0 then some (first.toNat % 32, [continuation])
  else if first = 0xe0 then some (first.toNat % 16, [⟨0xa0, 0xbf⟩, continuation])
  else if first = 0xed then some (first.toNat % 16, [⟨0x80, 0x9f⟩, continuation])
  else if first < 0xf0 then some (first.toNat % 16, [continuation, continuation])
  else if first = 0xf0 then some (first.toNat % 8, [⟨0x90, 0xbf⟩, continuation, continuation])
  else if first < 0xf4 then some (first.toNat % 8, [continuation, continuation, continuation])
  else if first = 0xf4 then some (first.toNat % 8, [⟨0x80, 0x8f⟩, continuation, continuation])
  else none

/-- The bytes after the first one of a character that starts at `index`, of which `seen` have been
read with the bits `value`. -/
def following (index seen value : Nat) :
    List Range → List UInt8 → Except Fault (Nat × List UInt8)
  | [], bytes => .ok (value, bytes)
  | _ :: _, [] => .error (.incomplete index)
  | range :: ranges, b :: bytes =>
      if range.contains b then
        following index (seen + 1) (64 * value + b.toNat % 64) ranges bytes
      else .error (.invalid seen index)

theorem length_following_le {index seen value : Nat} {ranges : List Range} {bytes rest : List UInt8}
    {result : Nat} (h : following index seen value ranges bytes = .ok (result, rest)) :
    rest.length ≤ bytes.length := by
  induction ranges generalizing seen value bytes with
  | nil =>
      cases h
      exact Nat.le_refl _
  | cons range ranges ih =>
      cases bytes with
      | nil => contradiction
      | cons b bytes =>
          unfold following at h
          split at h
          · exact Nat.le_succ_of_le (ih h)
          · contradiction

/-- The characters of `bytes`, which start at `index`, after those already read. -/
def decodeAfter (done : Array Char) (index : Nat) (bytes : List UInt8) :
    Except Fault (Array Char) :=
  match bytes with
  | [] => .ok done
  | first :: rest =>
      match opening? first with
      | none => .error (.invalid 1 index)
      | some (value, ranges) =>
          match h : following index 1 value ranges rest with
          | .error fault => .error fault
          | .ok (code, after) =>
              decodeAfter (done.push (Char.ofNat code)) (index + 1 + ranges.length) after
termination_by bytes.length
decreasing_by exact Nat.lt_succ_of_le (length_following_le h)

/-- The text that the bytes stand for. -/
def decode (bytes : List UInt8) : Except Fault String :=
  (decodeAfter #[] 0 bytes).map fun chars => String.ofList chars.toList

end Lox.Utf8
