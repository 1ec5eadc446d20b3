import Lox.Diagnostic

/-!
Where a program writes to.

A sink keeps the text that was written to it. It may fail from some point on, which depends on the
text that it holds: then it takes the next piece of text in part only, or not at all. As each piece
adds to the text, a sink that fails after so many lines, characters or pieces is of this kind. Its
flush at the end of a run may fail as well.
-/

namespace Lox

structure Sink where
  text : String
  /-- How many characters of another piece it takes once it holds this text, if there is a limit. -/
  room? : String → Option Nat
  flushes : Bool

namespace Sink

def lineBreaks (text : String) : Nat := text.toList.count '\n'

/-- A sink that takes nothing more once it holds so many lines, if there is such a limit. -/
def new (capacity : Option Nat) (flushes : Bool) : Sink where
  text := ""
  room? text := capacity.bind fun capacity => if capacity ≤ lineBreaks text then some 0 else none
  flushes

/-- A sink that never fails. -/
def endless : Sink := new none true

/-- Whether there is room for the whole piece of text. An empty one needs none. -/
def accepts (s : Sink) (piece : String) : Bool :=
  match s.room? s.text with
  | none => true
  | some room => piece.length ≤ room

/-- What the sink takes of a piece of text. -/
def takes (s : Sink) (piece : String) : String :=
  match s.room? s.text with
  | none => piece
  | some room => .ofList (piece.toList.take room)

/-- The sink with a piece of text after its own. -/
def append (s : Sink) (piece : String) : Sink := { s with text := s.text ++ piece }

theorem takes_of_accepts {s : Sink} {piece : String} (h : s.accepts piece) :
    s.takes piece = piece := by
  unfold accepts at h
  unfold takes
  split
  · rfl
  · rename_i room hroom
    rw [hroom] at h
    have hlength : piece.toList.length ≤ room := of_decide_eq_true h
    rw [List.take_of_length_le hlength, String.ofList_toList]

end Sink

end Lox
