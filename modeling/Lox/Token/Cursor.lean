import Lox.Text.Utf8
import Lox.Token.Scan

/-!
Scanning over the bytes of a text.

A cursor stands before a byte, and what comes next is decided by this byte and the one after it.
A byte is looked at as the character of its code, and the end as the null character. A lexeme is cut
out of the bytes, of which nothing comes if it would begin or end inside a character.
-/

namespace Lox.Scan

/-- A place in the bytes of a text, and the line that it is on. -/
structure Cursor where
  bytes : List UInt8
  pos : Nat
  line : Nat

namespace Cursor

/-- What stands so many bytes ahead. -/
def ahead (c : Cursor) (offset : Nat) : Char := Char.ofUInt8 (c.bytes[c.pos + offset]?.getD 0)

def advance (c : Cursor) (count : Nat) : Cursor := { c with pos := c.pos + count }

/-- How many bytes come before the first one for this character. -/
def find? (c : Cursor) (x : Char) : Option Nat :=
  (c.bytes.drop c.pos).findIdx? fun b => b = x.toUInt8

def lineBreaks (bytes : List UInt8) : Nat := bytes.count '\n'.toUInt8

/-- The text from the cursor up to another place. -/
def upTo? (c : Cursor) (stop : Nat) : Option String :=
  (Utf8.decode ((c.bytes.take stop).drop c.pos)).toOption

theorem lt_length_of_ahead {c : Cursor} (h : c.ahead 0 ≠ '\x00') : c.pos < c.bytes.length := by
  refine Nat.lt_of_not_le fun hle => h ?_
  rw [ahead, Nat.add_zero, List.getElem?_eq_none hle]
  rfl

/-- The cursor after what is as `p` says. The end is not. -/
def skipWhile (p : Char → Bool) (hp : p '\x00' = false) (c : Cursor) : Cursor :=
  if p (c.ahead 0) then skipWhile p hp (c.advance 1) else c
termination_by c.bytes.length - c.pos
decreasing_by
  rename_i h
  have hlt := lt_length_of_ahead (c := c) fun heq => by simp [heq, hp] at h
  simp only [advance]
  omega

/-- Where the line ends. -/
def lineEnd (c : Cursor) : Nat :=
  match c.find? '\n' with
  | some offset => c.pos + offset
  | none => c.bytes.length

theorem lt_lineEnd {c : Cursor} (h : c.ahead 0 = '/') : c.pos < c.lineEnd := by
  have hlt := lt_length_of_ahead (c := c) (by simp [h])
  rw [lineEnd]
  split
  · rename_i offset hfind
    rcases Nat.eq_zero_or_pos offset with rfl | hpos
    · rw [find?, List.drop_eq_getElem_cons hlt] at hfind
      have hbreak : c.bytes[c.pos] = '\n'.toUInt8 := by
        rw [List.findIdx?_cons] at hfind
        split at hfind
        · exact of_decide_eq_true ‹_›
        · simp at hfind
      rw [ahead, Nat.add_zero, List.getElem?_eq_getElem hlt, Option.getD_some, hbreak] at h
      exact absurd h (by decide)
    · omega
  · exact hlt

theorem isDigit_null : isDigit '\x00' = false := rfl

theorem isWordPart_null : isWordPart '\x00' = false := rfl

/-- The cursor after blanks and comments. -/
def skipTrivia (c : Cursor) : Cursor :=
  if c.ahead 0 = '\n' then skipTrivia { c.advance 1 with line := c.line + 1 }
  else if isBlank (c.ahead 0) then skipTrivia (c.advance 1)
  else if c.ahead 0 = '/' && c.ahead 1 = '/' then skipTrivia { c with pos := c.lineEnd }
  else c
termination_by c.bytes.length - c.pos
decreasing_by
  · rename_i h
    have hlt := lt_length_of_ahead (c := c) (by simp [h])
    simp only [advance]
    omega
  · rename_i h
    have hlt := lt_length_of_ahead (c := c) fun heq => by simp [heq, isBlank] at h
    simp only [advance]
    omega
  · rename_i h
    simp only [Bool.and_eq_true, decide_eq_true_eq] at h
    have hlt := lt_length_of_ahead (c := c) (by simp [h.1])
    have hend := lt_lineEnd h.1
    omega

theorem bytes_skipWhile (p : Char → Bool) (hp : p '\x00' = false) (c : Cursor) :
    (c.skipWhile p hp).bytes = c.bytes ∧ c.pos ≤ (c.skipWhile p hp).pos := by
  fun_induction skipWhile p hp c with
  | case1 c h ih => exact ⟨ih.1, Nat.le_trans (Nat.le_succ _) ih.2⟩
  | case2 c h => exact ⟨rfl, Nat.le_refl _⟩

theorem bytes_skipTrivia (c : Cursor) :
    c.skipTrivia.bytes = c.bytes ∧ c.pos ≤ c.skipTrivia.pos := by
  fun_induction skipTrivia c with
  | case1 c h ih => exact ⟨ih.1, Nat.le_trans (Nat.le_succ _) ih.2⟩
  | case2 c _ h ih => exact ⟨ih.1, Nat.le_trans (Nat.le_succ _) ih.2⟩
  | case3 c _ _ h ih =>
      simp only [Bool.and_eq_true, decide_eq_true_eq] at h
      exact ⟨ih.1, Nat.le_trans (Nat.le_of_lt (lt_lineEnd h.1)) ih.2⟩
  | case4 c => exact ⟨rfl, Nat.le_refl _⟩

/-- The token of the lexeme that ends where `next` stands. -/
def token? (c : Cursor) (kind : String → Kind) (next : Cursor) : Option (Item × Cursor) :=
  (c.upTo? next.pos).map fun lexeme => (.token ⟨kind lexeme, lexeme, next.line⟩, next)

/-- The string whose opening quote is at the cursor. -/
def string? (c : Cursor) : Option (Item × Cursor) :=
  let contents := c.advance 1
  match contents.find? '"' with
  | none =>
      let line := c.line + lineBreaks (c.bytes.drop contents.pos)
      some (.fault line .unterminatedString, ⟨c.bytes, c.bytes.length, line⟩)
  | some length =>
      let line := c.line + lineBreaks ((c.bytes.drop contents.pos).take length)
      (contents.upTo? (contents.pos + length)).bind fun text =>
        c.token? (fun _ => .string text) { contents.advance (length + 1) with line }

/-- The number that a lexeme of digits stands for, of which a point may be one. -/
def numberOfLexeme (lexeme : String) : Float :=
  let digits := lexeme.toList
  numberOf (digits.takeWhile (· ≠ '.')) ((digits.dropWhile (· ≠ '.')).drop 1)

def number? (c : Cursor) : Option (Item × Cursor) :=
  let whole := (c.advance 1).skipWhile isDigit isDigit_null
  let next :=
    if whole.ahead 0 = '.' && isDigit (whole.ahead 1) then
      (whole.advance 1).skipWhile isDigit isDigit_null
    else whole
  c.token? (fun lexeme => .number (numberOfLexeme lexeme)) next

def word? (c : Cursor) : Option (Item × Cursor) :=
  c.token? wordKind ((c.advance 1).skipWhile isWordPart isWordPart_null)

/-- A character that no item starts with is passed over as a whole. -/
def stray? (c : Cursor) : Option (Item × Cursor) :=
  (c.upTo? c.bytes.length).map fun rest =>
    let x := rest.toList.headD '\ufffd'
    (.fault c.line (.unexpectedCharacter x), c.advance x.utf8Size)

/-- The item that starts at the cursor, which is not at the end, and the cursor after it. -/
def item? (c : Cursor) : Option (Item × Cursor) :=
  match Opening.of (c.ahead 0) with
  | .mark s => c.token? (fun _ => .symbol s) (c.advance 1)
  | .operator alone joined =>
      if c.ahead 1 = '=' then c.token? (fun _ => .symbol joined) (c.advance 2)
      else c.token? (fun _ => .symbol alone) (c.advance 1)
  | .quote => c.string?
  | .digit => c.number?
  | .letter => c.word?
  | .stray => c.stray?

theorem eq_of_token? {c next next' : Cursor} {kind : String → Kind} {item : Item}
    (h : c.token? kind next = some (item, next')) : next' = next := by
  obtain ⟨lexeme, -, heq⟩ := Option.map_eq_some_iff.mp h
  exact (Prod.mk.inj heq).2.symm

theorem bytes_of_item? {c next : Cursor} {item : Item} (hend : c.pos < c.bytes.length)
    (h : c.item? = some (item, next)) : next.bytes = c.bytes ∧ c.pos < next.pos := by
  have hskip (p : Char → Bool) (hp : p '\x00' = false) :
      ((c.advance 1).skipWhile p hp).bytes = c.bytes ∧
        c.pos < ((c.advance 1).skipWhile p hp).pos :=
    bytes_skipWhile p hp (c.advance 1)
  unfold item? at h
  split at h
  · rw [eq_of_token? h]
    exact ⟨rfl, Nat.lt_succ_self _⟩
  · split at h
    · rw [eq_of_token? h]
      exact ⟨rfl, Nat.lt_add_of_pos_right (by decide)⟩
    · rw [eq_of_token? h]
      exact ⟨rfl, Nat.lt_succ_self _⟩
  · unfold string? at h
    dsimp only at h
    split at h
    · cases h
      exact ⟨rfl, hend⟩
    · obtain ⟨text, -, h⟩ := Option.bind_eq_some_iff.mp h
      rw [eq_of_token? h]
      exact ⟨rfl, Nat.lt_add_right _ (Nat.lt_succ_self _)⟩
  · unfold number? at h
    rw [eq_of_token? h]
    split
    · obtain ⟨hbytes, hlt⟩ := hskip isDigit isDigit_null
      obtain ⟨hbytes', hle⟩ := bytes_skipWhile isDigit isDigit_null
        (((c.advance 1).skipWhile isDigit isDigit_null).advance 1)
      exact ⟨hbytes'.trans hbytes, Nat.lt_of_lt_of_le hlt (Nat.le_trans (Nat.le_succ _) hle)⟩
    · exact hskip isDigit isDigit_null
  · rw [eq_of_token? h]
    exact hskip isWordPart isWordPart_null
  · obtain ⟨rest, -, heq⟩ := Option.map_eq_some_iff.mp h
    cases heq
    exact ⟨rfl, Nat.lt_add_of_pos_right (Char.utf8Size_pos _)⟩

/-- The items from the cursor on. -/
def itemsFrom? (c : Cursor) : Option (List Item) :=
  if hend : c.skipTrivia.bytes.length ≤ c.skipTrivia.pos then
    some [.token (.endOfInput c.skipTrivia.line)]
  else
    match h : c.skipTrivia.item? with
    | none => none
    | some (item, next) =>
        have : next.bytes.length - next.pos < c.bytes.length - c.pos := by
          obtain ⟨hbytes, hlt⟩ := bytes_of_item? (Nat.lt_of_not_le hend) h
          obtain ⟨hbytes', hle⟩ := bytes_skipTrivia c
          rw [hbytes'] at hbytes hend
          rw [hbytes]
          omega
        (itemsFrom? next).map (item :: ·)
termination_by c.bytes.length - c.pos

/-- All items of a program, unless a lexeme would begin or end inside a character. -/
def items? (source : String) : Option (List Item) :=
  itemsFrom? ⟨source.toByteArray.data.toList, 0, 1⟩

end Cursor

end Lox.Scan
