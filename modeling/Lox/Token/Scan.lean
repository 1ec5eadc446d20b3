import Lox.Diagnostic
import Lox.Number.Binary64

/-!
Scanning: the text of a program as tokens.

Between tokens stand blanks and comments. Each item after them is the longest one that starts
there, so `munch` decides by its first character what it is and takes all that belongs to it.
Every step leaves less text than it found, by which `items` ends.
-/

namespace Lox.Scan

/-- A token, or what stands where none can be read. -/
inductive Item
  | token (t : Token)
  | fault (line : Nat) (fault : LexicalFault)
  deriving DecidableEq

/-- The characters between items that do not end a line. -/
def isBlank (c : Char) : Bool := c = ' ' || c = '\t' || c = '\r'

mutual

/-- The text after all blanks and comments, and the line it is on. -/
def skipTrivia (line : Nat) : List Char → Nat × List Char
  | [] => (line, [])
  | c :: text =>
      if c = '\n' then skipTrivia (line + 1) text
      else if isBlank c then skipTrivia line text
      else if c = '/' then
        match text with
        | '/' :: comment => skipComment line comment
        | _ => (line, c :: text)
      else (line, c :: text)

/-- A comment reaches to the end of its line. -/
def skipComment (line : Nat) : List Char → Nat × List Char
  | [] => (line, [])
  | c :: text => if c = '\n' then skipTrivia (line + 1) text else skipComment line text

end

def isDigit (c : Char) : Bool := '0' ≤ c && c ≤ '9'

def isLetter (c : Char) : Bool := ('a' ≤ c && c ≤ 'z') || ('A' ≤ c && c ≤ 'Z') || c = '_'

def isWordPart (c : Char) : Bool := isLetter c || isDigit c

/-- What an item is, as far as its first character tells. -/
inductive Opening
  /-- A mark that stands by itself. -/
  | mark (s : Symbol)
  /-- An operator that means something else with `=` after it. -/
  | operator (alone joined : Symbol)
  | quote
  | digit
  | letter
  | stray
  deriving DecidableEq, Repr

def Opening.of (c : Char) : Opening :=
  match c with
  | '(' => mark .leftParen
  | ')' => mark .rightParen
  | '\x7b' => mark .leftBrace
  | '\x7d' => mark .rightBrace
  | ',' => mark .comma
  | '.' => mark .dot
  | '-' => mark .minus
  | '+' => mark .plus
  | ';' => mark .semicolon
  | '/' => mark .slash
  | '*' => mark .star
  | '!' => operator .bang .bangEqual
  | '=' => operator .equal .equalEqual
  | '>' => operator .greater .greaterEqual
  | '<' => operator .less .lessEqual
  | '"' => quote
  | _ => if isDigit c then digit else if isLetter c then letter else stray

/-- The value of decimal digits. -/
def digitsValue (digits : List Char) : Nat :=
  digits.foldl (fun value c => 10 * value + (c.toNat - '0'.toNat)) 0

/-- The number written with these digits before and after the point. -/
def numberOf (whole fraction : List Char) : Float :=
  Number.ofQuotient (digitsValue (whole ++ fraction)) (Nat.pow 10 fraction.length)

/-- A reserved word is that keyword, any other word an identifier. -/
def wordKind (word : String) : Kind :=
  match Keyword.ofSpelling? word with
  | some k => .keyword k
  | none => .identifier

/-- An item, the line on which it ends, and the text after it. -/
structure Munch where
  item : Item
  line : Nat
  rest : List Char

def Munch.symbol (line : Nat) (s : Symbol) (rest : List Char) : Munch :=
  ⟨.token ⟨.symbol s, s.spelling, line⟩, line, rest⟩

/-- The string whose opening quote has been read. Without a closing quote all the text is lost. -/
def munchString (line : Nat) (text : List Char) : Munch :=
  let contents := text.takeWhile (· ≠ '"')
  let line := line + contents.count '\n'
  match text.dropWhile (· ≠ '"') with
  | [] => ⟨.fault line .unterminatedString, line, []⟩
  | _ :: rest =>
      let lexeme := String.ofList ('"' :: contents ++ ['"'])
      ⟨.token ⟨.string (String.ofList contents), lexeme, line⟩, line, rest⟩

/-- The digits after a point and the text after them. A point belongs to a number only with a digit
after it. -/
def fraction? : List Char → Option (List Char × List Char)
  | '.' :: text =>
      if (text.takeWhile isDigit).isEmpty then none
      else some (text.takeWhile isDigit, text.dropWhile isDigit)
  | _ => none

/-- The number that starts with the digit `first`. -/
def munchNumber (line : Nat) (first : Char) (text : List Char) : Munch :=
  let whole := first :: text.takeWhile isDigit
  let after := text.dropWhile isDigit
  match fraction? after with
  | none => ⟨.token ⟨.number (numberOf whole []), String.ofList whole, line⟩, line, after⟩
  | some (fraction, rest) =>
      let lexeme := String.ofList (whole ++ '.' :: fraction)
      ⟨.token ⟨.number (numberOf whole fraction), lexeme, line⟩, line, rest⟩

def munchWord (line : Nat) (first : Char) (text : List Char) : Munch :=
  let word := String.ofList (first :: text.takeWhile isWordPart)
  ⟨.token ⟨wordKind word, word, line⟩, line, text.dropWhile isWordPart⟩

/-- The longest item that starts with `first` and goes on in `text`. -/
def munch (line : Nat) (first : Char) (text : List Char) : Munch :=
  match Opening.of first with
  | .mark s => .symbol line s text
  | .operator alone joined =>
      match text with
      | '=' :: rest => .symbol line joined rest
      | _ => .symbol line alone text
  | .quote => munchString line text
  | .digit => munchNumber line first text
  | .letter => munchWord line first text
  | .stray => ⟨.fault line (.unexpectedCharacter first), line, text⟩

mutual

theorem length_skipTrivia_le (line : Nat) (text : List Char) :
    (skipTrivia line text).2.length ≤ text.length := by
  cases text with
  | nil => exact Nat.le_refl _
  | cons c text =>
      unfold skipTrivia
      split
      · exact Nat.le_succ_of_le (length_skipTrivia_le _ _)
      · split
        · exact Nat.le_succ_of_le (length_skipTrivia_le _ _)
        · split
          · split
            · exact Nat.le_succ_of_le (Nat.le_succ_of_le (length_skipComment_le _ _))
            · exact Nat.le_refl _
          · exact Nat.le_refl _

theorem length_skipComment_le (line : Nat) (text : List Char) :
    (skipComment line text).2.length ≤ text.length := by
  cases text with
  | nil => exact Nat.le_refl _
  | cons c text =>
      unfold skipComment
      split
      · exact Nat.le_succ_of_le (length_skipTrivia_le _ _)
      · exact Nat.le_succ_of_le (length_skipComment_le _ _)

end

theorem length_dropWhile_le (p : Char → Bool) (text : List Char) :
    (text.dropWhile p).length ≤ text.length :=
  (List.dropWhile_sublist p).length_le

theorem length_fraction?_le {text digits rest : List Char}
    (h : fraction? text = some (digits, rest)) : rest.length ≤ text.length := by
  unfold fraction? at h
  split at h
  · split at h
    · contradiction
    · cases h
      exact Nat.le_succ_of_le (length_dropWhile_le isDigit _)
  · contradiction

theorem length_munchString_rest_le (line : Nat) (text : List Char) :
    (munchString line text).rest.length ≤ text.length := by
  have h := length_dropWhile_le (· ≠ '"') text
  unfold munchString
  split
  · exact Nat.zero_le _
  · rename_i heq
    rw [heq] at h
    exact Nat.le_of_succ_le h

theorem length_munchNumber_rest_le (line : Nat) (first : Char) (text : List Char) :
    (munchNumber line first text).rest.length ≤ text.length := by
  have h := length_dropWhile_le isDigit text
  unfold munchNumber
  dsimp only
  split
  · exact h
  · rename_i heq
    exact Nat.le_trans (length_fraction?_le heq) h

theorem length_munch_rest_le (line : Nat) (first : Char) (text : List Char) :
    (munch line first text).rest.length ≤ text.length := by
  unfold munch
  split
  · exact Nat.le_refl _
  · split
    · exact Nat.le_succ _
    · exact Nat.le_refl _
  · exact length_munchString_rest_le line text
  · exact length_munchNumber_rest_le line first text
  · exact length_dropWhile_le isWordPart text
  · exact Nat.le_refl _

/-- The items of `text`, which starts on `line`, after those already found. The last one is the
token for the end of the input. -/
def itemsAfter (found : Array Item) (line : Nat) (text : List Char) : Array Item :=
  match h : skipTrivia line text with
  | (line, []) => found.push (.token (.endOfInput line))
  | (start, first :: rest) =>
      let m := munch start first rest
      have : m.rest.length < text.length := by
        have hskip := length_skipTrivia_le line text
        rw [h] at hskip
        exact Nat.lt_of_le_of_lt (length_munch_rest_le start first rest) hskip
      itemsAfter (found.push m.item) m.line m.rest
termination_by text.length

/-- All items of a program. -/
def items (source : String) : List Item := (itemsAfter #[] 1 source.toList).toList

def Item.token? : Item → Option Token
  | token t => some t
  | fault _ _ => none

def Item.diagnostic? : Item → Option Diagnostic
  | token _ => none
  | fault line f => some (.lexical line f)

def tokens (source : String) : List Token := (items source).filterMap Item.token?

def diagnostics (source : String) : List Diagnostic := (items source).filterMap Item.diagnostic?

end Lox.Scan
