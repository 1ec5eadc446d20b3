import Lox.Proofs.Commands.Utf8
import Lox.Proofs.Syntax.Lexemes
import Lox.Token.Cursor

/-!
The scan over the bytes of a text finds the items of the text.

All characters by which the scan decides are among the first 128. Each of these is one byte, which
no other character contains, so a cursor that stands before a character only comes to stand before
others, and all that it cuts out are texts.
-/

namespace Lox

namespace Utf8

open String (utf8EncodeChar)

variable {x : Char}

theorem utf8EncodeChar_of_lt (h : x.toNat < 128) : utf8EncodeChar x = [x.toUInt8] := by
  have hx : x.val.toNat = x.toNat := rfl
  rw [utf8EncodeChar, hx, if_pos (by omega)]
  rfl

theorem le_of_mem_utf8EncodeChar {b : UInt8} (h : 128 ≤ x.toNat) (hb : b ∈ utf8EncodeChar x) :
    128 ≤ b.toNat := by
  have hx : x.val.toNat = x.toNat := rfl
  have hvalid : x.toNat < 0xd800 ∨ 0xdfff < x.toNat ∧ x.toNat < 0x110000 := x.valid
  rw [utf8EncodeChar, hx, if_neg (by omega)] at hb
  split at hb
  · simp only [List.mem_cons, List.not_mem_nil, or_false] at hb
    rcases hb with rfl | rfl
    all_goals
      rw [toNat_ofNat_of_lt (by omega)]
      omega
  split at hb
  · simp only [List.mem_cons, List.not_mem_nil, or_false] at hb
    rcases hb with rfl | rfl | rfl
    all_goals
      rw [toNat_ofNat_of_lt (by omega)]
      omega
  · simp only [List.mem_cons, List.not_mem_nil, or_false] at hb
    rcases hb with rfl | rfl | rfl | rfl
    all_goals
      rw [toNat_ofNat_of_lt (by omega)]
      omega

theorem toNat_toUInt8_of_lt (h : x.toNat < 128) : x.toUInt8.toNat = x.toNat := by
  have hx : x.toUInt8 = UInt8.ofNat x.toNat := rfl
  rw [hx, toNat_ofNat_of_lt (by omega)]

/-- The byte of one of the first characters is in no other character. -/
theorem mem_utf8EncodeChar_iff (h : x.toNat < 128) {y : Char} :
    x.toUInt8 ∈ utf8EncodeChar y ↔ y = x := by
  constructor
  · intro hmem
    rcases Nat.lt_or_ge y.toNat 128 with hy | hy
    · rw [utf8EncodeChar_of_lt hy, List.mem_singleton] at hmem
      rw [← Char.toNat_inj, ← toNat_toUInt8_of_lt hy, ← hmem, toNat_toUInt8_of_lt h]
    · have hle := le_of_mem_utf8EncodeChar hy hmem
      rw [toNat_toUInt8_of_lt h] at hle
      exact absurd h (Nat.not_lt_of_le hle)
  · rintro rfl
    rw [utf8EncodeChar_of_lt h]
    exact List.mem_singleton_self _

theorem encode_append (xs ys : List Char) : encode (xs ++ ys) = encode xs ++ encode ys :=
  List.flatMap_append

theorem count_encode (h : x.toNat < 128) (ys : List Char) :
    (encode ys).count x.toUInt8 = ys.count x := by
  induction ys with
  | nil => rfl
  | cons y ys ih =>
      rw [encode_cons, List.count_append, ih]
      by_cases hy : y = x
      · subst hy
        rw [utf8EncodeChar_of_lt h, List.count_cons_self, List.count_cons_self, List.count_nil,
          Nat.add_comm]
      · rw [List.count_cons_of_ne hy,
          List.count_eq_zero_of_not_mem (mt (mem_utf8EncodeChar_iff h).mp hy), Nat.zero_add]

/-- The first byte for a character is found before that character. -/
theorem findIdx?_encode (h : x.toNat < 128) (ys : List Char) :
    (encode ys).findIdx? (fun b => b = x.toUInt8) =
      if x ∈ ys then some (encode (ys.takeWhile (· ≠ x))).length else none := by
  induction ys with
  | nil => rfl
  | cons y ys ih =>
      rw [encode_cons, List.findIdx?_append, ih]
      by_cases hy : y = x
      · subst hy
        rw [utf8EncodeChar_of_lt h]
        simp [encode]
      · have hnone : (utf8EncodeChar y).findIdx? (fun b => b = x.toUInt8) = none := by
          rw [List.findIdx?_eq_none_iff]
          rintro b hb
          refine decide_eq_false ?_
          rintro rfl
          exact hy ((mem_utf8EncodeChar_iff h).mp hb)
        rw [hnone, Option.none_or, List.takeWhile_cons_of_pos (by simpa using hy), encode_cons,
          List.length_append]
        by_cases hx : x ∈ ys
        · rw [if_pos hx, if_pos (List.mem_cons_of_mem _ hx), Option.map_some, Nat.add_comm]
        · rw [if_neg hx, if_neg (by simp [hx, Ne.symm hy]), Option.map_none]

end Utf8

namespace Scan

open Utf8

namespace Cursor

/-- The cursor stands between these characters. -/
structure At (c : Cursor) (before text : List Char) : Prop where
  bytes : c.bytes = encode (before ++ text)
  pos : c.pos = (encode before).length

variable {c : Cursor} {before text : List Char} {x : Char}

theorem At.drop (h : c.At before text) : c.bytes.drop c.pos = encode text := by
  rw [h.bytes, h.pos, encode_append, List.drop_left]

theorem At.take_drop {w : List Char} (h : c.At before (w ++ text)) :
    (c.bytes.take (encode (before ++ w)).length).drop c.pos = encode w := by
  rw [h.bytes, h.pos, ← List.append_assoc, encode_append (before ++ w), List.take_left,
    encode_append, List.drop_left]

theorem At.advance {w : List Char} (h : c.At before (w ++ text)) :
    (c.advance (encode w).length).At (before ++ w) text where
  bytes := by rw [Cursor.advance, h.bytes, List.append_assoc]
  pos := by rw [Cursor.advance, h.pos, encode_append, List.length_append]

theorem At.advance_one (h : c.At before (x :: text)) (hx : x.toNat < 128) :
    (c.advance 1).At (before ++ [x]) text := by
  have hlength : (encode [x]).length = 1 := by
    rw [encode, List.flatMap_singleton, utf8EncodeChar_of_lt hx]
    rfl
  rw [← hlength]
  exact At.advance (w := [x]) h

theorem At.length_le_iff (h : c.At before text) : c.bytes.length ≤ c.pos ↔ text = [] := by
  rw [h.bytes, h.pos, encode_append, List.length_append]
  constructor
  · intro hle
    cases text with
    | nil => rfl
    | cons x text =>
        have hpos := List.length_pos_of_ne_nil (String.utf8EncodeChar_ne_nil (c := x))
        rw [encode_cons, List.length_append] at hle
        omega
  · rintro rfl
    exact Nat.le_refl _

theorem ahead_one (c : Cursor) : c.ahead 1 = (c.advance 1).ahead 0 := rfl

theorem toNat_ofUInt8 (b : UInt8) : (Char.ofUInt8 b).toNat = b.toNat := by
  cases b
  rfl

/-- A property that all characters beyond the first 128 share is that of the character ahead. -/
theorem At.apply_ahead {α : Type} (h : c.At before text) (p : Char → α)
    (hp : ∀ x y : Char, 128 ≤ x.toNat → 128 ≤ y.toNat → p x = p y) :
    p (c.ahead 0) = p (text.headD '\x00') := by
  have hahead : c.ahead 0 = Char.ofUInt8 ((encode text).headD 0) := by
    rw [← h.drop, ahead, Nat.add_zero]
    simp
  cases text with
  | nil =>
      rw [hahead]
      rfl
  | cons x text =>
      rw [hahead, encode_cons, List.headD_cons]
      rcases Nat.lt_or_ge x.toNat 128 with hx | hx
      · have hsame : Char.ofUInt8 x.toUInt8 = x := by
          rw [← Char.toNat_inj, toNat_ofUInt8, toNat_toUInt8_of_lt hx]
        rw [utf8EncodeChar_of_lt hx, List.cons_append, List.headD_cons, hsame]
      · obtain ⟨b, bs, hb⟩ := List.exists_cons_of_ne_nil (String.utf8EncodeChar_ne_nil (c := x))
        rw [hb, List.cons_append, List.headD_cons]
        refine hp _ _ ?_ hx
        rw [toNat_ofUInt8]
        exact le_of_mem_utf8EncodeChar hx (hb ▸ List.mem_cons_self)

/-- It holds of none but the first 128 characters. -/
def Early (p : Char → Bool) : Prop := ∀ y : Char, 128 ≤ y.toNat → p y = false

theorem Early.lt {p : Char → Bool} (hp : Early p) (h : p x) : x.toNat < 128 := by
  refine Nat.lt_of_not_le fun hle => ?_
  rw [hp x hle] at h
  cases h

theorem At.test_ahead {p : Char → Bool} (hp : Early p) (h : c.At before text) :
    p (c.ahead 0) = p (text.headD '\x00') :=
  h.apply_ahead p fun y z hy hz => by rw [hp y hy, hp z hz]

theorem At.ahead_eq_iff (h : c.At before text) (hx : x.toNat < 128) (hnull : x ≠ '\x00') :
    c.ahead 0 = x ↔ text.head? = some x := by
  have hearly : Early fun y => decide (y = x) := by
    rintro y hy
    refine decide_eq_false ?_
    rintro rfl
    exact absurd hx (Nat.not_lt_of_le hy)
  have hahead := h.test_ahead hearly
  rw [decide_eq_decide] at hahead
  rw [hahead]
  cases text with
  | nil => simpa using Ne.symm hnull
  | cons y text => simp

theorem isDigit_early : Early isDigit := by
  intro x h
  rw [Bool.eq_false_iff, ne_eq, isDigit_iff]
  omega

theorem isLetter_early : Early isLetter := by
  intro x h
  rw [Bool.eq_false_iff, ne_eq, isLetter_iff]
  rintro (hletter | hletter | rfl)
  · omega
  · omega
  · exact absurd h (by decide)

theorem isWordPart_early : Early isWordPart := by
  intro x h
  rw [isWordPart, isDigit_early x h, isLetter_early x h]
  rfl

theorem isBlank_early : Early isBlank := by
  intro x h
  rw [Bool.eq_false_iff, ne_eq]
  intro hblank
  simp only [isBlank, Bool.or_eq_true, decide_eq_true_eq] at hblank
  rcases hblank with (rfl | rfl) | rfl <;> exact absurd h (by decide)

theorem opening_of_le (h : 128 ≤ x.toNat) : Opening.of x = .stray := by
  unfold Opening.of
  split
  case h_17 => rw [isDigit_early x h, isLetter_early x h]; rfl
  all_goals exact absurd h (by decide)

theorem lt_of_opening (h : Opening.of x ≠ .stray) : x.toNat < 128 :=
  Nat.lt_of_not_le (mt opening_of_le h)

theorem At.opening (h : c.At before text) :
    Opening.of (c.ahead 0) = Opening.of (text.headD '\x00') :=
  h.apply_ahead Opening.of fun y z hy hz => by rw [opening_of_le hy, opening_of_le hz]

theorem At.skipWhile {p : Char → Bool} (hp : p '\x00' = false) (hearly : Early p)
    (h : c.At before text) :
    (c.skipWhile p hp).At (before ++ text.takeWhile p) (text.dropWhile p) ∧
      (c.skipWhile p hp).line = c.line := by
  induction text generalizing c before with
  | nil =>
      rw [Cursor.skipWhile, h.test_ahead hearly, List.headD_nil, if_neg (by simp [hp]),
        List.takeWhile_nil, List.dropWhile_nil, List.append_nil]
      exact ⟨h, rfl⟩
  | cons x text ih =>
      rw [Cursor.skipWhile, h.test_ahead hearly, List.headD_cons]
      by_cases hx : p x
      · obtain ⟨hat, hline⟩ := ih (h.advance_one (hearly.lt hx))
        rw [if_pos hx, List.takeWhile_cons_of_pos hx, List.dropWhile_cons_of_pos hx]
        rw [List.append_assoc] at hat
        exact ⟨hat, hline⟩
      · rw [if_neg hx, List.takeWhile_cons_of_neg hx, List.dropWhile_cons_of_neg hx,
          List.append_nil]
        exact ⟨h, rfl⟩

theorem At.isBlank_ahead_iff (h : c.At before text) :
    isBlank (c.ahead 0) ↔ ∃ x rest, text = x :: rest ∧ isBlank x := by
  rw [h.test_ahead isBlank_early]
  cases text with
  | nil => simp [isBlank]
  | cons y text => simp

theorem skipComment_eq (line : Nat) (text : List Char) :
    skipComment line text = Scan.skipTrivia line (text.dropWhile (· ≠ '\n')) := by
  induction text with
  | nil => rw [skipComment, List.dropWhile_nil, Scan.skipTrivia.eq_def]
  | cons x text ih =>
      rw [skipComment]
      split
      · rename_i hx
        subst hx
        rw [List.dropWhile_cons_of_neg (by simp), skipTrivia_cons_break]
      · rename_i hx
        rw [List.dropWhile_cons_of_pos (by simpa using hx), ih]

theorem At.find? (h : c.At before text) (hx : x.toNat < 128) :
    c.find? x = if x ∈ text then some (encode (text.takeWhile (· ≠ x))).length else none := by
  rw [Cursor.find?, h.drop, findIdx?_encode hx]

theorem takeWhile_of_not_mem (h : x ∉ text) : text.takeWhile (· ≠ x) = text := by
  rw [List.takeWhile_eq_self_iff]
  rintro y hy
  refine decide_eq_true ?_
  rintro rfl
  exact h hy

theorem At.lineEnd (h : c.At before text) :
    ({ c with pos := c.lineEnd } : Cursor).At (before ++ text.takeWhile (· ≠ '\n'))
      (text.dropWhile (· ≠ '\n')) := by
  have htext := (List.takeWhile_append_dropWhile (p := (· ≠ '\n')) (l := text)).symm
  refine ⟨?_, ?_⟩
  · rw [List.append_assoc, ← htext]
    exact h.bytes
  · rw [Cursor.lineEnd, h.find? (by decide)]
    by_cases hmem : '\n' ∈ text
    · rw [if_pos hmem, encode_append, List.length_append, ← h.pos]
    · rw [if_neg hmem, takeWhile_of_not_mem hmem, h.bytes]

/-- Blanks and comments are passed over as in the text. -/
theorem At.skipTrivia (h : c.At before text) :
    ∃ w rest, text = w ++ rest ∧ c.skipTrivia.At (before ++ w) rest ∧
      Scan.skipTrivia c.line text = (c.skipTrivia.line, rest) := by
  fun_induction Cursor.skipTrivia c generalizing before text with
  | case1 c hbreak ih =>
      rw [h.ahead_eq_iff (by decide) (by decide)] at hbreak
      obtain ⟨rest, rfl⟩ := List.head?_eq_some_iff.mp hbreak
      have hnext : ({ c.advance 1 with line := c.line + 1 } : Cursor).At (before ++ ['\n']) rest :=
        ⟨(h.advance_one (by decide)).bytes, (h.advance_one (by decide)).pos⟩
      obtain ⟨w, rest, rfl, hat, hskip⟩ := ih hnext
      rw [List.append_assoc] at hat
      exact ⟨'\n' :: w, rest, rfl, hat, by rw [skipTrivia_cons_break]; exact hskip⟩
  | case2 c _ hblank ih =>
      obtain ⟨x, rest, rfl, hx⟩ := h.isBlank_ahead_iff.mp hblank
      obtain ⟨w, rest, rfl, hat, hskip⟩ := ih (h.advance_one (isBlank_early.lt hx))
      rw [List.append_assoc] at hat
      exact ⟨x :: w, rest, rfl, hat, by rw [skipTrivia_cons_blank hx]; exact hskip⟩
  | case3 c _ _ hslashes ih =>
      simp only [Bool.and_eq_true, decide_eq_true_eq] at hslashes
      obtain ⟨hslash, hslash'⟩ := hslashes
      rw [h.ahead_eq_iff (by decide) (by decide)] at hslash
      obtain ⟨rest, rfl⟩ := List.head?_eq_some_iff.mp hslash
      rw [ahead_one, (h.advance_one (by decide)).ahead_eq_iff (by decide) (by decide)] at hslash'
      obtain ⟨comment, rfl⟩ := List.head?_eq_some_iff.mp hslash'
      obtain ⟨w, rest, hw, hat, hskip⟩ := ih h.lineEnd
      rw [List.append_assoc] at hat
      refine ⟨_, rest, ?_, hat, ?_⟩
      · rw [List.append_assoc, ← hw, List.takeWhile_append_dropWhile]
      · rw [skipTrivia_cons_comment, skipComment_eq]
        exact hskip
  | case4 c hbreak hblank hslashes =>
      refine ⟨[], text, rfl, by rwa [List.append_nil], ?_⟩
      cases text with
      | nil => rw [Scan.skipTrivia.eq_def]
      | cons x text =>
          refine skipTrivia_eq_self_iff.mpr ⟨?_, ?_, ?_⟩
          · rintro rfl
            exact hbreak ((h.ahead_eq_iff (by decide) (by decide)).mpr rfl)
          · rw [Bool.eq_false_iff]
            exact fun hx => hblank (h.isBlank_ahead_iff.mpr ⟨x, text, rfl, hx⟩)
          · rintro rfl hslash
            refine hslashes ?_
            rw [Bool.and_eq_true, decide_eq_true_eq, decide_eq_true_eq, ahead_one,
              h.ahead_eq_iff (by decide) (by decide),
              (h.advance_one (by decide)).ahead_eq_iff (by decide) (by decide)]
            exact ⟨rfl, hslash⟩

theorem At.upTo? {w : List Char} (h : c.At before (w ++ text)) :
    c.upTo? (encode (before ++ w)).length = some (String.ofList w) := by
  have hdecode := decode_encode (String.ofList w)
  rw [String.toList_ofList] at hdecode
  rw [Cursor.upTo?, h.take_drop, hdecode]
  rfl

theorem At.token? {next : Cursor} {w : List Char} (h : c.At before (w ++ text))
    (hnext : next.At (before ++ w) text) (kind : String → Kind) :
    c.token? kind next =
      some (.token ⟨kind (String.ofList w), String.ofList w, next.line⟩, next) := by
  rw [Cursor.token?, hnext.pos, h.upTo?]
  rfl

/-- An item is found over the bytes as in the text, and the cursor goes on where the text does. -/
def Agrees (found : Option (Item × Cursor)) (before text : List Char) (m : Munch) : Prop :=
  ∃ next w, found = some (m.item, next) ∧ text = w ++ m.rest ∧ next.At (before ++ w) m.rest ∧
    next.line = m.line

theorem At.agrees {next : Cursor} {w rest : List Char} (h : c.At before (w ++ rest))
    (hnext : next.At (before ++ w) rest) (kind : String → Kind) :
    Agrees (c.token? kind next) before (w ++ rest)
      ⟨.token ⟨kind (String.ofList w), String.ofList w, next.line⟩, next.line, rest⟩ :=
  ⟨next, w, h.token? hnext kind, rfl, hnext, rfl⟩

theorem lineBreaks_encode (text : List Char) : lineBreaks (encode text) = text.count '\n' :=
  count_encode (by decide) text

theorem At.string?_of_mem {w rest : List Char} (h : c.At before ('"' :: (w ++ '"' :: rest)))
    (hw : '"' ∉ w) :
    Agrees c.string? before ('"' :: (w ++ '"' :: rest))
      (munchString c.line (w ++ '"' :: rest)) := by
  have hne : ∀ x ∈ w, decide (x ≠ '"') = true :=
    List.takeWhile_eq_self_iff.mp (takeWhile_of_not_mem hw)
  have hcontents : (c.advance 1).At (before ++ ['"']) (w ++ '"' :: rest) :=
    h.advance_one (by decide)
  have hfind : (c.advance 1).find? '"' = some (encode w).length := by
    rw [hcontents.find? (by decide), if_pos (by simp),
      (takeWhile_append_of_stops hne ('"' :: rest) (by simp)).1]
  have htext : (c.advance 1).upTo? ((c.advance 1).pos + (encode w).length) =
      some (String.ofList w) := by
    rw [← hcontents.upTo?, hcontents.pos, encode_append _ w, List.length_append]
  have hbreaks : lineBreaks ((c.bytes.drop (c.advance 1).pos).take (encode w).length) =
      w.count '\n' := by
    have hdrop : c.bytes.drop (c.advance 1).pos = encode (w ++ '"' :: rest) := hcontents.drop
    rw [hdrop, encode_append, List.take_left, lineBreaks_encode]
  have hclosed := hcontents.advance.advance_one (x := '"') (by decide)
  have hlexeme : '"' :: (w ++ '"' :: rest) = ('"' :: w ++ ['"']) ++ rest := by simp
  rw [munchString_append hne, Cursor.string?]
  dsimp only
  rw [hfind]
  dsimp only
  rw [htext, Option.bind_some, hbreaks, hlexeme]
  rw [hlexeme] at h
  have hplace : before ++ ('"' :: w ++ ['"']) = before ++ ['"'] ++ w ++ ['"'] := by simp
  refine h.agrees ?_ _
  rw [hplace]
  exact ⟨hclosed.bytes, hclosed.pos⟩

theorem munchString_of_not_mem {line : Nat} (h : '"' ∉ text) :
    munchString line text =
      ⟨.fault (line + text.count '\n') .unterminatedString, line + text.count '\n', []⟩ := by
  have hdrop : text.dropWhile (fun x => decide (x ≠ '"')) = [] := by
    have hall := List.takeWhile_append_dropWhile (p := (· ≠ '"')) (l := text)
    rw [takeWhile_of_not_mem h] at hall
    exact List.append_right_eq_self.mp hall
  rw [munchString, hdrop, takeWhile_of_not_mem h]

theorem At.string?_of_not_mem {rest : List Char} (h : c.At before ('"' :: rest))
    (hrest : '"' ∉ rest) : Agrees c.string? before ('"' :: rest) (munchString c.line rest) := by
  have hcontents : (c.advance 1).At (before ++ ['"']) rest := h.advance_one (by decide)
  have hfind : (c.advance 1).find? '"' = none := by
    rw [hcontents.find? (by decide), if_neg hrest]
  have hbreaks : lineBreaks (c.bytes.drop (c.advance 1).pos) = rest.count '\n' := by
    rw [← lineBreaks_encode, ← hcontents.drop]
    rfl
  rw [munchString_of_not_mem hrest, Cursor.string?]
  dsimp only
  rw [hfind]
  dsimp only
  rw [hbreaks]
  refine ⟨_, '"' :: rest, rfl, (List.append_nil _).symm, ⟨?_, ?_⟩, rfl⟩
  · rw [List.append_nil]
    exact h.bytes
  · rw [← h.bytes]

theorem At.word? {first : Char} (h : c.At before (first :: text)) (hfirst : isLetter first) :
    Agrees c.word? before (first :: text) (munchWord c.line first text) := by
  obtain ⟨hat, hline⟩ :=
    (h.advance_one (isLetter_early.lt hfirst)).skipWhile isWordPart_null isWordPart_early
  have htext : first :: text =
      (first :: text.takeWhile isWordPart) ++ text.dropWhile isWordPart := by
    rw [List.cons_append, List.takeWhile_append_dropWhile]
  rw [List.append_assoc] at hat
  rw [htext] at h
  have hagrees := h.agrees hat wordKind
  rw [hline, ← htext] at hagrees
  exact hagrees

theorem ne_point {digits : List Char} (h : ∀ x ∈ digits, isDigit x) :
    ∀ x ∈ digits, decide (x ≠ '.') = true := by
  rintro x hx
  refine decide_eq_true ?_
  rintro rfl
  exact absurd (h _ hx) (by decide)

theorem numberOfLexeme_whole {digits : List Char} (h : ∀ x ∈ digits, isDigit x) :
    numberOfLexeme (String.ofList digits) = numberOf digits [] := by
  obtain ⟨htake, hdrop⟩ := takeWhile_append_of_stops (ne_point h) [] (by simp)
  rw [List.append_nil] at htake hdrop
  rw [numberOfLexeme, String.toList_ofList, htake, hdrop, List.drop_nil]

theorem numberOfLexeme_fraction {digits more : List Char} (h : ∀ x ∈ digits, isDigit x) :
    numberOfLexeme (String.ofList (digits ++ '.' :: more)) = numberOf digits more := by
  obtain ⟨htake, hdrop⟩ := takeWhile_append_of_stops (ne_point h) ('.' :: more) (by simp)
  rw [numberOfLexeme, String.toList_ofList, htake, hdrop, List.drop_one, List.tail_cons]

theorem At.fraction? (h : c.At before text) :
    (c.ahead 0 = '.' && isDigit (c.ahead 1)) = (Scan.fraction? text).isSome := by
  by_cases hpoint : text.head? = some '.'
  · obtain ⟨after, rfl⟩ := List.head?_eq_some_iff.mp hpoint
    have hdigit := (h.advance_one (by decide)).test_ahead isDigit_early
    rw [decide_eq_true ((h.ahead_eq_iff (by decide) (by decide)).mpr hpoint), ahead_one, hdigit,
      Bool.true_and, Scan.fraction?]
    cases after with
    | nil => rfl
    | cons x after => cases hx : isDigit x <;> simp [hx]
  · have hnone : Scan.fraction? text = none := by
      rw [fraction?_eq_none_iff]
      rintro after rfl
      exact absurd rfl hpoint
    rw [decide_eq_false (mt (h.ahead_eq_iff (by decide) (by decide)).mp hpoint), hnone]
    rfl

theorem At.number? {first : Char} (h : c.At before (first :: text)) (hfirst : isDigit first) :
    Agrees c.number? before (first :: text) (munchNumber c.line first text) := by
  obtain ⟨hat, hline⟩ :=
    (h.advance_one (isDigit_early.lt hfirst)).skipWhile isDigit_null isDigit_early
  have hdigits : ∀ x ∈ text.takeWhile isDigit, isDigit x := fun x hx => List.mem_takeWhile_imp hx
  have hwhole : ∀ x ∈ first :: text.takeWhile isDigit, isDigit x := by
    rw [List.forall_mem_cons]
    exact ⟨hfirst, hdigits⟩
  have hstops := head?_dropWhile isDigit text
  rw [← List.takeWhile_append_dropWhile (p := isDigit) (l := text)] at h ⊢
  generalize text.takeWhile isDigit = digits at h hat hdigits hwhole ⊢
  generalize text.dropWhile isDigit = after at h hat hstops ⊢
  rw [Cursor.number?, hat.fraction?]
  cases hfraction : Scan.fraction? after with
  | none =>
      rw [munchNumber_whole hdigits hstops hfraction, ← numberOfLexeme_whole hwhole]
      rw [List.append_assoc] at hat
      have hagrees := At.agrees (w := first :: digits) h hat fun lexeme =>
        .number (numberOfLexeme lexeme)
      rw [hline] at hagrees
      exact hagrees
  | some found =>
      obtain ⟨more, rest⟩ := found
      obtain ⟨rfl, -, hmore, hstops'⟩ := fraction?_eq_some_iff.mp hfraction
      obtain ⟨hat', hline'⟩ :=
        (hat.advance_one (by decide)).skipWhile isDigit_null isDigit_early
      obtain ⟨htake, hdrop⟩ := takeWhile_append_of_stops hmore rest hstops'
      rw [htake, hdrop] at hat'
      have hlexeme : first :: (digits ++ '.' :: (more ++ rest)) =
          (first :: digits ++ '.' :: more) ++ rest := by simp
      have hplace : before ++ [first] ++ digits ++ ['.'] ++ more =
          before ++ (first :: digits ++ '.' :: more) := by simp
      rw [hplace] at hat'
      rw [munchNumber_fraction hdigits hfraction, ← numberOfLexeme_fraction hwhole]
      rw [hlexeme] at h ⊢
      have hagrees := h.agrees hat' fun lexeme => .number (numberOfLexeme lexeme)
      rw [hline'.trans hline] at hagrees
      exact hagrees

theorem At.stray? {first : Char} (h : c.At before (first :: text)) :
    Agrees c.stray? before (first :: text)
      ⟨.fault c.line (.unexpectedCharacter first), c.line, text⟩ := by
  have hrest : c.upTo? c.bytes.length = some (String.ofList (first :: text)) := by
    rw [h.bytes]
    rw [← List.append_nil (first :: text)] at h
    exact h.upTo?
  have hlength : (encode [first]).length = first.utf8Size := by
    rw [encode, List.flatMap_singleton, String.length_utf8EncodeChar]
  have hnext := At.advance (w := [first]) h
  rw [hlength] at hnext
  rw [Cursor.stray?, hrest, Option.map_some, String.toList_ofList]
  exact ⟨_, [first], rfl, rfl, hnext, rfl⟩

theorem At.symbol {count : Nat} {s : Symbol} {w rest : List Char} (h : c.At before (w ++ rest))
    (hnext : (c.advance count).At (before ++ w) rest) (hs : s.spelling.toList = w) :
    Agrees (c.token? (fun _ => .symbol s) (c.advance count)) before (w ++ rest)
      (.symbol c.line s rest) := by
  have hagrees := h.agrees hnext fun _ => .symbol s
  rw [← hs, String.ofList_toList] at hagrees
  rw [← hs]
  exact hagrees

theorem At.item? {first : Char} (h : c.At before (first :: text)) :
    Agrees c.item? before (first :: text) (munch c.line first text) := by
  have hsame : Opening.of (c.ahead 0) = Opening.of first := h.opening
  rw [Cursor.item?, hsame]
  cases hopening : Opening.of first with
  | mark s =>
      have hone := h.advance_one (lt_of_opening (by simp [hopening]))
      rw [munch, hopening]
      exact At.symbol (w := [first]) h hone (Opening.spelling_of_mark hopening)
  | operator alone joined =>
      obtain ⟨halone, hjoined⟩ := Opening.spelling_of_operator hopening
      have hone := h.advance_one (lt_of_opening (by simp [hopening]))
      have hequal := hone.ahead_eq_iff (x := '=') (by decide) (by decide)
      dsimp only
      by_cases hhead : '=' ∈ text.head?
      · obtain ⟨rest, rfl⟩ := List.head?_eq_some_iff.mp hhead
        have htwo := hone.advance_one (by decide)
        rw [List.append_assoc] at htwo
        rw [ahead_one, if_pos (hequal.mpr hhead), munch_joined hopening]
        exact At.symbol (w := [first, '=']) h htwo hjoined
      · rw [ahead_one, if_neg (mt hequal.mp hhead), munch_alone hopening hhead]
        exact At.symbol (w := [first]) h hone halone
  | quote =>
      obtain rfl := Opening.of_eq_quote_iff.mp hopening
      rw [munch, hopening]
      by_cases hquote : '"' ∈ text
      · obtain ⟨contents, rest, rfl, hcontents⟩ := List.eq_append_cons_of_mem hquote
        exact h.string?_of_mem hcontents
      · exact h.string?_of_not_mem hquote
  | digit =>
      rw [munch, hopening]
      exact h.number? (Opening.of_eq_digit_iff.mp hopening)
  | letter =>
      rw [munch, hopening]
      exact h.word? (Opening.of_eq_letter_iff.mp hopening)
  | stray =>
      rw [munch, hopening]
      exact h.stray?

/-- From a cursor on the items of the text after it are found. -/
theorem At.itemsFrom? {line : Nat} {items : List Item} (h : c.At before text)
    (hitems : Scans line text items) (hline : c.line = line) : c.itemsFrom? = some items := by
  induction hitems generalizing c before with
  | @done line stop text hskip =>
      subst hline
      obtain ⟨w, rest, rfl, hat, hskip'⟩ := h.skipTrivia
      rw [hskip'] at hskip
      cases hskip
      rw [Cursor.itemsFrom?, dif_pos (hat.length_le_iff.mpr rfl)]
  | @item line start first text rest items hskip _ ih =>
      subst hline
      obtain ⟨w, rest, rfl, hat, hskip'⟩ := h.skipTrivia
      rw [hskip'] at hskip
      cases hskip
      obtain ⟨next, v, hfound, -, hnext, hline⟩ := hat.item?
      rw [Cursor.itemsFrom?, dif_neg (mt hat.length_le_iff.mp (List.cons_ne_nil _ _))]
      split
      · rename_i hnone
        rw [hnone] at hfound
        cases hfound
      · rename_i item next' hsome
        rw [hsome] at hfound
        cases hfound
        rw [ih hnext hline, Option.map_some]

theorem toByteArray_eq (source : String) :
    source.toByteArray.data.toList = encode source.toList := by
  rw [← String.utf8Encode_toList, List.utf8Encode, List.toList_data_toByteArray]
  rfl

/-- The scan over the bytes of a text finds the items of the text, and cuts no character. -/
theorem items?_eq (source : String) : items? source = some (items source) := by
  have hstart : Cursor.At ⟨source.toByteArray.data.toList, 0, 1⟩ [] source.toList :=
    ⟨toByteArray_eq source, rfl⟩
  exact hstart.itemsFrom? (scans_items source) rfl

end Cursor

end Scan

end Lox
