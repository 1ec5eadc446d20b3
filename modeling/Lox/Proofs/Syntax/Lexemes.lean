import Lox.Proofs.Syntax.Scanning

/-!
The lexical grammar.

`Lexes` says what the items of a text are, without a cursor: between items stand gaps and comments,
and each item is the longest stretch of its form that starts there. `items_eq_iff_lexes` says that
the scan finds exactly these items.
-/

namespace Lox.Scan

def IsGap (c : Char) : Prop := c = ' ' ∨ c = '\t' ∨ c = '\r' ∨ c = '\n'

/-- A gap or a comment comes next. -/
def StartsTrivia (text : List Char) : Prop :=
  (∃ c ∈ text.head?, IsGap c) ∨ ['/', '/'] <+: text

/-- The gaps and comments before `rest`. A comment goes on up to the end of its line. -/
inductive Skipped : List Char → List Char → Prop
  | nothing {rest : List Char} (h : ¬StartsTrivia rest) : Skipped [] rest
  | gap {c : Char} {w rest : List Char} (hc : IsGap c) (h : Skipped w rest) : Skipped (c :: w) rest
  | comment {body w rest : List Char} (hbody : '\n' ∉ body)
      (hend : ∀ c ∈ (w ++ rest).head?, c = '\n') (h : Skipped w rest) :
      Skipped ('/' :: '/' :: (body ++ w)) rest

/-- Of all stretches of this form at the start of `w ++ rest` the longest one is `w`. -/
def Longest (P : List Char → Prop) (w rest : List Char) : Prop :=
  P w ∧ ∀ v, P v → v <+: w ++ rest → v.length ≤ w.length

def IsSymbol (w : List Char) : Prop := ∃ s : Symbol, s.spelling.toList = w

/-- Digits, which may have a point and more digits after them, and their value. -/
inductive Numeral : List Char → Float → Prop
  | whole {digits : List Char} (hne : digits ≠ []) (h : ∀ c ∈ digits, isDigit c) :
      Numeral digits (numberOf digits [])
  | fraction {digits more : List Char} (hne : digits ≠ []) (h : ∀ c ∈ digits, isDigit c)
      (hmore : more ≠ []) (h' : ∀ c ∈ more, isDigit c) :
      Numeral (digits ++ '.' :: more) (numberOf digits more)

def IsNumeral (w : List Char) : Prop := ∃ value, Numeral w value

/-- A letter, with letters and digits after it. -/
def IsWord (w : List Char) : Prop :=
  ∃ first others, w = first :: others ∧ isLetter first ∧ ∀ c ∈ others, isWordPart c

/-- The kind of token that `w` is if `rest` follows. -/
inductive IsToken : Kind → List Char → List Char → Prop
  | symbol {s : Symbol} {rest : List Char} (h : Longest IsSymbol s.spelling.toList rest) :
      IsToken (.symbol s) s.spelling.toList rest
  | string {contents rest : List Char} (h : '"' ∉ contents) :
      IsToken (.string (String.ofList contents)) ('"' :: (contents ++ ['"'])) rest
  | number {w rest : List Char} {value : Float} (hvalue : Numeral w value)
      (h : Longest IsNumeral w rest) : IsToken (.number value) w rest
  | keyword {k : Keyword} {rest : List Char} (h : Longest IsWord k.spelling.toList rest) :
      IsToken (.keyword k) k.spelling.toList rest
  | identifier {w rest : List Char} (h : Longest IsWord w rest)
      (hword : ∀ k : Keyword, k.spelling.toList ≠ w) : IsToken .identifier w rest

/-- No token starts with this character. -/
def IsStray (c : Char) : Prop :=
  c ≠ '"' ∧ isDigit c = false ∧ isLetter c = false ∧ ∀ s : Symbol, s.spelling.toList.head? ≠ some c

/-- What is wrong with `w` if `rest` follows. -/
inductive IsFault : LexicalFault → List Char → List Char → Prop
  | unterminatedString {contents : List Char} (h : '"' ∉ contents) :
      IsFault .unterminatedString ('"' :: contents) []
  | unexpectedCharacter {c : Char} {rest : List Char} (h : IsStray c) :
      IsFault (.unexpectedCharacter c) [c] rest

/-- The items of a text that starts on a line. An item is on the line on which it ends. -/
inductive Lexes : Nat → List Char → List Item → Prop
  | done {line : Nat} {w : List Char} (h : Skipped w []) :
      Lexes line w [.token (.endOfInput (line + w.count '\n'))]
  | token {line : Nat} {w v rest : List Char} {k : Kind} {items : List Item}
      (hskip : Skipped w (v ++ rest)) (h : IsToken k v rest)
      (hrest : Lexes (line + (w ++ v).count '\n') rest items) :
      Lexes line (w ++ (v ++ rest))
        (.token ⟨k, String.ofList v, line + (w ++ v).count '\n'⟩ :: items)
  | fault {line : Nat} {w v rest : List Char} {f : LexicalFault} {items : List Item}
      (hskip : Skipped w (v ++ rest)) (h : IsFault f v rest)
      (hrest : Lexes (line + (w ++ v).count '\n') rest items) :
      Lexes line (w ++ (v ++ rest)) (.fault (line + (w ++ v).count '\n') f :: items)

variable {line : Nat} {w v rest text : List Char} {first c : Char}

theorem Longest.not_extends {P : List Char → Prop} (h : Longest P w (c :: (v ++ rest))) :
    ¬P (w ++ c :: v) := by
  intro hlonger
  have hle := h.2 _ hlonger ⟨rest, by simp⟩
  rw [List.length_append, List.length_cons] at hle
  omega

theorem isGap_iff : IsGap c ↔ c = '\n' ∨ isBlank c := by
  simp only [IsGap, isBlank, Bool.or_eq_true, decide_eq_true_eq]
  grind

theorem not_startsTrivia_cons_iff :
    ¬StartsTrivia (c :: rest) ↔ c ≠ '\n' ∧ isBlank c = false ∧ (c = '/' → '/' ∉ rest.head?) := by
  have hslashes : ['/', '/'] <+: c :: rest ↔ c = '/' ∧ '/' ∈ rest.head? := by
    rw [List.cons_prefix_cons]
    cases rest with
    | nil => simp
    | cons d rest => simp [List.cons_prefix_cons, eq_comm]
  simp only [StartsTrivia, List.head?_cons, Option.mem_def, Option.some.injEq, exists_eq_left',
    isGap_iff, hslashes, Bool.eq_false_iff]
  grind

mutual

theorem skipTrivia_skipped {line stop : Nat} {rest : List Char} :
    ∀ text, skipTrivia line text = (stop, rest) →
      ∃ w, text = w ++ rest ∧ stop = line + w.count '\n' ∧ Skipped w rest
  | [], h => by
      cases h
      exact ⟨[], rfl, rfl, .nothing (by simp [StartsTrivia])⟩
  | d :: text, h => by
      unfold skipTrivia at h
      split at h
      · rename_i hbreak
        subst hbreak
        obtain ⟨w, rfl, rfl, hw⟩ := skipTrivia_skipped text h
        exact ⟨_ :: w, rfl, by simp; omega, .gap (isGap_iff.mpr (.inl rfl)) hw⟩
      · rename_i hbreak
        split at h
        · rename_i hblank
          obtain ⟨w, rfl, rfl, hw⟩ := skipTrivia_skipped text h
          exact ⟨d :: w, rfl, by simp [hbreak], .gap (isGap_iff.mpr (.inr hblank)) hw⟩
        · rename_i hblank
          split at h
          · rename_i hslash
            split at h
            · rename_i comment
              obtain ⟨body, w, rfl, rfl, hbody, hend, hw⟩ := skipComment_skipped comment h
              refine ⟨d :: '/' :: (body ++ w), by simp, ?_, hslash ▸ .comment hbody hend hw⟩
              simp [hbreak, List.count_eq_zero.mpr hbody]
            · rename_i hcomment
              cases h
              refine ⟨[], rfl, rfl, .nothing (not_startsTrivia_cons_iff.mpr
                ⟨hbreak, by simpa using hblank, fun _ hhead => ?_⟩)⟩
              obtain ⟨comment, rfl⟩ := List.head?_eq_some_iff.mp hhead
              exact hcomment comment rfl
          · rename_i hslash
            cases h
            exact ⟨[], rfl, rfl, .nothing (not_startsTrivia_cons_iff.mpr
              ⟨hbreak, by simpa using hblank, fun h => absurd h hslash⟩)⟩

theorem skipComment_skipped {line stop : Nat} {rest : List Char} :
    ∀ text, skipComment line text = (stop, rest) →
      ∃ body w, text = body ++ (w ++ rest) ∧ stop = line + w.count '\n' ∧ '\n' ∉ body ∧
        (∀ c ∈ (w ++ rest).head?, c = '\n') ∧ Skipped w rest
  | [], h => by
      cases h
      exact ⟨[], [], rfl, rfl, by simp, by simp, .nothing (by simp [StartsTrivia])⟩
  | d :: text, h => by
      unfold skipComment at h
      split at h
      · rename_i hbreak
        subst hbreak
        obtain ⟨w, rfl, rfl, hw⟩ := skipTrivia_skipped text h
        exact ⟨[], _ :: w, rfl, by simp; omega, by simp, by simp,
          .gap (isGap_iff.mpr (.inl rfl)) hw⟩
      · rename_i hbreak
        obtain ⟨body, w, rfl, rfl, hbody, hend, hw⟩ := skipComment_skipped text h
        exact ⟨d :: body, w, rfl, rfl, by simp [hbody, Ne.symm hbreak], hend, hw⟩

end

theorem skipComment_of_notMem {body : List Char} (hbody : '\n' ∉ body)
    (hend : ∀ c ∈ rest.head?, c = '\n') :
    skipComment line (body ++ rest) = skipTrivia line rest := by
  induction body with
  | nil =>
      cases rest with
      | nil => rfl
      | cons c rest =>
          obtain rfl := hend c rfl
          rw [List.nil_append, skipComment, if_pos rfl, skipTrivia_cons_break]
  | cons c body ih =>
      rw [List.mem_cons, not_or] at hbody
      rw [List.cons_append, skipComment, if_neg (Ne.symm hbody.1), ih hbody.2]

theorem Skipped.skipTrivia_eq (h : Skipped w rest) :
    skipTrivia line (w ++ rest) = (line + w.count '\n', rest) := by
  induction h generalizing line with
  | @nothing rest h =>
      cases rest with
      | nil => rfl
      | cons c rest => exact skipTrivia_eq_self_iff.mpr (not_startsTrivia_cons_iff.mp h)
  | @gap c w rest hc _ ih =>
      rcases isGap_iff.mp hc with rfl | hblank
      · rw [List.cons_append, skipTrivia_cons_break, ih, List.count_cons_self, Nat.add_right_comm,
          Nat.add_assoc]
      · have hbreak : c ≠ '\n' := by
          rintro rfl
          exact absurd hblank (by decide)
        rw [List.cons_append, skipTrivia_cons_blank hblank, ih, List.count_cons_of_ne hbreak]
  | @comment body w rest hbody hend _ ih =>
      have hcount : ('/' :: '/' :: (body ++ w)).count '\n' = w.count '\n' := by
        simp [List.count_eq_zero.mpr hbody]
      rw [hcount, List.cons_append, List.cons_append, skipTrivia_cons_comment, List.append_assoc,
        skipComment_of_notMem hbody hend, ih]

section Symbols

variable {s alone joined : Symbol}

theorem Opening.of_spelling (s : Symbol) :
    (∃ c, s.spelling.toList = [c] ∧
        (Opening.of c = .mark s ∨ ∃ joined, Opening.of c = .operator s joined)) ∨
      ∃ c alone, s.spelling.toList = [c, '='] ∧ Opening.of c = .operator alone s := by
  cases s with
  | bang | equal | greater | less => exact .inl ⟨_, rfl, .inr ⟨_, rfl⟩⟩
  | bangEqual | equalEqual | greaterEqual | lessEqual => exact .inr ⟨_, _, rfl, rfl⟩
  | _ => exact .inl ⟨_, rfl, .inl rfl⟩

theorem Opening.spelling_of_mark (h : Opening.of c = .mark s) : s.spelling.toList = [c] := by
  unfold Opening.of at h
  split at h
  case h_17 =>
    split at h
    · cases h
    · split at h <;> cases h
  all_goals cases h <;> rfl

theorem Opening.spelling_of_operator (h : Opening.of c = .operator alone joined) :
    alone.spelling.toList = [c] ∧ joined.spelling.toList = [c, '='] := by
  unfold Opening.of at h
  split at h
  case h_17 =>
    split at h
    · cases h
    · split at h <;> cases h
  all_goals cases h <;> exact ⟨rfl, rfl⟩

theorem Opening.of_eq_digit_iff : Opening.of c = .digit ↔ isDigit c := by
  unfold Opening.of
  split
  case h_17 => grind
  all_goals decide

theorem Opening.of_eq_letter_iff : Opening.of c = .letter ↔ isLetter c := by
  unfold Opening.of
  split
  case h_17 => grind [not_isDigit_of_isLetter]
  all_goals decide

theorem Opening.of_eq_quote_iff : Opening.of c = .quote ↔ c = '"' := by
  unfold Opening.of
  split
  case h_17 => grind
  all_goals decide

theorem Opening.of_eq_stray_iff : Opening.of c = .stray ↔ IsStray c := by
  constructor
  · intro h
    refine ⟨?_, ?_, ?_, ?_⟩
    · rintro rfl
      cases h
    · rw [Bool.eq_false_iff, ne_eq, ← Opening.of_eq_digit_iff, h]
      simp
    · rw [Bool.eq_false_iff, ne_eq, ← Opening.of_eq_letter_iff, h]
      simp
    · intro s hs
      rcases Opening.of_spelling s with ⟨d, hd, hof | ⟨_, hof⟩⟩ | ⟨d, _, hd, hof⟩ <;>
        · rw [hd, List.head?_cons, Option.some.injEq] at hs
          rw [hs, h] at hof
          cases hof
  · rintro ⟨hquote, hdigit, hletter, hsymbol⟩
    cases hopening : Opening.of c with
    | mark s => exact absurd (by rw [Opening.spelling_of_mark hopening]; rfl) (hsymbol s)
    | operator alone joined =>
        exact absurd (by rw [(Opening.spelling_of_operator hopening).1]; rfl) (hsymbol alone)
    | quote => exact absurd (Opening.of_eq_quote_iff.mp hopening) hquote
    | digit =>
        rw [Opening.of_eq_digit_iff.mp hopening] at hdigit
        cases hdigit
    | letter =>
        rw [Opening.of_eq_letter_iff.mp hopening] at hletter
        cases hletter
    | stray => rfl

theorem IsSymbol.length_le (h : IsSymbol w) : w.length ≤ 2 := by
  obtain ⟨s, rfl⟩ := h
  rcases Opening.of_spelling s with ⟨c, hc, _⟩ | ⟨c, _, hc, _⟩ <;> simp [hc]

theorem longest_mark (h : Opening.of c = .mark s) (rest : List Char) :
    Longest IsSymbol s.spelling.toList rest := by
  refine ⟨⟨s, rfl⟩, ?_⟩
  rw [Opening.spelling_of_mark h]
  rintro _ ⟨s', rfl⟩ hinitial
  rcases Opening.of_spelling s' with ⟨d, hd, _⟩ | ⟨d, alone, hd, hof⟩
  · simp [hd]
  · rw [hd, List.singleton_append, List.cons_prefix_cons] at hinitial
    rw [hinitial.1, h] at hof
    cases hof

theorem longest_joined (h : Opening.of c = .operator alone joined) (rest : List Char) :
    Longest IsSymbol joined.spelling.toList rest := by
  refine ⟨⟨joined, rfl⟩, fun v hv _ => ?_⟩
  rw [(Opening.spelling_of_operator h).2]
  exact hv.length_le

theorem longest_alone_iff (h : Opening.of c = .operator alone joined) :
    Longest IsSymbol alone.spelling.toList rest ↔ '=' ∉ rest.head? := by
  obtain ⟨halone, hjoined⟩ := Opening.spelling_of_operator h
  rw [halone]
  constructor
  · intro hlongest hhead
    obtain ⟨rest, rfl⟩ := List.head?_eq_some_iff.mp hhead
    exact hlongest.not_extends (v := []) ⟨joined, hjoined⟩
  · intro hhead
    refine ⟨⟨alone, halone⟩, ?_⟩
    rintro _ ⟨s, rfl⟩ hinitial
    rcases Opening.of_spelling s with ⟨d, hd, _⟩ | ⟨d, _, hd, _⟩
    · simp [hd]
    · rw [hd, List.singleton_append, List.cons_prefix_cons] at hinitial
      obtain ⟨_, more, rfl⟩ := hinitial
      exact absurd rfl hhead

end Symbols

theorem prefix_takeWhile {p : Char → Bool} (hv : ∀ c ∈ v, p c) (h : v <+: text) :
    v <+: text.takeWhile p := by
  obtain ⟨more, rfl⟩ := h
  rw [List.takeWhile_append_of_pos hv]
  exact List.prefix_append _ _

theorem longest_word_iff :
    Longest IsWord (first :: w) rest ↔
      isLetter first ∧ (∀ c ∈ w, isWordPart c) ∧ ∀ c ∈ rest.head?, isWordPart c = false := by
  constructor
  · intro hlongest
    obtain ⟨_, _, hcons, hletter, hparts⟩ := hlongest.1
    cases hcons
    refine ⟨hletter, hparts, fun c hc => Bool.eq_false_iff.mpr fun hpart => ?_⟩
    obtain ⟨rest, rfl⟩ := List.head?_eq_some_iff.mp hc
    refine hlongest.not_extends (v := []) ⟨first, w ++ [c], rfl, hletter, ?_⟩
    simpa [or_imp, forall_and] using ⟨hparts, hpart⟩
  · rintro ⟨hletter, hparts, hstops⟩
    refine ⟨⟨_, _, rfl, hletter, hparts⟩, ?_⟩
    rintro _ ⟨first', others, rfl, _, hothers⟩ hinitial
    rw [List.cons_append, List.cons_prefix_cons] at hinitial
    have hle := (prefix_takeWhile hothers hinitial.2).length_le
    rw [(takeWhile_append_of_stops hparts _ hstops).1] at hle
    exact Nat.succ_le_succ hle

theorem not_isDigit_point : isDigit '.' = false := by decide

section Numerals

variable {digits more : List Char}

theorem whole_of_numeral (hdigits : ∀ c ∈ digits, isDigit c)
    (h : digits ++ '.' :: more <+: text) : text.takeWhile isDigit = digits := by
  obtain ⟨after, rfl⟩ := h
  rw [List.append_assoc, List.takeWhile_append_of_pos hdigits, List.cons_append,
    List.takeWhile_cons_of_neg (by simp [not_isDigit_point]), List.append_nil]

theorem longest_whole_iff (hne : digits ≠ []) (hdigits : ∀ c ∈ digits, isDigit c) :
    Longest IsNumeral digits rest ↔
      (∀ c ∈ rest.head?, isDigit c = false) ∧ fraction? rest = none := by
  constructor
  · intro hlongest
    constructor
    · intro c hc
      rw [Bool.eq_false_iff]
      intro hdigit
      obtain ⟨rest, rfl⟩ := List.head?_eq_some_iff.mp hc
      refine hlongest.not_extends (v := []) ⟨_, .whole (by simp) ?_⟩
      simpa [or_imp, forall_and] using ⟨hdigits, hdigit⟩
    · rw [Option.eq_none_iff_forall_ne_some]
      rintro ⟨more, after⟩ hfraction
      obtain ⟨rfl, hmore, hmoreDigits, _⟩ := fraction?_eq_some_iff.mp hfraction
      exact hlongest.not_extends ⟨_, .fraction hne hdigits hmore hmoreDigits⟩
  · rintro ⟨hstops, hfraction⟩
    refine ⟨⟨_, .whole hne hdigits⟩, ?_⟩
    have htake := (takeWhile_append_of_stops hdigits _ hstops).1
    rintro v ⟨_, hv⟩ hinitial
    cases hv with
    | whole _ hv =>
        have hle := (prefix_takeWhile hv hinitial).length_le
        rwa [htake] at hle
    | @fraction digits' more hne' hdigits' hmore hmoreDigits =>
        rw [whole_of_numeral hdigits' hinitial] at htake
        subst htake
        obtain ⟨after, hafter⟩ := hinitial
        rw [List.append_assoc, List.append_cancel_left_eq] at hafter
        subst hafter
        cases more with
        | nil => exact absurd rfl hmore
        | cons d more =>
            have hdigit := fraction?_eq_none_iff.mp hfraction _ rfl d rfl
            rw [hmoreDigits d List.mem_cons_self] at hdigit
            cases hdigit

theorem longest_fraction_iff (hne : digits ≠ []) (hdigits : ∀ c ∈ digits, isDigit c)
    (hmore : more ≠ []) (hmoreDigits : ∀ c ∈ more, isDigit c) :
    Longest IsNumeral (digits ++ '.' :: more) rest ↔ ∀ c ∈ rest.head?, isDigit c = false := by
  constructor
  · intro hlongest c hc
    rw [Bool.eq_false_iff]
    intro hdigit
    obtain ⟨rest, rfl⟩ := List.head?_eq_some_iff.mp hc
    have hnumeral : Numeral (digits ++ '.' :: (more ++ [c])) (numberOf digits (more ++ [c])) :=
      .fraction hne hdigits (by simp) (by simpa [or_imp, forall_and] using ⟨hmoreDigits, hdigit⟩)
    exact hlongest.not_extends (v := []) ⟨_, by simpa using hnumeral⟩
  · intro hstops
    refine ⟨⟨_, .fraction hne hdigits hmore hmoreDigits⟩, ?_⟩
    have htake : (digits ++ '.' :: more ++ rest).takeWhile isDigit = digits :=
      whole_of_numeral hdigits (List.prefix_append _ _)
    rintro v ⟨_, hv⟩ hinitial
    cases hv with
    | whole _ hv =>
        have hle := (prefix_takeWhile hv hinitial).length_le
        rw [htake] at hle
        exact Nat.le_trans hle (by simp)
    | @fraction digits' more' _ hdigits' _ hmoreDigits' =>
        rw [whole_of_numeral hdigits' hinitial] at htake
        subst htake
        rw [List.append_assoc, List.prefix_append_right_inj, List.cons_append,
          List.cons_prefix_cons] at hinitial
        have hle := (prefix_takeWhile hmoreDigits' hinitial.2).length_le
        rw [(takeWhile_append_of_stops hmoreDigits _ hstops).1] at hle
        simpa using hle

end Numerals

/-- The token of kind `k` that is spelled `w`. -/
def Munch.ofToken (line : Nat) (k : Kind) (w rest : List Char) : Munch :=
  ⟨.token ⟨k, String.ofList w, line + w.count '\n'⟩, line + w.count '\n', rest⟩

def Munch.ofFault (line : Nat) (f : LexicalFault) (w rest : List Char) : Munch :=
  ⟨.fault (line + w.count '\n') f, line + w.count '\n', rest⟩

theorem munch_symbol {s : Symbol} (hw : first :: v = s.spelling.toList)
    (h : Longest IsSymbol s.spelling.toList rest) :
    munch line first (v ++ rest) = .ofToken line (.symbol s) s.spelling.toList rest := by
  have hcount : s.spelling.toList.count '\n' = 0 := by cases s <;> decide
  rw [Munch.ofToken, hcount, String.ofList_toList]
  rcases Opening.of_spelling s with ⟨c, hc, hof | ⟨joined, hof⟩⟩ | ⟨c, alone, hc, hof⟩
  · obtain ⟨rfl, rfl⟩ := List.cons.inj (hw.trans hc)
    rw [munch, hof]
    rfl
  · obtain ⟨rfl, rfl⟩ := List.cons.inj (hw.trans hc)
    exact munch_alone hof ((longest_alone_iff hof).mp h)
  · obtain ⟨rfl, rfl⟩ := List.cons.inj (hw.trans hc)
    exact munch_joined hof rest

theorem munch_word (h : Longest IsWord (first :: v) rest) :
    munch line first (v ++ rest) =
      .ofToken line (wordKind (String.ofList (first :: v))) (first :: v) rest := by
  obtain ⟨hletter, hparts, hstops⟩ := longest_word_iff.mp h
  have hcount : (first :: v).count '\n' = 0 :=
    count_eq_zero_of_all (p := isWordPart) (by simpa [isWordPart_of_isLetter hletter] using hparts)
      (by decide)
  rw [munch, Opening.of_eq_letter_iff.mpr hletter, Munch.ofToken, hcount]
  exact munchWord_append hparts hstops

theorem munch_number {value : Float} (hvalue : Numeral (first :: v) value)
    (h : Longest IsNumeral (first :: v) rest) :
    munch line first (v ++ rest) = .ofToken line (.number value) (first :: v) rest := by
  generalize hw : first :: v = w at hvalue h
  cases hvalue with
  | whole hne hdigits =>
      obtain ⟨hstops, hfraction⟩ := (longest_whole_iff hne hdigits).mp h
      subst hw
      have hdigit : isDigit first := hdigits first List.mem_cons_self
      have hcount := count_eq_zero_of_all hdigits (by decide)
      rw [munch, Opening.of_eq_digit_iff.mpr hdigit, Munch.ofToken, hcount]
      exact munchNumber_whole (fun c hc => hdigits c (List.mem_cons_of_mem _ hc)) hstops hfraction
  | @fraction digits more hne hdigits hmore hmoreDigits =>
      have hstops := (longest_fraction_iff hne hdigits hmore hmoreDigits).mp h
      cases digits with
      | nil => exact absurd rfl hne
      | cons d digits =>
          obtain ⟨rfl, rfl⟩ : first = d ∧ v = digits ++ '.' :: more := by simpa using hw
          have hdigit : isDigit first := hdigits first List.mem_cons_self
          have hcount : (first :: digits ++ '.' :: more).count '\n' = 0 := by
            rw [List.count_append, count_eq_zero_of_all hdigits (by decide),
              List.count_cons_of_ne (by decide), count_eq_zero_of_all hmoreDigits (by decide)]
          rw [munch, Opening.of_eq_digit_iff.mpr hdigit, Munch.ofToken, hcount, List.append_assoc]
          exact munchNumber_fraction (fun c hc => hdigits c (List.mem_cons_of_mem _ hc))
            (fraction?_eq_some_iff.mpr ⟨rfl, hmore, hmoreDigits, hstops⟩)

theorem munch_token {k : Kind} (h : IsToken k (first :: v) rest) :
    munch line first (v ++ rest) = .ofToken line k (first :: v) rest := by
  generalize hw : first :: v = w at h
  cases h with
  | symbol h => exact munch_symbol hw h
  | @string contents _ h =>
      obtain ⟨rfl, rfl⟩ := List.cons.inj hw
      have hcontents : ∀ c ∈ contents, decide (c ≠ '"') = true := fun c hc =>
        decide_eq_true fun heq => h (heq ▸ hc)
      rw [List.append_assoc, munch, Opening.of_eq_quote_iff.mpr rfl]
      simpa [Munch.ofToken] using munchString_append hcontents rest
  | number hvalue h =>
      subst hw
      exact munch_number hvalue h
  | @keyword k _ h =>
      rw [← hw] at h ⊢
      have hkeyword : wordKind (String.ofList (first :: v)) = .keyword k := by
        rw [hw, String.ofList_toList, wordKind, Keyword.ofSpelling?_spelling]
      rw [munch_word h, hkeyword]
  | identifier h hword =>
      subst hw
      have hidentifier : wordKind (String.ofList (first :: v)) = .identifier := by
        have hnone : Keyword.ofSpelling? (String.ofList (first :: v)) = none := by
          rw [Option.eq_none_iff_forall_ne_some]
          intro k hk
          rw [Keyword.ofSpelling?_eq_some_iff] at hk
          exact hword k (by rw [hk, String.toList_ofList])
        rw [wordKind, hnone]
      rw [munch_word h, hidentifier]

theorem munch_fault {f : LexicalFault} (h : IsFault f (first :: v) rest) (hbreak : first ≠ '\n') :
    munch line first (v ++ rest) = .ofFault line f (first :: v) rest := by
  generalize hw : first :: v = w at h
  cases h with
  | @unterminatedString contents h =>
      obtain ⟨rfl, rfl⟩ := List.cons.inj hw
      have hcontents : ∀ c ∈ v, decide (c ≠ '"') = true := fun c hc =>
        decide_eq_true fun heq => h (heq ▸ hc)
      obtain ⟨htake, hdrop⟩ := takeWhile_append_of_stops hcontents [] (by simp)
      rw [munch, Opening.of_eq_quote_iff.mpr rfl, munchString, hdrop, htake, Munch.ofFault,
        List.count_cons_of_ne (by decide)]
  | @unexpectedCharacter c _ h =>
      obtain ⟨rfl, rfl⟩ := List.cons.inj hw
      rw [munch, Opening.of_eq_stray_iff.mpr h, Munch.ofFault, List.count_cons_of_ne hbreak]
      rfl

theorem exists_isToken_of_symbol {s : Symbol} (hw : s.spelling.toList = w)
    (h : Longest IsSymbol s.spelling.toList rest) : ∃ k, IsToken k w rest := by
  subst hw
  exact ⟨_, .symbol h⟩

theorem exists_isToken_of_word (h : Longest IsWord w rest) : ∃ k, IsToken k w rest := by
  by_cases hword : ∃ k : Keyword, k.spelling.toList = w
  · obtain ⟨k, rfl⟩ := hword
    exact ⟨_, .keyword h⟩
  · exact ⟨_, .identifier h fun k hk => hword ⟨k, hk⟩⟩

theorem exists_isToken_of_digit (hdigit : isDigit first) (text : List Char) :
    ∃ v rest, text = v ++ rest ∧ ∃ k, IsToken k (first :: v) rest := by
  have hwhole : ∀ c ∈ first :: text.takeWhile isDigit, isDigit c := by
    rw [List.forall_mem_cons]
    exact ⟨hdigit, fun c hc => List.mem_takeWhile_imp hc⟩
  have hstops := head?_dropWhile isDigit text
  have hne : first :: text.takeWhile isDigit ≠ [] := List.cons_ne_nil _ _
  cases hfraction : fraction? (text.dropWhile isDigit) with
  | none =>
      exact ⟨_, _, List.takeWhile_append_dropWhile.symm, _, .number (.whole hne hwhole)
        ((longest_whole_iff hne hwhole).mpr ⟨hstops, hfraction⟩)⟩
  | some found =>
      obtain ⟨more, rest⟩ := found
      obtain ⟨hafter, hmore, hmoreDigits, hstops'⟩ := fraction?_eq_some_iff.mp hfraction
      refine ⟨text.takeWhile isDigit ++ '.' :: more, rest, ?_, _,
        .number (.fraction hne hwhole hmore hmoreDigits)
          ((longest_fraction_iff hne hwhole hmore hmoreDigits).mpr hstops')⟩
      rw [List.append_assoc, List.cons_append, ← hafter, List.takeWhile_append_dropWhile]

theorem exists_lexeme (first : Char) (text : List Char) :
    ∃ v rest, text = v ++ rest ∧
      ((∃ k, IsToken k (first :: v) rest) ∨ ∃ f, IsFault f (first :: v) rest) := by
  cases hopening : Opening.of first with
  | mark s =>
      exact ⟨[], text, rfl, .inl (exists_isToken_of_symbol (Opening.spelling_of_mark hopening)
        (longest_mark hopening text))⟩
  | operator alone joined =>
      obtain ⟨halone, hjoined⟩ := Opening.spelling_of_operator hopening
      by_cases hhead : '=' ∈ text.head?
      · obtain ⟨rest, rfl⟩ := List.head?_eq_some_iff.mp hhead
        exact ⟨['='], rest, rfl,
          .inl (exists_isToken_of_symbol hjoined (longest_joined hopening rest))⟩
      · exact ⟨[], text, rfl,
          .inl (exists_isToken_of_symbol halone ((longest_alone_iff hopening).mpr hhead))⟩
  | quote =>
      obtain rfl := Opening.of_eq_quote_iff.mp hopening
      by_cases hquote : '"' ∈ text
      · obtain ⟨contents, rest, rfl, hcontents⟩ := List.eq_append_cons_of_mem hquote
        exact ⟨contents ++ ['"'], rest, by simp, .inl ⟨_, .string hcontents⟩⟩
      · exact ⟨text, [], by simp, .inr ⟨_, .unterminatedString hquote⟩⟩
  | digit =>
      obtain ⟨v, rest, rfl, htoken⟩ :=
        exists_isToken_of_digit (Opening.of_eq_digit_iff.mp hopening) text
      exact ⟨v, rest, rfl, .inl htoken⟩
  | letter =>
      have hparts : ∀ c ∈ text.takeWhile isWordPart, isWordPart c :=
        fun c hc => List.mem_takeWhile_imp hc
      exact ⟨_, _, List.takeWhile_append_dropWhile.symm, .inl (exists_isToken_of_word
        (longest_word_iff.mpr ⟨Opening.of_eq_letter_iff.mp hopening, hparts,
          head?_dropWhile isWordPart text⟩))⟩
  | stray =>
      exact ⟨[], text, rfl, .inr ⟨_, .unexpectedCharacter (Opening.of_eq_stray_iff.mp hopening)⟩⟩

theorem IsToken.ne_nil {k : Kind} (h : IsToken k w rest) : w ≠ [] := by
  cases h with
  | @symbol s _ h =>
      rcases Opening.of_spelling s with ⟨c, hc, _⟩ | ⟨c, _, hc, _⟩ <;> simp [hc]
  | string => simp
  | number hvalue =>
      cases hvalue with
      | whole hne => exact hne
      | fraction => simp
  | keyword h | identifier h =>
      obtain ⟨_, _, hw, _⟩ := h.1
      simp [hw]

theorem IsFault.ne_nil {f : LexicalFault} (h : IsFault f w rest) : w ≠ [] := by
  cases h <;> simp

theorem Skipped.ne_break (h : Skipped w (first :: rest)) : first ≠ '\n' := by
  generalize hrest : first :: rest = after at h
  induction h with
  | nothing h =>
      subst hrest
      exact (not_startsTrivia_cons_iff.mp h).1
  | gap _ _ ih | comment _ _ _ ih => exact ih hrest

theorem Scans.of_munch {start : Nat} {m : Munch} {items : List Item}
    (hskip : skipTrivia line text = (start, first :: rest)) (hmunch : munch start first rest = m)
    (hrest : Scans m.line m.rest items) : Scans line text (m.item :: items) := by
  subst hmunch
  exact .item hskip hrest

theorem Lexes.scans {found : List Item} (h : Lexes line text found) : Scans line text found := by
  induction h with
  | done h => exact .done (by simpa using h.skipTrivia_eq)
  | token hskip h _ ih =>
      obtain ⟨first, v, rfl⟩ := List.exists_cons_of_ne_nil h.ne_nil
      rw [List.count_append, ← Nat.add_assoc] at ih ⊢
      exact .of_munch hskip.skipTrivia_eq (munch_token h) ih
  | fault hskip h _ ih =>
      obtain ⟨first, v, rfl⟩ := List.exists_cons_of_ne_nil h.ne_nil
      rw [List.count_append, ← Nat.add_assoc] at ih ⊢
      exact .of_munch hskip.skipTrivia_eq (munch_fault h hskip.ne_break) ih

theorem Scans.lexes {found : List Item} (h : Scans line text found) : Lexes line text found := by
  induction h with
  | done h =>
      obtain ⟨w, rfl, rfl, hw⟩ := skipTrivia_skipped _ h
      rw [List.append_nil]
      exact .done hw
  | @item line start first text rest items h _ ih =>
      obtain ⟨w, rfl, rfl, hw⟩ := skipTrivia_skipped _ h
      obtain ⟨v, after, rfl, ⟨k, hk⟩ | ⟨f, hf⟩⟩ := exists_lexeme first rest
      · rw [munch_token hk, Munch.ofToken, Nat.add_assoc, ← List.count_append] at ih ⊢
        exact .token hw hk ih
      · rw [munch_fault hf hw.ne_break, Munch.ofFault, Nat.add_assoc, ← List.count_append] at ih ⊢
        exact .fault hw hf ih

theorem IsToken.kind_ne_end {k : Kind} (h : IsToken k w rest) : k ≠ .endOfInput := by
  cases h <;> simp

theorem Lexes.ends {found : List Item} (h : Lexes line text found) :
    ∃ before stop, found = before ++ [.token (.endOfInput stop)] ∧
      ∀ t, .token t ∈ before → t.isEnd = false := by
  induction h with
  | done => exact ⟨[], _, rfl, by simp⟩
  | token _ htoken _ ih =>
      obtain ⟨before, stop, rfl, hbefore⟩ := ih
      refine ⟨_ :: before, stop, rfl, fun t ht => ?_⟩
      rcases List.mem_cons.mp ht with heq | ht
      · cases heq
        exact decide_eq_false htoken.kind_ne_end
      · exact hbefore t ht
  | fault _ _ _ ih =>
      obtain ⟨before, stop, rfl, hbefore⟩ := ih
      refine ⟨_ :: before, stop, rfl, fun t ht => ?_⟩
      rcases List.mem_cons.mp ht with heq | ht
      · cases heq
      · exact hbefore t ht

/-- The scan finds the items that the lexical grammar gives, and no others. -/
theorem items_eq_iff_lexes {source : String} {found : List Item} :
    items source = found ↔ Lexes 1 source.toList found :=
  items_eq_iff.trans ⟨Scans.lexes, Lexes.scans⟩

end Lox.Scan
