import Lox.Token.Scan
import Mathlib.Data.List.TakeWhile

/-!
How the scan of a text depends on what follows.

`Scans` is the scan as a relation, one item after the other. An item stays as it is when the text
after it is replaced by another one that does not go on with it.
-/

namespace Lox.Scan

/-- The items of a text that starts on a line. -/
inductive Scans : Nat → List Char → List Item → Prop
  | done {line stop : Nat} {text : List Char} (h : skipTrivia line text = (stop, [])) :
      Scans line text [.token (.endOfInput stop)]
  | item {line start : Nat} {first : Char} {text rest : List Char} {items : List Item}
      (h : skipTrivia line text = (start, first :: rest))
      (hrest : Scans (munch start first rest).line (munch start first rest).rest items) :
      Scans line text ((munch start first rest).item :: items)

theorem itemsAfter_scans (found : Array Item) (line : Nat) (text : List Char) :
    ∃ items, (itemsAfter found line text).toList = found.toList ++ items ∧
      Scans line text items := by
  rw [itemsAfter]
  split
  · rename_i stop h
    exact ⟨_, by simp, .done h⟩
  · rename_i start first rest h
    have hlt : (munch start first rest).rest.length < text.length := by
      have hskip := length_skipTrivia_le line text
      rw [h] at hskip
      exact Nat.lt_of_le_of_lt (length_munch_rest_le start first rest) hskip
    obtain ⟨items, hitems, hscans⟩ := itemsAfter_scans
      (found.push (munch start first rest).item) (munch start first rest).line
      (munch start first rest).rest
    exact ⟨_ :: items, by simp [hitems], .item h hscans⟩
termination_by text.length

theorem Scans.unique {line : Nat} {text : List Char} {items items' : List Item}
    (h : Scans line text items) (h' : Scans line text items') : items = items' := by
  induction h generalizing items' with
  | done h =>
      cases h' with
      | done h' =>
          rw [h] at h'
          cases h'
          rfl
      | item h' =>
          rw [h] at h'
          cases h'
  | item h _ ih =>
      cases h' with
      | done h' =>
          rw [h] at h'
          cases h'
      | item h' hrest =>
          rw [h] at h'
          cases h'
          rw [ih hrest]

theorem items_eq_iff {source : String} {found : List Item} :
    items source = found ↔ Scans 1 source.toList found := by
  obtain ⟨found', hitems, hscans⟩ := itemsAfter_scans #[] 1 source.toList
  have heq : items source = found' := hitems
  rw [heq]
  constructor
  · rintro rfl
    exact hscans
  · exact hscans.unique

theorem scans_items (source : String) : Scans 1 source.toList (items source) :=
  items_eq_iff.mp rfl

theorem Scans.of_skipTrivia {line line' : Nat} {text text' : List Char} {items : List Item}
    (hskip : skipTrivia line text = skipTrivia line' text') (h : Scans line' text' items) :
    Scans line text items := by
  cases h with
  | done h => exact .done (hskip.trans h)
  | item h hrest => exact .item (hskip.trans h) hrest

theorem skipTrivia_cons_break (line : Nat) (text : List Char) :
    skipTrivia line ('\n' :: text) = skipTrivia (line + 1) text := by
  rw [skipTrivia.eq_def]
  rfl

theorem skipTrivia_cons_blank {line : Nat} {c : Char} (h : isBlank c) (text : List Char) :
    skipTrivia line (c :: text) = skipTrivia line text := by
  have hbreak : c ≠ '\n' := by
    rintro rfl
    exact absurd h (by decide)
  rw [skipTrivia.eq_def]
  dsimp only
  rw [if_neg hbreak, if_pos h]

theorem skipTrivia_cons_comment (line : Nat) (text : List Char) :
    skipTrivia line ('/' :: '/' :: text) = skipComment line text := by
  rw [skipTrivia.eq_def]
  rfl

mutual

theorem skipTrivia_before {line stop : Nat} {c : Char} {rest : List Char} :
    ∀ text, skipTrivia line text = (stop, c :: rest) →
      ∃ w, text = w ++ c :: rest ∧ stop = line + w.count '\n' ∧
        ∀ rest', skipTrivia line (w ++ rest') = skipTrivia stop rest'
  | [], h => by cases h
  | d :: text, h => by
      unfold skipTrivia at h
      split at h
      · rename_i hbreak
        subst hbreak
        obtain ⟨w, rfl, rfl, hw⟩ := skipTrivia_before text h
        refine ⟨_ :: w, rfl, by simp; omega, ?_⟩
        intro rest'
        rw [List.cons_append, skipTrivia_cons_break, hw]
      · rename_i hbreak
        split at h
        · rename_i hblank
          obtain ⟨w, rfl, rfl, hw⟩ := skipTrivia_before text h
          refine ⟨d :: w, rfl, by simp [hbreak], ?_⟩
          intro rest'
          rw [List.cons_append, skipTrivia_cons_blank hblank, hw]
        · rename_i hblank
          split at h
          · rename_i hslash
            split at h
            · rename_i comment
              obtain ⟨w, rfl, rfl, hw⟩ := skipComment_before comment h
              refine ⟨d :: '/' :: w, rfl, by simp [hbreak], ?_⟩
              intro rest'
              rw [hslash, List.cons_append, List.cons_append, skipTrivia_cons_comment, hw]
            · cases h
              exact ⟨[], rfl, rfl, fun _ => rfl⟩
          · cases h
            exact ⟨[], rfl, rfl, fun _ => rfl⟩

theorem skipComment_before {line stop : Nat} {c : Char} {rest : List Char} :
    ∀ text, skipComment line text = (stop, c :: rest) →
      ∃ w, text = w ++ c :: rest ∧ stop = line + w.count '\n' ∧
        ∀ rest', skipComment line (w ++ rest') = skipTrivia stop rest'
  | [], h => by cases h
  | d :: text, h => by
      unfold skipComment at h
      split at h
      · rename_i hbreak
        obtain ⟨w, rfl, rfl, hw⟩ := skipTrivia_before text h
        refine ⟨d :: w, rfl, by simp [hbreak]; omega, ?_⟩
        intro rest'
        rw [List.cons_append, skipComment, if_pos hbreak, hw]
      · rename_i hbreak
        obtain ⟨w, rfl, rfl, hw⟩ := skipComment_before text h
        refine ⟨d :: w, rfl, by simp [hbreak], ?_⟩
        intro rest'
        rw [List.cons_append, skipComment, if_neg hbreak, hw]

end

theorem skipTrivia_eq_self_iff {line : Nat} {c : Char} {rest : List Char} :
    skipTrivia line (c :: rest) = (line, c :: rest) ↔
      c ≠ '\n' ∧ isBlank c = false ∧ (c = '/' → '/' ∉ rest.head?) := by
  have hshorter : ∀ found : Nat × List Char, found.2.length ≤ rest.length →
      found ≠ (line, c :: rest) := by
    rintro found hle rfl
    exact Nat.not_succ_le_self _ hle
  constructor
  · intro h
    refine ⟨?_, ?_, ?_⟩
    · rintro rfl
      rw [skipTrivia_cons_break] at h
      exact hshorter _ (length_skipTrivia_le _ _) h
    · rw [Bool.eq_false_iff]
      intro hblank
      rw [skipTrivia_cons_blank hblank] at h
      exact hshorter _ (length_skipTrivia_le _ _) h
    · rintro rfl hslash
      obtain ⟨comment, rfl⟩ := List.head?_eq_some_iff.mp hslash
      rw [skipTrivia_cons_comment] at h
      exact hshorter _ (Nat.le_succ_of_le (length_skipComment_le _ _)) h
  · rintro ⟨hbreak, hblank, hslash⟩
    rw [skipTrivia.eq_def]
    dsimp only
    rw [if_neg hbreak, if_neg (by simp [hblank])]
    split
    · rename_i hc
      split
      · exact absurd rfl (hslash hc)
      · rfl
    · rfl

/-- What stands in `rest'` goes on with an item only if what stands in `rest` does. -/
structure Follows (rest rest' : List Char) : Prop where
  head : ∀ c ∈ rest'.head?, c = '\n' ∨ ∃ d ∈ rest.head?, d = c ∨ (isLetter d ∧ isLetter c)
  fraction : fraction? rest = none → fraction? rest' = none

variable {rest rest' text : List Char} {p : Char → Bool} {line : Nat} {first : Char}

theorem Follows.refl (rest : List Char) : Follows rest rest :=
  ⟨fun c hc => .inr ⟨c, hc, .inl rfl⟩, id⟩

theorem Follows.stops (h : Follows rest rest') (hbreak : p '\n' = false)
    (hletters : ∀ c d, isLetter c → isLetter d → p c = p d)
    (hstops : ∀ c ∈ rest.head?, p c = false) :
    ∀ c ∈ rest'.head?, p c = false := by
  intro c hc
  rcases h.head c hc with rfl | ⟨d, hd, rfl | ⟨hletter, hletter'⟩⟩
  · exact hbreak
  · exact hstops d hd
  · exact (hletters c d hletter' hletter).trans (hstops d hd)

theorem takeWhile_append_of_stops {w : List Char} (hw : ∀ c ∈ w, p c) (rest : List Char)
    (hstops : ∀ c ∈ rest.head?, p c = false) :
    (w ++ rest).takeWhile p = w ∧ (w ++ rest).dropWhile p = rest := by
  rw [List.takeWhile_append_of_pos hw, List.dropWhile_append_of_pos hw]
  cases rest with
  | nil => simp
  | cons c rest => simp [hstops c rfl]

theorem head?_dropWhile (p : Char → Bool) (text : List Char) :
    ∀ c ∈ (text.dropWhile p).head?, p c = false := by
  intro c hc
  have h := List.head?_dropWhile_not p text
  rw [show (text.dropWhile p).head? = some c from hc] at h
  simpa using h

theorem isLetter_iff {c : Char} :
    isLetter c ↔ (97 ≤ c.toNat ∧ c.toNat ≤ 122) ∨ (65 ≤ c.toNat ∧ c.toNat ≤ 90) ∨ c = '_' := by
  simp only [isLetter, Bool.or_eq_true, Bool.and_eq_true, decide_eq_true_eq, or_assoc]
  rfl

theorem isDigit_iff {c : Char} : isDigit c ↔ 48 ≤ c.toNat ∧ c.toNat ≤ 57 := by
  simp only [isDigit, Bool.and_eq_true, decide_eq_true_eq]
  rfl

theorem not_isDigit_of_isLetter {c : Char} (h : isLetter c) : isDigit c = false := by
  rw [Bool.eq_false_iff, ne_eq, isDigit_iff]
  rcases isLetter_iff.mp h with h | h | rfl
  · omega
  · omega
  · decide

theorem isWordPart_of_isLetter {c : Char} (h : isLetter c) : isWordPart c := by
  simp [isWordPart, h]

theorem munchWord_append {w : List Char} (hw : ∀ c ∈ w, isWordPart c)
    (hstops : ∀ c ∈ rest.head?, isWordPart c = false) :
    munchWord line first (w ++ rest) =
      ⟨.token ⟨wordKind (String.ofList (first :: w)), String.ofList (first :: w), line⟩, line,
        rest⟩ := by
  obtain ⟨htake, hdrop⟩ := takeWhile_append_of_stops hw _ hstops
  rw [munchWord, htake, hdrop]

/-- What is scanned takes `w` from the text, and would take it from any other text that does not go
on with it. -/
structure Takes (scan : List Char → Munch) (line : Nat) (text w : List Char) : Prop where
  eq_append : text = w ++ (scan text).rest
  line_eq : (scan text).line = line + w.count '\n'
  before : ∀ rest', Follows (scan text).rest rest' →
    scan (w ++ rest') = { scan text with rest := rest' }

theorem count_eq_zero_of_all {w : List Char} (hw : ∀ c ∈ w, p c) (hbreak : p '\n' = false) :
    w.count '\n' = 0 := by
  refine List.count_eq_zero.mpr fun hmem => ?_
  rw [hw _ hmem] at hbreak
  cases hbreak

theorem munchWord_takes :
    Takes (munchWord line first) line text (text.takeWhile isWordPart) := by
  have hword : ∀ c ∈ text.takeWhile isWordPart, isWordPart c :=
    fun c hc => List.mem_takeWhile_imp hc
  refine ⟨(List.takeWhile_append_dropWhile ..).symm, ?_, ?_⟩
  · rw [count_eq_zero_of_all hword (by decide)]
    rfl
  · intro rest' hfollows
    have hletters : ∀ c d, isLetter c → isLetter d → isWordPart c = isWordPart d := by
      intro c d hc hd
      rw [isWordPart_of_isLetter hc, isWordPart_of_isLetter hd]
    rw [munchWord_append hword
      (hfollows.stops (by decide) hletters (head?_dropWhile isWordPart text))]
    rfl

theorem fraction?_eq_some_iff {digits : List Char} :
    fraction? text = some (digits, rest) ↔
      text = '.' :: (digits ++ rest) ∧ digits ≠ [] ∧ (∀ c ∈ digits, isDigit c) ∧
        ∀ c ∈ rest.head?, isDigit c = false := by
  constructor
  · intro h
    unfold fraction? at h
    split at h
    · split at h
      · cases h
      · rename_i hempty
        cases h
        exact ⟨by rw [List.takeWhile_append_dropWhile], by simpa using hempty,
          fun c hc => List.mem_takeWhile_imp hc, head?_dropWhile isDigit _⟩
    · cases h
  · rintro ⟨rfl, hne, hdigits, hstops⟩
    obtain ⟨htake, hdrop⟩ := takeWhile_append_of_stops hdigits _ hstops
    rw [fraction?, htake, hdrop, if_neg (by simpa using hne)]

theorem fraction?_eq_none_iff :
    fraction? text = none ↔
      ∀ after, text = '.' :: after → ∀ c ∈ after.head?, isDigit c = false := by
  constructor
  · rintro h after rfl c hc
    rw [fraction?] at h
    split at h
    · rename_i hempty
      obtain ⟨after, rfl⟩ := List.head?_eq_some_iff.mp hc
      simpa using hempty
    · cases h
  · intro h
    unfold fraction?
    split
    · rename_i after
      rw [if_pos]
      cases after with
      | nil => rfl
      | cons c after => simp [h _ rfl c rfl]
    · rfl

theorem isDigit_letters (c d : Char) (hc : isLetter c) (hd : isLetter d) :
    isDigit c = isDigit d := by
  rw [not_isDigit_of_isLetter hc, not_isDigit_of_isLetter hd]

theorem munchNumber_whole {w : List Char} (hw : ∀ c ∈ w, isDigit c)
    (hstops : ∀ c ∈ rest.head?, isDigit c = false) (hfraction : fraction? rest = none) :
    munchNumber line first (w ++ rest) =
      ⟨.token ⟨.number (numberOf (first :: w) []), String.ofList (first :: w), line⟩, line,
        rest⟩ := by
  obtain ⟨htake, hdrop⟩ := takeWhile_append_of_stops hw _ hstops
  rw [munchNumber, htake, hdrop, hfraction]

theorem munchNumber_fraction {w after digits : List Char} (hw : ∀ c ∈ w, isDigit c)
    (hfraction : fraction? after = some (digits, rest)) :
    munchNumber line first (w ++ after) =
      ⟨.token ⟨.number (numberOf (first :: w) digits), String.ofList (first :: w ++ '.' :: digits),
        line⟩, line, rest⟩ := by
  obtain ⟨rfl, -⟩ := fraction?_eq_some_iff.mp hfraction
  obtain ⟨htake, hdrop⟩ := takeWhile_append_of_stops hw ('.' :: (digits ++ rest))
    (by simp [isDigit])
  rw [munchNumber, htake, hdrop, hfraction]

theorem munchNumber_takes : ∃ w, Takes (munchNumber line first) line text w := by
  have hdigits : ∀ c ∈ text.takeWhile isDigit, isDigit c := fun c hc => List.mem_takeWhile_imp hc
  have hstops := head?_dropWhile isDigit text
  rw [← List.takeWhile_append_dropWhile (p := isDigit) (l := text)]
  generalize text.takeWhile isDigit = whole at hdigits ⊢
  generalize text.dropWhile isDigit = after at hstops ⊢
  have hwhole := count_eq_zero_of_all hdigits (by decide)
  cases hfraction : fraction? after with
  | none =>
      refine ⟨whole, ?_, ?_, ?_⟩ <;> rw [munchNumber_whole hdigits hstops hfraction]
      · rw [hwhole, Nat.add_zero]
      · intro rest' hfollows
        exact munchNumber_whole hdigits (hfollows.stops (by decide) isDigit_letters hstops)
          (hfollows.fraction hfraction)
  | some found =>
      obtain ⟨digits, rest⟩ := found
      obtain ⟨rfl, hne, hfraction', hstops'⟩ := fraction?_eq_some_iff.mp hfraction
      refine ⟨whole ++ '.' :: digits, ?_, ?_, ?_⟩ <;> rw [munchNumber_fraction hdigits hfraction]
      · simp
      · simp [hwhole, count_eq_zero_of_all hfraction' (by decide)]
      · intro rest' hfollows
        have hafter : fraction? ('.' :: (digits ++ rest')) = some (digits, rest') :=
          fraction?_eq_some_iff.mpr ⟨rfl, hne, hfraction',
            hfollows.stops (by decide) isDigit_letters hstops'⟩
        rw [List.append_assoc, List.cons_append, munchNumber_fraction hdigits hafter]

theorem munchString_append {contents : List Char} (h : ∀ c ∈ contents, decide (c ≠ '"') = true)
    (rest : List Char) :
    munchString line (contents ++ '"' :: rest) =
      ⟨.token ⟨.string (String.ofList contents), String.ofList ('"' :: contents ++ ['"']),
        line + contents.count '\n'⟩, line + contents.count '\n', rest⟩ := by
  obtain ⟨htake, hdrop⟩ := takeWhile_append_of_stops h ('"' :: rest) (by simp)
  rw [munchString, htake, hdrop]

theorem munchString_takes {t : Token} (h : (munchString line text).item = .token t) :
    ∃ w, Takes (munchString line) line text w := by
  have hcontents : ∀ c ∈ text.takeWhile (· ≠ '"'), decide (c ≠ '"') = true :=
    fun c hc => List.mem_takeWhile_imp (p := (· ≠ '"')) hc
  have hstops := head?_dropWhile (· ≠ '"') text
  cases hafter : text.dropWhile (· ≠ '"') with
  | nil =>
      rw [munchString, hafter] at h
      cases h
  | cons c rest =>
      rw [hafter] at hstops
      obtain rfl : c = '"' := by simpa using hstops c rfl
      rw [← List.takeWhile_append_dropWhile (p := (· ≠ '"')) (l := text), hafter]
      generalize text.takeWhile (· ≠ '"') = contents at hcontents ⊢
      refine ⟨contents ++ ['"'], ?_, ?_, ?_⟩ <;> rw [munchString_append hcontents]
      · simp
      · simp
      · intro rest' _
        rw [List.append_assoc, List.singleton_append, munchString_append hcontents]

theorem letters_ne (mark : Char) (h : isLetter mark = false) (c d : Char) (hc : isLetter c)
    (hd : isLetter d) : decide (c = mark) = decide (d = mark) := by
  rw [decide_eq_false fun heq => by simp [heq, h] at hc,
    decide_eq_false fun heq => by simp [heq, h] at hd]

theorem munch_joined {alone joined : Symbol} (h : Opening.of first = .operator alone joined)
    (rest : List Char) : munch line first ('=' :: rest) = .symbol line joined rest := by
  simp only [munch, h]

theorem munch_alone {alone joined : Symbol} (h : Opening.of first = .operator alone joined)
    (hne : '=' ∉ text.head?) : munch line first text = .symbol line alone text := by
  unfold munch
  rw [h]
  dsimp only
  split
  · exact absurd rfl hne
  · rfl

theorem munch_operator_takes {alone joined : Symbol}
    (h : Opening.of first = .operator alone joined) :
    ∃ w, Takes (munch line first) line text w := by
  by_cases hjoined : '=' ∈ text.head?
  · obtain ⟨rest, rfl⟩ := List.head?_eq_some_iff.mp hjoined
    refine ⟨['='], ?_, ?_, ?_⟩ <;> rw [munch_joined h]
    · rfl
    · rfl
    · intro rest' _
      rw [List.singleton_append, munch_joined h]
      rfl
  · refine ⟨[], ?_, ?_, ?_⟩ <;> rw [munch_alone h hjoined]
    · rfl
    · rfl
    · intro rest' hfollows
      have hstops := hfollows.stops (by decide) (letters_ne '=' (by decide)) (by
        intro c hc
        refine decide_eq_false ?_
        rintro rfl
        exact hjoined hc)
      refine munch_alone h fun hhead => ?_
      exact absurd rfl (of_decide_eq_false (hstops '=' hhead))

/-- A token takes the same text whatever follows it, as long as that does not go on with it. -/
theorem munch_takes {t : Token} (h : (munch line first text).item = .token t) :
    ∃ w, Takes (munch line first) line text w := by
  cases hopening : Opening.of first with
  | mark s =>
      have hmunch : munch line first = fun text => .symbol line s text := by
        funext text
        rw [munch, hopening]
      rw [hmunch]
      exact ⟨[], rfl, rfl, fun _ _ => rfl⟩
  | operator alone joined => exact munch_operator_takes hopening
  | quote =>
      have hmunch : munch line first = munchString line := by
        funext text
        rw [munch, hopening]
      rw [hmunch] at h ⊢
      exact munchString_takes h
  | digit =>
      have hmunch : munch line first = munchNumber line first := by
        funext text
        rw [munch, hopening]
      rw [hmunch]
      exact munchNumber_takes
  | letter =>
      have hmunch : munch line first = munchWord line first := by
        funext text
        rw [munch, hopening]
      rw [hmunch]
      exact ⟨_, munchWord_takes⟩
  | stray =>
      rw [munch, hopening] at h
      cases h

theorem takes_of_skipTrivia {start : Nat} {t : Token}
    (hskip : skipTrivia line text = (start, first :: rest))
    (ht : (munch start first rest).item = .token t) :
    ∃ w v, text = w ++ first :: (v ++ (munch start first rest).rest) ∧
      start = line + w.count '\n' ∧
      (first ≠ '\n' ∧ isBlank first = false ∧ (first = '/' → '/' ∉ rest.head?)) ∧
      Takes (munch start first) start rest v ∧
      ∀ rest', skipTrivia line (w ++ rest') = skipTrivia start rest' := by
  obtain ⟨w, rfl, rfl, hw⟩ := skipTrivia_before _ hskip
  obtain ⟨v, hv⟩ := munch_takes ht
  rw [hw, skipTrivia_eq_self_iff] at hskip
  exact ⟨w, v, by rw [← hv.eq_append], rfl, hskip, hv, hw⟩

theorem Scans.token {start : Nat} {w : List Char} {m : Munch} {items : List Item}
    (hskip : ∀ rest', skipTrivia line (w ++ rest') = skipTrivia start rest')
    (hstart : first ≠ '\n' ∧ isBlank first = false ∧ (first = '/' → '/' ∉ rest.head?))
    (hmunch : munch start first rest = m) (hrest : Scans m.line m.rest items) :
    Scans line (w ++ first :: rest) (m.item :: items) := by
  subst hmunch
  exact .item (by rw [hskip, skipTrivia_eq_self_iff.mpr hstart]) hrest

end Lox.Scan
