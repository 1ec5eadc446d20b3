import Lox.Proofs.Renaming.Texts
import Lox.Proofs.Syntax.Lines
import Lox.Proofs.Syntax.Sources

/-!
Tokens written one after the other.

Between two tokens stands a blank. A blank is in no token but a string, so each token is found again
whatever the next one starts with.
-/

namespace Lox

open Scan Parsing

/-- How a token of this kind is spelled. -/
inductive Scan.Spells : Kind → List Char → Prop
  | symbol (s : Symbol) : Spells (.symbol s) s.spelling.toList
  | keyword (k : Keyword) : Spells (.keyword k) k.spelling.toList
  | identifier {w : List Char} (h : IsWord w) (hword : ∀ k : Keyword, k.spelling.toList ≠ w) :
      Spells .identifier w
  | string {contents : List Char} (h : '"' ∉ contents) :
      Spells (.string (String.ofList contents)) ('"' :: (contents ++ ['"']))
  | number {w : List Char} {value : Float} (h : Numeral w value) : Spells (.number value) w

/-- The text of the token is one of its kind. -/
def Token.IsLegal (t : Token) : Prop := Spells t.kind t.lexeme.toList

/-- The tokens as a text, with a blank between any two of them. -/
def written (ts : List Token) : String := " ".intercalate (ts.map Token.lexeme)

/-- The tokens with the lines on which they end if they are written from this line on. -/
def placed (line : Nat) (ts : List Token) : List Token :=
  ts.mapIdx fun i t => { t with line := line + (written (ts.take (i + 1))).toList.count '\n' }

namespace Scan

variable {w rest : List Char} {c : Char} {k : Kind} {t : Token} {ts : List Token}

theorem isWord_keyword (k : Keyword) : IsWord k.spelling.toList := by
  cases k <;> exact ⟨_, _, rfl, rfl, List.all_eq_true.mp rfl⟩

theorem longest_of_end {P : List Char → Prop} (h : P w) : Longest P w [] := by
  refine ⟨h, fun v _ hv => ?_⟩
  rw [List.append_nil] at hv
  exact hv.length_le

theorem Spells.isToken (h : Spells k w) : IsToken k w [] := by
  cases h with
  | symbol s => exact .symbol (longest_of_end ⟨s, rfl⟩)
  | keyword k => exact .keyword (longest_of_end (isWord_keyword k))
  | identifier h hword => exact .identifier (longest_of_end h) hword
  | string h => exact .string h
  | number h => exact .number h (longest_of_end ⟨_, h⟩)

theorem IsToken.spells (h : IsToken k w rest) : Spells k w := by
  cases h with
  | symbol => exact .symbol _
  | keyword => exact .keyword _
  | identifier h hword => exact .identifier h.1 hword
  | string h => exact .string h
  | number h => exact .number h

theorem not_startsTrivia_of_isWordPart (h : isWordPart c) : ¬StartsTrivia (c :: rest) := by
  have hgap : ¬IsGap c := by
    intro hc
    rw [not_isWordPart_of_isGap hc] at h
    cases h
  rw [isGap_iff, not_or, Bool.not_eq_true] at hgap
  refine not_startsTrivia_cons_iff.mpr ⟨hgap.1, hgap.2, ?_⟩
  rintro rfl
  cases h

theorem Spells.not_startsTrivia (h : Spells k w) : ¬StartsTrivia w := by
  have hword {w : List Char} (h : IsWord w) : ¬StartsTrivia w := by
    obtain ⟨first, others, rfl, hletter, -⟩ := h
    exact not_startsTrivia_of_isWordPart (isWordPart_of_isLetter hletter)
  cases h with
  | symbol s =>
      rcases Opening.of_spelling s with ⟨c, hc, -⟩ | ⟨c, _, hc, -⟩
      all_goals
        have hgap : ¬IsGap c := fun h => IsSymbol.notMem_of_isGap ⟨s, rfl⟩ h (by simp [hc])
        rw [isGap_iff, not_or, Bool.not_eq_true] at hgap
        rw [hc, not_startsTrivia_cons_iff]
        exact ⟨hgap.1, hgap.2, by simp⟩
  | keyword k => exact hword (isWord_keyword k)
  | identifier h => exact hword h
  | string => exact not_startsTrivia_cons_iff.mpr ⟨by decide, by decide, by simp⟩
  | number h =>
      cases h with
      | @whole digits hne hdigits | @fraction digits _ hne hdigits =>
          obtain ⟨first, others, rfl⟩ := List.exists_cons_of_ne_nil hne
          refine not_startsTrivia_of_isWordPart ?_
          rw [isWordPart, hdigits first List.mem_cons_self, Bool.or_true]

theorem written_cons_cons (t u : Token) (ts : List Token) :
    (written (t :: u :: ts)).toList = t.lexeme.toList ++ ' ' :: (written (u :: ts)).toList := by
  simp [written, String.toList_intercalate]

theorem count_written_cons (t : Token) (ts : List Token) :
    (written (t :: ts)).toList.count '\n' =
      t.lexeme.toList.count '\n' + (written ts).toList.count '\n' := by
  cases ts with
  | nil => simp [written]
  | cons u ts => simp [written_cons_cons]

theorem placed_cons (line : Nat) (t : Token) (ts : List Token) :
    placed line (t :: ts) = { t with line := line + t.lexeme.toList.count '\n' } ::
      placed (line + t.lexeme.toList.count '\n') ts := by
  simp only [placed, List.mapIdx_cons, List.take_succ_cons, count_written_cons, List.take_zero,
    Nat.add_assoc]
  rfl

theorem unlined_placed (line : Nat) (ts : List Token) :
    (placed line ts).map Token.unlined = ts.map Token.unlined := by
  induction ts generalizing line with
  | nil => rfl
  | cons t ts ih =>
      rw [placed_cons, List.map_cons, List.map_cons, ih]
      rfl

theorem Lexes.token_append {line : Nat} {found : List Item}
    (htoken : IsToken t.kind t.lexeme.toList rest)
    (hstart : ¬StartsTrivia (t.lexeme.toList ++ rest))
    (hrest : Lexes (line + t.lexeme.toList.count '\n') rest found) :
    Lexes line (t.lexeme.toList ++ rest)
      (.token { t with line := line + t.lexeme.toList.count '\n' } :: found) := by
  have h := Lexes.token (.nothing hstart) htoken hrest
  rwa [String.ofList_toList] at h

theorem lexes_written (line : Nat) (hts : ∀ t ∈ ts, t.IsLegal) :
    Lexes line (written ts).toList
      ((placed line ts ++
        [Token.endOfInput (line + (written ts).toList.count '\n')]).map Item.token) := by
  induction ts generalizing line with
  | nil => exact .done (.nothing (by simp [StartsTrivia]))
  | cons t ts ih =>
      obtain ⟨ht, hts⟩ := List.forall_mem_cons.mp hts
      have htoken := Spells.isToken ht
      have hstart := Spells.not_startsTrivia ht
      have hmore := ih (line + t.lexeme.toList.count '\n') hts
      rw [Nat.add_assoc, ← count_written_cons] at hmore
      rw [placed_cons]
      cases ts with
      | nil =>
          rw [← List.append_nil t.lexeme.toList] at hstart
          simpa [written] using hmore.token_append htoken hstart
      | cons u ts =>
          have hblank := hmore.skip (u := [' ']) fun v rest hv => .gap (.inl rfl) hv
          rw [List.singleton_append] at hblank
          have h := hblank.token_append (htoken.append_gap (.inl rfl) _)
            (not_startsTrivia_append_gap hstart htoken.ne_nil (.inl rfl) _)
          rwa [List.nil_append, ← written_cons_cons] at h

theorem isLegal_of_mem_contents {source : String} (ht : t ∈ contents (tokens source)) :
    t.IsLegal := by
  rcases isToken_of_mem_tokens (List.takeWhile_subset _ ht) with hend | ⟨_, htoken⟩
  · have hopen := List.mem_takeWhile_imp ht
    rw [hend] at hopen
    cases hopen
  · exact htoken.spells

/-- Legal tokens that are written are found again, each one on the line on which it ends. So a text
that is not at fault has the same tokens, but for their lines, as what its tokens are written as. -/
theorem items_written :
    (∀ ts : List Token, (∀ t ∈ ts, t.IsLegal) →
      items (written ts) =
        (placed 1 ts ++ [Token.endOfInput (1 + (written ts).toList.count '\n')]).map Item.token) ∧
    ∀ source : String, diagnostics source = [] →
      diagnostics (written (contents (tokens source))) = [] ∧
        (tokens (written (contents (tokens source)))).map Token.unlined =
          (tokens source).map Token.unlined := by
  have hwritten (ts : List Token) (hts : ∀ t ∈ ts, t.IsLegal) :=
    items_eq_iff_lexes.mpr (lexes_written 1 hts)
  refine ⟨hwritten, fun source h => ?_⟩
  obtain ⟨ts, stop, hitems⟩ := exists_items_eq h
  have hcontents : contents (tokens source) = ts := contents_of_items hitems
  have htokens : tokens source = ts ++ [.endOfInput stop] := by
    rw [tokens, hitems, (filterMap_map_token _).1]
  have hagain := hwritten ts fun t ht => isLegal_of_mem_contents (hcontents ▸ ht)
  rw [hcontents, htokens]
  constructor
  · rw [diagnostics, hagain, (filterMap_map_token _).2]
  · rw [tokens, hagain, (filterMap_map_token _).1, List.map_append, List.map_append,
      unlined_placed]
    rfl

/-- Digits with a point between them, slashes, half an operator and a word that starts like a
reserved one are found as they are; a string keeps what stands between its quotes. -/
theorem items_written_of_digits :
    items "7 . 7 / / < \"//\n\" = orchid" =
      ([⟨.number (numberOf ['7'] []), "7", 1⟩, ⟨.symbol .dot, ".", 1⟩,
        ⟨.number (numberOf ['7'] []), "7", 1⟩, ⟨.symbol .slash, "/", 1⟩, ⟨.symbol .slash, "/", 1⟩,
        ⟨.symbol .less, "<", 1⟩, ⟨.string "//\n", "\"//\n\"", 2⟩, ⟨.symbol .equal, "=", 2⟩,
        ⟨.identifier, "orchid", 2⟩, .endOfInput 2] : List Token).map Item.token ∧
    diagnostics "or//\n\"\"<=" = [] ∧
      (tokens "or \"\" <=").map Token.unlined = (tokens "or//\n\"\"<=").map Token.unlined := by
  have hseven : Spells (.number (numberOf ['7'] [])) "7".toList :=
    .number (.whole (by decide) (List.all_eq_true.mp rfl))
  have hlegal : ∀ t ∈ ([⟨.number (numberOf ['7'] []), "7", 0⟩, ⟨.symbol .dot, ".", 0⟩,
      ⟨.number (numberOf ['7'] []), "7", 0⟩, ⟨.symbol .slash, "/", 0⟩, ⟨.symbol .slash, "/", 0⟩,
      ⟨.symbol .less, "<", 0⟩, ⟨.string "//\n", "\"//\n\"", 0⟩, ⟨.symbol .equal, "=", 0⟩,
      ⟨.identifier, "orchid", 0⟩] : List Token), t.IsLegal := by
    simp only [List.forall_mem_cons, Token.IsLegal]
    exact ⟨hseven, .symbol .dot, hseven, .symbol .slash, .symbol .slash, .symbol .less,
      @Spells.string ['/', '/', '\n'] (by decide), .symbol .equal,
      .identifier ⟨'o', _, rfl, rfl, List.all_eq_true.mp rfl⟩ (by intro k; cases k <;> decide),
      List.forall_mem_nil _⟩
  have hsource : diagnostics "or//\n\"\"<=" = [] := by cbv
  have hcontents : written (contents (tokens "or//\n\"\"<=")) = "or \"\" <=" := by cbv
  obtain ⟨hitems, hagain⟩ := items_written
  have hsame := (hagain _ hsource).2
  rw [hcontents] at hsame
  exact ⟨hitems _ hlegal, hsource, hsame⟩

end Scan

end Lox
