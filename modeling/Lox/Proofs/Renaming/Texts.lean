import Lox.Proofs.Syntax.Lexemes
import Mathlib.Data.List.Forall2

namespace Lox

open Scan

/-- The text of a name: a word that is not reserved. -/
def IsIdentifier (name : String) : Prop :=
  IsWord name.toList ∧ wordKind name = .identifier

/-- The same token, or an identifier with a new spelling. -/
def Token.Respells (new : String) (t t' : Token) : Prop :=
  t' = t ∨ (t.kind = .identifier ∧ t' = { t with lexeme := new })

namespace Scan

variable {line : Nat} {rest rest' text : List Char} {first c d : Char}

theorem isLetter_ne (mark : Char) (h : isLetter c) (hmark : isLetter mark = false) : c ≠ mark := by
  rintro rfl
  rw [h] at hmark
  cases hmark

theorem Follows.cons (h : Follows rest rest') (c : Char) : Follows (c :: rest) (c :: rest') := by
  refine ⟨fun d hd => .inr ⟨d, hd, .inl rfl⟩, ?_⟩
  rw [fraction?_eq_none_iff, fraction?_eq_none_iff]
  rintro hnone _ ⟨⟩
  exact h.stops (by decide) isDigit_letters (hnone rest rfl)

theorem Follows.append (h : Follows rest rest') (w : List Char) :
    Follows (w ++ rest) (w ++ rest') := by
  induction w with
  | nil => exact h
  | cons c w ih => exact ih.cons c

theorem follows_letters (hc : isLetter c) (hd : isLetter d) (rest rest' : List Char) :
    Follows (c :: rest) (d :: rest') := by
  refine ⟨?_, fun _ => fraction?_eq_none_iff.mpr ?_⟩
  · rintro _ ⟨⟩
    exact .inr ⟨c, rfl, .inr ⟨hc, hd⟩⟩
  · rintro _ ⟨⟩
    exact absurd rfl (isLetter_ne '.' hd (by decide))

theorem IsToken.kind_of_word {k : Kind} {w : List Char} (h : IsToken k w rest) (hw : IsWord w) :
    k = wordKind (String.ofList w) := by
  obtain ⟨first, v, rfl, hletter, -⟩ := hw
  have hmunch := @munch_token 0 _ _ _ _ h
  rw [munch, Opening.of_eq_letter_iff.mpr hletter] at hmunch
  have hitem := congrArg Munch.item hmunch
  simp only [munchWord, Munch.ofToken, Item.token.injEq, Token.mk.injEq] at hitem
  rw [← hitem.2.1, hitem.1]

theorem Lexes.isToken {found : List Item} (h : Lexes line text found) {t : Token}
    (ht : .token t ∈ found) :
    t = .endOfInput t.line ∨ ∃ rest, IsToken t.kind t.lexeme.toList rest := by
  induction h with
  | done =>
      cases List.mem_singleton.mp ht
      exact .inl rfl
  | @token line w v rest k items _ htoken _ ih =>
      rcases List.mem_cons.mp ht with heq | ht
      · cases heq
        refine .inr ⟨rest, ?_⟩
        rw [String.toList_ofList]
        exact htoken
      · exact ih ht
  | fault _ _ _ ih =>
      rcases List.mem_cons.mp ht with heq | ht
      · cases heq
      · exact ih ht

theorem isToken_of_mem_tokens {source : String} {t : Token} (ht : t ∈ tokens source) :
    t = .endOfInput t.line ∨ ∃ rest, IsToken t.kind t.lexeme.toList rest := by
  obtain ⟨i, hi, hit⟩ := List.mem_filterMap.mp ht
  have hmem : .token t ∈ items source := by
    cases i <;> cases hit
    exact hi
  exact (items_eq_iff_lexes.mp rfl).isToken hmem

/-- Among the tokens of a text the identifiers are those that are spelled like one. -/
theorem kind_eq_identifier_iff {source : String} {t : Token} (ht : t ∈ tokens source) :
    t.kind = .identifier ↔ IsIdentifier t.lexeme := by
  rcases isToken_of_mem_tokens ht with hend | ⟨rest, htoken⟩
  · rw [hend]
    refine ⟨by simp [Token.endOfInput], ?_⟩
    rintro ⟨⟨_, _, hnil, -⟩, -⟩
    cases hnil
  · constructor
    · intro hkind
      rw [hkind] at htoken
      have hword : IsWord t.lexeme.toList := by
        cases htoken with
        | identifier h => exact h.1
      have hwordKind := htoken.kind_of_word hword
      rw [String.ofList_toList] at hwordKind
      exact ⟨hword, hwordKind.symm⟩
    · rintro ⟨hword, hkind⟩
      rw [htoken.kind_of_word hword, String.ofList_toList, hkind]

theorem munch_respelled {new : String} (hnew : IsIdentifier new) {t : Token} (hbreak : first ≠ '\n')
    (h : (munch line first text).item = .token t) (hkind : t.kind = .identifier)
    (hfollows : Follows (munch line first text).rest rest') :
    isLetter first ∧ ∃ c w, isLetter c ∧ munch line c (w ++ rest') =
      ⟨.token { t with lexeme := new }, (munch line first text).line, rest'⟩ := by
  obtain ⟨v, rest, rfl, ⟨k, htoken⟩ | ⟨f, hfault⟩⟩ := exists_lexeme first text
  · rw [munch_token htoken] at h hfollows ⊢
    cases h
    cases hkind
    cases htoken with
    | identifier hlongest =>
        obtain ⟨hletter, hparts, hstops⟩ := longest_word_iff.mp hlongest
        obtain ⟨⟨c, w, hw, hletter', hparts'⟩, hkind⟩ := hnew
        have hletters : ∀ c d, isLetter c → isLetter d → isWordPart c = isWordPart d := by
          intro c d hc hd
          rw [isWordPart_of_isLetter hc, isWordPart_of_isLetter hd]
        have hcount : (first :: v).count '\n' = 0 :=
          count_eq_zero_of_all (p := isWordPart)
            (List.forall_mem_cons.mpr ⟨isWordPart_of_isLetter hletter, hparts⟩) (by decide)
        have hspelled : String.ofList (c :: w) = new := by rw [← hw, String.ofList_toList]
        refine ⟨hletter, c, w, hletter', ?_⟩
        rw [munch, Opening.of_eq_letter_iff.mpr hletter']
        dsimp only
        rw [munchWord_append hparts' (hfollows.stops (by decide) hletters hstops), hspelled, hkind]
        simp only [Munch.ofToken, hcount, Nat.add_zero]
  · rw [munch_fault hfault hbreak] at h
    cases h

/-- There is a text with any new spelling of the identifiers. -/
theorem Scans.respelled {new : String} (hnew : IsIdentifier new) {found : List Item}
    (h : Scans line text found) {ts ts' : List Token} (hfound : found = ts.map .token)
    (hts : List.Forall₂ (Token.Respells new) ts ts') :
    ∃ text', Scans line text' (ts'.map .token) ∧ Follows text text' := by
  induction h generalizing ts ts' with
  | @done line stop text h =>
      cases hts with
      | nil => cases hfound
      | @cons t t' ts ts' ht hts =>
          obtain ⟨hend, hnil⟩ := List.cons.inj hfound
          cases hend
          cases List.map_eq_nil_iff.mp hnil.symm
          cases hts
          rcases ht with rfl | ⟨hkind, -⟩
          · exact ⟨text, .done h, .refl text⟩
          · cases hkind
  | @item line start first text rest found h hrest ih =>
      cases hts with
      | nil => cases hfound
      | @cons t t' ts ts' ht hts =>
          obtain ⟨hitem, hfound⟩ := List.cons.inj hfound
          obtain ⟨after, hscans, hfollows⟩ := ih hfound hts
          obtain ⟨w, v, rfl, -, hfirst, hv, hskip⟩ := takes_of_skipTrivia h hitem
          rcases ht with rfl | ⟨hkind, rfl⟩
          · have hgoes := hfollows.append v
            have hslash : first = '/' → '/' ∉ (v ++ after).head? := by
              intro hfirst' hhead
              have hno : ∀ c ∈ (v ++ (munch start first rest).rest).head?,
                  decide (c = '/') = false := by
                rintro c hc
                rw [← hv.eq_append] at hc
                exact decide_eq_false fun heq => hfirst.2.2 hfirst' (heq ▸ hc)
              have hstops := hgoes.stops (by decide) (letters_ne '/' (by decide)) hno
              exact absurd rfl (of_decide_eq_false (hstops '/' hhead))
            have hscans' := Scans.token hskip ⟨hfirst.1, hfirst.2.1, hslash⟩
              (hv.before after hfollows) hscans
            rw [hitem] at hscans'
            exact ⟨_, hscans', (hgoes.cons first).append w⟩
          · obtain ⟨hletter, c, word, hletter', hmunch⟩ :=
              munch_respelled hnew hfirst.1 hitem hkind hfollows
            have hstart : c ≠ '\n' ∧ isBlank c = false ∧ (c = '/' → '/' ∉ (word ++ after).head?) :=
              ⟨isLetter_ne '\n' hletter' (by decide), by
                simp [isBlank, isLetter_ne ' ' hletter' (by decide),
                  isLetter_ne '\t' hletter' (by decide), isLetter_ne '\r' hletter' (by decide)],
                fun hc => absurd hc (isLetter_ne '/' hletter' (by decide))⟩
            exact ⟨_, Scans.token hskip hstart hmunch hscans,
              (follows_letters hletter hletter' _ _).append w⟩

end Scan

end Lox
