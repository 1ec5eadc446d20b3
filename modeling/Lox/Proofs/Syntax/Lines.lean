import Lox.Proofs.Syntax.Lexemes

/-!
Texts one below the other.

No token but a string has a gap inside, so a gap ends each token, whatever comes after it. A line
break ends comments as well. What stands below it is scanned by itself then, but for its lines.
-/

namespace Lox

/-- The token that many lines further down. -/
def Token.later (lines : Nat) (t : Token) : Token := { t with line := t.line + lines }

/-- The token without its line. -/
def Token.unlined (t : Token) : Token := { t with line := 0 }

namespace Scan

def Item.later (lines : Nat) : Item → Item
  | .token t => .token (t.later lines)
  | .fault line f => .fault (line + lines) f

variable {line : Nat} {c : Char} {u v w rest text more : List Char} {found : List Item}

theorem prefix_before (hv : c ∉ v) (h : v <+: w ++ c :: rest) : v <+: w := by
  rcases List.prefix_or_prefix_of_prefix h (List.prefix_append w _) with h' | ⟨u, rfl⟩
  · exact h'
  · rw [List.prefix_append_right_inj] at h
    cases u with
    | nil => simp
    | cons d u =>
        obtain ⟨rfl, -⟩ := List.cons_prefix_cons.mp h
        exact absurd (by simp) hv

theorem Longest.append_cons {P : List Char → Prop} (hP : ∀ v, P v → c ∉ v)
    (h : Longest P w rest) (more : List Char) : Longest P w (rest ++ c :: more) := by
  refine ⟨h.1, fun v hv hinitial => h.2 v hv ?_⟩
  rw [← List.append_assoc] at hinitial
  exact prefix_before (hP v hv) hinitial

theorem IsSymbol.notMem_of_isGap (h : IsSymbol v) (hc : IsGap c) : c ∉ v := by
  obtain ⟨s, rfl⟩ := h
  rcases hc with rfl | rfl | rfl | rfl <;> cases s <;> decide

theorem not_isWordPart_of_isGap (hc : IsGap c) : isWordPart c = false := by
  rcases hc with rfl | rfl | rfl | rfl <;> decide

theorem IsWord.notMem_of_isGap (h : IsWord v) (hc : IsGap c) : c ∉ v := by
  obtain ⟨first, others, rfl, hletter, hothers⟩ := h
  have hparts : ∀ d ∈ first :: others, isWordPart d :=
    List.forall_mem_cons.mpr ⟨isWordPart_of_isLetter hletter, hothers⟩
  intro hmem
  have hpart := hparts c hmem
  rw [not_isWordPart_of_isGap hc] at hpart
  cases hpart

theorem IsNumeral.notMem_of_isGap (h : IsNumeral v) (hc : IsGap c) : c ∉ v := by
  have hdigit : isDigit c = false := by
    have hpart := not_isWordPart_of_isGap hc
    rw [isWordPart, Bool.or_eq_false_iff] at hpart
    exact hpart.2
  have hdigits {digits : List Char} (h : ∀ d ∈ digits, isDigit d) : c ∉ digits := by
    intro hmem
    have hc := h c hmem
    rw [hdigit] at hc
    cases hc
  obtain ⟨value, h⟩ := h
  cases h with
  | whole _ h => exact hdigits h
  | fraction _ h _ h' =>
      have hpoint : c ≠ '.' := by rcases hc with rfl | rfl | rfl | rfl <;> decide
      simp [hdigits h, hdigits h', hpoint]

theorem IsToken.append_gap {k : Kind} (h : IsToken k w rest) (hc : IsGap c) (more : List Char) :
    IsToken k w (rest ++ c :: more) := by
  cases h with
  | symbol h => exact .symbol (h.append_cons (fun _ hv => hv.notMem_of_isGap hc) more)
  | string h => exact .string h
  | number hvalue h =>
      exact .number hvalue (h.append_cons (fun _ hv => hv.notMem_of_isGap hc) more)
  | keyword h => exact .keyword (h.append_cons (fun _ hv => hv.notMem_of_isGap hc) more)
  | identifier h hword =>
      exact .identifier (h.append_cons (fun _ hv => hv.notMem_of_isGap hc) more) hword

/-- A string without an end takes all that follows, and no other fault does. -/
theorem IsFault.exchange {f : LexicalFault} (h : IsFault f w rest) (hf : f ≠ .unterminatedString)
    (more : List Char) : IsFault f w more := by
  cases h with
  | unterminatedString => exact absurd rfl hf
  | unexpectedCharacter h => exact .unexpectedCharacter h

theorem not_startsTrivia_append_gap (h : ¬StartsTrivia rest) (hrest : rest ≠ []) (hc : IsGap c)
    (more : List Char) : ¬StartsTrivia (rest ++ c :: more) := by
  obtain ⟨d, rest, rfl⟩ := List.exists_cons_of_ne_nil hrest
  rw [List.cons_append]
  rw [not_startsTrivia_cons_iff] at h ⊢
  refine ⟨h.1, h.2.1, fun hd => ?_⟩
  cases rest with
  | nil =>
      rintro ⟨⟩
      exact absurd hc (by unfold IsGap; decide)
  | cons e rest => exact h.2.2 hd

theorem Skipped.append_gap (h : Skipped w rest) (hrest : rest ≠ []) (hc : IsGap c)
    (more : List Char) : Skipped w (rest ++ c :: more) := by
  induction h with
  | nothing h => exact .nothing (not_startsTrivia_append_gap h hrest hc more)
  | gap hd _ ih => exact .gap hd (ih hrest)
  | @comment body w rest hbody hend _ ih =>
      refine .comment hbody ?_ (ih hrest)
      obtain ⟨d, after, hhead⟩ :=
        List.exists_cons_of_ne_nil (List.append_ne_nil_of_right_ne_nil w hrest)
      rw [← List.append_assoc, hhead]
      rwa [hhead] at hend

theorem Skipped.append_break (h : Skipped w []) (hv : Skipped v rest) :
    Skipped (w ++ '\n' :: v) rest := by
  generalize hnil : ([] : List Char) = after at h
  induction h with
  | nothing => exact .gap (.inr (.inr (.inr rfl))) hv
  | gap hc _ ih => exact .gap hc (ih hnil)
  | @comment body w after hbody hend _ ih =>
      subst hnil
      rw [List.cons_append, List.cons_append, List.append_assoc]
      refine .comment hbody ?_ (ih rfl)
      cases w with
      | nil => simp
      | cons d w => simpa using hend

/-- What is always skipped in front of a text does not change its items. -/
theorem Lexes.skip (hu : ∀ v rest, Skipped v rest → Skipped (u ++ v) rest)
    (h : Lexes (line + u.count '\n') text found) : Lexes line (u ++ text) found := by
  have hcount (v : List Char) :
      line + u.count '\n' + v.count '\n' = line + (u ++ v).count '\n' := by
    rw [List.count_append, Nat.add_assoc]
  cases h with
  | done h =>
      rw [hcount]
      exact .done (hu _ _ h)
  | token hskip h hrest =>
      rw [hcount, ← List.append_assoc u] at hrest ⊢
      rw [← List.append_assoc u]
      exact .token (hu _ _ hskip) h hrest
  | fault hskip h hrest =>
      rw [hcount, ← List.append_assoc u] at hrest ⊢
      rw [← List.append_assoc u]
      exact .fault (hu _ _ hskip) h hrest

/-- The line on which a text starts is counted in all its items. -/
theorem Lexes.later (h : Lexes line text found) (lines : Nat) :
    Lexes (line + lines) text (found.map (Item.later lines)) := by
  induction h with
  | @done line w h =>
      have hlexes : Lexes (line + lines) w _ := .done h
      rw [Nat.add_right_comm] at hlexes
      exact hlexes
  | @token line w v rest k items hskip h _ ih =>
      rw [Nat.add_right_comm] at ih
      have hlexes := Lexes.token hskip h ih
      rw [Nat.add_right_comm line lines] at hlexes
      exact hlexes
  | @fault line w v rest f items hskip h _ ih =>
      rw [Nat.add_right_comm] at ih
      have hlexes := Lexes.fault hskip h ih
      rw [Nat.add_right_comm line lines] at hlexes
      exact hlexes

/-- The items of a text that leaves no string open come before those of what stands below it. -/
theorem Lexes.append (h : Lexes line text found)
    (hclosed : ∀ n, .fault n .unterminatedString ∉ found) :
    ∃ items, found = items ++ [.token (.endOfInput (line + text.count '\n'))] ∧
      ∀ more items', Lexes (line + text.count '\n' + 1) more items' →
        Lexes line (text ++ '\n' :: more) (items ++ items') := by
  have hbreak : IsGap '\n' := .inr (.inr (.inr rfl))
  have hcount (line : Nat) (w v rest : List Char) : line + (w ++ v).count '\n' + rest.count '\n' =
      line + (w ++ (v ++ rest)).count '\n' := by simp; omega
  induction h with
  | @done line w h =>
      -- the text may end in a comment, which the line break ends
      refine ⟨[], rfl, fun more items' hmore => ?_⟩
      have hskip : ∀ v rest, Skipped v rest → Skipped ((w ++ ['\n']) ++ v) rest := by
        intro v rest hv
        rw [List.append_assoc]
        exact h.append_break hv
      have hlines : line + w.count '\n' + 1 = line + (w ++ ['\n']).count '\n' := by simp; omega
      rw [hlines] at hmore
      have hlexes := hmore.skip hskip
      rwa [List.append_assoc] at hlexes
  | @token line w v rest k items hskip h _ ih =>
      obtain ⟨items, rfl, hitems⟩ := ih fun n hn => hclosed n (List.mem_cons_of_mem _ hn)
      rw [hcount] at hitems ⊢
      refine ⟨_ :: items, rfl, fun more items' hmore => ?_⟩
      have hskip' := hskip.append_gap (by simp [h.ne_nil]) hbreak more
      rw [List.append_assoc] at hskip'
      rw [List.append_assoc, List.append_assoc]
      exact .token hskip' (h.append_gap hbreak more) (hitems more items' hmore)
  | @fault line w v rest f items hskip h _ ih =>
      obtain ⟨items, rfl, hitems⟩ := ih fun n hn => hclosed n (List.mem_cons_of_mem _ hn)
      have hf : f ≠ .unterminatedString := by
        rintro rfl
        exact hclosed _ List.mem_cons_self
      rw [hcount] at hitems ⊢
      refine ⟨_ :: items, rfl, fun more items' hmore => ?_⟩
      have hskip' := hskip.append_gap (by simp [h.ne_nil]) hbreak more
      rw [List.append_assoc] at hskip'
      rw [List.append_assoc, List.append_assoc]
      exact .fault hskip' (h.exchange hf _) (hitems more items' hmore)

theorem Scans.append_tokens {ts : List Token} {stop : Nat} {items : List Item}
    (h : Scans line text ((ts ++ [Token.endOfInput stop]).map Item.token))
    (hmore : Scans (line + text.count '\n' + 1) more items) :
    Scans line (text ++ '\n' :: more) (ts.map Item.token ++ items) := by
  obtain ⟨found, hfound, happend⟩ := h.lexes.append fun n hn => by simp at hn
  rw [List.map_append] at hfound
  obtain rfl : found = ts.map Item.token := (List.append_inj_left' hfound rfl).symm
  exact (happend more items hmore.lexes).scans

/-- The items of two texts, one below the other, are those of the first, but for its end, and then
those of the second, as many lines further down as the first one has. A string that the first one
leaves open would go on in the second. -/
theorem items_below (above below : String)
    (hclosed : ∀ line, .fault line .unterminatedString ∉ items above) :
    (items above).getLast? = some (.token (.endOfInput (1 + above.toList.count '\n'))) ∧
      items (above ++ "\n" ++ below) =
        (items above).dropLast ++ (items below).map (Item.later (1 + above.toList.count '\n')) := by
  obtain ⟨found, hfound, happend⟩ := (items_eq_iff_lexes.mp rfl).append hclosed
  have hbelow := (items_eq_iff_lexes.mp (Eq.refl (items below))).later
    (1 + above.toList.count '\n')
  rw [Nat.add_comm 1 (1 + above.toList.count '\n')] at hbelow
  rw [hfound, List.getLast?_concat, List.dropLast_concat]
  refine ⟨rfl, items_eq_iff_lexes.mpr ?_⟩
  simpa using happend _ _ hbelow

/-- A character that no token starts with and half an operator, above the other half and a string
that is left open. -/
theorem items_below_of_half :
    (∀ line, .fault line .unterminatedString ∉ items "// é\n@ <") ∧
      items "// é\n@ <\n= \"" =
        [.fault 2 (.unexpectedCharacter '@'), .token ⟨.symbol .less, "<", 2⟩] ++
          [.token ⟨.symbol .equal, "=", 3⟩, .fault 3 .unterminatedString,
            .token (.endOfInput 3)] := by
  have habove : items "// é\n@ <" =
      [.fault 2 (.unexpectedCharacter '@'), .token ⟨.symbol .less, "<", 2⟩,
        .token (.endOfInput 2)] := by
    cbv
  have hbelow : items "= \"" =
      [.token ⟨.symbol .equal, "=", 1⟩, .fault 1 .unterminatedString, .token (.endOfInput 1)] := by
    cbv
  have hclosed : ∀ line, .fault line .unterminatedString ∉ items "// é\n@ <" := by
    simp [habove]
  obtain ⟨-, hitems⟩ := items_below "// é\n@ <" "= \"" hclosed
  rw [habove, hbelow] at hitems
  exact ⟨hclosed, hitems⟩

end Scan

end Lox
