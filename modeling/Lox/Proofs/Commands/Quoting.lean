import Lox.Command.Response
import Lox.Json

/-!
Quoted texts, in messages and in JSON.

Both write a character as it is, by a letter after a backslash, or by its code after a `u`. What
comes next in a quoted text then tells which character was written, so the text can be read back,
and ends at the first quote that is not written for a character.
-/

namespace Lox

theorem append_cons_inj {c : Char} {xs ys rest rest' : List Char} (hxs : c ∉ xs) (hys : c ∉ ys)
    (h : xs ++ c :: rest = ys ++ c :: rest') : xs = ys ∧ rest = rest' := by
  have hparts := congrArg (List.splitOn c) h
  rw [List.splitOn_append_cons_self_of_not_mem hxs, List.splitOn_append_cons_self_of_not_mem hys]
    at hparts
  obtain rfl := (List.cons.inj hparts).1
  exact ⟨rfl, (List.cons.inj (List.append_cancel_left h)).2⟩

/-- The letters that stand for characters after a backslash, and what follows a `u` for some
others. -/
structure Escaping where
  letters : List (Char × Char)
  isCoded : Char → Prop
  code : Char → List Char
  letters_inj : ∀ p ∈ letters, ∀ q ∈ letters, p.2 = q.2 → p.1 = q.1
  letters_ne_u : ∀ p ∈ letters, p.2 ≠ 'u'
  code_inj : ∀ {x y : Char} {xs ys : List Char}, isCoded x → isCoded y →
    code x ++ xs = code y ++ ys → x = y

namespace Escaping

/-- The ways to write a character. -/
inductive Writes (E : Escaping) (x : Char) : List Char → Prop
  | plain (hquote : x ≠ '"') (hbackslash : x ≠ '\\') : E.Writes x [x]
  | letter {l : Char} (h : (x, l) ∈ E.letters) : E.Writes x ['\\', l]
  | coded (h : E.isCoded x) : E.Writes x ('\\' :: 'u' :: E.code x)

variable {E : Escaping} {x y : Char} {cs ds xs ys : List Char}

theorem Writes.ne_quote (h : E.Writes x cs) : cs ++ xs ≠ '"' :: ys := by
  cases h with
  | plain hquote _ =>
      intro heq
      exact hquote (List.cons.inj heq).1
  | letter _ | coded _ => simp

/-- What is written first tells its character. -/
theorem Writes.inj (hx : E.Writes x cs) (hy : E.Writes y ds) (h : cs ++ xs = ds ++ ys) : x = y := by
  cases hx with
  | plain _ hx =>
      cases hy with
      | plain _ _ => exact (List.cons.inj h).1
      | letter _ | coded _ => exact absurd (List.cons.inj h).1 hx
  | letter hx =>
      cases hy with
      | plain _ hy => exact absurd (List.cons.inj h).1.symm hy
      | letter hy => exact E.letters_inj _ hx _ hy (List.cons.inj (List.cons.inj h).2).1
      | coded _ => exact absurd (List.cons.inj (List.cons.inj h).2).1 (E.letters_ne_u _ hx)
  | coded hx =>
      cases hy with
      | plain _ hy => exact absurd (List.cons.inj h).1.symm hy
      | letter hy => exact absurd (List.cons.inj (List.cons.inj h).2).1.symm (E.letters_ne_u _ hy)
      | coded hy => exact E.code_inj hx hy (List.cons.inj (List.cons.inj h).2).2

/-- Characters up to a quote can be read back, with what follows. -/
theorem flatMap_inj {write : Char → List Char} (hwrite : ∀ x, E.Writes x (write x))
    {rest rest' : List Char}
    (h : xs.flatMap write ++ '"' :: rest = ys.flatMap write ++ '"' :: rest') :
    xs = ys ∧ rest = rest' := by
  induction xs generalizing ys with
  | nil =>
      cases ys with
      | nil => exact ⟨rfl, (List.cons.inj h).2⟩
      | cons y ys =>
          rw [List.flatMap_cons, List.append_assoc] at h
          exact absurd h.symm (hwrite y).ne_quote
  | cons x xs ih =>
      cases ys with
      | nil =>
          rw [List.flatMap_cons, List.append_assoc] at h
          exact absurd h (hwrite x).ne_quote
      | cons y ys =>
          rw [List.flatMap_cons, List.flatMap_cons, List.append_assoc, List.append_assoc] at h
          obtain rfl := (hwrite x).inj (hwrite y) h
          obtain ⟨rfl, rfl⟩ := ih (List.append_cancel_left h)
          exact ⟨rfl, rfl⟩

end Escaping

/-! ### Codes of characters -/

def hexDigitValue (c : Char) : Nat := if c.isDigit then c.toNat - 48 else c.toNat - 87

theorem hexDigitValue_digitChar : ∀ d < 16, hexDigitValue (Nat.digitChar d) = d := by decide

/-- The value of hexadecimal digits. -/
def hexValue (digits : List Char) : Nat :=
  digits.foldl (fun value c => 16 * value + hexDigitValue c) 0

theorem hexValue_toDigits (n : Nat) : hexValue (Nat.toDigits 16 n) = n := by
  induction n using Nat.strongRecOn with
  | ind n ih =>
      rcases Nat.lt_or_ge n 16 with h | h
      · rw [Nat.toDigits_of_lt_base h, hexValue]
        simpa using hexDigitValue_digitChar n h
      · have hvalue : hexValue (Nat.toDigits 16 (n / 16)) = n / 16 := ih (n / 16) (by omega)
        have hdigit := hexDigitValue_digitChar (n % 16) (Nat.mod_lt n (by decide))
        rw [hexValue] at hvalue
        rw [Nat.toDigits_of_base_le (by decide) h, hexValue, List.foldl_append, hvalue]
        simp only [List.foldl_cons, List.foldl_nil, hdigit]
        omega

theorem exists_of_mem_toDigits {n : Nat} {c : Char} (h : c ∈ Nat.toDigits 16 n) :
    ∃ d < 16, c = Nat.digitChar d := by
  induction n using Nat.strongRecOn with
  | ind n ih =>
      rcases Nat.lt_or_ge n 16 with hn | hn
      · rw [Nat.toDigits_of_lt_base hn, List.mem_singleton] at h
        exact ⟨n, hn, h⟩
      · rw [Nat.toDigits_of_base_le (by decide) hn, List.mem_append, List.mem_singleton] at h
        rcases h with h | h
        · exact ih (n / 16) (by omega) h
        · exact ⟨n % 16, Nat.mod_lt n (by decide), h⟩

theorem digitChar_ne_brace : ∀ d < 16, Nat.digitChar d ≠ '\x7d' := by decide

theorem toDigits_append_inj {m n : Nat} {xs ys : List Char}
    (h : Nat.toDigits 16 m ++ '\x7d' :: xs = Nat.toDigits 16 n ++ '\x7d' :: ys) : m = n := by
  have hbrace (k : Nat) : '\x7d' ∉ Nat.toDigits 16 k := by
    intro hmem
    obtain ⟨d, hd, heq⟩ := exists_of_mem_toDigits hmem
    exact digitChar_ne_brace d hd heq.symm
  have hdigits := (append_cons_inj (hbrace m) (hbrace n) h).1
  rw [← hexValue_toDigits m, hdigits, hexValue_toDigits]

namespace Quoted

/-- Messages write a character that cannot be seen by its code in braces. -/
def escaping : Escaping where
  letters := [('"', '"'), ('\\', '\\'), ('\t', 't'), ('\r', 'r'), ('\n', 'n'), ('\x00', '0')]
  isCoded _ := True
  code x := '\x7b' :: Nat.toDigits 16 x.toNat ++ ['\x7d']
  letters_inj := by decide
  letters_ne_u := by decide
  code_inj _ _ h := by
    simp only [List.cons_append, List.append_assoc, List.nil_append, List.cons.injEq, true_and] at h
    exact Char.toNat_inj.mp (toDigits_append_inj h)

theorem writes_escape (x : Char) : escaping.Writes x (escape x) := by
  unfold escape
  split
  · exact .letter (by simp [escaping, *])
  rename_i hquote
  split
  · exact .letter (by simp [escaping, *])
  rename_i hbackslash
  repeat' split
  · exact .letter (by simp [escaping, *])
  · exact .letter (by simp [escaping, *])
  · exact .letter (by simp [escaping, *])
  · exact .letter (by simp [escaping, *])
  · exact .coded trivial
  · exact .plain hquote hbackslash

/-- A quoted text can be read back, and it tells where it ends. -/
theorem quote_append_inj {s t : String} {rest rest' : List Char}
    (h : (quote s).toList ++ rest = (quote t).toList ++ rest') : s = t ∧ rest = rest' := by
  simp only [quote, String.toList_ofList, List.cons_append, List.append_assoc, List.nil_append,
    List.cons.injEq, true_and] at h
  obtain ⟨hchars, hrest⟩ := Escaping.flatMap_inj writes_escape h
  exact ⟨String.toList_inj.mp hchars, hrest⟩

theorem not_needsCode_digitChar : ∀ d < 16, needsCode (Nat.digitChar d) = false := by
  decide +kernel

theorem not_needsCode_letters {c : Char}
    (h : c ∈ ['"', '\\', 't', 'r', 'n', '0', 'u', '\x7b', '\x7d']) : needsCode c = false := by
  have hall : ['"', '\\', 't', 'r', 'n', '0', 'u', '\x7b', '\x7d'].all (!needsCode ·) = true := by
    decide +kernel
  simpa using List.all_eq_true.mp hall c h

theorem not_needsCode_of_mem_escape {x c : Char} (h : c ∈ escape x) : needsCode c = false := by
  unfold escape at h
  iterate 6
    split at h
    · refine not_needsCode_letters ?_
      simp only [List.mem_cons, List.not_mem_nil, or_false] at h
      rcases h with rfl | rfl <;> simp
  split at h
  · simp only [List.mem_cons, List.mem_append, List.cons_append, List.not_mem_nil, or_false] at h
    rcases h with rfl | rfl | rfl | hc | rfl
    · exact not_needsCode_letters (by simp)
    · exact not_needsCode_letters (by simp)
    · exact not_needsCode_letters (by simp)
    · obtain ⟨d, hd, rfl⟩ := exists_of_mem_toDigits hc
      exact not_needsCode_digitChar d hd
    · exact not_needsCode_letters (by simp)
  · rename_i hneeds
    cases List.mem_singleton.mp h
    exact Bool.eq_false_iff.mpr hneeds

/-- Nothing in a quoted text goes unseen. In particular it stays on one line. -/
theorem not_needsCode_of_mem_quote {s : String} {c : Char} (h : c ∈ (quote s).toList) :
    needsCode c = false := by
  simp only [quote, String.toList_ofList, List.mem_cons, List.mem_append, List.mem_flatMap,
    List.not_mem_nil, or_false] at h
  rcases h with (rfl | ⟨x, -, hc⟩) | rfl
  · exact not_needsCode_letters (by simp)
  · exact not_needsCode_of_mem_escape hc
  · exact not_needsCode_letters (by simp)

end Quoted

namespace Json

theorem toNat_lt_of_lt_space {x : Char} (h : x < ' ') : x.toNat < 32 := h

/-- JSON writes a control character that has no letter by its code in four digits. -/
def escaping : Escaping where
  letters :=
    [('"', '"'), ('\\', '\\'), ('\x08', 'b'), ('\x0c', 'f'), ('\n', 'n'), ('\r', 'r'), ('\t', 't')]
  isCoded x := x < ' '
  code x := ['0', '0', Nat.digitChar (x.toNat / 16), Nat.digitChar (x.toNat % 16)]
  letters_inj := by decide
  letters_ne_u := by decide
  code_inj {x y xs ys} hx hy h := by
    have hx := toNat_lt_of_lt_space hx
    have hy := toNat_lt_of_lt_space hy
    simp only [List.cons_append, List.cons.injEq, true_and] at h
    obtain ⟨hhigh, hlow, -⟩ := h
    have hhigh := congrArg hexDigitValue hhigh
    have hlow := congrArg hexDigitValue hlow
    rw [hexDigitValue_digitChar _ (by omega), hexDigitValue_digitChar _ (by omega)] at hhigh hlow
    exact Char.toNat_inj.mp (by omega)

theorem writes_escape (x : Char) : escaping.Writes x (escape x) := by
  unfold escape
  split
  · exact .letter (by simp [escaping, *])
  rename_i hquote
  split
  · exact .letter (by simp [escaping, *])
  rename_i hbackslash
  iterate 5
    split
    · exact .letter (by simp [escaping, *])
  split
  · exact .coded ‹_›
  · exact .plain hquote hbackslash

/-- A JSON string can be read back, and it tells where it ends. -/
theorem quoted_append_inj {s t : String} {rest rest' : List Char}
    (h : (quoted s).toList ++ rest = (quoted t).toList ++ rest') : s = t ∧ rest = rest' := by
  simp only [quoted, String.toList_ofList, List.cons_append, List.append_assoc, List.nil_append,
    List.cons.injEq, true_and] at h
  obtain ⟨hchars, hrest⟩ := Escaping.flatMap_inj writes_escape h
  exact ⟨String.toList_inj.mp hchars, hrest⟩

theorem space_le_digitChar : ∀ d < 16, ' ' ≤ Nat.digitChar d := by decide

theorem space_le_of_mem_escape {x c : Char} (h : c ∈ escape x) : ' ' ≤ c := by
  unfold escape at h
  iterate 7
    split at h
    · simp only [List.mem_cons, List.not_mem_nil, or_false] at h
      rcases h with rfl | rfl <;> decide
  split at h
  · rename_i hx
    have hx := toNat_lt_of_lt_space hx
    simp only [List.mem_cons, List.not_mem_nil, or_false] at h
    rcases h with rfl | rfl | rfl | rfl | rfl | rfl
    iterate 4 decide
    · exact space_le_digitChar _ (by omega)
    · exact space_le_digitChar _ (by omega)
  · rename_i hspace
    cases List.mem_singleton.mp h
    exact Char.not_lt.mp hspace

/-- A JSON string has no control characters. In particular it stays on one line. -/
theorem space_le_of_mem_quoted {s : String} {c : Char} (h : c ∈ (quoted s).toList) : ' ' ≤ c := by
  simp only [quoted, String.toList_ofList, List.mem_cons, List.mem_append, List.mem_flatMap,
    List.not_mem_nil, or_false] at h
  rcases h with (rfl | ⟨x, -, hc⟩) | rfl
  · decide
  · exact space_le_of_mem_escape hc
  · decide

end Json

end Lox
