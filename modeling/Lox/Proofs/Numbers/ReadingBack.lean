import Lox.Proofs.Numbers.Bits
import Lox.Proofs.Numbers.Decimals
import Lox.Proofs.Syntax.Readable
import Lox.Proofs.Syntax.Writing

/-!
Printed numbers are read back.

The text of a finite number is a numeral, after a minus if the sign bit is set. As an expression it
has the value that was printed, to the last bit.
-/

namespace Lox

open Scan Parsing

namespace Number

variable {n : Float} {w : List Char} {value : Float} {negative : Bool}

/-- The tokens of a number whose digits are `w`. -/
def tokens (negative : Bool) (w : List Char) (value : Float) : List Token :=
  (if negative then [⟨.symbol .minus, "-", 1⟩] else []) ++ [⟨.number value, String.ofList w, 1⟩]

theorem lexes_numeral (h : Numeral w value) :
    Lexes 1 w [.token ⟨.number value, String.ofList w, 1⟩, .token (.endOfInput 1)] := by
  have hlegal : Token.IsLegal ⟨.number value, String.ofList w, 1⟩ := by
    rw [Token.IsLegal, String.toList_ofList]
    exact .number h
  have hbreak : w.count '\n' = 0 :=
    List.count_eq_zero.mpr (IsNumeral.notMem_of_isGap ⟨value, h⟩ (.inr (.inr (.inr rfl))))
  simpa [written, placed, hbreak] using lexes_written 1 (List.forall_mem_singleton.mpr hlegal)

theorem lexes_signed (negative : Bool) (h : Numeral w value) :
    Lexes 1 (signed negative w)
      ((tokens negative w value ++ [Token.endOfInput 1]).map Item.token) := by
  cases negative with
  | false => exact lexes_numeral h
  | true =>
      have hminus : IsToken (.symbol .minus) ['-'] w :=
        .symbol (longest_mark (c := '-') (by decide) w)
      have hstart : ¬StartsTrivia ('-' :: w) :=
        not_startsTrivia_cons_iff.mpr ⟨by decide, by decide, by simp⟩
      exact .token (.nothing hstart) hminus (lexes_numeral h)

/-- The expression that these tokens stand for. -/
def expression (negative : Bool) (value : Float) : Expr Unit :=
  if negative then .unary ⟨.symbol .minus, "-", 1⟩ (.literal (.number value))
  else .literal (.number value)

theorem readsAs_tokens (negative : Bool) (w : List Char) (value : Float) :
    ReadsAs (tokens negative w value) (.expression (expression negative value)) := by
  have hnumber : ReadsAs [⟨.number value, String.ofList w, 1⟩] (.call (.literal (.number value))) :=
    .primary (.literal rfl)
  cases negative with
  | false => exact .plain (hnumber.of_call levels)
  | true => exact .plain (.of_unary (.unary (by decide) (.operand hnumber)) levels)

theorem evaluateExpr_expression (negative : Bool) (value : Float) (fuel : Nat) (s : Session) :
    s.evaluateExpr (fuel + 2) (expression negative value) =
      (.value (.number (if negative then -value else value)), s) := by
  cases negative <;> rfl

/-- The bits of a number without its sign. -/
def magnitudeBits (n : Float) : UInt64 := (n.toBits.toNat % 2 ^ 63).toUInt64

def isNegative (n : Float) : Bool := 2 ^ 63 ≤ n.toBits.toNat

theorem numeral_text (h : n.isFinite) :
    ∃ w, text n = String.ofList (signed (isNegative n) w) ∧
      Numeral w (Float.ofBits (magnitudeBits n)) := by
  have hp := isFinite_iff.mp h
  have hdecode : decode n =
      .finite (isNegative n) (.ofPattern (n.toBits.toNat % 2 ^ 63)) := if_pos hp
  refine ⟨_, ?_, numeral_magnitude hp⟩
  rw [text, printed, hdecode]

theorem toBits_signed (h : n.isFinite) :
    (if isNegative n then -Float.ofBits (magnitudeBits n)
      else Float.ofBits (magnitudeBits n)).toBits = n.toBits := by
  have hp := isFinite_iff.mp h
  have hlt := n.toBits.toNat_lt
  have hbits : (magnitudeBits n).toNat = n.toBits.toNat % 2 ^ 63 :=
    Nat.mod_eq_of_lt (by omega)
  have hmagnitude : (Float.ofBits (magnitudeBits n)).toBits = magnitudeBits n :=
    toBits_ofBits (by rw [hbits]; omega)
  have hfinite : (Float.ofBits (magnitudeBits n)).isFinite :=
    isFinite_iff.mpr (by rw [hmagnitude, hbits]; omega)
  split
  · rename_i hnegative
    have hnegative := of_decide_eq_true hnegative
    refine toBits_neg hfinite ?_ ?_ <;> rw [hmagnitude, hbits] <;> omega
  · rename_i hnegative
    have hnegative := of_decide_eq_false (Bool.eq_false_iff.mpr hnegative)
    rw [hmagnitude, ← UInt64.toNat_inj, hbits]
    omega

/-- A finite number is the value of its own text, whatever the session. -/
theorem evaluate_text (h : n.isFinite) (fuel : Nat) (s : Session) :
    ∃ r, s.evaluate (fuel + 2) (text n) = (.value (.number r), s) ∧ r.toBits = n.toBits := by
  obtain ⟨w, htext, hw⟩ := numeral_text h
  have hscans := (lexes_signed (isNegative n) hw).scans
  rw [← String.toList_ofList (l := signed (isNegative n) w), ← htext] at hscans
  have hread := readExpression_eq_iff.mpr ⟨_, _, hscans, readsAs_tokens _ _ _⟩
  refine ⟨_, ?_, toBits_signed h⟩
  rw [Session.evaluate, hread]
  exact evaluateExpr_expression (isNegative n) _ fuel s

theorem text_injective {n' : Float} (h : n.isFinite) (h' : n'.isFinite) (heq : text n = text n') :
    n.toBits = n'.toBits := by
  obtain ⟨r, hr, hbits⟩ := evaluate_text h 0 (.new fun _ => 0)
  obtain ⟨r', hr', hbits'⟩ := evaluate_text h' 0 (.new fun _ => 0)
  rw [heq, hr'] at hr
  cases hr
  exact hbits.symm.trans hbits'

/-- The text of a finite number is scanned as one number, after a minus exactly if the sign bit is
set. It is evaluated to the same bits, and no other finite number has it. -/
theorem text_reads_back (n : Float) (h : n.isFinite) :
    (∃ lexeme value, Scan.items (text n) =
      (if 2 ^ 63 ≤ n.toBits.toNat then [Item.token ⟨.symbol .minus, "-", 1⟩] else []) ++
        [.token ⟨.number value, lexeme, 1⟩, .token (.endOfInput 1)]) ∧
      (∀ (fuel : Nat) (s : Session), ∃ r,
        s.evaluate (fuel + 2) (text n) = (.value (.number r), s) ∧ r.toBits = n.toBits) ∧
      ∀ n' : Float, n'.isFinite → text n' = text n → n'.toBits = n.toBits := by
  refine ⟨?_, evaluate_text h, fun n' h' => text_injective h' h⟩
  obtain ⟨w, htext, hw⟩ := numeral_text h
  have hlexes := lexes_signed (isNegative n) hw
  rw [← String.toList_ofList (l := signed (isNegative n) w), ← htext] at hlexes
  refine ⟨String.ofList w, Float.ofBits (magnitudeBits n), (items_eq_iff_lexes.mpr hlexes).trans ?_⟩
  by_cases hnegative : 2 ^ 63 ≤ n.toBits.toNat
  · rw [if_pos hnegative, show isNegative n = true from decide_eq_true hnegative]
    rfl
  · rw [if_neg hnegative, show isNegative n = false from decide_eq_false hnegative]
    rfl

/-- The zero with a sign keeps it. -/
theorem text_reads_back_of_zero :
    (Float.ofBits 0x8000000000000000).isFinite ∧
      text (Float.ofBits 0x8000000000000000) = "-0" ∧
      (∃ lexeme value, Scan.items "-0" = [.token ⟨.symbol .minus, "-", 1⟩,
        .token ⟨.number value, lexeme, 1⟩, .token (.endOfInput 1)]) ∧
      ∀ s : Session, ∃ r,
        s.evaluate 2 "-0" = (.value (.number r), s) ∧ r.toBits = 0x8000000000000000 := by
  have hfinite : (Float.ofBits 0x8000000000000000).isFinite := by decide +kernel
  have htext : text (Float.ofBits 0x8000000000000000) = "-0" := by decide +kernel
  have hbits : (Float.ofBits 0x8000000000000000).toBits = 0x8000000000000000 := by decide +kernel
  obtain ⟨hitems, hvalue, -⟩ := text_reads_back _ hfinite
  rw [htext, hbits] at hitems
  rw [htext, hbits] at hvalue
  exact ⟨hfinite, htext, hitems, hvalue 0⟩

example : text (Float.ofBits 0xBFB999999999999A) = "-0.1" := by decide +kernel

end Number

end Lox
