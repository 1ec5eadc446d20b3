import Lox.Number.Text
import Lox.Proofs.Numbers.Shortest
import Lox.Proofs.Syntax.Lexemes

namespace Lox.Number

open Scan

variable {digits : List Char} {d : Decimal} {p : Nat}

theorem digitsValue_eq (digits : List Char) :
    digitsValue digits = Nat.ofDigitChars 10 digits 0 :=
  Nat.ofDigitChars_eq_foldl.symm

theorem digitsValue_toDigits (n : Nat) : digitsValue (Nat.toDigits 10 n) = n := by
  rw [digitsValue_eq, Nat.ofDigitChars_ten_toDigits]

theorem digitsValue_zeros_append (zeros : Nat) (digits : List Char) :
    digitsValue (List.replicate zeros '0' ++ digits) = digitsValue digits := by
  rw [digitsValue_eq, digitsValue_eq, Nat.ofDigitChars_append, Nat.ofDigitChars_replicate_zero,
    Nat.mul_zero]

theorem digitsValue_append_zeros (digits : List Char) (zeros : Nat) :
    digitsValue (digits ++ List.replicate zeros '0') = digitsValue digits * 10 ^ zeros := by
  rw [digitsValue_eq, digitsValue_eq, Nat.ofDigitChars_append, Nat.ofDigitChars_replicate_zero,
    Nat.mul_comm]

theorem isDigit_of_mem_toDigits {n : Nat} {c : Char} (h : c ∈ Nat.toDigits 10 n) : isDigit c := by
  have hdigit := Nat.isDigit_of_mem_toDigits (by decide) (Nat.le_refl 10) h
  rw [Char.isDigit_iff_toNat] at hdigit
  exact isDigit_iff.mpr hdigit

namespace Decimal

/-- The place of the last digit; the one before the point is zero. -/
def scale (d : Decimal) : Int := d.exponent + 1 - d.digits.length

def numerator (d : Decimal) : Nat := digitsValue d.digits * 10 ^ d.scale.toNat

def denominator (d : Decimal) : Nat := 10 ^ (-d.scale).toNat

theorem numerator_mul {last place zeros : Nat} (h : d.scale = place + zeros - last) :
    d.numerator * 10 ^ last = digitsValue d.digits * 10 ^ zeros * 10 ^ place * d.denominator := by
  have hexponent : d.scale.toNat + last = zeros + place + (-d.scale).toNat := by omega
  rw [numerator, denominator, Nat.mul_assoc, ← Nat.pow_add, hexponent, Nat.pow_add, Nat.pow_add]
  simp only [Nat.mul_assoc]

theorem isDigit_of_mem_zeros {n : Nat} : ∀ c ∈ List.replicate n '0', isDigit c :=
  fun _ hc => List.eq_of_mem_replicate hc ▸ rfl

theorem numeral_positional (hne : d.digits ≠ []) (hdigits : ∀ c ∈ d.digits, isDigit c) :
    Numeral d.positional (ofQuotient d.numerator d.denominator) := by
  obtain ⟨digits, exponent⟩ := d
  dsimp only at hne hdigits
  have hlength := List.length_pos_iff.mpr hne
  unfold positional numerator denominator scale
  dsimp only
  split
  · -- The point stands before all digits.
    rename_i hnegative
    have hscale : (exponent + 1 - digits.length).toNat = 0 := by omega
    have hplaces : (-(exponent + 1 - digits.length)).toNat =
        (List.replicate (-exponent - 1).toNat '0' ++ digits).length := by
      rw [List.length_append, List.length_replicate]
      omega
    have hvalue := digitsValue_zeros_append ((-exponent - 1).toNat + 1) digits
    rw [hscale, hplaces, Nat.pow_zero, Nat.mul_one, ← hvalue]
    exact @Numeral.fraction ['0'] _ (by simp) (by simp [isDigit]) (by simp [hne])
      (List.forall_mem_append.mpr ⟨isDigit_of_mem_zeros, hdigits⟩)
  · split
    · -- It stands after them.
      rename_i hnegative hwhole
      have hscale : (exponent + 1 - digits.length).toNat =
          exponent.toNat + 1 - digits.length := by omega
      have hplaces : (-(exponent + 1 - digits.length)).toNat = 0 := by omega
      rw [hscale, hplaces, ← digitsValue_append_zeros]
      have h := @Numeral.whole (digits ++
        List.replicate (exponent.toNat + 1 - digits.length) '0') (by simp [hne])
        (List.forall_mem_append.mpr ⟨hdigits, isDigit_of_mem_zeros⟩)
      rwa [numberOf, List.append_nil] at h
    · -- It stands between them.
      rename_i hnegative hwhole
      have hscale : (exponent + 1 - digits.length).toNat = 0 := by omega
      have hplaces : (-(exponent + 1 - digits.length)).toNat =
          (digits.drop (exponent.toNat + 1)).length := by
        rw [List.length_drop]
        omega
      rw [hscale, hplaces, Nat.pow_zero, Nat.mul_one]
      have h := @Numeral.fraction (digits.take (exponent.toNat + 1))
        (digits.drop (exponent.toNat + 1)) (by simp [hne])
        (fun c hc => hdigits c (List.mem_of_mem_take hc)) (by simp; omega)
        (fun c hc => hdigits c (List.mem_of_mem_drop hc))
      rwa [numberOf, List.take_append_drop] at h

theorem exists_zeros (digits : List Char) :
    ∃ zeros,
      (digits.reverse.dropWhile (· == '0')).reverse ++ List.replicate zeros '0' = digits := by
  refine ⟨(digits.reverse.takeWhile (· == '0')).length, ?_⟩
  have hzeros : digits.reverse.takeWhile (· == '0') =
      List.replicate (digits.reverse.takeWhile (· == '0')).length '0' :=
    List.eq_replicate_iff.mpr ⟨rfl, fun c hc =>
      eq_of_beq (List.mem_takeWhile_imp (p := (· == '0')) hc)⟩
  rw [← List.reverse_replicate, ← hzeros, ← List.reverse_append, List.takeWhile_append_dropWhile,
    List.reverse_reverse]

theorem ofPoint_spec (point place : Nat) : ∃ zeros : Nat,
    (ofPoint point place).digits ++ List.replicate zeros '0' = Nat.toDigits 10 point ∧
      (ofPoint point place).scale = place + zeros - lastPlace := by
  obtain ⟨zeros, hzeros⟩ := exists_zeros (Nat.toDigits 10 point)
  have hlength := congrArg List.length hzeros
  rw [List.length_append, List.length_replicate] at hlength
  refine ⟨zeros, hzeros, ?_⟩
  unfold scale ofPoint
  dsimp only
  omega

theorem ofPoint_mul (point place : Nat) :
    (ofPoint point place).numerator * 10 ^ lastPlace =
      point * 10 ^ place * (ofPoint point place).denominator := by
  obtain ⟨zeros, hzeros, hscale⟩ := ofPoint_spec point place
  rw [numerator_mul hscale, ← digitsValue_append_zeros, hzeros, digitsValue_toDigits]

theorem isDigit_of_mem_ofPoint {point place : Nat} {c : Char}
    (h : c ∈ (ofPoint point place).digits) : isDigit c := by
  obtain ⟨zeros, hzeros, -⟩ := ofPoint_spec point place
  exact isDigit_of_mem_toDigits (hzeros ▸ List.mem_append_left _ h)

theorem ofPoint_ne_nil {point : Nat} (place : Nat) (h : 0 < point) :
    (ofPoint point place).digits ≠ [] := by
  obtain ⟨zeros, hzeros, -⟩ := ofPoint_spec point place
  intro hnil
  have hvalue := congrArg digitsValue hzeros
  rw [hnil, digitsValue_append_zeros, digitsValue_toDigits] at hvalue
  change 0 * 10 ^ zeros = point at hvalue
  omega

end Decimal

theorem Interval.pos_of_contains {x : Magnitude} {point step : Nat} (hx : 0 < x.significand)
    (h : x.interval.contains (point * step)) : 0 < point := by
  have hgap : 0 < Nat.pow 2 x.shift := Nat.two_pow_pos x.shift
  have hunits : 1 * Nat.pow 2 x.shift ≤ x.units := Nat.mul_le_mul_right _ hx
  have hlow : 0 < x.interval.low * Nat.pow 10 lastPlace := by
    refine Nat.mul_pos ?_ (Nat.zero_lt_of_lt Interval.quartersPerOne_lt)
    unfold Magnitude.interval
    dsimp only
    split <;> omega
  refine Nat.pos_of_ne_zero fun hzero => ?_
  rw [hzero, Nat.zero_mul] at h
  unfold contains at h
  split at h <;> simp only [Bool.and_eq_true, decide_eq_true_eq] at h <;> omega

/-- A decimal that is a point in the interval of a number rounds to the number. -/
theorem nearest_ofPoint {point place : Nat} (hp : p < infinityPattern)
    (h : (Magnitude.ofPattern p).interval.contains
      (point * (Nat.pow 10 place * quartersPerOne))) :
    nearest (Decimal.ofPoint point place).numerator (Decimal.ofPoint point place).denominator =
      p := by
  have hden : 0 < (Decimal.ofPoint point place).denominator := Nat.pow_pos (by decide)
  have hpower : 0 < Nat.pow 10 lastPlace := Nat.zero_lt_of_lt Interval.quartersPerOne_lt
  have hquarters : point * (Nat.pow 10 place * quartersPerOne) =
      4 * (point * Nat.pow 10 place * unitsPerOne) := by
    rw [quartersPerOne, Nat.mul_left_comm _ 4, Nat.mul_left_comm _ 4, Nat.mul_assoc]
  rw [hquarters] at h
  refine nearest_of_holds hden hp ((Interval.holds_of_contains h).congr hpower hden ?_)
  have hpoint := Decimal.ofPoint_mul point place
  rw [Nat.mul_right_comm, Nat.mul_right_comm _ unitsPerOne, Nat.pow_eq, Nat.pow_eq, hpoint]

/-- The digits in which a program prints a number are a numeral of the number. -/
theorem numeral_magnitude (hp : p < infinityPattern) :
    Numeral
      (if (Magnitude.ofPattern p).isIntegral then
        Nat.toDigits 10 (Magnitude.ofPattern p).integerPart
      else Layout.printed.write (Magnitude.ofPattern p))
      (Float.ofBits p.toUInt64) := by
  split
  · rename_i hintegral
    have hunits : (Magnitude.ofPattern p).integerPart * unitsPerOne =
        (Magnitude.ofPattern p).units :=
      Nat.div_mul_cancel (Nat.dvd_of_mod_eq_zero (of_decide_eq_true hintegral))
    have hholds := Interval.holds_middle (Magnitude.ofPattern p)
    rw [← hunits] at hholds
    have h := Numeral.whole (Nat.toDigits_ne_nil (n := (Magnitude.ofPattern p).integerPart))
      fun c => isDigit_of_mem_toDigits
    rw [numberOf, List.append_nil, digitsValue_toDigits, ofQuotient] at h
    rwa [show Nat.pow 10 [].length = 1 from rfl, nearest_of_holds Nat.one_pos hp hholds] at h
  · rename_i hintegral
    have hpos : 0 < (Magnitude.ofPattern p).significand := by
      refine Nat.pos_of_ne_zero fun hzero => hintegral (decide_eq_true ?_)
      rw [Magnitude.units, hzero, Nat.zero_mul, Nat.zero_mod]
    obtain ⟨point, place, hcontains, hshortest⟩ :=
      (Magnitude.ofPattern p).exists_point Layout.printed.tie
    have h := Decimal.numeral_positional
      (Decimal.ofPoint_ne_nil place (Interval.pos_of_contains hpos hcontains))
      fun c => Decimal.isDigit_of_mem_ofPoint
    rw [ofQuotient, nearest_ofPoint hp hcontains, ← hshortest] at h
    have hwrite : Layout.printed.write (Magnitude.ofPattern p) =
        ((Magnitude.ofPattern p).shortest Layout.printed.tie).positional :=
      List.append_nil _
    rwa [hwrite]

end Lox.Number
