import Lox.Proofs.Numbers.Rounding

namespace Lox.Number

variable {i : Interval} {x : Magnitude} {tie : Tie} {place point : Nat}

namespace Interval

theorem contains_of_onGrid? (h : i.onGrid? tie place = some point) :
    i.contains (point * (Nat.pow 10 place * quartersPerOne)) := by
  unfold onGrid? at h
  dsimp only at h
  generalize i.middle * Nat.pow 10 lastPlace / (Nat.pow 10 place * quartersPerOne) = below at h
  split at h
  · rename_i hbelow
    split at h
    · rename_i habove
      cases h
      exact (Bool.and_eq_true_iff.mp habove).1
    · cases h
      exact hbelow
  · split at h
    · rename_i habove
      cases h
      exact habove
    · cases h

theorem quartersPerOne_lt : quartersPerOne < Nat.pow 10 lastPlace := by
  decide +kernel

theorem contains_above (x : Magnitude) :
    x.interval.contains
      ((x.interval.middle * Nat.pow 10 lastPlace / quartersPerOne + 1) * quartersPerOne) := by
  have hlt := quartersPerOne_lt
  have hpos : 0 < quartersPerOne := by decide +kernel
  have hgap : 0 < Nat.pow 2 x.shift := Nat.two_pow_pos x.shift
  have hbelow := Nat.div_mul_le_self (x.interval.middle * Nat.pow 10 lastPlace) quartersPerOne
  have habove := Nat.lt_div_mul_add hpos (a := x.interval.middle * Nat.pow 10 lastPlace)
  have hlow : x.interval.low * Nat.pow 10 lastPlace ≤ x.interval.middle * Nat.pow 10 lastPlace :=
    Nat.mul_le_mul_right _ (Nat.sub_le _ _)
  have hhigh : (x.interval.middle + 1) * Nat.pow 10 lastPlace ≤
      x.interval.high * Nat.pow 10 lastPlace :=
    Nat.mul_le_mul_right _ (by unfold Magnitude.interval; dsimp only; omega)
  rw [Nat.add_one_mul] at hhigh
  unfold contains
  rw [Nat.add_one_mul]
  split <;> simp only [Bool.and_eq_true, decide_eq_true_eq] <;> omega

theorem exists_onGrid? (x : Magnitude) (tie : Tie) :
    ∃ point, x.interval.onGrid? tie 0 = some point := by
  have hstep : Nat.pow 10 0 * quartersPerOne = quartersPerOne := by
    rw [show Nat.pow 10 0 = 1 from rfl, Nat.one_mul]
  unfold onGrid?
  rw [hstep]
  dsimp only
  split
  · split <;> exact ⟨_, rfl⟩
  · rw [if_pos (contains_above x)]
    exact ⟨_, rfl⟩

theorem coarsest_contains (x : Magnitude) (tie : Tie) (place : Nat) :
    x.interval.contains ((x.interval.coarsest tie place).1 *
      (Nat.pow 10 (x.interval.coarsest tie place).2 * quartersPerOne)) := by
  induction place with
  | zero =>
      obtain ⟨point, hpoint⟩ := exists_onGrid? x tie
      rw [coarsest, hpoint]
      exact contains_of_onGrid? hpoint
  | succ place ih =>
      rw [coarsest]
      split
      · rename_i point hpoint
        exact contains_of_onGrid? hpoint
      · exact ih

end Interval

/-- The shortest decimal is a point in the interval of the number. -/
theorem Magnitude.exists_point (x : Magnitude) (tie : Tie) :
    ∃ point place, x.interval.contains (point * (Nat.pow 10 place * quartersPerOne)) ∧
      x.shortest tie = .ofPoint point place := by
  unfold shortest
  exact ⟨_, _, Interval.coarsest_contains x tie _, rfl⟩

end Lox.Number
