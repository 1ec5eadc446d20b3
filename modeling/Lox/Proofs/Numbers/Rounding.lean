import Lox.Number.Shortest
import Mathlib.Algebra.Group.Nat.Defs
import Mathlib.Logic.Basic

/-!
What rounds to a number.

Around each number lies the interval of the quotients that are closer to it than to any other
number. `nearest` gives the pattern of a number for every quotient in its interval; where the
spacing changes, at a power of two, the quotients just below are rounded up into the next block.
-/

namespace Lox.Number

variable {n n' d d' q p s : Nat}

theorem blockSize_even : blockSize % 2 = 0 := by decide

/-- The quotient `n / d` is closer to `q` than to another whole number, or half way from an even
one. -/
def IsNearest (n d q : Nat) : Prop :=
  if q % 2 = 0 then 2 * (q * d) ≤ 2 * n + d ∧ 2 * n ≤ 2 * (q * d) + d
  else 2 * (q * d) < 2 * n + d ∧ 2 * n < 2 * (q * d) + d

theorem IsNearest.bounds (h : IsNearest n d q) :
    2 * (q * d) ≤ 2 * n + d ∧ 2 * n ≤ 2 * (q * d) + d := by
  unfold IsNearest at h
  split at h <;> omega

theorem divNearest_eq (hd : 0 < d) (h : IsNearest n d q) : divNearest n d = q := by
  have hn : d * (n / d) + n % d = n := Nat.div_add_mod n d
  have hr : n % d < d := Nat.mod_lt n hd
  unfold IsNearest at h
  unfold divNearest
  generalize n / d = k at hn ⊢
  generalize n % d = r at hn hr ⊢
  dsimp only
  rw [Nat.mul_comm] at hn
  obtain hlt | rfl | rfl | hlt : q < k ∨ q = k ∨ q = k + 1 ∨ k + 1 < q := by omega
  · have := Nat.mul_le_mul_right d (Nat.succ_le_of_lt hlt)
    rw [Nat.succ_mul] at this
    split at h <;> omega
  · rw [if_pos (by split at h <;> omega)]
  · rw [Nat.add_one_mul k d] at h
    rw [if_neg (by split at h <;> omega)]
  · have := Nat.mul_le_mul_right d (Nat.succ_le_of_lt hlt)
    rw [Nat.succ_mul, Nat.succ_mul] at this
    split at h <;> omega

/-- With this shift the quotient `n / d` has a significand of 53 bits, or one of fewer bits where
there is no shift. -/
structure IsShift (n d s : Nat) : Prop where
  fits : n < 2 * blockSize * (d * 2 ^ s)
  full : s = 0 ∨ blockSize * (d * 2 ^ s) ≤ n

theorem IsShift.log2_eq (hd : 0 < d) (h : IsShift n d s) : (n / d).log2 - 52 = s := by
  obtain ⟨hfits, hfull⟩ := h
  have hpower (b : Nat) : 2 ^ b * (d * 2 ^ s) = 2 ^ (b + s) * d := by
    rw [Nat.mul_comm d, ← Nat.mul_assoc, ← Nat.pow_add]
  change n < 2 ^ 53 * (d * 2 ^ s) at hfits
  rw [hpower, ← Nat.div_lt_iff_lt_mul hd] at hfits
  have hlt : (n / d).log2 < 53 + s := by
    by_cases hzero : n / d = 0
    · rw [hzero, Nat.log2_zero]
      omega
    · exact (Nat.log2_lt hzero).mpr hfits
  rcases hfull with rfl | hfull
  · omega
  · change 2 ^ 52 * (d * 2 ^ s) ≤ n at hfull
    rw [hpower, ← Nat.le_div_iff_mul_le hd] at hfull
    have hpos : 0 < n / d := Nat.lt_of_lt_of_le (Nat.two_pow_pos _) hfull
    have hle : 52 + s ≤ (n / d).log2 := (Nat.le_log2 (Nat.ne_of_gt hpos)).mpr hfull
    omega

theorem nearest_eq (hd : 0 < d) (hs : IsShift (n * unitsPerOne) d s)
    (hq : IsNearest (n * unitsPerOne) (d * 2 ^ s) q)
    (hfinite : s * blockSize + q < infinityPattern) : nearest n d = s * blockSize + q := by
  have hpos : 0 < d * 2 ^ s := Nat.mul_pos hd (Nat.two_pow_pos s)
  have hround : divNearest (n * unitsPerOne) (d * Nat.pow 2 s) = q := divNearest_eq hpos hq
  unfold nearest
  dsimp only
  rw [hs.log2_eq hd, hround, Nat.min_eq_right (Nat.le_of_lt hfinite)]

namespace Magnitude

/-- The pattern of a number from its parts, and which parts there are. -/
theorem ofPattern_parts (p : Nat) :
    (ofPattern p).shift * blockSize + (ofPattern p).significand = p ∧
      (ofPattern p).significand < 2 * blockSize ∧
      ((ofPattern p).shift = 0 ∨ blockSize ≤ (ofPattern p).significand) := by
  have hlt : p % blockSize < blockSize := Nat.mod_lt p (by decide)
  unfold ofPattern
  split
  · rename_i hblock
    exact ⟨by simp, by dsimp only; omega, .inl rfl⟩
  · rename_i hblock
    obtain ⟨k, hk⟩ : ∃ k, p / blockSize = k + 1 :=
      ⟨_, (Nat.sub_add_cancel (Nat.div_pos (Nat.le_of_not_lt hblock) (by decide))).symm⟩
    have hp := Nat.div_add_mod p blockSize
    rw [hk, Nat.mul_succ, Nat.mul_comm] at hp
    rw [hk, Nat.add_sub_cancel]
    exact ⟨by dsimp only; omega, by dsimp only; omega, .inr (Nat.le_add_right _ _)⟩

end Magnitude

namespace Interval

variable {i : Interval}

/-- The quotient `n / d`, in units, lies in the interval. -/
def Holds (i : Interval) (n d : Nat) : Prop :=
  if i.closed then i.low * d ≤ 4 * n ∧ 4 * n ≤ i.high * d
  else i.low * d < 4 * n ∧ 4 * n < i.high * d

theorem Holds.congr (hd : 0 < d) (hd' : 0 < d') (heq : n * d' = n' * d) (h : i.Holds n d) :
    i.Holds n' d' := by
  have hend (e : Nat) : e * d * d' = e * d' * d := Nat.mul_right_comm e d d'
  have hquarters : 4 * n * d' = 4 * n' * d := by rw [Nat.mul_assoc, heq, Nat.mul_assoc]
  unfold Holds at h ⊢
  split
  · rename_i hclosed
    rw [if_pos hclosed, ← Nat.mul_le_mul_right_iff hd', ← Nat.mul_le_mul_right_iff (n := 4 * n) hd',
      hquarters, hend, hend] at h
    exact h.imp (Nat.le_of_mul_le_mul_right · hd) (Nat.le_of_mul_le_mul_right · hd)
  · rename_i hclosed
    rw [if_neg hclosed, ← Nat.mul_lt_mul_right hd', ← Nat.mul_lt_mul_right (b := 4 * n) hd',
      hquarters, hend, hend] at h
    exact h.imp Nat.lt_of_mul_lt_mul_right Nat.lt_of_mul_lt_mul_right

theorem holds_of_contains (h : i.contains (4 * n)) : i.Holds n (Nat.pow 10 lastPlace) := by
  unfold contains at h
  unfold Holds
  split
  · rename_i hclosed
    rw [if_pos hclosed, Bool.and_eq_true, decide_eq_true_eq, decide_eq_true_eq] at h
    exact h
  · rename_i hclosed
    rw [if_neg hclosed, Bool.and_eq_true, decide_eq_true_eq, decide_eq_true_eq] at h
    exact h

/-- A number lies in its own interval. -/
theorem holds_middle (x : Magnitude) : x.interval.Holds x.units 1 := by
  have hgap : 0 < Nat.pow 2 x.shift := Nat.two_pow_pos x.shift
  unfold Holds Magnitude.interval
  dsimp only
  split
  · split <;> omega
  · rename_i hodd
    have hunits : 1 * Nat.pow 2 x.shift ≤ x.units := by
      refine Nat.mul_le_mul_right _ (Nat.pos_of_ne_zero fun hzero => hodd ?_)
      rw [hzero]
      rfl
    split <;> omega

end Interval

/-- The ends of the interval of a number with the significand `m`, measured by the spacing `g` of
the numbers above it. -/
theorem Interval.Holds.ends {m g : Nat} (hg : d * 2 ^ s = g)
    (h : (Magnitude.mk m s).interval.Holds n d) :
    if m % 2 = 0 then
      4 * (m * g) ≤ 4 * n + (if m = blockSize ∧ s ≠ 0 then g else 2 * g) ∧
        4 * n ≤ 4 * (m * g) + 2 * g
    else 4 * (m * g) < 4 * n + 2 * g ∧ 4 * n < 4 * (m * g) + 2 * g := by
  have hmiddle : 4 * (m * Nat.pow 2 s) * d = 4 * (m * g) := by
    rw [← hg, Nat.mul_assoc, Nat.mul_assoc, Nat.mul_comm _ d]
    rfl
  have hgap : Nat.pow 2 s * d = g := (Nat.mul_comm _ _).trans hg
  have hhalf : 2 * Nat.pow 2 s * d = 2 * g := by rw [Nat.mul_assoc, hgap]
  have hodd (hm : m % 2 ≠ 0) : m ≠ blockSize := fun heq => hm (heq ▸ blockSize_even)
  unfold Interval.Holds Magnitude.interval at h
  simp only [Magnitude.units, decide_eq_true_eq, Nat.sub_mul, Nat.add_mul, hmiddle, hhalf] at h
  split
  · rename_i heven
    rw [if_pos heven] at h
    split
    · rename_i hblock
      rw [if_pos hblock, hgap] at h
      omega
    · rename_i hblock
      rw [if_neg hblock, hhalf] at h
      omega
  · rename_i heven
    have hle : g ≤ m * g := Nat.le_mul_of_pos_left g (by omega)
    rw [if_neg heven, if_neg fun hblock => hodd heven hblock.1, hhalf] at h
    omega

/-- Just below a power of two the numbers are twice as close. The significand is rounded up to
`2 ^ 53`, which is carried. -/
theorem nearest_of_below {g : Nat} (hd : 0 < d) (hg : d * 2 ^ (s + 1) = g)
    (hp : (s + 1) * blockSize + blockSize < infinityPattern)
    (hlow : 4 * (blockSize * g) ≤ 4 * (n * unitsPerOne) + g)
    (hbelow : n * unitsPerOne < blockSize * g) :
    nearest n d = (s + 1) * blockSize + blockSize := by
  have hpattern : (s + 1) * blockSize + blockSize = s * blockSize + 2 * blockSize := by
    rw [Nat.add_one_mul]
    omega
  have hhalf : 2 * (d * 2 ^ s) = g := by rw [← hg, Nat.pow_succ, Nat.mul_comm 2, Nat.mul_assoc]
  have htwice : 2 * blockSize * (d * 2 ^ s) = blockSize * g := by
    rw [← hhalf, Nat.mul_comm 2, Nat.mul_assoc]
  have hwide : d * 2 ^ s ≤ blockSize * (d * 2 ^ s) := Nat.le_mul_of_pos_left _ (by decide)
  rw [hpattern] at hp ⊢
  refine nearest_eq hd ⟨?_, .inr ?_⟩ ?_ hp
  · rwa [htwice]
  · rw [Nat.mul_assoc] at htwice
    omega
  · rw [IsNearest, if_pos (Nat.mul_mod_right 2 blockSize), htwice]
    omega

/-- A quotient that is closest to a significand of 53 bits has the shift of that significand, unless
it lies below a power of two. -/
theorem isShift_of_isNearest {m : Nat} (hpos : 0 < d * 2 ^ s) (hnear : IsNearest n (d * 2 ^ s) m)
    (hsmall : m < 2 * blockSize) (hfull : s = 0 ∨ blockSize ≤ m)
    (habove : m = blockSize → s ≠ 0 → m * (d * 2 ^ s) ≤ n) : IsShift n d s := by
  obtain ⟨hlow, hhigh⟩ := hnear.bounds
  generalize hg : d * 2 ^ s = g at hpos hlow hhigh habove
  constructor
  · have := Nat.mul_le_mul_right g (Nat.succ_le_of_lt hsmall)
    rw [Nat.succ_mul] at this
    rw [hg]
    omega
  · refine or_iff_not_imp_left.mpr fun hs => ?_
    rw [hg]
    rcases Nat.eq_or_lt_of_le (hfull.resolve_left hs) with heq | hlt
    · rw [heq]
      exact habove heq.symm hs
    · have := Nat.mul_le_mul_right g (Nat.succ_le_of_lt hlt)
      rw [Nat.succ_mul] at this
      omega

/-- A quotient in the interval of a number is closest to its significand, unless it lies below a
power of two. -/
theorem Interval.Holds.isNearest {m g : Nat} (hg : d * 2 ^ s = g)
    (h : (Magnitude.mk m s).interval.Holds n d) (habove : m = blockSize → s ≠ 0 → m * g ≤ n) :
    IsNearest n g m := by
  have hends := h.ends hg
  unfold IsNearest
  split
  · rename_i heven
    rw [if_pos heven] at hends
    split at hends
    · rename_i hblock
      have := habove hblock.1 hblock.2
      omega
    · omega
  · rename_i heven
    rw [if_neg heven] at hends
    omega

/-- Every quotient in the interval of a number is rounded to the number. -/
theorem nearest_of_holds (hd : 0 < d) (hp : p < infinityPattern)
    (h : (Magnitude.ofPattern p).interval.Holds (n * unitsPerOne) d) : nearest n d = p := by
  obtain ⟨hparts, hsmall, hfull⟩ := Magnitude.ofPattern_parts p
  generalize Magnitude.ofPattern p = x at h hparts hsmall hfull
  obtain ⟨m, s⟩ := x
  dsimp only at hparts hsmall hfull
  subst hparts
  -- Below the least significand of a block the numbers are twice as close as above it.
  by_cases hbelow : (m = blockSize ∧ s ≠ 0) ∧ n * unitsPerOne < m * (d * 2 ^ s)
  · obtain ⟨⟨rfl, hs⟩, hbelow⟩ := hbelow
    have hends := h.ends rfl
    rw [if_pos blockSize_even, if_pos ⟨rfl, hs⟩] at hends
    obtain ⟨s, rfl⟩ := Nat.exists_eq_succ_of_ne_zero hs
    exact nearest_of_below hd rfl hp hends.1 hbelow
  · have hpos : 0 < d * 2 ^ s := Nat.mul_pos hd (Nat.two_pow_pos s)
    have habove (hm : m = blockSize) (hs : s ≠ 0) : m * (d * 2 ^ s) ≤ n * unitsPerOne :=
      Nat.le_of_not_lt fun hlt => hbelow ⟨⟨hm, hs⟩, hlt⟩
    have hnear := h.isNearest rfl habove
    exact nearest_eq hd (isShift_of_isNearest hpos hnear hsmall hfull habove) hnear hp

end Lox.Number
