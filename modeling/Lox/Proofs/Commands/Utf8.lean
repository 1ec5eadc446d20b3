import Lox.Text.Utf8
import Mathlib.Data.List.Forall2

/-!
What the bytes of a file are read as.

A first byte and the ranges after it admit just the bytes of the characters that start so. So bytes
are read as a text if they are the bytes of that text, and a fault lies where the longest text that
they start with ends.
-/

namespace Lox.Utf8

open String (utf8EncodeChar)

theorem toNat_val_ofNat {n : Nat} (h : n.isValidChar) : (Char.ofNat n).val.toNat = n := by
  unfold Char.ofNat
  rw [dif_pos h]
  rfl

theorem ofNat_eq {n : Nat} {b : UInt8} (h : n = b.toNat) : UInt8.ofNat n = b := by
  rw [h, UInt8.ofNat_toNat]

/-! ### The bytes of one character -/

/-- The bits of a character, of which the first byte holds these. -/
def gather (value : Nat) (bs : List UInt8) : Nat :=
  bs.foldl (fun value b => 64 * value + b.toNat % 64) value

section

variable {a b c d : UInt8}

theorem encode_one (ha : a.toNat < 0x80) : utf8EncodeChar (Char.ofNat a.toNat) = [a] := by
  rw [utf8EncodeChar, toNat_val_ofNat (.inl (by omega)), if_pos (by omega), UInt8.ofNat_toNat]

theorem encode_two (ha : 0xc2 ≤ a.toNat) (ha' : a.toNat < 0xe0) (hb : 0x80 ≤ b.toNat)
    (hb' : b.toNat ≤ 0xbf) :
    utf8EncodeChar (Char.ofNat (gather (a.toNat % 32) [b])) = [a, b] := by
  simp only [gather, List.foldl_cons, List.foldl_nil]
  rw [utf8EncodeChar, toNat_val_ofNat (.inl (by omega)), if_neg (by omega), if_pos (by omega)]
  rw [show UInt8.ofNat _ = a from ofNat_eq (by omega),
    show UInt8.ofNat _ = b from ofNat_eq (by omega)]

theorem encode_three (ha : 0xe0 ≤ a.toNat) (ha' : a.toNat < 0xf0) (hb : 0x80 ≤ b.toNat)
    (hb' : b.toNat ≤ 0xbf) (hc : 0x80 ≤ c.toNat) (hc' : c.toNat ≤ 0xbf)
    (hlong : a.toNat = 0xe0 → 0xa0 ≤ b.toNat) (hsurrogate : a.toNat = 0xed → b.toNat ≤ 0x9f) :
    utf8EncodeChar (Char.ofNat (gather (a.toNat % 16) [b, c])) = [a, b, c] := by
  simp only [gather, List.foldl_cons, List.foldl_nil]
  have hvalid : (64 * (64 * (a.toNat % 16) + b.toNat % 64) + c.toNat % 64).isValidChar := by
    rcases Nat.lt_or_ge a.toNat 0xee with h | h
    · exact .inl (by omega)
    · exact .inr ⟨by omega, by omega⟩
  rw [utf8EncodeChar, toNat_val_ofNat hvalid, if_neg (by omega), if_neg (by omega),
    if_pos (by omega)]
  rw [show UInt8.ofNat _ = a from ofNat_eq (by omega),
    show UInt8.ofNat _ = b from ofNat_eq (by omega),
    show UInt8.ofNat _ = c from ofNat_eq (by omega)]

theorem encode_four (ha : 0xf0 ≤ a.toNat) (ha' : a.toNat ≤ 0xf4) (hb : 0x80 ≤ b.toNat)
    (hb' : b.toNat ≤ 0xbf) (hc : 0x80 ≤ c.toNat) (hc' : c.toNat ≤ 0xbf) (hd : 0x80 ≤ d.toNat)
    (hd' : d.toNat ≤ 0xbf) (hlong : a.toNat = 0xf0 → 0x90 ≤ b.toNat)
    (hlast : a.toNat = 0xf4 → b.toNat ≤ 0x8f) :
    utf8EncodeChar (Char.ofNat (gather (a.toNat % 8) [b, c, d])) = [a, b, c, d] := by
  simp only [gather, List.foldl_cons, List.foldl_nil]
  rw [utf8EncodeChar, toNat_val_ofNat (.inr ⟨by omega, by omega⟩), if_neg (by omega),
    if_neg (by omega), if_neg (by omega)]
  rw [show UInt8.ofNat _ = a from ofNat_eq (by omega),
    show UInt8.ofNat _ = b from ofNat_eq (by omega),
    show UInt8.ofNat _ = c from ofNat_eq (by omega),
    show UInt8.ofNat _ = d from ofNat_eq (by omega)]

end

/-- The bytes lie in the ranges, one by one. -/
abbrev Lie (ranges : List Range) (bs : List UInt8) : Prop :=
  List.Forall₂ (fun r b => r.contains b = true) ranges bs

theorem Range.contains_iff {r : Range} {b : UInt8} :
    r.contains b = true ↔ r.low.toNat ≤ b.toNat ∧ b.toNat ≤ r.high.toNat := by
  simp [Range.contains, UInt8.le_iff_toNat_le]

theorem continuation_contains_iff {b : UInt8} :
    continuation.contains b = true ↔ 0x80 ≤ b.toNat ∧ b.toNat ≤ 0xbf := Range.contains_iff

section

variable {first : UInt8}

theorem opening?_of_one (h : first.toNat < 0x80) : opening? first = some (first.toNat, []) :=
  if_pos (UInt8.lt_iff_toNat_lt.mpr h)

theorem opening?_of_two (h : 0xc2 ≤ first.toNat) (h' : first.toNat < 0xe0) :
    opening? first = some (first.toNat % 32, [continuation]) := by
  simp only [opening?, UInt8.lt_iff_toNat_lt, UInt8.reduceToNat]
  rw [if_neg (by omega), if_neg (by omega), if_pos h']

theorem opening?_of_three (h : 0xe0 ≤ first.toNat) (h' : first.toNat < 0xf0) :
    ∃ second : Range, opening? first = some (first.toNat % 16, [second, continuation]) ∧
      ∀ b, second.contains b = true ↔ 0x80 ≤ b.toNat ∧ b.toNat ≤ 0xbf ∧
        (first.toNat = 0xe0 → 0xa0 ≤ b.toNat) ∧ (first.toNat = 0xed → b.toNat ≤ 0x9f) := by
  simp only [opening?, UInt8.lt_iff_toNat_lt, ← UInt8.toNat_inj, UInt8.reduceToNat]
  rw [if_neg (by omega), if_neg (by omega), if_neg (by omega)]
  by_cases hlong : first.toNat = 0xe0
  · refine ⟨⟨0xa0, 0xbf⟩, if_pos hlong, fun b => Range.contains_iff.trans ?_⟩
    simp only [UInt8.reduceToNat]
    omega
  by_cases hlast : first.toNat = 0xed
  · refine ⟨⟨0x80, 0x9f⟩, (if_neg hlong).trans (if_pos hlast), fun b => Range.contains_iff.trans ?_⟩
    simp only [UInt8.reduceToNat]
    omega
  · rw [if_neg hlong, if_neg hlast, if_pos h']
    refine ⟨continuation, rfl, fun b => continuation_contains_iff.trans ?_⟩
    omega

theorem opening?_of_four (h : 0xf0 ≤ first.toNat) (h' : first.toNat ≤ 0xf4) :
    ∃ second : Range,
      opening? first = some (first.toNat % 8, [second, continuation, continuation]) ∧
        ∀ b, second.contains b = true ↔ 0x80 ≤ b.toNat ∧ b.toNat ≤ 0xbf ∧
          (first.toNat = 0xf0 → 0x90 ≤ b.toNat) ∧ (first.toNat = 0xf4 → b.toNat ≤ 0x8f) := by
  simp only [opening?, UInt8.lt_iff_toNat_lt, ← UInt8.toNat_inj, UInt8.reduceToNat]
  rw [if_neg (by omega), if_neg (by omega), if_neg (by omega), if_neg (by omega),
    if_neg (by omega), if_neg (by omega)]
  by_cases hlong : first.toNat = 0xf0
  · refine ⟨⟨0x90, 0xbf⟩, if_pos hlong, fun b => Range.contains_iff.trans ?_⟩
    simp only [UInt8.reduceToNat]
    omega
  by_cases hlast : first.toNat = 0xf4
  · rw [if_neg hlong, if_neg (by omega), if_pos hlast]
    refine ⟨⟨0x80, 0x8f⟩, rfl, fun b => Range.contains_iff.trans ?_⟩
    simp only [UInt8.reduceToNat]
    omega
  · rw [if_neg hlong, if_pos (by omega)]
    refine ⟨continuation, rfl, fun b => continuation_contains_iff.trans ?_⟩
    omega

theorem opening?_eq_none (h : 0x80 ≤ first.toNat) (h' : first.toNat < 0xc2 ∨ 0xf4 < first.toNat) :
    opening? first = none := by
  simp only [opening?, UInt8.lt_iff_toNat_lt, ← UInt8.toNat_inj, UInt8.reduceToNat]
  rcases h' with h' | h'
  · rw [if_neg (by omega), if_pos h']
  · rw [if_neg (by omega), if_neg (by omega), if_neg (by omega), if_neg (by omega),
      if_neg (by omega), if_neg (by omega), if_neg (by omega), if_neg (by omega), if_neg (by omega)]

/-- Bytes that lie in the ranges of the first one are those of a character. -/
theorem encode_of_lie {value : Nat} {ranges : List Range} {bs : List UInt8}
    (h : opening? first = some (value, ranges)) (hbs : Lie ranges bs) :
    utf8EncodeChar (Char.ofNat (gather value bs)) = first :: bs := by
  by_cases hone : first.toNat < 0x80
  · cases (opening?_of_one hone).symm.trans h
    cases hbs
    exact encode_one hone
  by_cases hnone : first.toNat < 0xc2 ∨ 0xf4 < first.toNat
  · cases (opening?_eq_none (Nat.le_of_not_lt hone) hnone).symm.trans h
  rw [not_or, Nat.not_lt, Nat.not_lt] at hnone
  by_cases htwo : first.toNat < 0xe0
  · cases (opening?_of_two hnone.1 htwo).symm.trans h
    obtain _ | ⟨hb, ⟨⟩⟩ := hbs
    rw [continuation_contains_iff] at hb
    exact encode_two hnone.1 htwo hb.1 hb.2
  by_cases hthree : first.toNat < 0xf0
  · obtain ⟨second, hopening, hsecond⟩ := opening?_of_three (Nat.le_of_not_lt htwo) hthree
    cases hopening.symm.trans h
    obtain _ | ⟨hb, _ | ⟨hc, ⟨⟩⟩⟩ := hbs
    rw [continuation_contains_iff] at hc
    obtain ⟨hb, hb', hlong, hlast⟩ := (hsecond _).mp hb
    exact encode_three (Nat.le_of_not_lt htwo) hthree hb hb' hc.1 hc.2 hlong hlast
  · obtain ⟨second, hopening, hsecond⟩ := opening?_of_four (Nat.le_of_not_lt hthree) hnone.2
    cases hopening.symm.trans h
    obtain _ | ⟨hb, _ | ⟨hc, _ | ⟨hd, ⟨⟩⟩⟩⟩ := hbs
    rw [continuation_contains_iff] at hc hd
    obtain ⟨hb, hb', hlong, hlast⟩ := (hsecond _).mp hb
    exact encode_four (Nat.le_of_not_lt hthree) hnone.2 hb hb' hc.1 hc.2 hd.1 hd.2 hlong hlast

end

theorem toNat_ofNat_of_lt {n : Nat} (h : n < 256) : (UInt8.ofNat n).toNat = n := by
  rw [UInt8.toNat_ofNat', Nat.mod_eq_of_lt h]

theorem continuation_contains_ofNat (n : Nat) :
    continuation.contains (UInt8.ofNat (n % 0x40 + 0x80)) = true := by
  rw [continuation_contains_iff, toNat_ofNat_of_lt (by omega)]
  omega

theorem exists_lie_of_encode (x : Char) :
    ∃ first bs value ranges, utf8EncodeChar x = first :: bs ∧
      opening? first = some (value, ranges) ∧ Lie ranges bs ∧ gather value bs = x.toNat := by
  have hx : x.val.toNat = x.toNat := rfl
  have hvalid : x.toNat < 0xd800 ∨ 0xdfff < x.toNat ∧ x.toNat < 0x110000 := x.valid
  rw [utf8EncodeChar, hx]
  generalize x.toNat = v at hvalid ⊢
  by_cases hone : v ≤ 0x7f
  · have hfirst : (UInt8.ofNat v).toNat = v := toNat_ofNat_of_lt (by omega)
    rw [if_pos hone]
    exact ⟨_, _, _, _, rfl, opening?_of_one (by omega), .nil, hfirst⟩
  by_cases htwo : v ≤ 0x7ff
  · have hfirst : (UInt8.ofNat (v / 64 % 0x20 + 0xc0)).toNat = v / 64 % 0x20 + 0xc0 :=
      toNat_ofNat_of_lt (by omega)
    rw [if_neg hone, if_pos htwo]
    refine ⟨_, _, _, _, rfl, opening?_of_two (by omega) (by omega),
      .cons (continuation_contains_ofNat v) .nil, ?_⟩
    simp only [gather, List.foldl_cons, List.foldl_nil]
    rw [hfirst, toNat_ofNat_of_lt (by omega)]
    omega
  by_cases hthree : v ≤ 0xffff
  · have hfirst : (UInt8.ofNat (v / 4096 % 0x10 + 0xe0)).toNat = v / 4096 % 0x10 + 0xe0 :=
      toNat_ofNat_of_lt (by omega)
    have hnext : (UInt8.ofNat (v / 64 % 0x40 + 0x80)).toNat = v / 64 % 0x40 + 0x80 :=
      toNat_ofNat_of_lt (by omega)
    obtain ⟨second, hopening, hsecond⟩ :=
      @opening?_of_three (UInt8.ofNat (v / 4096 % 0x10 + 0xe0)) (by omega) (by omega)
    rw [if_neg hone, if_neg htwo, if_pos hthree]
    refine ⟨_, _, _, _, rfl, hopening, .cons ((hsecond _).mpr ?_)
      (.cons (continuation_contains_ofNat v) .nil), ?_⟩
    · rw [hfirst, hnext]
      omega
    · simp only [gather, List.foldl_cons, List.foldl_nil]
      rw [hfirst, hnext, toNat_ofNat_of_lt (by omega)]
      omega
  · have hfirst : (UInt8.ofNat (v / 262144 % 0x08 + 0xf0)).toNat = v / 262144 % 0x08 + 0xf0 :=
      toNat_ofNat_of_lt (by omega)
    have hnext : (UInt8.ofNat (v / 4096 % 0x40 + 0x80)).toNat = v / 4096 % 0x40 + 0x80 :=
      toNat_ofNat_of_lt (by omega)
    obtain ⟨second, hopening, hsecond⟩ :=
      @opening?_of_four (UInt8.ofNat (v / 262144 % 0x08 + 0xf0)) (by omega) (by omega)
    rw [if_neg hone, if_neg htwo, if_neg hthree]
    refine ⟨_, _, _, _, rfl, hopening, .cons ((hsecond _).mpr ?_)
      (.cons (continuation_contains_ofNat (v / 64)) (.cons (continuation_contains_ofNat v) .nil)),
      ?_⟩
    · rw [hfirst, hnext]
      omega
    · simp only [gather, List.foldl_cons, List.foldl_nil]
      rw [hfirst, hnext, toNat_ofNat_of_lt (by omega), toNat_ofNat_of_lt (by omega)]
      omega

/-! ### Beginnings of characters -/

/-- The bytes are the first ones of a character, or all. -/
def Begins (bs : List UInt8) : Prop := ∃ x more, utf8EncodeChar x = bs ++ more

/-- The bytes are the first ones of a character, and at least one is missing. -/
def BreaksOff (bs : List UInt8) : Prop := ∃ x b more, utf8EncodeChar x = bs ++ b :: more

theorem breaksOff_nil : BreaksOff [] := by
  obtain ⟨first, bs, -, -, h, -⟩ := exists_lie_of_encode 'a'
  exact ⟨'a', first, bs, h⟩

section

variable {first : UInt8} {value : Nat} {ranges pre post : List Range} {bs more : List UInt8}

theorem contains_low (h : opening? first = some (value, ranges)) :
    ∀ r ∈ ranges, r.contains r.low = true := by
  unfold opening? at h
  repeat' split at h
  all_goals first | contradiction | (cases h; decide)

theorem exists_encode_of_lie (h : opening? first = some (value, pre ++ post)) (hbs : Lie pre bs) :
    ∃ x, utf8EncodeChar x = first :: bs ++ post.map Range.low := by
  have hpost : Lie post (post.map Range.low) := by
    rw [Lie, List.forall₂_map_right_iff, List.forall₂_same]
    exact fun r hr => contains_low h r (List.mem_append_right _ hr)
  exact ⟨_, encode_of_lie h (List.rel_append hbs hpost)⟩

theorem exists_lie_of_append {x : Char} (h : utf8EncodeChar x = first :: bs ++ more) :
    ∃ value pre post, opening? first = some (value, pre ++ post) ∧ Lie pre bs ∧ Lie post more := by
  obtain ⟨_, _, value, ranges, hx, hopening, hlie, -⟩ := exists_lie_of_encode x
  cases hx.symm.trans h
  refine ⟨value, ranges.take bs.length, ranges.drop bs.length, ?_,
    List.forall₂_take_append _ _ _ hlie, List.forall₂_drop_append _ _ _ hlie⟩
  rw [List.take_append_drop]
  exact hopening

theorem begins_cons_iff :
    Begins (first :: bs) ↔
      ∃ value pre post, opening? first = some (value, pre ++ post) ∧ Lie pre bs := by
  constructor
  · rintro ⟨x, more, hx⟩
    obtain ⟨value, pre, post, hopening, hlie, -⟩ := exists_lie_of_append hx
    exact ⟨value, pre, post, hopening, hlie⟩
  · rintro ⟨value, pre, post, hopening, hlie⟩
    obtain ⟨x, hx⟩ := exists_encode_of_lie hopening hlie
    exact ⟨x, _, hx⟩

theorem breaksOff_cons_iff :
    BreaksOff (first :: bs) ↔
      ∃ value pre r post, opening? first = some (value, pre ++ r :: post) ∧ Lie pre bs := by
  constructor
  · rintro ⟨x, b, more, hx⟩
    obtain ⟨value, pre, _, hopening, hlie, _ | ⟨_, _⟩⟩ := exists_lie_of_append hx
    exact ⟨value, pre, _, _, hopening, hlie⟩
  · rintro ⟨value, pre, r, post, hopening, hlie⟩
    obtain ⟨x, hx⟩ := exists_encode_of_lie hopening hlie
    exact ⟨x, _, _, hx⟩

end

/-! ### What is read after the first byte -/

section

variable {index seen value : Nat} {ranges pre post : List Range} {bs rest : List UInt8}

theorem following_of_lie (h : Lie ranges bs) (rest : List UInt8) :
    following index seen value ranges (bs ++ rest) = .ok (gather value bs, rest) := by
  induction h generalizing seen value with
  | nil => rfl
  | cons hb _ ih => exact (if_pos hb).trans ih

theorem following_of_incomplete {r : Range} (h : Lie pre bs) :
    following index seen value (pre ++ r :: post) bs = .error (.incomplete index) := by
  induction h generalizing seen value with
  | nil => rfl
  | cons hb _ ih => exact (if_pos hb).trans ih

theorem following_of_invalid {r : Range} {b : UInt8} (h : Lie pre bs) (hb : ¬r.contains b = true) :
    following index seen value (pre ++ r :: post) (bs ++ b :: rest) =
      .error (.invalid (seen + bs.length) index) := by
  induction h generalizing seen value with
  | nil => exact if_neg hb
  | cons hb' _ ih =>
      refine (if_pos hb').trans (ih.trans ?_)
      rw [List.length_cons, Nat.add_assoc, Nat.add_comm 1]

theorem lie_or (ranges : List Range) (bytes : List UInt8) :
    (∃ bs rest, bytes = bs ++ rest ∧ Lie ranges bs) ∨
    (∃ pre r post, ranges = pre ++ r :: post ∧ Lie pre bytes) ∨
    ∃ pre r post bs b rest, ranges = pre ++ r :: post ∧ bytes = bs ++ b :: rest ∧ Lie pre bs ∧
      ¬r.contains b = true := by
  induction ranges generalizing bytes with
  | nil => exact .inl ⟨[], bytes, rfl, .nil⟩
  | cons r ranges ih =>
      cases bytes with
      | nil => exact .inr (.inl ⟨[], r, ranges, rfl, .nil⟩)
      | cons b bytes =>
          by_cases hb : r.contains b = true
          · rcases ih bytes with ⟨bs, rest, rfl, h⟩ | ⟨pre, r', post, rfl, h⟩ |
              ⟨pre, r', post, bs, b', rest, rfl, rfl, h, hb'⟩
            · exact .inl ⟨b :: bs, rest, rfl, .cons hb h⟩
            · exact .inr (.inl ⟨r :: pre, r', post, rfl, .cons hb h⟩)
            · exact .inr (.inr ⟨r :: pre, r', post, b :: bs, b', rest, rfl, rfl, .cons hb h, hb'⟩)
          · exact .inr (.inr ⟨[], r, ranges, [], b, bytes, rfl, rfl, .nil, hb⟩)

end

/-! ### What is read of all bytes -/

/-- The bytes of several characters. -/
def encode (xs : List Char) : List UInt8 := xs.flatMap utf8EncodeChar

theorem encode_cons (x : Char) (xs : List Char) :
    encode (x :: xs) = utf8EncodeChar x ++ encode xs :=
  List.flatMap_cons

theorem Lie.contains {pre pre' post post' : List Range} {r : Range} {b : UInt8} {bs : List UInt8}
    (h : Lie pre bs) (h' : Lie pre' (bs ++ [b])) (heq : pre' ++ post' = pre ++ r :: post) :
    r.contains b = true := by
  induction h generalizing pre' with
  | nil =>
      obtain _ | ⟨hb, ⟨⟩⟩ := h'
      cases heq
      exact hb
  | cons _ _ ih =>
      obtain _ | ⟨_, h'⟩ := h'
      exact ih h' (List.cons_eq_cons.mp heq).2

theorem not_begins_append {first b : UInt8} {value : Nat} {pre post : List Range} {r : Range}
    {bs : List UInt8} (hopening : opening? first = some (value, pre ++ r :: post))
    (hbs : Lie pre bs) (hb : ¬r.contains b = true) : ¬Begins (first :: bs ++ [b]) := by
  intro hbegins
  obtain ⟨value', pre', post', hopening', hlie⟩ := begins_cons_iff.mp hbegins
  obtain ⟨-, heq⟩ := Prod.mk.inj (Option.some.inj (hopening'.symm.trans hopening))
  exact hb (hbs.contains hlie heq)

/-- A text, and then no more bytes, or a character that breaks off, or a byte that does not
go on with one. -/
theorem exists_split (bytes : List UInt8) :
    ∃ (text : String) (rest : List UInt8), bytes = encode text.toList ++ rest ∧
      (rest = [] ∨ rest ≠ [] ∧ BreaksOff rest ∨
        ∃ part b more, rest = part ++ b :: more ∧ BreaksOff part ∧ ¬Begins (part ++ [b])) := by
  induction hn : bytes.length using Nat.strongRecOn generalizing bytes with
  | ind n ih =>
      subst hn
      rcases bytes with _ | ⟨first, tail⟩
      · exact ⟨"", [], rfl, .inl rfl⟩
      cases hopening : opening? first with
      | none =>
          refine ⟨"", _, rfl, .inr (.inr ⟨[], first, tail, rfl, breaksOff_nil, fun hbegins => ?_⟩)⟩
          obtain ⟨_, _, _, h, -⟩ := begins_cons_iff.mp hbegins
          cases hopening.symm.trans h
      | some p =>
          obtain ⟨value, ranges⟩ := p
          -- either a whole character comes first, or the fault lies in the first one
          rcases lie_or ranges tail with ⟨bs, rest, rfl, h⟩ | ⟨pre, r, post, rfl, h⟩ |
            ⟨pre, r, post, bs, b, more, rfl, rfl, h, hb⟩
          · have hlength : rest.length < (first :: (bs ++ rest)).length := by
              rw [List.length_cons, List.length_append]
              omega
            obtain ⟨text, rest', rfl, hrest⟩ := ih rest.length hlength rest rfl
            refine ⟨String.ofList (Char.ofNat (gather value bs) :: text.toList), rest', ?_, hrest⟩
            rw [String.toList_ofList, encode_cons, encode_of_lie hopening h]
            simp
          · exact ⟨"", _, rfl, .inr (.inl ⟨List.cons_ne_nil _ _,
              breaksOff_cons_iff.mpr ⟨value, pre, r, post, hopening, h⟩⟩)⟩
          · exact ⟨"", _, rfl, .inr (.inr ⟨first :: bs, b, more, rfl,
              breaksOff_cons_iff.mpr ⟨value, pre, r, post, hopening, h⟩,
              not_begins_append hopening h hb⟩)⟩

section

variable {done : Array Char} {index : Nat}

theorem decodeAfter_of_ok {first : UInt8} {value code : Nat} {ranges : List Range}
    {rest after : List UInt8} (hopening : opening? first = some (value, ranges))
    (h : following index 1 value ranges rest = .ok (code, after)) :
    decodeAfter done index (first :: rest) =
      decodeAfter (done.push (Char.ofNat code)) (index + 1 + ranges.length) after := by
  rw [decodeAfter, hopening]
  dsimp only
  split
  · rename_i h'
    cases h'.symm.trans h
  · rename_i h'
    cases h'.symm.trans h
    rfl

theorem decodeAfter_of_error {first : UInt8} {value : Nat} {ranges : List Range}
    {rest : List UInt8} {fault : Fault} (hopening : opening? first = some (value, ranges))
    (h : following index 1 value ranges rest = .error fault) :
    decodeAfter done index (first :: rest) = .error fault := by
  rw [decodeAfter, hopening]
  dsimp only
  split
  · rename_i h'
    cases h'.symm.trans h
    rfl
  · rename_i h'
    cases h'.symm.trans h

theorem decodeAfter_encode_append (xs : List Char) (rest : List UInt8) :
    decodeAfter done index (encode xs ++ rest) =
      decodeAfter (done ++ xs.toArray) (index + (encode xs).length) rest := by
  induction xs generalizing done index with
  | nil => simp [encode]
  | cons x xs ih =>
      obtain ⟨first, bs, value, ranges, hx, hopening, hlie, hcode⟩ := exists_lie_of_encode x
      have hbytes : encode (x :: xs) ++ rest = first :: (bs ++ (encode xs ++ rest)) := by
        simp [encode_cons, hx]
      have hlength : (encode (x :: xs)).length = 1 + ranges.length + (encode xs).length := by
        rw [encode_cons, hx, List.length_append, List.length_cons, hlie.length_eq, Nat.add_comm 1]
      rw [hbytes, decodeAfter_of_ok hopening (following_of_lie hlie _), ih, hcode, hlength,
        Char.ofNat_toNat]
      simp [Nat.add_assoc]

theorem decodeAfter_of_incomplete {rest : List UInt8} (hne : rest ≠ []) (h : BreaksOff rest) :
    decodeAfter done index rest = .error (.incomplete index) := by
  cases rest with
  | nil => exact absurd rfl hne
  | cons first bs =>
      obtain ⟨value, pre, r, post, hopening, hlie⟩ := breaksOff_cons_iff.mp h
      exact decodeAfter_of_error hopening (following_of_incomplete hlie)

theorem decodeAfter_of_invalid {part rest : List UInt8} {b : UInt8} (h : BreaksOff part)
    (hb : ¬Begins (part ++ [b])) :
    decodeAfter done index (part ++ b :: rest) = .error (.invalid (max part.length 1) index) := by
  cases part with
  | nil =>
      cases hopening : opening? b with
      | none =>
          rw [List.nil_append, decodeAfter, hopening]
          rfl
      | some p => exact absurd (begins_cons_iff.mpr ⟨p.1, [], p.2, hopening, .nil⟩) hb
  | cons first bs =>
      obtain ⟨value, pre, r, post, hopening, hlie⟩ := breaksOff_cons_iff.mp h
      have hrange : ¬r.contains b = true := by
        intro hcontains
        refine hb (begins_cons_iff.mpr ⟨value, pre ++ [r], post, ?_, ?_⟩)
        · rw [hopening, List.append_assoc]
          rfl
        · exact List.rel_append hlie (.cons hcontains .nil)
      refine decodeAfter_of_error hopening ((following_of_invalid hlie hrange).trans ?_)
      rw [List.length_cons, Nat.max_eq_left (Nat.le_add_left _ _), Nat.add_comm]

end

/-! ### What becomes of the bytes of a file -/

section

variable {bytes : List UInt8} {text : String} {index length : Nat}

theorem decode_encode_append (text : String) (rest : List UInt8) :
    decode (encode text.toList ++ rest) =
      (decodeAfter text.toList.toArray (encode text.toList).length rest).map
        fun xs => String.ofList xs.toList := by
  rw [decode, decodeAfter_encode_append]
  simp

theorem decode_encode (text : String) : decode (encode text.toList) = .ok text := by
  have h := decode_encode_append text []
  rw [List.append_nil, decodeAfter] at h
  simpa [Except.map] using h

theorem decode_of_incomplete {rest : List UInt8} (hne : rest ≠ []) (h : BreaksOff rest) :
    decode (encode text.toList ++ rest) = .error (.incomplete (encode text.toList).length) := by
  rw [decode_encode_append, decodeAfter_of_incomplete hne h]
  rfl

theorem decode_of_invalid {part more : List UInt8} {b : UInt8} (h : BreaksOff part)
    (hb : ¬Begins (part ++ [b])) :
    decode (encode text.toList ++ (part ++ b :: more)) =
      .error (.invalid (max part.length 1) (encode text.toList).length) := by
  rw [decode_encode_append, decodeAfter_of_invalid h hb]
  rfl

/-- Bytes are read as a text just if they are those that the text is held in. -/
theorem decode_eq_ok_iff : decode bytes = .ok text ↔ bytes.toByteArray = text.toByteArray := by
  rw [← String.utf8Encode_toList, List.utf8Encode, List.toByteArray_inj]
  change _ ↔ bytes = encode text.toList
  constructor
  · intro h
    obtain ⟨text', rest, rfl, rfl | ⟨hne, hrest⟩ | ⟨part, b, more, rfl, hpart, hb⟩⟩ :=
      exists_split bytes
    · rw [List.append_nil] at h ⊢
      cases (decode_encode text').symm.trans h
      rfl
    · cases (decode_of_incomplete hne hrest).symm.trans h
    · cases (decode_of_invalid hpart hb).symm.trans h
  · rintro rfl
    exact decode_encode text

/-- Bytes are incomplete where they are those of a text, and then of a character that breaks
off. -/
theorem decode_eq_incomplete_iff :
    decode bytes = .error (.incomplete index) ↔
      ∃ (text : String) (rest : List UInt8), bytes = encode text.toList ++ rest ∧
        index = (encode text.toList).length ∧ rest ≠ [] ∧ BreaksOff rest := by
  constructor
  · intro h
    obtain ⟨text, rest, rfl, rfl | ⟨hne, hrest⟩ | ⟨part, b, more, rfl, hpart, hb⟩⟩ :=
      exists_split bytes
    · rw [List.append_nil] at h
      cases (decode_encode text).symm.trans h
    · cases (decode_of_incomplete hne hrest).symm.trans h
      exact ⟨text, rest, rfl, rfl, hne, hrest⟩
    · cases (decode_of_invalid hpart hb).symm.trans h
  · rintro ⟨text, rest, rfl, rfl, hne, hrest⟩
    exact decode_of_incomplete hne hrest

/-- Bytes are invalid where they are those of a text, then the first ones of a character, and then
one that does not go on with it. That one is counted only where it would be the first. -/
theorem decode_eq_invalid_iff :
    decode bytes = .error (.invalid length index) ↔
      ∃ (text : String) (part : List UInt8) (b : UInt8) (more : List UInt8),
        bytes = encode text.toList ++ (part ++ b :: more) ∧
          index = (encode text.toList).length ∧ length = max part.length 1 ∧ BreaksOff part ∧
            ¬Begins (part ++ [b]) := by
  constructor
  · intro h
    obtain ⟨text, rest, rfl, rfl | ⟨hne, hrest⟩ | ⟨part, b, more, rfl, hpart, hb⟩⟩ :=
      exists_split bytes
    · rw [List.append_nil] at h
      cases (decode_encode text).symm.trans h
    · cases (decode_of_incomplete hne hrest).symm.trans h
    · cases (decode_of_invalid hpart hb).symm.trans h
      exact ⟨text, part, b, more, rfl, rfl, rfl, hpart, hb⟩
  · rintro ⟨text, part, b, more, rfl, rfl, rfl, hpart, hb⟩
    exact decode_of_invalid hpart hb

end

end Lox.Utf8
