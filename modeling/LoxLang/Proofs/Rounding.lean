import LoxLang.Number.Text
import Mathlib

/-!
# Decimals that read back

A finite number stands for all the reals that are closer to it than to any other, and its text is
one of them. `Scaled.Near` says which reals these are, and it is what the comparisons of integers
compute (`Scaled.readsBack_iff`). The shortest decimal is near the number it was found for
(`Decimal.near_shortest`), and nothing is near two magnitudes (`Scaled.Near.unique`), so a decimal
of a number tells which number it is.
-/

namespace LoxLang

namespace Number

/-! ### Values -/

/-- The value of a decimal. -/
def Decimal.value (d : Decimal) : ℚ := d.digits * 10 ^ d.exponent

/-- The exponent of the place before the leading digit. -/
def Decimal.leading (d : Decimal) : Int := d.exponent + digitCount d.digits

/-- The value of a magnitude. -/
def Scaled.value (s : Scaled) : ℚ := s.mantissa * 2 ^ s.exponent

/-- An integer power as a quotient of two natural ones. -/
theorem cast_power (base : Nat) (h : base ≠ 0) (e : Int) :
    (power base e : ℚ) = base ^ e * power base (-e) := by
  have hbase : (base : ℚ) ≠ 0 := by exact_mod_cast h
  have hcast (i : Int) : (power base i : ℚ) = (base : ℚ) ^ (i.toNat : Int) := by
    rw [zpow_natCast]
    exact Nat.cast_pow base i.toNat
  rw [hcast, hcast, ← zpow_add₀ hbase]
  congr 1
  omega

theorem power_pos {base : Nat} (h : 0 < base) (e : Int) : 0 < power base e := Nat.pow_pos h

namespace Scaled

/-- The comparison of integers is one of values: both sides are multiplied by the same power of two
and of ten. -/
theorem compareDecimal_eq (a : Nat) (i : Int) (d : Decimal) :
    compareDecimal a i d = compare ((a : ℚ) * 2 ^ i) d.value := by
  have hfactor : (0 : ℚ) < power 2 (-i) * power 10 (-d.exponent) := by
    have htwo : 0 < power 2 (-i) := power_pos (by decide) _
    have hten : 0 < power 10 (-d.exponent) := power_pos (by decide) _
    exact_mod_cast Nat.mul_pos htwo hten
  have hleft : ((a * power 2 i * d.denominator : Nat) : ℚ) =
      (a : ℚ) * 2 ^ i * (power 2 (-i) * power 10 (-d.exponent)) := by
    rw [Decimal.denominator, Nat.cast_mul, Nat.cast_mul, cast_power _ (by decide) i]
    push_cast
    ring
  have hright : ((d.numerator * power 2 (-i) : Nat) : ℚ) =
      d.value * (power 2 (-i) * power 10 (-d.exponent)) := by
    rw [Decimal.numerator, Decimal.value, Nat.cast_mul, Nat.cast_mul,
      cast_power _ (by decide) d.exponent]
    push_cast
    ring
  unfold compareDecimal
  obtain hlt | heq | hgt := lt_trichotomy ((a : ℚ) * 2 ^ i) d.value
  · rw [compare_lt_iff_lt.2 hlt, compare_lt_iff_lt, ← Nat.cast_lt (α := ℚ), hleft, hright]
    exact mul_lt_mul_of_pos_right hlt hfactor
  · rw [compare_eq_iff_eq.2 heq, compare_eq_iff_eq, ← Nat.cast_inj (R := ℚ), hleft, hright, heq]
  · rw [compare_gt_iff_gt.2 hgt, compare_gt_iff_gt, ← Nat.cast_lt (α := ℚ), hleft, hright]
    exact mul_lt_mul_of_pos_right hgt hfactor

/-! ### What rounds to a magnitude -/

/-- The distance to the magnitude below, in quarters of the last place and halved: below a power of
two the magnitudes are twice as dense. -/
def below (s : Scaled) : Nat :=
  if s.mantissa = fractionSize ∧ minExponent < s.exponent then 1 else 2

/-- The least real that may round to a magnitude. -/
def low (s : Scaled) : ℚ := (4 * s.mantissa - s.below : Nat) * 2 ^ (s.exponent - 2)

/-- The greatest real that may round to a magnitude. -/
def high (s : Scaled) : ℚ := (4 * s.mantissa + 2 : Nat) * 2 ^ (s.exponent - 2)

/-- The value rounds to the magnitude. Halfway between two of them, that is the one that is even. -/
def Near (s : Scaled) (v : ℚ) : Prop :=
  (s.low < v ∨ s.low = v ∧ s.mantissa % 2 = 0) ∧ (v < s.high ∨ v = s.high ∧ s.mantissa % 2 = 0)

theorem readsBack_iff (s : Scaled) (d : Decimal) : s.readsBack d = true ↔ s.Near d.value := by
  have hlow : compareDecimal (4 * s.mantissa - s.below) (s.exponent - 2) d =
      compare s.low d.value := compareDecimal_eq ..
  have hhigh : compareDecimal (4 * s.mantissa + 2) (s.exponent - 2) d =
      compare s.high d.value := compareDecimal_eq ..
  have hunfold : s.readsBack d =
      if s.mantissa % 2 = 0 then compare s.low d.value != .gt && compare s.high d.value != .lt
      else compare s.low d.value == .lt && compare s.high d.value == .gt := by
    rw [← hlow, ← hhigh]
    rfl
  rw [hunfold]
  unfold Near
  split
  · rename_i heven
    rw [Bool.and_eq_true, bne_iff_ne, bne_iff_ne, compare_le_iff_le, compare_ge_iff_ge,
      le_iff_lt_or_eq, le_iff_lt_or_eq]
    simp only [heven, and_true]
  · rename_i hodd
    rw [Bool.and_eq_true, beq_iff_eq, beq_iff_eq, compare_lt_iff_lt, compare_gt_iff_gt]
    simp only [hodd, and_false, or_false]

/-- A magnitude in the form that numbers have it in: either the mantissa is as long as it can be, or
the exponent is the least one. -/
structure Canonical (s : Scaled) : Prop where
  mantissa_lt : s.mantissa < 2 * fractionSize
  le_exponent : minExponent ≤ s.exponent
  le_mantissa : minExponent < s.exponent → fractionSize ≤ s.mantissa

theorem below_pos (s : Scaled) : 0 < s.below := by
  unfold below
  split <;> decide

theorem below_le (s : Scaled) : s.below ≤ 2 := by
  unfold below
  split <;> decide

theorem value_eq (s : Scaled) : s.value = (4 * s.mantissa : Nat) * 2 ^ (s.exponent - 2) := by
  have hscale : (2 : ℚ) ^ s.exponent = 4 * 2 ^ (s.exponent - 2) := by
    rw [zpow_sub₀ (by norm_num)]
    norm_num
    ring
  rw [value, hscale]
  push_cast
  ring

theorem low_eq {s : Scaled} (h : 0 < s.mantissa) :
    s.low = (4 * s.mantissa - s.below) * 2 ^ (s.exponent - 2) := by
  have hbelow := s.below_le
  rw [low, Nat.cast_sub (by omega)]
  push_cast
  rfl

theorem value_lt_high (s : Scaled) : s.value < s.high := by
  rw [value_eq, high]
  gcongr
  omega

theorem near_value (s : Scaled) : s.Near s.value := by
  refine ⟨?_, .inl s.value_lt_high⟩
  obtain hzero | hpos := Nat.eq_zero_or_pos s.mantissa
  · -- There is nothing below zero, which is even.
    exact .inr (by simp [low, value, hzero])
  · refine .inl ?_
    have hbelow := s.below_pos
    rw [low, value_eq]
    gcongr
    omega

/-- The order of magnitudes. -/
def Before (s t : Scaled) : Prop :=
  s.exponent < t.exponent ∨ s.exponent = t.exponent ∧ s.mantissa < t.mantissa

theorem before_or_before {s t : Scaled} (h : s ≠ t) : s.Before t ∨ t.Before s := by
  obtain ⟨m, e⟩ := s
  obtain ⟨n, i⟩ := t
  simp only [Before, ne_eq, Scaled.mk.injEq] at h ⊢
  omega

/-- What may round to a magnitude ends half way to any later one at most, and begins there for the
later one at least. If it ends where it begins then one of the two is odd. -/
theorem Before.high_le_low {s t : Scaled} (h : s.Before t) (hs : s.Canonical) (ht : t.Canonical) :
    2 * s.high ≤ s.value + t.value ∧ s.value + t.value ≤ 2 * t.low ∧
      (s.high = t.low → s.mantissa % 2 = 1 ∨ t.mantissa % 2 = 1) := by
  have hunit : (0 : ℚ) < 2 ^ (s.exponent - 2) := by positivity
  obtain hexponent | ⟨hexponent, hmantissa⟩ := h
  · -- The unit of `t` is at least twice that of `s`.
    have hunits : 2 * (2 : ℚ) ^ (s.exponent - 2) ≤ 2 ^ (t.exponent - 2) := by
      rw [← zpow_one_add₀ (by norm_num)]
      exact zpow_le_zpow_right₀ (by norm_num) (by omega)
    have hmin : minExponent < t.exponent := hs.le_exponent.trans_lt hexponent
    have hnormal := ht.le_mantissa hmin
    have hfirst : 4 * fractionSize - 2 + 2 * t.below ≤ 4 * t.mantissa := by
      have hfraction : 0 < fractionSize := by decide
      unfold below
      split <;> omega
    have hlast := hs.mantissa_lt
    unfold fractionSize at hnormal hfirst hlast
    have hmantissa : (s.mantissa : ℚ) ≤ 0x1fffffffffffff := by
      exact_mod_cast Nat.le_of_lt_succ hlast
    have hnormal' : (0x10000000000000 : ℚ) ≤ t.mantissa := by exact_mod_cast hnormal
    have hfirst' : (0x3ffffffffffffe : ℚ) ≤ 4 * t.mantissa - 2 * t.below :=
      le_sub_iff_add_le.2 (by exact_mod_cast hfirst)
    rw [low_eq (by omega), high, value_eq, value_eq]
    push_cast
    have hend := mul_le_mul_of_nonneg_right hmantissa hunit.le
    have hvalue := mul_le_mul hnormal' hunits (by positivity) (by positivity)
    have hbegin := mul_le_mul hfirst' hunits (by positivity) (by linarith)
    refine ⟨by linarith, by linarith, fun heq => ?_⟩
    -- At the end the mantissa of `s` is the greatest one, which is odd.
    have hgreatest : (0x1fffffffffffff : ℚ) ≤ s.mantissa :=
      le_of_mul_le_mul_right (by linarith) hunit
    have hgreatest : 0x1fffffffffffff ≤ s.mantissa := by exact_mod_cast hgreatest
    omega
  · have hbelow := t.below_le
    rw [low_eq (by omega), high, value_eq, value_eq, ← hexponent]
    push_cast
    have hnext : (4 * s.mantissa + 4 : ℚ) * 2 ^ (s.exponent - 2) ≤
        4 * t.mantissa * 2 ^ (s.exponent - 2) := by
      gcongr
      exact_mod_cast (by omega : 4 * s.mantissa + 4 ≤ 4 * t.mantissa)
    have hbegin : (t.below : ℚ) * 2 ^ (s.exponent - 2) ≤ 2 * 2 ^ (s.exponent - 2) := by
      gcongr
      exact_mod_cast hbelow
    refine ⟨by linarith, by linarith, fun heq => ?_⟩
    have heq := mul_right_cancel₀ hunit.ne' heq
    have heq : 4 * s.mantissa + 2 + t.below = 4 * t.mantissa := by
      exact_mod_cast eq_sub_iff_add_eq.1 heq
    omega

/-- **Nothing rounds to two magnitudes.** -/
theorem Near.unique {s t : Scaled} {v : ℚ} (hs : s.Canonical) (ht : t.Canonical) (h : s.Near v)
    (h' : t.Near v) : s = t := by
  -- If one came first, the value would be the end of one and the beginning of the other.
  have hbefore {s t : Scaled} (hs : s.Canonical) (ht : t.Canonical) (h : s.Near v) (h' : t.Near v) :
      ¬ s.Before t := by
    intro hlt
    obtain ⟨hle, hle', hparity⟩ := hlt.high_le_low hs ht
    obtain hv | ⟨hv, heven⟩ := h.2
    · obtain hv' | ⟨hv', -⟩ := h'.1 <;> linarith
    · obtain hv' | ⟨hv', heven'⟩ := h'.1
      · linarith
      · have hends := hparity (hv.symm.trans hv'.symm)
        omega
  by_contra hne
  exact (before_or_before hne).elim (hbefore hs ht h h') (hbefore ht hs h' h)

theorem value_exactDecimal (s : Scaled) : s.exactDecimal.value = s.value := by
  unfold exactDecimal Decimal.value value
  split
  · rename_i hneg
    -- There is no power of five above, so the one below takes ten to two.
    have hfive : (power 5 (-s.exponent) : ℚ) * 5 ^ s.exponent = 1 := by
      have hone : power 5 s.exponent = 1 := by
        rw [power, Int.toNat_of_nonpos hneg.le]
      have hpower := cast_power 5 (by decide) s.exponent
      rw [hone] at hpower
      push_cast at hpower
      linarith
    have hten : (10 : ℚ) ^ s.exponent = 5 ^ s.exponent * 2 ^ s.exponent := by
      rw [← mul_zpow]
      norm_num
    rw [Nat.cast_mul, hten]
    linear_combination s.mantissa * 2 ^ s.exponent * hfive
  · rename_i hnonneg
    have hone : power 2 (-s.exponent) = 1 := by
      rw [power, Int.toNat_of_nonpos (by omega)]
    rw [Nat.cast_mul, cast_power _ (by decide), hone]
    norm_num

/-- The multiple of a power of ten at a value or below it. -/
def gridBelow (s : Scaled) (exponent : Int) : Nat :=
  s.numerator * power 10 (-exponent) / (s.denominator * power 10 exponent)

theorem near_of_decimalOf {s : Scaled} {scale : Int} {count : Nat} {d : Decimal}
    (h : s.decimalOf scale count = some d) : s.Near d.value ∧ d.exponent = scale - count ∧
      (d.digits = s.gridBelow (scale - count) ∨ d.digits = s.gridBelow (scale - count) + 1) := by
  rw [← readsBack_iff]
  unfold decimalOf at h
  dsimp only at h
  split at h
  · rename_i hlow hhigh
    obtain rfl := Option.some.inj h
    split
    · exact ⟨hlow, rfl, .inl rfl⟩
    · exact ⟨hhigh, rfl, .inr rfl⟩
  · rename_i hlow _
    obtain rfl := Option.some.inj h
    exact ⟨hlow, rfl, .inl rfl⟩
  · rename_i _ hhigh
    obtain rfl := Option.some.inj h
    exact ⟨hhigh, rfl, .inr rfl⟩
  · cases h

end Scaled

theorem Decimal.value_strip (d : Decimal) : d.strip.value = d.value := by
  fun_induction Decimal.strip d with
  | case1 d h _ ih =>
    rw [ih, value, value, zpow_add_one₀ (by norm_num)]
    have hten : ((d.digits / 10 * 10 : Nat) : ℚ) = d.digits := by
      rw [Nat.div_mul_cancel (Nat.dvd_of_mod_eq_zero h.2)]
    rw [← hten]
    push_cast
    ring
  | case2 => rfl

/-- **The shortest decimal rounds to the magnitude it was found for.** If none of the candidates
does then it is the magnitude itself. -/
theorem Decimal.near_shortest (s : Scaled) : s.Near (shortest s).value := by
  unfold shortest
  dsimp only
  rw [value_strip]
  cases hfound : (List.range 17).findSome? fun i => s.decimalOf s.decimalScale (i + 1) with
  | none =>
    rw [Option.getD_none, Scaled.value_exactDecimal]
    exact Scaled.near_value s
  | some d =>
    obtain ⟨i, -, hi⟩ := List.exists_of_findSome?_eq_some hfound
    exact (Scaled.near_of_decimalOf hi).1

/-! ### Magnitudes of numbers -/

theorem canonical_magnitude (x : Number) : (magnitude x).Canonical := by
  have hfraction : x.toBits.toNat % signBit % fractionSize < fractionSize :=
    Nat.mod_lt _ (by decide)
  unfold magnitude
  dsimp only
  split
  · exact ⟨by dsimp only; omega, le_rfl, fun h => absurd h (lt_irrefl _)⟩
  · exact ⟨by dsimp only; omega, by dsimp only; omega, fun _ => Nat.le_add_right _ _⟩

/-- The bits of the number that has the magnitude and no sign. -/
def Scaled.bits (s : Scaled) : Nat := (s.exponent - minExponent).toNat * fractionSize + s.mantissa

theorem bits_magnitude (x : Number) : (magnitude x).bits = x.toBits.toNat % signBit := by
  have hsplit := Nat.div_add_mod' (x.toBits.toNat % signBit) fractionSize
  unfold magnitude
  dsimp only
  generalize x.toBits.toNat % signBit / fractionSize = biased at hsplit
  generalize x.toBits.toNat % signBit % fractionSize = fraction at hsplit ⊢
  rw [← hsplit]
  split
  · rename_i hzero
    simp [Scaled.bits, hzero]
  · rename_i hne
    obtain ⟨n, rfl⟩ := Nat.exists_eq_succ_of_ne_zero hne
    simp only [Scaled.bits, Nat.succ_eq_add_one, Nat.add_sub_cancel, add_sub_cancel_left,
      Int.toNat_natCast]
    ring

/-- A number is known by its sign and the bits of its magnitude. -/
theorem eq_of_bits_eq {x y : Number} (hsign : isNegative x = isNegative y)
    (h : (magnitude x).bits = (magnitude y).bits) : x = y := by
  have hsmall (z : Number) : z.toBits.toNat < 2 * signBit := z.toBits.toNat_lt
  have hx := hsmall x
  have hy := hsmall y
  rw [bits_magnitude, bits_magnitude] at h
  have hequal : x.toBits.toNat = y.toBits.toNat := by
    unfold isNegative at hsign
    rw [decide_eq_decide] at hsign
    unfold signBit at h hsign hx hy
    omega
  exact Float.toBits_inj.1 (UInt64.toNat_inj.1 hequal)

end Number

end LoxLang
