import LoxLang.Proofs.Rounding

/-!
# Reading rounds to the closest number

A decimal is read by comparing and dividing naturals. What comes out has the magnitude that the
value of the decimal rounds to (`Decimal.toNumber_spec`), whether the mantissa is rounded up to the
next power of two, or the decimal is too small or too large for a power of ten to be computed. No
magnitude is closer, and of two that are equally close it is the even one (`Scaled.Near.closest`).
So a finite number is read from just the decimals that round to it (`Decimal.toNumber_eq_iff`).
-/

namespace LoxLang

namespace Number

/-! ### Quotients and powers -/

theorem cast_power_div (base : Nat) (h : base ≠ 0) (e : Int) :
    (power base e : ℚ) / power base (-e) = (base : ℚ) ^ e := by
  have hpos : (power base (-e) : ℚ) ≠ 0 := by
    exact_mod_cast (power_pos (Nat.pos_of_ne_zero h) _).ne'
  rw [cast_power base h e, mul_div_assoc, div_self hpos, mul_one]

theorem scaled_quotient {base : Nat} (h : base ≠ 0) (num den : Nat) (e : Int) :
    ((num * power base (-e) : Nat) : ℚ) / (den * power base e : Nat) =
      num / den / (base : ℚ) ^ e := by
  rw [← cast_power_div base h e]
  push_cast
  rw [div_div_eq_mul_div, div_mul_eq_mul_div, div_div]

theorem Scaled.quotient_eq (s : Scaled) : (s.numerator : ℚ) / s.denominator = s.value := by
  rw [numerator, denominator, Nat.cast_mul, mul_div_assoc, cast_power_div _ (by decide), value]
  rfl

theorem Decimal.quotient_eq (d : Decimal) : (d.numerator : ℚ) / d.denominator = d.value := by
  rw [numerator, denominator, Nat.cast_mul, mul_div_assoc, cast_power_div _ (by decide), value]
  rfl

/-- The comparison of integers is one of a quotient with a power. -/
theorem mul_power_lt_iff {base den : Nat} (h : 0 < base) (hden : 0 < den) (num : Nat) (e : Int) :
    num * power base (-e) < den * power base e ↔ (num : ℚ) / den < (base : ℚ) ^ e := by
  have hright : (0 : ℚ) < (den * power base e : Nat) := by
    exact_mod_cast Nat.mul_pos hden (power_pos h e)
  have hpower : (0 : ℚ) < (base : ℚ) ^ e := zpow_pos (by exact_mod_cast h) e
  rw [← div_lt_one hpower, ← scaled_quotient h.ne', div_lt_one hright, Nat.cast_lt]

/-! ### Rounding a quotient -/

theorem le_log2 {n : Nat} (h : 0 < n) :
    (2 : ℚ) ^ (n.log2 : Int) ≤ n ∧ (n : ℚ) < 2 ^ ((n.log2 : Int) + 1) := by
  refine ⟨?_, ?_⟩
  · rw [zpow_natCast]
    exact_mod_cast Nat.log2_self_le h.ne'
  · rw [← Nat.cast_succ, zpow_natCast]
    exact_mod_cast Nat.lt_log2_self

theorem binaryExponent_spec {num den : Nat} (hnum : 0 < num) (hden : 0 < den) :
    (2 : ℚ) ^ binaryExponent num den ≤ num / den ∧
      (num : ℚ) / den < 2 ^ (binaryExponent num den + 1) := by
  obtain ⟨hnumLow, hnumHigh⟩ := le_log2 hnum
  obtain ⟨hdenLow, hdenHigh⟩ := le_log2 hden
  have hpos : (0 : ℚ) < den := by exact_mod_cast hden
  -- The estimate is too high by one or right.
  have hlow : (2 : ℚ) ^ ((num.log2 : Int) - den.log2 - 1) ≤ num / den := by
    rw [le_div_iff₀ hpos]
    calc (2 : ℚ) ^ ((num.log2 : Int) - den.log2 - 1) * den
        ≤ 2 ^ ((num.log2 : Int) - den.log2 - 1) * 2 ^ ((den.log2 : Int) + 1) := by gcongr
      _ = 2 ^ (num.log2 : Int) := by
        rw [← zpow_add₀ (by norm_num)]
        congr 1
        ring
      _ ≤ num := hnumLow
  have hhigh : (num : ℚ) / den < 2 ^ ((num.log2 : Int) - den.log2 + 1) := by
    rw [div_lt_iff₀ hpos]
    calc (num : ℚ) < 2 ^ ((num.log2 : Int) + 1) := hnumHigh
      _ = 2 ^ ((num.log2 : Int) - den.log2 + 1) * 2 ^ (den.log2 : Int) := by
        rw [← zpow_add₀ (by norm_num)]
        congr 1
        ring
      _ ≤ _ := by gcongr
  unfold binaryExponent
  dsimp only
  split
  · rename_i hlt
    have hlt := (mul_power_lt_iff (by decide) hden _ _).1 hlt
    exact ⟨hlow, by simpa using hlt⟩
  · rename_i hge
    have hge := mt (mul_power_lt_iff (by decide) hden _ _).2 hge
    exact ⟨by simpa using hge, hhigh⟩

/-- The closest natural is half a unit away at most, and if so it is even. -/
theorem roundQuotient_spec (num : Nat) {den : Nat} (h : 0 < den) :
    2 * (roundQuotient num den * den) ≤ 2 * num + den ∧
      2 * num ≤ 2 * (roundQuotient num den * den) + den ∧
      (2 * (roundQuotient num den * den) = 2 * num + den ∨
        2 * num = 2 * (roundQuotient num den * den) + den → roundQuotient num den % 2 = 0) := by
  have hnum := Nat.div_add_mod' num den
  have hmod := Nat.mod_lt num h
  unfold roundQuotient
  dsimp only
  split
  · omega
  · rw [Nat.add_mul, Nat.one_mul]
    omega

namespace Scaled

/-- What rounds to a magnitude, in quarters of its last place. -/
theorem near_iff {s : Scaled} {n den : Nat} (hden : 0 < den) :
    s.Near ((n : ℚ) / den * 2 ^ (s.exponent - 2)) ↔
      ((4 * s.mantissa - s.below) * den < n ∨
        (4 * s.mantissa - s.below) * den = n ∧ s.mantissa % 2 = 0) ∧
      (n < (4 * s.mantissa + 2) * den ∨ n = (4 * s.mantissa + 2) * den ∧ s.mantissa % 2 = 0) := by
  have hunit : (0 : ℚ) < 2 ^ (s.exponent - 2) := by positivity
  have hpos : (0 : ℚ) < den := by exact_mod_cast hden
  rw [Near, low, high, mul_lt_mul_iff_left₀ hunit, mul_lt_mul_iff_left₀ hunit,
    mul_left_inj' hunit.ne', mul_left_inj' hunit.ne', lt_div_iff₀ hpos, eq_div_iff hpos.ne',
    div_lt_iff₀ hpos, div_eq_iff hpos.ne']
  norm_cast

/-- A quotient in units of an exponent that suits it is rounded to a magnitude. If the natural that
is closest is too long for a mantissa then this is a power of two with the next exponent. -/
theorem exists_near {num den : Nat} {e : Int} (hnum : 0 < num) (hden : 0 < den)
    (he : minExponent ≤ e) (hlt : num < 2 * fractionSize * den)
    (hle : minExponent < e → fractionSize * den ≤ num) :
    ∃ s : Scaled, s.Canonical ∧ s.Near ((num : ℚ) / den * 2 ^ e) ∧
      s.bits = (e - minExponent).toNat * fractionSize + roundQuotient num den := by
  obtain ⟨hlow, hhigh, heven⟩ := roundQuotient_spec num hden
  generalize roundQuotient num den = m at hlow hhigh heven ⊢
  have hfraction : fractionSize % 2 = 0 ∧ 0 < fractionSize := by decide
  have hmantissa : m ≤ 2 * fractionSize := by
    by_contra hgt
    have hmul : (2 * fractionSize + 1) * den ≤ m * den := Nat.mul_le_mul_right den (by omega)
    rw [Nat.add_mul] at hmul
    omega
  have hscale {k : Nat} {i : Int} (hk : (2 : ℚ) ^ e = k * 2 ^ (i - 2)) :
      (num : ℚ) / den * 2 ^ e = (k * num : Nat) / den * 2 ^ (i - 2) := by
    rw [hk]
    push_cast
    ring
  obtain hlong | rfl := hmantissa.lt_or_eq
  · have hnormal : minExponent < e → fractionSize ≤ m := by
      intro hmin
      by_contra hshort
      have hmul : (m + 1) * den ≤ fractionSize * den := Nat.mul_le_mul_right den (by omega)
      have := hle hmin
      rw [Nat.add_mul] at hmul
      omega
    refine ⟨⟨m, e⟩, ⟨hlong, he, hnormal⟩, ?_, rfl⟩
    have hunit : (2 : ℚ) ^ e = (4 : Nat) * 2 ^ (e - 2) := by
      rw [zpow_sub₀ (by norm_num)]
      norm_num
      ring
    rw [hscale hunit]
    refine (near_iff (s := ⟨m, e⟩) hden).2 ⟨?_, ?_⟩
    · dsimp only [below]
      split
      · rename_i hpower
        have := hle hpower.2
        rw [hpower.1, Nat.sub_mul, Nat.mul_assoc]
        omega
      · rw [Nat.sub_mul, Nat.mul_assoc]
        omega
    · dsimp only
      rw [Nat.add_mul, Nat.mul_assoc]
      omega
  · refine ⟨⟨fractionSize, e + 1⟩, ⟨by dsimp only; omega, by dsimp only; omega, fun _ => le_rfl⟩,
      ?_, ?_⟩
    · have hunit : (2 : ℚ) ^ e = (2 : Nat) * 2 ^ (e + 1 - 2) := by
        rw [Nat.cast_ofNat, ← zpow_one_add₀ (by norm_num)]
        congr 1
        ring
      have hbelow : below ⟨fractionSize, e + 1⟩ = 1 := if_pos ⟨rfl, by dsimp only; omega⟩
      rw [hscale hunit]
      refine (near_iff (s := ⟨fractionSize, e + 1⟩) hden).2 ⟨?_, ?_⟩
      · dsimp only
        rw [hbelow, Nat.sub_mul, Nat.mul_assoc]
        rw [Nat.mul_assoc] at hlow hlt
        omega
      · dsimp only
        rw [Nat.add_mul, Nat.mul_assoc]
        rw [Nat.mul_assoc] at hlt
        omega
    · have hnext : (e + 1 - minExponent).toNat = (e - minExponent).toNat + 1 := by omega
      rw [bits, hnext]
      ring

end Scaled

/-- The number of a magnitude, or infinity beyond the finite ones. -/
def Scaled.toNumber (s : Scaled) : Number :=
  if s.bits < infinityBits then Float.ofBits s.bits.toUInt64 else infinity

/-- **The closest number.** A quotient rounds to the magnitude of the number. -/
theorem nearest_spec (num : Nat) {den : Nat} (hden : 0 < den) :
    ∃ s : Scaled, s.Canonical ∧ s.Near ((num : ℚ) / den) ∧ nearest num den = s.toNumber := by
  obtain rfl | hnum := Nat.eq_zero_or_pos num
  · have hnear := Scaled.near_value ⟨0, minExponent⟩
    refine ⟨⟨0, minExponent⟩, ⟨by decide, le_rfl, fun h => absurd h (lt_irrefl _)⟩, ?_, ?_⟩
    · simpa [Scaled.value] using hnear
    · exact (by decide : (0 : Number) = Scaled.toNumber ⟨0, minExponent⟩)
  obtain ⟨hlow, hhigh⟩ := binaryExponent_spec hnum hden
  unfold nearest
  rw [if_neg hnum.ne']
  dsimp only
  generalize he : max (binaryExponent num den - 52) minExponent = e
  have hpos : 0 < den * power 2 e := Nat.mul_pos hden (power_pos (by decide) _)
  have hquotient : ((num * power 2 (-e) : Nat) : ℚ) / (den * power 2 e : Nat) * 2 ^ e =
      num / den := by
    rw [scaled_quotient (by decide), Nat.cast_ofNat, div_mul_cancel₀ _ (by positivity)]
  -- The quotient is compared with the least and with the greatest mantissa by its exponent.
  have hbound (k : Nat) : num * power 2 (-e) < 2 ^ k * (den * power 2 e) ↔
      (num : ℚ) / den < 2 ^ (e + k) := by
    have hpower : (0 : ℚ) < 2 ^ k := by positivity
    rw [← Nat.mul_assoc, mul_power_lt_iff (by decide) (Nat.mul_pos (by positivity) hden),
      Nat.cast_mul, mul_comm, ← div_div, Nat.cast_pow, div_lt_iff₀ (by positivity), Nat.cast_ofNat,
      zpow_add₀ (by norm_num), zpow_natCast]
  have hlt : num * power 2 (-e) < 2 * fractionSize * (den * power 2 e) := by
    refine (hbound 53).2 (hhigh.trans_le (zpow_le_zpow_right₀ (by norm_num) ?_))
    push_cast
    omega
  have hle : minExponent < e → fractionSize * (den * power 2 e) ≤ num * power 2 (-e) := by
    intro hmin
    refine Nat.le_of_not_lt fun hless => absurd ((hbound 52).1 hless) (not_lt.2 ?_)
    have hexponent : e + (52 : Nat) = binaryExponent num den := by
      push_cast
      omega
    rw [hexponent]
    exact hlow
  obtain ⟨s, hs, hnear, hbits⟩ :=
    Scaled.exists_near (Nat.mul_pos hnum (power_pos (by decide) _)) hpos (by omega) hlt hle
  rw [hquotient] at hnear
  exact ⟨s, hs, hnear, by rw [Scaled.toNumber, hbits]⟩

/-! ### Distances -/

namespace Scaled

theorem abs_sub_le_of_middle {a b v : ℚ} (hab : a < b) (h : 2 * v ≤ a + b) :
    |v - a| ≤ |v - b| ∧ (|v - a| = |v - b| → 2 * v = a + b) := by
  rw [abs_sub_comm v b, abs_of_pos (by linarith : 0 < b - v), abs_le]
  refine ⟨⟨by linarith, by linarith⟩, fun heq => ?_⟩
  obtain heq' | heq' := abs_choice (v - a) <;> linarith

/-- **The closest magnitude.** What rounds to a magnitude is not closer to any other, and if it is
as close to another then the mantissa is even. -/
theorem Near.closest {s t : Scaled} {v : ℚ} (hs : s.Canonical) (ht : t.Canonical) (h : s.Near v)
    (hne : t ≠ s) : |v - s.value| ≤ |v - t.value| ∧
      (|v - s.value| = |v - t.value| → s.mantissa % 2 = 0) := by
  obtain hbefore | hafter := before_or_before hne.symm
  · obtain ⟨hmiddle, -⟩ := hbefore.high_le_low hs ht
    have hvalue := s.value_lt_high
    have hv : v ≤ s.high := h.2.elim le_of_lt fun h => h.1.le
    have hlt : s.value < t.value := by linarith
    obtain ⟨hle, heq⟩ := abs_sub_le_of_middle hlt (v := v) (by linarith)
    exact ⟨hle, fun h' => (h.2.resolve_left (by linarith [heq h'])).2⟩
  · obtain ⟨hmiddle', hmiddle, -⟩ := hafter.high_le_low ht hs
    have hvalue := t.value_lt_high
    have hv : s.low ≤ v := h.1.elim le_of_lt fun h => h.1.le
    -- Seen from the other side.
    have hlt : -s.value < -t.value := by linarith
    obtain ⟨hle, heq⟩ := abs_sub_le_of_middle hlt (v := -v) (by linarith)
    rw [neg_sub_neg, neg_sub_neg, abs_sub_comm, abs_sub_comm t.value] at hle heq
    exact ⟨hle, fun h' => (h.1.resolve_left (by linarith [heq h'])).2⟩

end Scaled

/-! ### Finite numbers -/

section

open Float.Model

theorem unpackExponent_eq_iff (b : BitVec Format.binary64.numBits) :
    UnpackedFloat.unpackExponent b = -1#_ ↔ infinityBits ≤ b.toNat % signBit := by
  rw [UnpackedFloat.unpackExponent_def, ← BitVec.toNat_inj, BitVec.extractLsb'_toNat,
    Nat.shiftRight_eq_div_pow]
  change b.toNat / fractionSize % 2048 = 2047 ↔ _
  unfold infinityBits signBit fractionSize
  omega

/-- A number is finite unless its exponent field is full. If no other field has a bit it is
infinite. -/
theorem isFinite_unpack_iff (b : BitVec Format.binary64.numBits) :
    ((UnpackedFloat.unpack _ b).isFinite = true ↔ b.toNat % signBit < infinityBits) ∧
      ((UnpackedFloat.unpack _ b).isInf = true → b.toNat % signBit = infinityBits) := by
  have hexponent := unpackExponent_eq_iff b
  have hmantissa : UnpackedFloat.unpackMantissa b = 0#_ ↔ b.toNat % fractionSize = 0 := by
    rw [UnpackedFloat.unpackMantissa_def, ← BitVec.toNat_inj, BitVec.extractLsb'_toNat]
    rfl
  have hfield : infinityBits ≤ b.toNat % signBit → b.toNat % fractionSize = 0 →
      b.toNat % signBit = infinityBits := by
    unfold infinityBits signBit fractionSize
    omega
  unfold UnpackedFloat.unpack
  dsimp only
  split
  · rename_i he
    have he := hexponent.1 he
    split
    · rename_i hm
      exact ⟨by simp [UnpackedFloat.isFinite, he], fun _ => hfield he (hmantissa.1 hm)⟩
    · exact ⟨by simp [UnpackedFloat.isFinite, he], by simp [UnpackedFloat.isInf]⟩
  · rename_i he
    have he := Nat.lt_of_not_le (mt hexponent.2 he)
    split <;> try split
    all_goals exact ⟨by simp [UnpackedFloat.isFinite, he], by simp [UnpackedFloat.isInf]⟩

theorem toBits_ofBits {n : Nat} (h : n < infinityBits) :
    (Float.ofBits n.toUInt64).toBits.toNat = n := by
  have hn : n.toUInt64.toNat = n := UInt64.toNat_ofNat_of_lt' (h.trans (by decide))
  have hsmall : n % signBit < infinityBits := (Nat.mod_le _ _).trans_lt h
  -- Only the bits of undefined results are changed.
  have hpack (b : BitVec Format.binary64.numBits) (hb : b.toNat % signBit < infinityBits) :
      (UnpackedFloat.unpack _ b).pack _ = b :=
    (UnpackedFloat.pack_unpack b).trans
      (if_neg fun hnan => hb.not_ge ((unpackExponent_eq_iff b).1 (of_decide_eq_true hnan).1))
  rw [← hn] at hsmall
  exact (congrArg BitVec.toNat (hpack n.toUInt64.toBitVec hsmall)).trans hn

end

theorem isFinite_iff (x : Number) : x.isFinite = true ↔ (magnitude x).bits < infinityBits := by
  rw [bits_magnitude]
  exact (isFinite_unpack_iff x.toBits.toBitVec).1

/-- Up to the sign, an infinite number is infinity. -/
theorem bits_of_isInf {x : Number} (h : x.isInf = true) : (magnitude x).bits = infinityBits := by
  rw [bits_magnitude]
  exact (isFinite_unpack_iff x.toBits.toBitVec).2 h

theorem toNumber_magnitude {x : Number} (hfinite : x.isFinite = true)
    (hsign : isNegative x = false) : (magnitude x).toNumber = x := by
  rw [Scaled.toNumber, if_pos ((isFinite_iff x).1 hfinite), bits_magnitude,
    Nat.mod_eq_of_lt (Nat.lt_of_not_le (of_decide_eq_false hsign))]
  exact (congrArg Float.ofBits UInt64.ofNat_toNat).trans (Float.ofBits_toBits x)

/-- The bits of a magnitude tell which one it is. -/
theorem Scaled.eq_of_bits_eq {s t : Scaled} (hs : s.Canonical) (ht : t.Canonical)
    (h : s.bits = t.bits) : s = t := by
  have hbefore {s t : Scaled} (hs : s.Canonical) (ht : t.Canonical) (h : s.bits = t.bits) :
      ¬ s.exponent < t.exponent := by
    intro hlt
    have hnormal := ht.le_mantissa (hs.le_exponent.trans_lt hlt)
    have hmantissa := hs.mantissa_lt
    have hle := hs.le_exponent
    have hmul : ((s.exponent - minExponent).toNat + 1) * fractionSize ≤
        (t.exponent - minExponent).toNat * fractionSize := Nat.mul_le_mul_right _ (by omega)
    rw [Nat.add_mul] at hmul
    unfold bits at h
    omega
  have hexponent : s.exponent = t.exponent := by
    have hst := hbefore hs ht h
    have hts := hbefore ht hs h.symm
    omega
  unfold bits at h
  rw [hexponent] at h
  obtain ⟨m, e⟩ := s
  obtain ⟨n, i⟩ := t
  simp only [Scaled.mk.injEq] at h hexponent ⊢
  omega

theorem magnitude_toNumber {s : Scaled} (hs : s.Canonical) (h : s.bits < infinityBits) :
    magnitude s.toNumber = s := by
  refine Scaled.eq_of_bits_eq (canonical_magnitude _) hs ?_
  have hmod : s.bits % signBit = s.bits := Nat.mod_eq_of_lt (h.trans (by decide))
  rw [bits_magnitude, Scaled.toNumber, if_pos h, toBits_ofBits h, hmod]

/-! ### Digits of decimals -/

theorem digitCount_le_iff {n k : Nat} (h : 0 < k) : digitCount n ≤ k ↔ n < 10 ^ k :=
  Nat.length_toDigits_le_iff (by decide) h

theorem digitCount_pos (n : Nat) : 0 < digitCount n := Nat.length_toDigits_pos

theorem lt_digitCount (n : Nat) : (n : ℚ) < 10 ^ (digitCount n : Int) := by
  rw [zpow_natCast]
  exact_mod_cast (digitCount_le_iff (digitCount_pos n)).1 le_rfl

theorem digitCount_le {n : Nat} (h : 0 < n) : (10 : ℚ) ^ ((digitCount n : Int) - 1) ≤ n := by
  have hpos := digitCount_pos n
  rw [← Nat.cast_pred hpos, zpow_natCast]
  obtain hone | hmore : digitCount n = 1 ∨ 0 < digitCount n - 1 := by omega
  · rw [hone]
    exact_mod_cast h
  · exact_mod_cast Nat.le_of_not_lt (mt (digitCount_le_iff hmore).2 (by omega))

theorem Decimal.value_lt (d : Decimal) : d.value < 10 ^ d.leading := by
  rw [value, leading, zpow_add₀ (by norm_num), mul_comm]
  exact mul_lt_mul_of_pos_left (lt_digitCount d.digits) (by positivity)

theorem Decimal.le_value {d : Decimal} (h : 0 < d.digits) :
    (10 : ℚ) ^ (d.leading - 1) ≤ d.value := by
  rw [value, leading, add_sub_assoc, zpow_add₀ (by norm_num), mul_comm]
  exact mul_le_mul_of_nonneg_right (digitCount_le h) (by positivity)

/-! ### Rounding a decimal -/

/-- Beyond this power of ten there are no finite numbers, and below its inverse there is zero. -/
theorem two_zpow_le : (2 : ℚ) ^ (1200 : Int) ≤ 10 ^ (400 : Int) := by
  calc (2 : ℚ) ^ (1200 : Int) = 8 ^ (400 : Int) := by
        rw [(by norm_num : (8 : ℚ) = 2 ^ (3 : Int)), ← zpow_mul]
        rfl
    _ ≤ 10 ^ (400 : Int) := zpow_le_zpow_left₀ (by decide) (by norm_num) (by norm_num)

theorem Scaled.near_zero {v : ℚ} (hnonneg : 0 ≤ v) (h : v < 10 ^ (-400 : Int)) :
    Scaled.Near ⟨0, minExponent⟩ v := by
  have hlow : Scaled.low ⟨0, minExponent⟩ = 0 := by simp [low]
  have hhigh : v < Scaled.high ⟨0, minExponent⟩ := by
    have hpower : (10 : ℚ) ^ (-400 : Int) ≤ 2 ^ (-1200 : Int) := by
      rw [zpow_neg, zpow_neg]
      exact inv_anti₀ (by positivity) two_zpow_le
    have hhalf : (2 : ℚ) ^ (-1200 : Int) ≤ 2 ^ (minExponent - 2) :=
      zpow_le_zpow_right₀ (by norm_num) (by decide)
    have hunit : (0 : ℚ) < 2 ^ (minExponent - 2) := by positivity
    rw [high]
    push_cast
    linarith
  refine ⟨?_, .inl hhigh⟩
  rw [hlow]
  obtain hpos | hzero := hnonneg.lt_or_eq
  · exact .inl hpos
  · exact .inr ⟨hzero, rfl⟩

theorem Scaled.high_le {s : Scaled} (hs : s.Canonical) (h : s.bits < infinityBits) :
    s.high ≤ 2 ^ (1024 : Int) := by
  have hexponent : s.exponent - 2 ≤ 969 := by
    obtain hmin | hmin := hs.le_exponent.lt_or_eq
    · have hmantissa := hs.le_mantissa hmin
      unfold bits infinityBits fractionSize at h
      unfold fractionSize at hmantissa
      unfold minExponent at h hmin
      omega
    · rw [← hmin]
      decide
  have hmantissa : 4 * s.mantissa + 2 ≤ 2 ^ 55 := by
    have := hs.mantissa_lt
    unfold fractionSize at this
    omega
  calc s.high ≤ (2 ^ 55 : Nat) * 2 ^ (969 : Int) := by
        rw [high]
        gcongr
        norm_num
    _ = 2 ^ (1024 : Int) := by
        rw [Nat.cast_pow, Nat.cast_ofNat, ← zpow_natCast, ← zpow_add₀ (by norm_num)]
        rfl

/-- **Reading rounds to the closest number**, which is infinite if its magnitude would be too
large. -/
theorem Decimal.toNumber_spec (d : Decimal) :
    ∃ s : Scaled, s.Canonical ∧ s.Near d.value ∧ d.toNumber = s.toNumber := by
  have hden : 0 < d.denominator := power_pos (by decide) _
  obtain ⟨s, hs, hnear, heq⟩ := nearest_spec d.numerator hden
  rw [d.quotient_eq] at hnear
  refine ⟨s, hs, hnear, ?_⟩
  have hzero (hsmall : d.value < 10 ^ (-400 : Int)) : (0 : Number) = s.toNumber := by
    have hnonneg : 0 ≤ d.value := mul_nonneg (Nat.cast_nonneg _) (by positivity)
    have hcanonical : Scaled.Canonical ⟨0, minExponent⟩ :=
      ⟨by decide, le_rfl, fun h => absurd h (lt_irrefl _)⟩
    rw [hnear.unique hs hcanonical (Scaled.near_zero hnonneg hsmall)]
    decide
  unfold toNumber
  dsimp only
  split
  · rename_i h
    refine hzero ?_
    obtain hdigits | hpos := Nat.eq_zero_or_pos d.digits
    · rw [value, hdigits, Nat.cast_zero, zero_mul]
      positivity
    · have hleading : d.leading < -400 := h.resolve_left hpos.ne'
      exact d.value_lt.trans (zpow_lt_zpow_right₀ (by norm_num) hleading)
  split
  · rename_i hsome hgt
    rw [Scaled.toNumber, if_neg]
    intro hfinite
    have hlow := le_value (Nat.pos_of_ne_zero fun h => hsome (.inl h))
    have hlarge : (10 : ℚ) ^ (400 : Int) ≤ 10 ^ (d.leading - 1) :=
      zpow_le_zpow_right₀ (by norm_num) (Int.le_sub_one_of_lt hgt)
    have hless : (2 : ℚ) ^ (1024 : Int) < 2 ^ (1200 : Int) :=
      zpow_lt_zpow_right₀ (by norm_num) (by decide)
    have hhigh : s.high < d.value := (Scaled.high_le hs hfinite).trans_lt
      (hless.trans_le (two_zpow_le.trans (hlarge.trans hlow)))
    exact hnear.2.elim (lt_asymm hhigh) fun h => hhigh.ne' h.1
  · exact heq

/-- **A finite number is read from what rounds to it.** -/
theorem Decimal.toNumber_eq_iff {x : Number} (hfinite : x.isFinite = true)
    (hsign : isNegative x = false) (d : Decimal) : d.toNumber = x ↔ (magnitude x).Near d.value := by
  obtain ⟨s, hs, hnear, heq⟩ := d.toNumber_spec
  rw [heq]
  constructor
  · rintro rfl
    by_cases hbits : s.bits < infinityBits
    · rwa [magnitude_toNumber hs hbits]
    · rw [Scaled.toNumber, if_neg hbits] at hfinite
      exact absurd hfinite (by decide)
  · intro h
    rw [hnear.unique hs (canonical_magnitude x) h, toNumber_magnitude hfinite hsign]

end Number

end LoxLang
