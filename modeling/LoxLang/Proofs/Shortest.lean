import LoxLang.Proofs.Nearest

/-!
# The shortest decimal

Of the decimals with a given number of digits two are next to a value, and the search for the
shortest one looks at these only. That is enough: if any decimal rounds to a magnitude then one of
the two does that have as many digits (`Scaled.exists_decimalOf_of_near`), and with seventeen digits
one always does (`Scaled.exists_decimalOf_seventeen`). So no decimal that is read as a number is
shorter than the one its text is made of (`Decimal.shortest_spec`).
-/

namespace LoxLang

namespace Number

/-! ### The grid of decimals -/

theorem div_le_quotient (num den : Nat) : ((num / den : Nat) : ℚ) ≤ num / den := Nat.cast_div_le

theorem quotient_lt (num den : Nat) : (num : ℚ) / den < (num / den : Nat) + 1 := by
  rw [← Nat.floor_div_eq_div (K := ℚ)]
  exact Nat.lt_floor_add_one _

theorem digitCount_quotient {num den : Nat} (hden : 0 < den) (h : den ≤ num) :
    (10 : ℚ) ^ ((digitCount (num / den) : Int) - 1) ≤ num / den ∧
      (num : ℚ) / den < 10 ^ (digitCount (num / den) : Int) := by
  have hlt := lt_digitCount (num / den)
  refine ⟨(digitCount_le (Nat.div_pos h hden)).trans (div_le_quotient num den), ?_⟩
  refine (quotient_lt num den).trans_le ?_
  rw [zpow_natCast] at hlt ⊢
  exact_mod_cast hlt

namespace Scaled

theorem decimalScale_spec {s : Scaled} (h : 0 < s.mantissa) :
    (10 : ℚ) ^ (s.decimalScale - 1) ≤ s.value ∧ s.value < 10 ^ s.decimalScale := by
  have hnum : 0 < s.numerator := Nat.mul_pos h (power_pos (by decide) _)
  have hden : 0 < s.denominator := power_pos (by decide) _
  rw [← s.quotient_eq]
  unfold decimalScale
  dsimp only
  split
  · rename_i hle
    exact digitCount_quotient hden hle
  · rename_i hlt
    -- The inverse has at least one digit before the point.
    obtain ⟨hlow, hhigh⟩ := digitCount_quotient hnum (Nat.le_of_not_le hlt)
    have hcount := digitCount_pos (s.denominator / s.numerator)
    generalize digitCount (s.denominator / s.numerator) = k at hlow hhigh hcount ⊢
    have hpos : (0 : ℚ) < s.numerator / s.denominator := by positivity
    rw [← inv_div, le_inv_comm₀ (by positivity) hpos, ← zpow_neg, neg_sub] at hlow
    rw [← inv_div, inv_lt_comm₀ hpos (by positivity), ← zpow_neg] at hhigh
    have hone : power 10 (1 - (k : Int)) = 1 := by
      rw [power, Int.toNat_of_nonpos (by omega)]
    have hiff : s.numerator * power 10 ((k : Int) - 1) < s.denominator ↔
        (s.numerator : ℚ) / s.denominator < 10 ^ (1 - (k : Int)) := by
      have hten : 0 < 10 := by decide
      simpa [hone] using mul_power_lt_iff hten hden s.numerator (1 - (k : Int))
    split
    · rename_i hless
      exact ⟨by simpa using hhigh.le, hiff.1 hless⟩
    · rename_i hless
      have hge := not_lt.1 (mt hiff.2 hless)
      rw [(by ring : 2 - (k : Int) - 1 = 1 - k)]
      exact ⟨hge, hlow.trans_lt (zpow_lt_zpow_right₀ (by norm_num) (by omega))⟩

theorem gridBelow_spec (s : Scaled) (exponent : Int) :
    (s.gridBelow exponent : ℚ) * 10 ^ exponent ≤ s.value ∧
      s.value < (s.gridBelow exponent + 1) * 10 ^ exponent := by
  have hunit : (0 : ℚ) < 10 ^ exponent := by positivity
  have hten : 10 ≠ 0 := by decide
  have hquotient := scaled_quotient hten s.numerator s.denominator exponent
  rw [s.quotient_eq] at hquotient
  rw [← le_div_iff₀ hunit, ← div_lt_iff₀ hunit]
  push_cast at hquotient
  rw [← hquotient]
  have hlow := div_le_quotient (s.numerator * power 10 (-exponent))
    (s.denominator * power 10 exponent)
  have hhigh := quotient_lt (s.numerator * power 10 (-exponent)) (s.denominator * power 10 exponent)
  push_cast at hlow hhigh
  exact ⟨hlow, hhigh⟩

theorem Near.between {s : Scaled} {a b v : ℚ} (ha : s.Near a) (hb : s.Near b) (hav : a ≤ v)
    (hvb : v ≤ b) : s.Near v := by
  constructor
  · obtain hlow | ⟨hlow, heven⟩ := ha.1
    · exact .inl (hlow.trans_le hav)
    · exact (hlow.trans_le hav).lt_or_eq.imp_right (⟨·, heven⟩)
  · obtain hhigh | ⟨hhigh, heven⟩ := hb.2
    · exact .inl (hvb.trans_lt hhigh)
    · exact (hvb.trans_eq hhigh).lt_or_eq.imp_right (⟨·, heven⟩)

/-- If a point of a grid rounds to a magnitude then one of the two neighbours of its value does. -/
theorem Near.grid {s : Scaled} {n : Nat} {e : Int} (h : s.Near (n * 10 ^ e)) :
    s.Near (Decimal.value ⟨s.gridBelow e, e⟩) ∨ s.Near (Decimal.value ⟨s.gridBelow e + 1, e⟩) := by
  obtain ⟨hlow, hhigh⟩ := s.gridBelow_spec e
  rw [Decimal.value, Decimal.value]
  push_cast
  obtain hlt | hle := Nat.lt_or_ge (s.gridBelow e) n
  · refine .inr (s.near_value.between h hhigh.le ?_)
    gcongr
    exact_mod_cast hlt
  · exact .inl (h.between s.near_value (by gcongr) hlow)

theorem exists_decimalOf {s : Scaled} {scale : Int} {count : Nat}
    (h : s.Near (Decimal.value ⟨s.gridBelow (scale - count), scale - count⟩) ∨
      s.Near (Decimal.value ⟨s.gridBelow (scale - count) + 1, scale - count⟩)) :
    ∃ d, s.decimalOf scale count = some d := by
  rw [← readsBack_iff, ← readsBack_iff] at h
  unfold decimalOf
  dsimp only
  split
  · exact ⟨_, rfl⟩
  · exact ⟨_, rfl⟩
  · exact ⟨_, rfl⟩
  · rename_i hlow hhigh
    obtain h | h := h
    · exact absurd (hlow.symm.trans h) (by decide)
    · exact absurd (hhigh.symm.trans h) (by decide)

/-- The search finds a decimal that is as short as any. One with a smaller unit than the grid's is
below the power of ten where the value begins, and that is a point of the grid. -/
theorem exists_decimalOf_of_near {s : Scaled} (hs : 0 < s.mantissa) {d : Decimal}
    (hd : s.Near d.value) :
    ∃ d', s.decimalOf s.decimalScale (digitCount d.digits) = some d' := by
  have hcount := digitCount_pos d.digits
  have hlow := (decimalScale_spec hs).1
  have hlt := d.value_lt
  unfold Decimal.leading at hlt
  unfold Decimal.value at hd hlt
  generalize digitCount d.digits = count at hcount hlt ⊢
  refine exists_decimalOf ?_
  obtain hle | hless := le_or_gt (s.decimalScale - count) d.exponent
  · refine Near.grid (n := d.digits * 10 ^ (d.exponent - (s.decimalScale - count)).toNat) ?_
    have hscale : (10 : ℚ) ^ d.exponent =
        10 ^ (d.exponent - (s.decimalScale - count)).toNat * 10 ^ (s.decimalScale - count) := by
      rw [← zpow_natCast, ← zpow_add₀ (by norm_num)]
      congr 1
      omega
    rw [hscale, ← mul_assoc] at hd
    exact_mod_cast hd
  · refine Near.grid (n := 10 ^ (count - 1)) ?_
    have hscale : (10 : ℚ) ^ (s.decimalScale - 1) =
        10 ^ (count - 1) * 10 ^ (s.decimalScale - count) := by
      rw [← zpow_natCast, ← zpow_add₀ (by norm_num)]
      congr 1
      omega
    push_cast
    rw [← hscale]
    refine hd.between s.near_value (hlt.le.trans ?_) hlow
    exact zpow_le_zpow_right₀ (by norm_num) (by omega)

/-- Seventeen digits are enough: the points of their grid lie closer to each other than the ends of
what rounds to a magnitude. -/
theorem exists_decimalOf_seventeen {s : Scaled} (hs : s.Canonical) (hpos : 0 < s.mantissa) :
    ∃ d, s.decimalOf s.decimalScale 17 = some d := by
  refine exists_decimalOf (by_contra fun hno => ?_)
  obtain ⟨hbelow, habove⟩ := not_or.1 hno
  obtain ⟨hlow, hhigh⟩ := s.gridBelow_spec (s.decimalScale - (17 : Nat))
  have hscale : (10 : ℚ) ^ (s.decimalScale - 1) = 10 ^ 16 * 10 ^ (s.decimalScale - (17 : Nat)) := by
    rw [← zpow_natCast, ← zpow_add₀ (by norm_num)]
    congr 1
    push_cast
    ring
  have hvalue := (decimalScale_spec hpos).1
  have hunit : (0 : ℚ) < 2 ^ (s.exponent - 2) := by positivity
  have hends := s.below_pos
  rw [hscale] at hvalue
  rw [Near, Decimal.value, low_eq hpos, Scaled.high] at hbelow habove
  rw [s.value_eq] at hlow hhigh hvalue
  push_cast at hbelow habove hlow hhigh hvalue
  generalize (s.gridBelow (s.decimalScale - 17) : ℚ) = q at *
  generalize (10 : ℚ) ^ (s.decimalScale - 17) = grid at *
  generalize (2 : ℚ) ^ (s.exponent - 2) = unit at *
  have hstep : (2 + s.below) * unit ≤ grid := by
    have hl : q * grid ≤ (4 * s.mantissa - s.below) * unit := by
      by_contra h
      refine hbelow ⟨.inl (not_le.1 h), .inl ?_⟩
      linarith
    have hr : (4 * s.mantissa + 2) * unit ≤ (q + 1) * grid := by
      by_contra h
      refine habove ⟨.inl ?_, .inl (not_le.1 h)⟩
      have : (0 : ℚ) < s.below * unit := by positivity
      linarith
    linarith
  have hbound : (10 ^ 16 * (2 + s.below) : ℚ) ≤ 4 * s.mantissa := by
    refine le_of_mul_le_mul_right ?_ hunit
    linarith
  have hbound : 10 ^ 16 * (2 + s.below) ≤ 4 * s.mantissa := by exact_mod_cast hbound
  have hmantissa := hs.mantissa_lt
  unfold below at hbound
  unfold fractionSize at hmantissa hbound
  split at hbound <;> omega

end Scaled

/-! ### The search -/

namespace Decimal

theorem digits_strip_le (d : Decimal) : d.strip.digits ≤ d.digits := by
  fun_induction strip d with
  | case1 d h _ ih => exact ih.trans (Nat.div_le_self _ _)
  | case2 => exact le_rfl

/-- A digit that a grid point has more than its neighbours is a zero. -/
theorem digits_strip_lt {d : Decimal} {count : Nat} (hcount : 0 < count)
    (h : d.digits ≤ 10 ^ count) : d.strip.digits < 10 ^ count := by
  obtain hlt | heq := h.lt_or_eq
  · exact d.digits_strip_le.trans_lt hlt
  · obtain ⟨n, rfl⟩ := Nat.exists_eq_add_of_lt hcount
    have hlast : d.digits ≠ 0 ∧ d.digits % 10 = 0 := by
      rw [heq, Nat.pow_succ]
      exact ⟨(Nat.mul_pos (by positivity) (by decide)).ne', Nat.mul_mod_left _ _⟩
    rw [strip, dif_pos hlast]
    refine (digits_strip_le _).trans_lt ?_
    rw [← heq]
    exact Nat.div_lt_self (Nat.pos_of_ne_zero hlast.1) (by decide)

/-- The shortest decimal comes from the first grid that has one. -/
theorem exists_shortest {s : Scaled} (hs : s.Canonical) (hpos : 0 < s.mantissa) :
    ∃ count d, 0 < count ∧ s.decimalOf s.decimalScale count = some d ∧ shortest s = d.strip ∧
      ∀ k, 0 < k → k < count → s.decimalOf s.decimalScale k = none := by
  obtain ⟨d₀, hlast⟩ := Scaled.exists_decimalOf_seventeen hs hpos
  have hsome : ((List.range 17).findSome? fun i => s.decimalOf s.decimalScale (i + 1)).isSome =
      true :=
    List.findSome?_isSome_iff.2 ⟨16, by decide, by rw [hlast]; rfl⟩
  obtain ⟨d, hd⟩ := Option.isSome_iff_exists.1 hsome
  obtain ⟨before, i, after, hrange, hi, hbefore⟩ := List.findSome?_eq_some_iff.1 hd
  refine ⟨i + 1, d, i.succ_pos, hi, ?_, fun k hk hlt => ?_⟩
  · unfold shortest
    dsimp only
    rw [hd, Option.getD_some]
  · -- The grids before the one that was taken are those with fewer digits.
    have hsorted := List.pairwise_lt_range (n := 17)
    rw [hrange, List.pairwise_append, List.pairwise_cons] at hsorted
    have hmem : k - 1 ∈ before ++ i :: after := by
      have himem : i ∈ List.range 17 := by simp [hrange]
      rw [← hrange, List.mem_range]
      rw [List.mem_range] at himem
      omega
    obtain hmem | hmem := List.mem_append.1 hmem
    · have := hbefore _ hmem
      rwa [Nat.sub_add_cancel hk] at this
    · obtain heq | hafter := List.mem_cons.1 hmem
      · omega
      · have := hsorted.2.1.1 _ hafter
        omega

/-- **The shortest decimal.** It is where the value of the magnitude begins or ends in powers of
ten, and no decimal that rounds to the magnitude has fewer digits. -/
theorem shortest_spec {s : Scaled} (hs : s.Canonical) (hpos : 0 < s.mantissa) :
    (10 : ℚ) ^ (s.decimalScale - 1) ≤ (shortest s).value ∧
      (shortest s).value ≤ 10 ^ s.decimalScale ∧
      ∀ d : Decimal, s.Near d.value → digitCount (shortest s).digits ≤ digitCount d.digits := by
  obtain ⟨count, d, hcount, hd, heq, hfirst⟩ := exists_shortest hs hpos
  obtain ⟨-, hexponent, hdigits⟩ := Scaled.near_of_decimalOf hd
  obtain ⟨hlow, hhigh⟩ := s.gridBelow_spec (s.decimalScale - count)
  obtain ⟨hscaleLow, hscaleHigh⟩ := Scaled.decimalScale_spec hpos
  have hunit : (0 : ℚ) < 10 ^ (s.decimalScale - count) := by positivity
  have hpower (i : Int) (n : Nat) (h : i = n + (s.decimalScale - count)) :
      (10 : ℚ) ^ i = (10 ^ n : Nat) * 10 ^ (s.decimalScale - count) := by
    rw [h, zpow_add₀ (by norm_num), zpow_natCast, Nat.cast_pow, Nat.cast_ofNat]
  rw [hpower (s.decimalScale - 1) (count - 1) (by omega)] at hscaleLow ⊢
  rw [hpower s.decimalScale count (by omega)] at hscaleHigh ⊢
  have hleast : 10 ^ (count - 1) ≤ s.gridBelow (s.decimalScale - count) := by
    have := lt_of_mul_lt_mul_right (hscaleLow.trans_lt hhigh) hunit.le
    exact Nat.le_of_lt_succ (by exact_mod_cast this)
  have hgreatest : s.gridBelow (s.decimalScale - count) < 10 ^ count := by
    have := lt_of_mul_lt_mul_right (hlow.trans_lt hscaleHigh) hunit.le
    exact_mod_cast this
  have hle : 10 ^ (count - 1) ≤ d.digits := by omega
  have hge : d.digits ≤ 10 ^ count := by omega
  rw [heq, value_strip, value, hexponent]
  refine ⟨by gcongr, by gcongr, fun d' hd' => ?_⟩
  have hshort : digitCount d.strip.digits ≤ count :=
    (digitCount_le_iff hcount).2 (digits_strip_lt hcount hge)
  refine hshort.trans (Nat.le_of_not_lt fun hlt => ?_)
  obtain ⟨d'', hfound⟩ := Scaled.exists_decimalOf_of_near hpos hd'
  rw [hfirst _ (digitCount_pos _) hlt] at hfound
  cases hfound

end Decimal

end Number

end LoxLang
