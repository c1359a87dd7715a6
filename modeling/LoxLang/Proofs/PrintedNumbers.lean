import LoxLang.Proofs.Numerals
import LoxLang.Proofs.Rescanning
import LoxLang.Proofs.Shortest

/-!
# Printed numbers read back

A number whose leading digit is near the point is printed without an exponent
(`Decimal.leading_shortest`), and so the text is a numeral of the language. Scanning it gives the
number back (`Number.text_reads_back`): the digits were chosen so that they round to the number, and
reading rounds.
-/

namespace LoxLang

namespace Number

namespace Decimal

theorem Plain.isNumeral {cs : List Char} {d : Decimal} (h : Plain cs d) :
    ∀ c ∈ cs, c.isDigit = true ∨ c = '.' := by
  cases h with
  | whole _ hdigits => exact fun c hc => .inl (hdigits c hc)
  | fraction _ hwhole _ hfraction =>
    exact List.forall_mem_append.2 ⟨fun c hc => .inl (hwhole c hc),
      List.forall_mem_cons.2 ⟨.inr rfl, fun c hc => .inl (hfraction c hc)⟩⟩

theorem Plain.written {cs : List Char} {d : Decimal} (h : Plain cs d) :
    (Word.number (String.ofList cs) d.toNumber).Written := by
  cases h with
  | whole hne hdigits =>
    refine .whole hne hdigits ((parse?_digits hne hdigits).trans ?_)
    rw [ofNumeral, List.append_nil]
    rfl
  | fraction hne hwhole hne' hfraction =>
    exact .fraction hne hwhole hne' hfraction (parse?_fraction hne hwhole hne' hfraction)

/-- Rounding to fewer digits does not take a value out of the range of powers of ten it is in,
except that it may become the upper end. But that end is a number itself here. -/
theorem leading_shortest {s : Scaled} (hs : s.Canonical) (hpos : 0 < s.mantissa)
    (hlow : 10 ^ (-4 : Int) ≤ s.value) (hhigh : s.value < 10 ^ (16 : Int)) :
    -4 < (shortest s).leading ∧ (shortest s).leading ≤ 16 := by
  have hten : (1 : ℚ) < 10 := by norm_num
  obtain ⟨hscaleLow, hscaleHigh⟩ := Scaled.decimalScale_spec hpos
  obtain ⟨hshortLow, hshortHigh, -⟩ := shortest_spec hs hpos
  have hfrom : -4 < s.decimalScale := (zpow_lt_zpow_iff_right₀ hten).1 (hlow.trans_lt hscaleHigh)
  have hto : s.decimalScale - 1 < 16 := (zpow_lt_zpow_iff_right₀ hten).1 (hscaleLow.trans_lt hhigh)
  constructor
  · have hless := (zpow_lt_zpow_iff_right₀ hten).1 (hshortLow.trans_lt (shortest s).value_lt)
    omega
  · by_contra hmore
    have hdigits : 0 < (shortest s).digits := by
      by_contra hzero
      have hpower : (0 : ℚ) < 10 ^ (s.decimalScale - 1) := by positivity
      rw [value, Nat.eq_zero_of_not_pos hzero, Nat.cast_zero, zero_mul] at hshortLow
      exact hpower.not_ge hshortLow
    have hend : (shortest s).value = 10 ^ (16 : Int) :=
      le_antisymm (hshortHigh.trans (zpow_le_zpow_right₀ hten.le (by omega)))
        ((zpow_le_zpow_right₀ hten.le (by omega)).trans (le_value hdigits))
    have hcanonical : Scaled.Canonical ⟨5000000000000000, 1⟩ :=
      ⟨by decide, by decide, fun _ => by decide⟩
    have hvalue : Scaled.value ⟨5000000000000000, 1⟩ = 10 ^ (16 : Int) := by
      rw [Scaled.value]
      norm_num
    have hsame : s = ⟨5000000000000000, 1⟩ := by
      refine (near_shortest s).unique hs hcanonical ?_
      rw [hend, ← hvalue]
      exact Scaled.near_value _
    rw [hsame, hvalue] at hhigh
    exact lt_irrefl _ hhigh

end Decimal

theorem mantissa_pos {x : Number} (hsign : isNegative x = false) (h : x ≠ 0) :
    0 < (magnitude x).mantissa := by
  have hcanonical := canonical_magnitude x
  by_contra hzero
  refine h (eq_of_bits_eq (hsign.trans (by decide)) ?_)
  have hmin : ¬ minExponent < (magnitude x).exponent := by
    intro hmin
    have hfraction : 0 < fractionSize := by decide
    have := hcanonical.le_mantissa hmin
    omega
  have hbits : (magnitude x).bits = 0 := by
    rw [Scaled.bits, Int.toNat_of_nonpos (by omega)]
    omega
  rw [hbits]
  decide

theorem unsignedText_eq_ofList {x : Number} (hfinite : x.isFinite = true)
    (hsign : isNegative x = false) :
    x.text = String.ofList (magnitudeText printed (magnitude x)) := by
  refine String.ext ?_
  rw [toList_text (not_isNaN_of_isFinite hfinite).1, hsign, String.toList_ofList]
  exact unsignedText_of_isFinite hfinite

/-- An exponent is written exactly if the leading digit is not near the point. -/
theorem mem_magnitudeText_iff {s : Scaled} (h : s.mantissa ≠ 0) : 'e' ∉ magnitudeText printed s ↔
    -4 < (Decimal.shortest s).leading ∧ (Decimal.shortest s).leading ≤ 16 := by
  constructor
  · intro hmem
    by_contra hleading
    rw [magnitudeText_of_ne h, if_neg hleading, exponential_eq (digitChars_ne_nil _)] at hmem
    exact hmem (by simp [exponentText])
  · intro hleading hmem
    obtain ⟨d, hd, -⟩ := Decimal.exists_plain_magnitudeText (.inr hleading)
    exact absurd (hd.isNumeral 'e' hmem) (by decide)

theorem ofText_text {x : Number} (hfinite : x.isFinite = true) (hsign : isNegative x = false)
    (h : x = 0 ∨ 10 ^ (-4 : Int) ≤ (magnitude x).value ∧ (magnitude x).value < 10 ^ (16 : Int)) :
    Scan.ofText x.text = ⟨[⟨.number x.text x, 1⟩], 1, []⟩ := by
  have hcanonical := canonical_magnitude x
  obtain ⟨d, hd, hvalue⟩ : ∃ d, Decimal.Plain (magnitudeText printed (magnitude x)) d ∧
      d.value = Decimal.writtenValue (magnitude x) := by
    refine Decimal.exists_plain_magnitudeText ?_
    obtain rfl | ⟨hlow, hhigh⟩ := h
    · exact .inl (by decide)
    · exact (Nat.eq_zero_or_pos _).imp_right
        fun hpos => Decimal.leading_shortest hcanonical hpos hlow hhigh
  have hnear : (magnitude x).Near d.value := hvalue ▸ Decimal.near_writtenValue _
  have hwritten := hd.written
  rw [(Decimal.toNumber_eq_iff hfinite hsign d).2 hnear, ← unsignedText_eq_ofList hfinite hsign]
    at hwritten
  have hpieces := Piece.all_lexeme hwritten
  rw [Scan.ofText]
  have hpieces : Piece.all x.text.toList = [.lexeme (.number x.text x)] := hpieces
  rw [hpieces]
  simp [Scan.ofPieces, Piece.lineFeeds]

/-- **Printed numbers read back.** The text of zero, and of any finite number from `10 ^ -4` to
below `10 ^ 16` that has no sign, is scanned as a single number that has the whole text and is the
one that was printed, bit for bit. All numbers but the undefined one have different texts. This
rests on two things that hold of all numbers: reading a decimal gives the number with the closest
magnitude, the even one if two are equally close, and the text is that of a decimal which is read as
the number and has no more digits than any other such decimal, with an exponent unless that of the
leading digit is from -4 to 15. -/
theorem text_reads_back :
    (∀ x : Number, x.isFinite = true → isNegative x = false →
      x = 0 ∨ 10 ^ (-4 : Int) ≤ (magnitude x).value ∧ (magnitude x).value < 10 ^ (16 : Int) →
      Scan.ofText x.text = ⟨[⟨.number x.text x, 1⟩], 1, []⟩) ∧
    (∀ x y : Number, x.isNaN = false → y.isNaN = false → x.text = y.text → x.toBits = y.toBits) ∧
    (∀ d : Decimal, ∃ s : Scaled, s.Canonical ∧ d.toNumber = s.toNumber ∧
      ∀ t : Scaled, t.Canonical → t ≠ s → |d.value - s.value| ≤ |d.value - t.value| ∧
        (|d.value - s.value| = |d.value - t.value| → s.mantissa % 2 = 0)) ∧
    ∀ x : Number, x.isFinite = true → isNegative x = false → x ≠ 0 →
      ∃ short : Decimal, short.toNumber = x ∧
        (∀ d : Decimal, d.toNumber = x → digitCount short.digits ≤ digitCount d.digits) ∧
        (∃ d, Decimal.ofText? x.text.toList = some d ∧ d.value = short.value) ∧
        ('e' ∉ x.text.toList ↔ -4 ≤ short.leading - 1 ∧ short.leading - 1 < 16) := by
  refine ⟨fun x => ofText_text, fun x y hx hy h => congrArg Float.toBits (eq_of_text_eq hx hy h),
    fun d => ?_, fun x hfinite hsign hne => ?_⟩
  · obtain ⟨s, hs, hnear, heq⟩ := d.toNumber_spec
    exact ⟨s, hs, heq, fun t ht hne => hnear.closest hs ht hne⟩
  · have hpos := mantissa_pos hsign hne
    refine ⟨Decimal.shortest (magnitude x), ?_, fun d hd => ?_, ?_, ?_⟩
    · exact (Decimal.toNumber_eq_iff hfinite hsign _).2 (Decimal.near_shortest _)
    · have hnear := (Decimal.toNumber_eq_iff hfinite hsign d).1 hd
      exact (Decimal.shortest_spec (canonical_magnitude x) hpos).2.2 d hnear
    · rw [unsignedText_eq_ofList hfinite hsign, String.toList_ofList]
      obtain ⟨d, hd, hvalue⟩ := Decimal.ofText?_magnitudeText (magnitude x)
      exact ⟨d, hd, by rw [hvalue, Decimal.writtenValue, if_neg hpos.ne']⟩
    · rw [Int.le_sub_one_iff, Int.sub_one_lt_iff, unsignedText_eq_ofList hfinite hsign,
        String.toList_ofList, mem_magnitudeText_iff hpos.ne']

/-- The sum of 0.1 and 0.2 needs seventeen digits, and its text is not that of the number below
it. -/
theorem text_reads_back_sum :
    let x : Number := 0.1 + 0.2
    let y : Number := Float.ofBits (x.toBits - 1)
    x.text = "0.30000000000000004" ∧ Scan.ofText x.text = ⟨[⟨.number x.text x, 1⟩], 1, []⟩ ∧
      (x.text = y.text → x.toBits = y.toBits) ∧
      ∃ short : Decimal, short.toNumber = x ∧
        ∀ d : Decimal, d.toNumber = x → digitCount short.digits ≤ digitCount d.digits := by
  intro x y
  have hfinite : x.isFinite = true := by decide +kernel
  have hsign : isNegative x = false := by decide +kernel
  have hne : x ≠ 0 := by decide +kernel
  have hmagnitude : magnitude x = ⟨5404319552844596, -54⟩ := by decide +kernel
  have hrange : 10 ^ (-4 : Int) ≤ (magnitude x).value ∧ (magnitude x).value < 10 ^ (16 : Int) := by
    rw [hmagnitude, Scaled.value]
    norm_num
  obtain ⟨short, hshort, hfewest, -⟩ := text_reads_back.2.2.2 x hfinite hsign hne
  exact ⟨by decide +kernel, text_reads_back.1 x hfinite hsign (.inr hrange),
    text_reads_back.2.1 x y (by decide +kernel) (by decide +kernel), short, hshort, hfewest⟩

end Number

end LoxLang
