import LoxLang.Proofs.LongestMatch
import LoxLang.Proofs.Nearest

/-!
# Numbers are told apart by their texts

The text of a number can be read as a decimal (`Decimal.ofText?`), and whichever way it is written
that decimal has the value of the digits that were found for the number
(`Decimal.ofText?_magnitudeText`). As it rounds to that number and to no other, two numbers with the
same text are the same (`Number.eq_of_text_eq`).
-/

namespace LoxLang

namespace Number

/-! ### Reading a decimal -/

/-- What follows the digits of a numeral, as an exponent. -/
def exponentOf? : List Char → Option Int
  | [] => some 0
  | mark :: rest => if mark = 'e' ∨ mark = 'E' then parseInt? rest else none

/-- The decimal that a numeral without sign stands for. -/
def Decimal.ofText? (cs : List Char) : Option Decimal :=
  let whole := cs.takeWhile Char.isDigit
  let afterWhole := cs.dropWhile Char.isDigit
  let (fraction, afterFraction) := match afterWhole with
    | '.' :: rest => (rest.takeWhile Char.isDigit, rest.dropWhile Char.isDigit)
    | _ => ([], afterWhole)
  if whole.isEmpty && fraction.isEmpty then none
  else (exponentOf? afterFraction).map fun exponent =>
    ⟨ofDigitChars (whole ++ fraction), exponent - fraction.length⟩

/-- How a decimal is written without an exponent: digits with at most one point. -/
inductive Decimal.Plain : List Char → Decimal → Prop where
  | whole {digits : List Char} (hne : digits ≠ []) (hdigits : ∀ c ∈ digits, c.isDigit = true) :
    Plain digits ⟨ofDigitChars digits, 0⟩
  | fraction {whole fraction : List Char} (hne : whole ≠ [])
    (hwhole : ∀ c ∈ whole, c.isDigit = true)
    (hne' : fraction ≠ []) (hfraction : ∀ c ∈ fraction, c.isDigit = true) :
    Plain (whole ++ '.' :: fraction) ⟨ofDigitChars (whole ++ fraction), -fraction.length⟩

section

variable {digits tail : List Char}

theorem takeWhile_tail (hdigits : ∀ c ∈ digits, c.isDigit = true)
    (htail : ∀ c ∈ tail.head?, c = 'e') : (digits ++ tail).takeWhile Char.isDigit = digits := by
  rw [List.takeWhile_append_of_pos hdigits]
  cases tail with
  | nil => simp
  | cons c cs => simp [htail c rfl]

theorem dropWhile_tail (hdigits : ∀ c ∈ digits, c.isDigit = true)
    (htail : ∀ c ∈ tail.head?, c = 'e') : (digits ++ tail).dropWhile Char.isDigit = tail := by
  rw [List.dropWhile_append_of_pos hdigits]
  cases tail with
  | nil => rfl
  | cons c cs => simp [htail c rfl]

/-- A decimal is read as it is written, and what follows it as its exponent. -/
theorem Decimal.Plain.ofText?_append {cs : List Char} {d : Decimal} (h : Plain cs d)
    (htail : ∀ c ∈ tail.head?, c = 'e') {e : Int} (he : exponentOf? tail = some e) :
    ofText? (cs ++ tail) = some ⟨d.digits, d.exponent + e⟩ := by
  cases h with
  | whole hne hdigits =>
    unfold ofText?
    dsimp only
    rw [takeWhile_tail hdigits htail, dropWhile_tail hdigits htail]
    split
    · simp at htail
    · simp [hne, he]
  | fraction hne hwhole _ hfraction =>
    simp [ofText?, takeWhile_point hwhole, dropWhile_point hwhole, takeWhile_tail hfraction htail,
      dropWhile_tail hfraction htail, hne, he, sub_eq_neg_add]

end

/-! ### Digits -/

theorem ofDigitChars_eq (cs : List Char) : ofDigitChars cs = Nat.ofDigitChars 10 cs 0 :=
  Nat.ofDigitChars_eq_foldl.symm

theorem ofDigitChars_digitChars (n : Nat) : ofDigitChars (digitChars n) = n := by
  rw [ofDigitChars_eq]
  exact Nat.ofDigitChars_ten_toDigits

theorem isDigit_of_mem_digitChars {n : Nat} {c : Char} (h : c ∈ digitChars n) : c.isDigit = true :=
  Nat.isDigit_of_mem_toDigits (by decide) (by decide) h

theorem digitChars_ne_nil (n : Nat) : digitChars n ≠ [] := Nat.toDigits_ne_nil

theorem isDigit_of_mem_zeros {count : Int} {c : Char} (h : c ∈ zeros count) : c.isDigit = true := by
  rw [List.eq_of_mem_replicate h]
  rfl

theorem ofDigitChars_zeros_append (count : Int) (digits : List Char) :
    ofDigitChars (zeros count ++ digits) = ofDigitChars digits := by
  rw [ofDigitChars_eq, ofDigitChars_eq, Nat.ofDigitChars_append, zeros,
    Nat.ofDigitChars_replicate_zero, Nat.mul_zero]

theorem ofDigitChars_append_zeros (digits : List Char) (count : Int) :
    ofDigitChars (digits ++ zeros count) = 10 ^ count.toNat * ofDigitChars digits := by
  rw [ofDigitChars_eq, ofDigitChars_eq, Nat.ofDigitChars_append, zeros,
    Nat.ofDigitChars_replicate_zero]

/-! ### The two ways to write digits -/

/-- An exponent as it is written. -/
def exponentText (e : Int) : List Char :=
  'e' :: (if e < 0 then '-' else '+') ::
    (zeros (2 - (digitChars e.natAbs).length) ++ digitChars e.natAbs)

theorem isDigit_of_mem_size {e : Int} {c : Char}
    (h : c ∈ zeros (2 - (digitChars e.natAbs).length) ++ digitChars e.natAbs) : c.isDigit = true :=
  (List.mem_append.1 h).elim isDigit_of_mem_zeros isDigit_of_mem_digitChars

theorem exponentOf?_exponentText (e : Int) : exponentOf? (exponentText e) = some e := by
  have hall : (zeros (2 - (digitChars e.natAbs).length) ++ digitChars e.natAbs).all Char.isDigit =
      true := List.all_eq_true.2 fun _ => isDigit_of_mem_size
  have hvalue : ofDigitChars (zeros (2 - (digitChars e.natAbs).length) ++ digitChars e.natAbs) =
      e.natAbs := (ofDigitChars_zeros_append _ _).trans (ofDigitChars_digitChars _)
  rw [exponentText, exponentOf?, if_pos (.inl rfl)]
  obtain hneg | hnonneg := lt_or_ge e 0
  · rw [if_pos hneg]
    simp [parseInt?, hall, hvalue, digitChars_ne_nil, abs_of_neg hneg]
  · rw [if_neg hnonneg.not_gt]
    simp [parseInt?, hall, hvalue, digitChars_ne_nil, abs_of_nonneg hnonneg]

section

variable {digits : List Char} (hne : digits ≠ [])
include hne

/-- Digits with a point, or with zeros and a point, are a decimal that has its unit where the point
is put. -/
theorem Decimal.exists_plain (hdigits : ∀ c ∈ digits, c.isDigit = true) (position : Int) :
    ∃ d, Plain (positional "" digits position) d ∧
      d.value = ofDigitChars digits * 10 ^ (position - digits.length) := by
  unfold positional
  split
  · rename_i hposition
    -- The point comes before all of the digits, with zeros in between.
    have hfraction : ∀ c ∈ zeros (-position) ++ digits, c.isDigit = true :=
      fun c hc => (List.mem_append.1 hc).elim isDigit_of_mem_zeros (hdigits c)
    have hzero : ∀ c ∈ ['0'], c.isDigit = true := by simp
    have hplain := Plain.fraction (List.cons_ne_nil '0' []) hzero (by simp [hne]) hfraction
    refine ⟨_, hplain, ?_⟩
    have hzeros : ofDigitChars (['0'] ++ (zeros (-position) ++ digits)) = ofDigitChars digits :=
      (ofDigitChars_zeros_append 1 _).trans (ofDigitChars_zeros_append _ _)
    rw [value, hzeros]
    congr 2
    simp only [List.length_append, zeros, List.length_replicate]
    omega
  split
  · rename_i hlength
    -- The point would come after all of the digits, and zeros fill the gap.
    rw [String.toList_empty, List.append_nil]
    refine ⟨_, .whole (by simp [hne])
      fun c hc => (List.mem_append.1 hc).elim (hdigits c) isDigit_of_mem_zeros, ?_⟩
    have hscale : (10 : ℚ) ^ (position - digits.length) =
        10 ^ (position - digits.length).toNat := by
      rw [← zpow_natCast, Int.toNat_of_nonneg (by omega)]
    rw [value, hscale, ofDigitChars_append_zeros]
    push_cast
    ring
  · rename_i hposition hlength
    -- The point is among the digits.
    have hsome : digits.take position.toNat ≠ [] := by
      rw [ne_eq, List.take_eq_nil_iff, not_or]
      exact ⟨by omega, hne⟩
    have hmore : digits.drop position.toNat ≠ [] := by
      rw [ne_eq, List.drop_eq_nil_iff]
      omega
    refine ⟨_, .fraction hsome (fun c hc => hdigits c (List.mem_of_mem_take hc)) hmore
      fun c hc => hdigits c (List.mem_of_mem_drop hc), ?_⟩
    rw [value, List.take_append_drop]
    congr 2
    simp only [List.length_drop]
    omega

/-- With an exponent there is one digit before the point. -/
theorem exponential_eq (e : Int) :
    exponential digits e = positional "" digits 1 ++ exponentText e := by
  obtain ⟨first, rest, rfl⟩ := List.exists_cons_of_ne_nil hne
  cases rest with
  | nil => simp [exponential, positional, exponentText, zeros]
  | cons second more =>
    have hlong : ¬ ((first :: second :: more).length : Int) ≤ 1 := by
      simp only [List.length_cons]
      omega
    rw [positional, if_neg (by decide), if_neg hlong]
    simp [exponential, exponentText]

end

/-! ### Texts of numbers -/

/-- The form that programs print. -/
def printed : NumberFormat := ⟨"", "NaN", "Infinity"⟩

theorem magnitudeText_of_ne {s : Scaled} (h : s.mantissa ≠ 0) : magnitudeText printed s =
    if -4 < (Decimal.shortest s).leading ∧ (Decimal.shortest s).leading ≤ 16 then
      positional "" (digitChars (Decimal.shortest s).digits) (Decimal.shortest s).leading
    else exponential (digitChars (Decimal.shortest s).digits)
      ((Decimal.shortest s).leading - 1) := by
  have hleading : (Decimal.shortest s).exponent + (digitChars (Decimal.shortest s).digits).length =
      (Decimal.shortest s).leading := rfl
  rw [magnitudeText, if_neg h]
  dsimp only
  simp only [hleading, sub_add_cancel, Int.le_sub_one_iff, Int.sub_one_lt_iff]
  rfl

namespace Decimal

theorem exists_plain_shortest (s : Scaled) (position : Int) :
    ∃ d, Plain (positional "" (digitChars (shortest s).digits) position) d ∧
      d.value = (shortest s).value * 10 ^ (position - (shortest s).leading) := by
  obtain ⟨d, hd, hvalue⟩ := exists_plain (digitChars_ne_nil (shortest s).digits)
    (fun _ => isDigit_of_mem_digitChars) position
  refine ⟨d, hd, ?_⟩
  rw [hvalue, ofDigitChars_digitChars, value, mul_assoc, ← zpow_add₀ (by norm_num)]
  congr 2
  rw [leading, digitCount, digitChars]
  ring

/-- What is written for a magnitude. -/
def writtenValue (s : Scaled) : ℚ := if s.mantissa = 0 then 0 else (shortest s).value

theorem near_writtenValue (s : Scaled) : s.Near (writtenValue s) := by
  unfold writtenValue
  split
  · rename_i hzero
    have hvalue : s.value = 0 := by rw [Scaled.value, hzero, Nat.cast_zero, zero_mul]
    exact hvalue ▸ s.near_value
  · exact near_shortest s

/-- A magnitude is written without an exponent if its leading digit is near the point. -/
theorem exists_plain_magnitudeText {s : Scaled}
    (h : s.mantissa = 0 ∨ -4 < (shortest s).leading ∧ (shortest s).leading ≤ 16) :
    ∃ d, Plain (magnitudeText printed s) d ∧ d.value = writtenValue s := by
  by_cases hzero : s.mantissa = 0
  · obtain ⟨d, hd, hvalue⟩ :=
      exists_plain (digitChars_ne_nil 0) (fun _ => isDigit_of_mem_digitChars) 1
    refine ⟨d, by rwa [magnitudeText, if_pos hzero], ?_⟩
    rw [hvalue, ofDigitChars_digitChars, writtenValue, if_pos hzero, Nat.cast_zero, zero_mul]
  · obtain ⟨d, hd, hvalue⟩ := exists_plain_shortest s (shortest s).leading
    rw [magnitudeText_of_ne hzero, if_pos (h.resolve_left hzero)]
    refine ⟨d, hd, ?_⟩
    rw [hvalue, sub_self, zpow_zero, mul_one, writtenValue, if_neg hzero]

/-- What a magnitude is written with: a decimal, and an exponent unless it is zero. -/
theorem exists_text (s : Scaled) :
    ∃ cs tail d e, magnitudeText printed s = cs ++ tail ∧ Plain cs d ∧
      (tail = [] ∧ e = 0 ∨ tail = exponentText e) ∧
      value ⟨d.digits, d.exponent + e⟩ = writtenValue s := by
  by_cases h : s.mantissa = 0 ∨ -4 < (shortest s).leading ∧ (shortest s).leading ≤ 16
  · obtain ⟨d, hd, hvalue⟩ := exists_plain_magnitudeText h
    exact ⟨_, [], d, 0, (List.append_nil _).symm, hd, .inl ⟨rfl, rfl⟩, by simpa using hvalue⟩
  · obtain ⟨hzero, hleading⟩ := not_or.1 h
    obtain ⟨d, hd, hvalue⟩ := exists_plain_shortest s 1
    rw [magnitudeText_of_ne hzero, if_neg hleading, exponential_eq (digitChars_ne_nil _)]
    refine ⟨_, _, d, _, rfl, hd, .inr rfl, ?_⟩
    rw [writtenValue, if_neg hzero, value, zpow_add₀ (by norm_num), ← mul_assoc]
    change d.value * _ = _
    rw [hvalue, mul_assoc, ← zpow_add₀ (by norm_num)]
    simp

theorem ofText?_magnitudeText (s : Scaled) :
    ∃ d, ofText? (magnitudeText printed s) = some d ∧ d.value = writtenValue s := by
  obtain ⟨cs, tail, d, e, htext, hd, htail, hvalue⟩ := exists_text s
  rw [htext]
  obtain ⟨rfl, rfl⟩ | rfl := htail
  · exact ⟨_, hd.ofText?_append (by simp) rfl, hvalue⟩
  · exact ⟨_, hd.ofText?_append (by simp [exponentText]) (exponentOf?_exponentText e), hvalue⟩

end Decimal

theorem magnitude_eq_of_text_eq {x y : Number}
    (h : magnitudeText printed (magnitude x) = magnitudeText printed (magnitude y)) :
    magnitude x = magnitude y := by
  obtain ⟨d, hd, hvalue⟩ := Decimal.ofText?_magnitudeText (magnitude x)
  obtain ⟨d', hd', hvalue'⟩ := Decimal.ofText?_magnitudeText (magnitude y)
  rw [h, hd'] at hd
  obtain rfl := Option.some.inj hd
  have hnear := Decimal.near_writtenValue (magnitude y)
  rw [← hvalue', hvalue] at hnear
  exact (Decimal.near_writtenValue _).unique (canonical_magnitude x) (canonical_magnitude y) hnear

/-- A character of a number that is written out. -/
def isNumeral (c : Char) : Bool := c.isDigit || c = '.' || c = 'e' || c = '+' || c = '-'

/-- A number begins with a digit. -/
theorem exists_magnitudeText (s : Scaled) : ∃ c cs, magnitudeText printed s = c :: cs ∧
    c.isDigit = true ∧ ∀ d ∈ cs, isNumeral d = true := by
  have hnumeral {c : Char} (h : c.isDigit = true) : isNumeral c = true := by simp [isNumeral, h]
  obtain ⟨cs, tail, d, e, htext, hd, htail, -⟩ := Decimal.exists_text s
  have htail : ∀ d ∈ tail, isNumeral d = true := by
    obtain ⟨rfl, -⟩ | rfl := htail
    · simp
    · refine List.forall_mem_cons.2 ⟨rfl, List.forall_mem_cons.2 ⟨?_, fun c hc => ?_⟩⟩
      · split <;> rfl
      · exact hnumeral (isDigit_of_mem_size hc)
  rw [htext]
  cases hd with
  | whole hne hdigits =>
    obtain ⟨c, cs, rfl⟩ := List.exists_cons_of_ne_nil hne
    obtain ⟨hc, hcs⟩ := List.forall_mem_cons.1 hdigits
    exact ⟨c, _, rfl, hc, List.forall_mem_append.2 ⟨fun d hd => hnumeral (hcs d hd), htail⟩⟩
  | fraction hne hwhole _ hfraction =>
    obtain ⟨c, cs, rfl⟩ := List.exists_cons_of_ne_nil hne
    obtain ⟨hc, hcs⟩ := List.forall_mem_cons.1 hwhole
    refine ⟨c, _, rfl, hc, List.forall_mem_append.2 ⟨List.forall_mem_append.2 ⟨?_, ?_⟩, htail⟩⟩
    · exact fun d hd => hnumeral (hcs d hd)
    · exact List.forall_mem_cons.2 ⟨rfl, fun d hd => hnumeral (hfraction d hd)⟩

theorem not_isNaN_of_isFinite {x : Number} (h : x.isFinite = true) :
    x.isNaN = false ∧ x.isInf = false := by
  have hmodel : x.toModel.unpack.isFinite = true := h
  change x.toModel.unpack.isNaN = false ∧ x.toModel.unpack.isInf = false
  cases hunpack : x.toModel.unpack with
  | infinity sign => simp [hunpack, Float.Model.UnpackedFloat.isFinite] at hmodel
  | notANumber => simp [hunpack, Float.Model.UnpackedFloat.isFinite] at hmodel
  | zero sign => exact ⟨rfl, rfl⟩
  | finite sign mantissa exponent hpos => exact ⟨rfl, rfl⟩

/-- The text of a number without its sign. -/
def unsignedText (x : Number) : List Char :=
  if x.isInf then "Infinity".toList else magnitudeText printed (magnitude x)

theorem toList_text {x : Number} (h : x.isNaN = false) :
    x.text.toList = (if isNegative x then ['-'] else []) ++ unsignedText x := by
  unfold text format unsignedText
  simp only [h, Bool.false_eq_true, if_false]
  split <;> split <;> simp [printed]

theorem unsignedText_of_isFinite {x : Number} (h : x.isFinite = true) :
    unsignedText x = magnitudeText printed (magnitude x) := by
  simp [unsignedText, (not_isNaN_of_isFinite h).2]

/-- A letter in front tells infinity from what is written out, and there is never a sign. -/
theorem unsignedText_cases (x : Number) : ∃ c cs, unsignedText x = c :: cs ∧ c ≠ '-' ∧
    (c = 'I' ↔ x.isInf = true) := by
  unfold unsignedText
  split
  · rename_i hinf
    exact ⟨'I', "nfinity".toList, by decide, by decide, by simp [hinf]⟩
  · rename_i hinf
    obtain ⟨c, cs, htext, hc, -⟩ := exists_magnitudeText (magnitude x)
    refine ⟨c, cs, htext, ?_, ?_⟩
    · rintro rfl
      cases hc
    · refine iff_of_false ?_ hinf
      rintro rfl
      cases hc

/-- **The text of a number tells which one it is.** -/
theorem eq_of_text_eq {x y : Number} (hx : x.isNaN = false) (hy : y.isNaN = false)
    (h : x.text = y.text) : x = y := by
  have htexts := congrArg String.toList h
  rw [toList_text hx, toList_text hy] at htexts
  obtain ⟨c, cs, hxs, hc, hxinf⟩ := unsignedText_cases x
  obtain ⟨d, ds, hys, hd, hyinf⟩ := unsignedText_cases y
  -- What follows the sign never begins with one.
  have hsign : isNegative x = isNegative y := by
    by_contra hne
    cases hnx : isNegative x <;> cases hny : isNegative y
    · exact hne (hnx.trans hny.symm)
    · exact hc (by simpa [hnx, hny, hxs] using congrArg List.head? htexts)
    · exact hd (by simpa [hnx, hny, hys] using (congrArg List.head? htexts).symm)
    · exact hne (hnx.trans hny.symm)
  rw [hsign] at htexts
  have hunsigned := List.append_cancel_left htexts
  obtain rfl : c = d := by simpa [hxs, hys] using congrArg List.head? hunsigned
  refine eq_of_bits_eq hsign ?_
  by_cases hinf : x.isInf = true
  · exact (bits_of_isInf hinf).trans (bits_of_isInf (hyinf.1 (hxinf.2 hinf))).symm
  · have hinf' : y.isInf ≠ true := fun h => hinf (hxinf.1 (hyinf.2 h))
    rw [unsignedText, unsignedText, if_neg hinf, if_neg hinf'] at hunsigned
    rw [magnitude_eq_of_text_eq hunsigned]

end Number

end LoxLang
