import LoxLang.Number.Binary

/-!
# Decimal forms of numbers

A decimal is `digits * 10 ^ exponent`. `Decimal.shortest` gives the decimal with the fewest digits
among those that read back as a given number (`Scaled.readsBack`), and of several the closest to
it; `Decimal.toNumber` reads a decimal.

For each count of digits the value has two neighbours on the grid of decimals with that many
digits, and the search tests these two. The exact decimal value stands behind the search, so the
result always reads back.
-/

namespace LoxLang

namespace Number

/-- A nonnegative decimal `digits * 10 ^ exponent`. -/
structure Decimal where
  digits : Nat
  exponent : Int
deriving DecidableEq, Repr

/-- How many decimal digits a natural is written with. -/
def digitCount (n : Nat) : Nat := (Nat.toDigits 10 n).length

namespace Decimal

/-- The numerator of the value as a quotient of naturals. -/
def numerator (d : Decimal) : Nat := d.digits * power 10 d.exponent

/-- The denominator of the value as a quotient of naturals. -/
def denominator (d : Decimal) : Nat := power 10 (-d.exponent)

/-- The number closest to a decimal. Beyond the range of numbers no power of ten is computed. -/
def toNumber (d : Decimal) : Number :=
  let leading := d.exponent + digitCount d.digits
  if d.digits = 0 ∨ leading < -400 then 0
  else if 400 < leading then infinity
  else nearest d.numerator d.denominator

/-- Move trailing zeros of the digits into the exponent. -/
def strip (d : Decimal) : Decimal :=
  if h : d.digits ≠ 0 ∧ d.digits % 10 = 0 then
    have : d.digits / 10 < d.digits := Nat.div_lt_self (Nat.pos_of_ne_zero h.1) (by decide)
    strip ⟨d.digits / 10, d.exponent + 1⟩
  else d
termination_by d.digits

end Decimal

namespace Scaled

/-- `a * 2 ^ i` and the decimal `d`, compared exactly. -/
def compareDecimal (a : Nat) (i : Int) (d : Decimal) : Ordering :=
  compare (a * power 2 i * d.denominator) (d.numerator * power 2 (-i))

/-- Among the reals that round to `s` is `d`. They reach half way to the neighbours of `s`, which
below a power of two is nearer, and the ends belong to them if the mantissa is even. -/
def readsBack (s : Scaled) (d : Decimal) : Bool :=
  let below := if s.mantissa = fractionSize ∧ minExponent < s.exponent then 1 else 2
  let fromLow := compareDecimal (4 * s.mantissa - below) (s.exponent - 2) d
  let fromHigh := compareDecimal (4 * s.mantissa + 2) (s.exponent - 2) d
  if s.mantissa % 2 = 0 then fromLow != .gt && fromHigh != .lt
  else fromLow == .lt && fromHigh == .gt

/-- The least `k` such that the value of `s` is below `10 ^ k`, for a positive value. -/
def decimalScale (s : Scaled) : Int :=
  let num := s.numerator
  let den := s.denominator
  if den ≤ num then digitCount (num / den)
  else
    let k := digitCount (den / num)
    if num * power 10 ((k : Int) - 1) < den then 1 - (k : Int) else 2 - (k : Int)

/-- The decimal with `count` digits closest to `s`, if one of its two neighbours on that grid
reads back. A tie goes to the even one. -/
def decimalOf (s : Scaled) (scale : Int) (count : Nat) : Option Decimal :=
  let exponent := scale - count
  let num := s.numerator * power 10 (-exponent)
  let den := s.denominator * power 10 exponent
  let low : Decimal := ⟨num / den, exponent⟩
  let high : Decimal := ⟨num / den + 1, exponent⟩
  match s.readsBack low, s.readsBack high with
  | true, true => some (if roundQuotient num den = num / den then low else high)
  | true, false => some low
  | false, true => some high
  | false, false => none

/-- The value of `s` itself as a decimal. -/
def exactDecimal (s : Scaled) : Decimal :=
  if s.exponent < 0 then ⟨s.mantissa * power 5 (-s.exponent), s.exponent⟩
  else ⟨s.mantissa * power 2 s.exponent, 0⟩

end Scaled

/-- The decimal with the fewest digits that reads back as the finite positive value `s`. -/
def Decimal.shortest (s : Scaled) : Decimal :=
  let scale := s.decimalScale
  let found := (List.range 17).findSome? fun i => s.decimalOf scale (i + 1)
  (found.getD s.exactDecimal).strip

end Number

end LoxLang
