/-!
# Numbers and their binary form

A number of the language is an IEEE binary64 value. A finite one has a magnitude
`mantissa * 2 ^ exponent` with natural mantissa (`Number.magnitude`), and everything here is exact
arithmetic on that form:

* `Number.nearest` is the number closest to a quotient of naturals, a tie going to the even
  mantissa;
* `Number.remainder?` is what truncating division leaves, with the sign of the dividend;
* `Number.isWhole` tells whether a number stands for an integer, and `Number.truncate?` gives its
  integer part.
-/

namespace LoxLang

/-- The numbers of the language. -/
abbrev Number := Float

namespace Number

/-- A nonnegative value `mantissa * 2 ^ exponent`. -/
structure Scaled where
  mantissa : Nat
  exponent : Int
deriving DecidableEq, Repr

/-- A power of `base`; one if the exponent is negative. -/
def power (base : Nat) (exponent : Int) : Nat := Nat.pow base exponent.toNat

/-- The exponent of the smallest positive number. -/
def minExponent : Int := -1074

/-- Size of the fraction field, and least mantissa of a number in normal form. -/
def fractionSize : Nat := 0x10000000000000

/-- The bits of infinity; the bits of finite nonnegative numbers are below. -/
def infinityBits : Nat := 0x7FF * fractionSize

/-- Positive infinity. -/
def infinity : Number := Float.ofBits infinityBits.toUInt64

/-- The value of undefined results. -/
def notANumber : Number := 0.0 / 0.0

/-- The bit of the sign. -/
def signBit : Nat := 0x8000000000000000

/-- The sign is minus, which minus zero has too. -/
def isNegative (x : Number) : Bool := signBit ≤ x.toBits.toNat

/-- The magnitude of a finite number. -/
def magnitude (x : Number) : Scaled :=
  let bits := x.toBits.toNat % signBit
  let fraction := bits % fractionSize
  let biased := bits / fractionSize
  if biased = 0 then ⟨fraction, minExponent⟩
  else ⟨fractionSize + fraction, minExponent + (biased - 1 : Nat)⟩

namespace Scaled

/-- The numerator of the value as a quotient of naturals. -/
def numerator (s : Scaled) : Nat := s.mantissa * power 2 s.exponent

/-- The denominator of the value as a quotient of naturals. -/
def denominator (s : Scaled) : Nat := power 2 (-s.exponent)

end Scaled

/-! ### Rounding a quotient -/

/-- The natural closest to `num / den`, a tie going to the even one. -/
def roundQuotient (num den : Nat) : Nat :=
  let quotient := num / den
  let twice := 2 * (num % den)
  if twice < den ∨ (twice = den ∧ quotient % 2 = 0) then quotient else quotient + 1

/-- The greatest `e` with `2 ^ e ≤ num / den`, for positive `num` and `den`. -/
def binaryExponent (num den : Nat) : Int :=
  let estimate : Int := num.log2 - den.log2
  if num * power 2 (-estimate) < den * power 2 estimate then estimate - 1 else estimate

/-- The number closest to `num / den`. The mantissa is added to the exponent field, so that a
mantissa that rounding has carried past its width moves to the next exponent by itself. -/
def nearest (num den : Nat) : Number :=
  if num = 0 then 0 else
    let exponent := max (binaryExponent num den - 52) minExponent
    let mantissa := roundQuotient (num * power 2 (-exponent)) (den * power 2 exponent)
    let bits := (exponent - minExponent).toNat * fractionSize + mantissa
    if bits < infinityBits then Float.ofBits bits.toUInt64 else infinity

/-- Give `x` a minus sign if `negative`. -/
def withSign (negative : Bool) (x : Number) : Number := if negative then -x else x

/-- The number closest to a natural. -/
def ofCount (n : Nat) : Number := nearest n 1

/-! ### Integers, quotients and remainders -/

/-- The number is finite and whole. -/
def isWhole (x : Number) : Bool :=
  x.isFinite && (magnitude x).numerator % (magnitude x).denominator = 0

/-- The integer part of a number, if it is finite. -/
def truncate? (x : Number) : Option Int :=
  if x.isFinite then
    let n : Int := (magnitude x).numerator / (magnitude x).denominator
    some (if isNegative x then -n else n)
  else none

/-- The quotient, unless the divisor is zero. -/
def quotient? (x y : Number) : Option Number := if y == 0 then none else some (x / y)

/-- What is left of `x` after taking away `y` as often as it fits, with the sign of `x`. There is no
remainder of an infinite `x`, nor by a `y` that is zero. -/
def remainder? (x y : Number) : Option Number :=
  if x.isInf || y == 0 then none
  else if x.isNaN || y.isNaN then some notANumber
  else if y.isInf then some x
  else
    let a := magnitude x
    let b := magnitude y
    let exponent := min a.exponent b.exponent
    let left := (a.mantissa * power 2 (a.exponent - exponent)) %
      (b.mantissa * power 2 (b.exponent - exponent))
    let rest : Scaled := ⟨left, exponent⟩
    some (withSign (isNegative x) (nearest rest.numerator rest.denominator))

end Number

end LoxLang
