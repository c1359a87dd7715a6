import LoxLang.Number.Decimal
import LoxLang.Text.Blank
import LoxLang.Text.Digit

/-!
# The text of a number

A number is written with the fewest digits that read back: positionally if the exponent of its
leading digit is from -4 to 15, otherwise with a signed exponent of at least two digits.
`NumberFormat` holds what the two written forms of a number differ in: `Number.text` is the form
that programs print, `Number.inspect` the form in listings of containers. `Number.parse?` reads
numerals as people write them: in the digits of any script, with blanks around them, and with an
underscore between two digits wherever it helps the eye.
-/

namespace LoxLang

/-- The choices of a written form of numbers. -/
structure NumberFormat where
  /-- What follows the digits of a whole number written positionally. -/
  whole : String
  notANumber : String
  infinity : String

namespace Number

/-- The digits of a natural. -/
def digitChars (n : Nat) : List Char := Nat.toDigits 10 n

/-- `count` times the digit zero. -/
def zeros (count : Int) : List Char := List.replicate count.toNat '0'

/-- Digits with the point after the first `position` of them; missing places are zeros. -/
def positional (whole : String) (digits : List Char) (position : Int) : List Char :=
  if position ≤ 0 then '0' :: '.' :: zeros (-position) ++ digits
  else if digits.length ≤ position then
    digits ++ zeros (position - digits.length) ++ whole.toList
  else digits.take position.toNat ++ '.' :: digits.drop position.toNat

/-- Digits with the point after the first, and an exponent. -/
def exponential (digits : List Char) (exponent : Int) : List Char :=
  let mantissa := match digits with
    | first :: second :: more => first :: '.' :: second :: more
    | _ => digits
  let size := digitChars exponent.natAbs
  mantissa ++ 'e' :: (if exponent < 0 then '-' else '+') :: zeros (2 - size.length) ++ size

/-- A nonnegative finite number in the form `format`. -/
def magnitudeText (format : NumberFormat) (s : Scaled) : List Char :=
  if s.mantissa = 0 then positional format.whole ['0'] 1
  else
    let decimal := Decimal.shortest s
    let digits := digitChars decimal.digits
    let leading := decimal.exponent + digits.length - 1
    if -4 ≤ leading ∧ leading < 16 then positional format.whole digits (leading + 1)
    else exponential digits leading

/-- A number in the form `format`. -/
def format (format : NumberFormat) (x : Number) : String :=
  if x.isNaN then format.notANumber
  else
    let sign := if isNegative x then "-" else ""
    if x.isInf then sign ++ format.infinity
    else sign ++ String.ofList (magnitudeText format (magnitude x))

/-- The form that programs print. -/
def text : Number → String := format ⟨"", "NaN", "Infinity"⟩

/-- The form in listings of containers: a whole number keeps a point. -/
def inspect : Number → String := format ⟨".0", "nan", "inf"⟩

/-! ### Reading -/

/-- The value of a digit. -/
def digitValue (c : Char) : Nat := c.toNat - '0'.toNat

/-- The natural that digits stand for. -/
def ofDigitChars (digits : List Char) : Nat :=
  digits.foldl (fun n c => 10 * n + digitValue c) 0

/-- The number written with the given digits before and after the point. -/
def ofNumeral (whole fraction : List Char) : Number :=
  Decimal.toNumber ⟨ofDigitChars (whole ++ fraction), -fraction.length⟩

/-- A signed natural. -/
def parseInt? (cs : List Char) : Option Int :=
  let (negative, digits) := match cs with
    | '-' :: rest => (true, rest)
    | '+' :: rest => (false, rest)
    | _ => (false, cs)
  if digits.isEmpty || !digits.all Char.isDigit then none
  else some (if negative then -(ofDigitChars digits : Int) else ofDigitChars digits)

/-- A numeral without sign: digits with at most one point, and an exponent. -/
def parseMagnitude? (cs : List Char) : Option Number :=
  let whole := cs.takeWhile Char.isDigit
  let afterWhole := cs.dropWhile Char.isDigit
  let (fraction, afterFraction) := match afterWhole with
    | '.' :: rest => (rest.takeWhile Char.isDigit, rest.dropWhile Char.isDigit)
    | _ => ([], afterWhole)
  if whole.isEmpty && fraction.isEmpty then none
  else
    let exponent? := match afterFraction with
      | [] => some 0
      | mark :: rest => if mark = 'e' ∨ mark = 'E' then parseInt? rest else none
    exponent?.map fun exponent =>
      Decimal.toNumber ⟨ofDigitChars (whole ++ fraction), exponent - fraction.length⟩

/-- A numeral with an optional sign, or the name of an infinity or of the undefined value. -/
def parseSigned? (cs : List Char) : Option Number :=
  let (negative, rest) := match cs with
    | '-' :: rest => (true, rest)
    | '+' :: rest => (false, rest)
    | _ => (false, cs)
  let name := String.ofList (rest.map Char.toLower)
  let found :=
    if name = "nan" then some notANumber
    else if name = "inf" ∨ name = "infinity" then some infinity
    else parseMagnitude? rest
  found.map (withSign negative)

/-- A blank that may stand around a numeral: any but the four separators of records. -/
def isMargin (c : Char) : Bool := Text.isBlank c && !(0x1C ≤ c.toNat && c.toNat ≤ 0x1F)

/-- A digit of any script as the digit of the same value from `0` to `9`; all else as it is. -/
def plainDigit (c : Char) : Char := ((Text.decimalValue? c).map Nat.digitChar).getD c

/-- Drop the underscores from what follows `previous`; each must stand between two digits. -/
def joinDigits? (previous : Char) : List Char → Option (List Char)
  | [] => some []
  | c :: cs =>
    if c = '_' then
      if previous.isDigit && cs.head?.any Char.isDigit then joinDigits? c cs else none
    else (joinDigits? c cs).map (c :: ·)

/-- Read a numeral. -/
def parse? (s : String) : Option Number :=
  let bare := Text.dropRightWhile isMargin (s.toList.dropWhile isMargin)
  (joinDigits? ' ' (bare.map plainDigit)).bind parseSigned?

end Number

end LoxLang
