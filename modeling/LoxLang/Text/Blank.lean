/-!
# Blank characters

The characters that count as blank at the ends of a line typed at the prompt: the ASCII blanks and
separators, and the space and line separators of other scripts.
-/

namespace LoxLang

namespace Text

/-- The code points of blank characters, ascending. -/
def blanks : List Nat := [
  0x9, 0xA, 0xB, 0xC, 0xD, 0x1C, 0x1D, 0x1E, 0x1F, 0x20, 0x85, 0xA0, 0x1680, 0x2000, 0x2001, 0x2002,
  0x2003, 0x2004, 0x2005, 0x2006, 0x2007, 0x2008, 0x2009, 0x200A, 0x2028, 0x2029, 0x202F, 0x205F,
  0x3000]

/-- A blank character. -/
def isBlank (c : Char) : Bool := blanks.contains c.toNat

/-- Drop the last characters as long as they satisfy `p`. -/
def dropRightWhile (p : Char → Bool) (cs : List Char) : List Char :=
  (cs.reverse.dropWhile p).reverse

/-- A text without the blanks at its ends. -/
def strip (s : String) : String :=
  String.ofList (dropRightWhile isBlank (s.toList.dropWhile isBlank))

end Text

end LoxLang
