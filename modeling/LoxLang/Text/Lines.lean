import LoxLang.Text.Blank

/-!
# Lines of a text

A line ends with a line feed, which belongs to it; the last line may lack it. `Text.lines` cuts a
text into its lines, `Text.unifyLineEnds` turns the other line ends into line feeds first, and
`Text.dropLineEnd` takes a line end off.
-/

namespace LoxLang

namespace Text

/-- Write the line ends carriage return with line feed, and carriage return alone, as line
feeds. -/
def unifyLineEnds : List Char → List Char
  | [] => []
  | '\r' :: '\n' :: cs => '\n' :: unifyLineEnds cs
  | '\r' :: cs => '\n' :: unifyLineEnds cs
  | c :: cs => c :: unifyLineEnds cs

/-- The lines of a text whose current line so far is `current`, in reverse. -/
def linesFrom (current : List Char) : List Char → List (List Char)
  | [] => if current.isEmpty then [] else [current.reverse]
  | '\n' :: cs => ('\n' :: current).reverse :: linesFrom [] cs
  | c :: cs => linesFrom (c :: current) cs

/-- The lines of a text, with their line ends. -/
def lines (s : String) : List String := (linesFrom [] s.toList).map String.ofList

/-- A line without the carriage returns and line feeds at its end. -/
def dropLineEnd (s : String) : String :=
  String.ofList (dropRightWhile (fun c => c = '\r' || c = '\n') s.toList)

end Text

end LoxLang
