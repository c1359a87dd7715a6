import LoxLang.Diagnostic

/-!
# From text to tokens

Program text is a sequence of pieces: single blanks, comments, lexemes, stray characters, and a
string that the text does not close. `Piece.first` cuts off the first piece, which is as long as
it can be, and `Piece.all` cuts up the whole text. Each lexeme is a token on the line its last
character is on; a stray character and an unclosed string are diagnostics (`Scan.ofPieces`).
-/

namespace LoxLang

/-- A letter of an identifier. -/
def isLetter (c : Char) : Bool := c.isAlpha || c = '_'

/-- A character of an identifier after the first. -/
def isWordChar (c : Char) : Bool := isLetter c || c.isDigit

/-- A blank between lexemes. -/
def isSpace (c : Char) : Bool := c = ' ' || c = '\r' || c = '\t' || c = '\n'

namespace Symbol

/-- The symbol that a character is by itself. -/
def ofChar? : Char → Option Symbol
  | '(' => some leftParen
  | ')' => some rightParen
  | '[' => some leftBracket
  | ']' => some rightBracket
  | '\x7b' => some leftBrace
  | '\x7d' => some rightBrace
  | ':' => some colon
  | ',' => some comma
  | '.' => some dot
  | '-' => some minus
  | '+' => some plus
  | ';' => some semicolon
  | '/' => some slash
  | '*' => some star
  | '%' => some percent
  | '!' => some bang
  | '=' => some equal
  | '<' => some less
  | '>' => some greater
  | _ => none

/-- The symbol that a symbol becomes with an equals sign after it. -/
def withEqual? : Symbol → Option Symbol
  | bang => some bangEqual
  | equal => some equalEqual
  | less => some lessEqual
  | greater => some greaterEqual
  | _ => none

end Symbol

/-- A piece of program text. -/
inductive Piece where
  | blank (c : Char)
  /-- From two slashes to the end of the line. -/
  | comment (text : List Char)
  | lexeme (word : Word)
  /-- A character that begins nothing. -/
  | stray (c : Char)
  /-- A string that is not closed, which takes the rest of the text. -/
  | unclosed (text : List Char)
deriving DecidableEq, Repr

namespace Piece

/-- The characters of a piece. -/
def text : Piece → List Char
  | blank c | stray c => [c]
  | comment text | unclosed text => text
  | lexeme word => word.lexeme.toList

/-- The number at the front: digits, and a fraction if a digit follows the point. -/
def numberWord (cs : List Char) : Word :=
  let whole := cs.takeWhile Char.isDigit
  let fraction := match cs.dropWhile Char.isDigit with
    | '.' :: rest => rest.takeWhile Char.isDigit
    | _ => []
  let text := if fraction.isEmpty then whole else whole ++ '.' :: fraction
  .number (String.ofList text) (Number.ofNumeral whole fraction)

/-- The keyword or the identifier that letters and digits make up. -/
def letterWord (text : List Char) : Word :=
  let name := String.ofList text
  match Keyword.ofText? name with
  | some k => .keyword k
  | none => .identifier name

/-- The symbol at the front, with an equals sign if that makes another symbol. -/
def symbolWord (s : Symbol) : List Char → Word
  | '=' :: _ => .symbol (s.withEqual?.getD s)
  | _ => .symbol s

/-- The string whose opening quote stands before `cs`. -/
def stringPiece (cs : List Char) : Piece :=
  if cs.contains '"' then lexeme (.string (String.ofList (cs.takeWhile (· ≠ '"'))))
  else unclosed ('"' :: cs)

/-- The first piece of the text `c :: cs`. -/
def first (c : Char) (cs : List Char) : Piece :=
  if isSpace c then blank c
  else if c = '/' ∧ cs.head? = some '/' then comment (c :: cs.takeWhile (· ≠ '\n'))
  else if c = '"' then stringPiece cs
  else if c.isDigit then lexeme (numberWord (c :: cs))
  else if isLetter c then lexeme (letterWord (c :: cs.takeWhile isWordChar))
  else match Symbol.ofChar? c with
    | some s => lexeme (symbolWord s cs)
    | none => stray c

/-- The pieces of a text. -/
def all : List Char → List Piece
  | [] => []
  | c :: cs =>
    let piece := first c cs
    piece :: all (cs.drop (piece.text.length - 1))
termination_by cs => cs.length
decreasing_by simp only [List.length_drop, List.length_cons]; omega

/-- How many lines a piece ends. A line feed is looked for between lexemes and in strings only. -/
def lineFeeds : Piece → Nat
  | blank c => if c = '\n' then 1 else 0
  | lexeme (.string content) => content.toList.count '\n'
  | unclosed text => text.count '\n'
  | _ => 0

end Piece

/-- The tokens of a program text, and what is wrong with it. -/
structure Scan where
  tokens : List Token
  /-- The line on which the text ends. -/
  endLine : Int
  diagnostics : List Diagnostic
deriving DecidableEq, Repr

namespace Scan

/-- The scan of pieces that begin on the given line. -/
def ofPieces : (line : Int) → List Piece → Scan
  | line, [] => ⟨[], line, []⟩
  | line, piece :: pieces =>
    let line := line + piece.lineFeeds
    let later := ofPieces line pieces
    match piece with
    | .blank _ | .comment _ => later
    | .lexeme word => { later with tokens := ⟨word, line⟩ :: later.tokens }
    | .stray _ =>
      { later with diagnostics := ⟨line, .line, .unexpectedCharacter⟩ :: later.diagnostics }
    | .unclosed _ =>
      { later with diagnostics := ⟨line, .line, .unterminatedString⟩ :: later.diagnostics }

/-- The scan of a program text. -/
def ofText (source : String) : Scan := ofPieces 1 (Piece.all source.toList)

/-- The listing of the tokens and of the end. -/
def inspect (s : Scan) : List String :=
  s.tokens.map Token.inspect ++ [Token.listing "EOF" "" none s.endLine]

end Scan

end LoxLang
