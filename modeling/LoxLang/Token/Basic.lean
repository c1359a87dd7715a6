import LoxLang.Number.Text
import LoxLang.Text.Quoted

/-!
# Tokens

A token is a word of program text with the line it ends on. Symbols and keywords have one spelling
each (`Symbol.text`, `Keyword.text`), a string is what stands between its quotes, and a number keeps
its spelling next to its value. The end of the text is not a token.
-/

namespace LoxLang

/-- Punctuation and operators. -/
inductive Symbol where
  | leftParen | rightParen | leftBracket | rightBracket | leftBrace | rightBrace
  | colon | comma | dot | minus | plus | semicolon | slash | star | percent
  | bang | bangEqual | equal | equalEqual | greater | greaterEqual | less | lessEqual
deriving DecidableEq, Repr

namespace Symbol

/-- The spelling of a symbol. -/
def text : Symbol → String
  | leftParen => "("
  | rightParen => ")"
  | leftBracket => "["
  | rightBracket => "]"
  | leftBrace => "\x7b"
  | rightBrace => "\x7d"
  | colon => ":"
  | comma => ","
  | dot => "."
  | minus => "-"
  | plus => "+"
  | semicolon => ";"
  | slash => "/"
  | star => "*"
  | percent => "%"
  | bang => "!"
  | bangEqual => "!="
  | equal => "="
  | equalEqual => "=="
  | greater => ">"
  | greaterEqual => ">="
  | less => "<"
  | lessEqual => "<="

/-- The name of a symbol in listings of tokens. -/
def name : Symbol → String
  | leftParen => "LEFT_PAREN"
  | rightParen => "RIGHT_PAREN"
  | leftBracket => "LEFT_BRACKET"
  | rightBracket => "RIGHT_BRACKET"
  | leftBrace => "LEFT_BRACE"
  | rightBrace => "RIGHT_BRACE"
  | colon => "COLON"
  | comma => "COMMA"
  | dot => "DOT"
  | minus => "MINUS"
  | plus => "PLUS"
  | semicolon => "SEMICOLON"
  | slash => "SLASH"
  | star => "STAR"
  | percent => "PERCENT"
  | bang => "BANG"
  | bangEqual => "BANG_EQUAL"
  | equal => "EQUAL"
  | equalEqual => "EQUAL_EQUAL"
  | greater => "GREATER"
  | greaterEqual => "GREATER_EQUAL"
  | less => "LESS"
  | lessEqual => "LESS_EQUAL"

end Symbol

/-- Reserved words. -/
inductive Keyword where
  | andWord | breakWord | buildWord | checkWord | classWord | continueWord | doWord | elseWord
  | falseWord | forWord | funWord | ifWord | nilWord | orWord | otherwiseWord | printWord
  | returnWord | setWord | superWord | thisWord | thruWord | trueWord | varWord | walkWord
  | whileWord
deriving DecidableEq, Repr

namespace Keyword

/-- The spelling of a keyword. -/
def text : Keyword → String
  | andWord => "and"
  | breakWord => "break"
  | buildWord => "build"
  | checkWord => "check"
  | classWord => "class"
  | continueWord => "continue"
  | doWord => "do"
  | elseWord => "else"
  | falseWord => "false"
  | forWord => "for"
  | funWord => "fun"
  | ifWord => "if"
  | nilWord => "nil"
  | orWord => "or"
  | otherwiseWord => "otherwise"
  | printWord => "print"
  | returnWord => "return"
  | setWord => "set"
  | superWord => "super"
  | thisWord => "this"
  | thruWord => "thru"
  | trueWord => "true"
  | varWord => "var"
  | walkWord => "walk"
  | whileWord => "while"

/-- All keywords. -/
def all : List Keyword := [
  andWord, breakWord, buildWord, checkWord, classWord, continueWord, doWord, elseWord, falseWord,
  forWord, funWord, ifWord, nilWord, orWord, otherwiseWord, printWord, returnWord, setWord,
  superWord, thisWord, thruWord, trueWord, varWord, walkWord, whileWord]

/-- The keyword with the given spelling. -/
def ofText? (s : String) : Option Keyword := all.find? fun k => k.text = s

end Keyword

/-- The value that a literal stands for. -/
inductive Literal where
  | number (x : Number)
  | string (s : String)
deriving DecidableEq, Repr

/-- A literal in a listing. -/
def Literal.inspect : Literal → String
  | number x => x.inspect
  | string s => Text.quoted s

/-- What a token is, apart from where it stands. -/
inductive Word where
  | symbol (s : Symbol)
  | keyword (k : Keyword)
  | identifier (name : String)
  /-- A string, by what stands between its quotes. -/
  | string (content : String)
  /-- A number, as it is written and as it counts. -/
  | number (text : String) (value : Number)
deriving DecidableEq, Repr

namespace Word

/-- The word as it is written. -/
def lexeme : Word → String
  | symbol s => s.text
  | keyword k => k.text
  | identifier name => name
  | string content => "\"" ++ content ++ "\""
  | number text _ => text

/-- The value that the word stands for. -/
def literal : Word → Option Literal
  | string content => some (.string content)
  | number _ value => some (.number value)
  | _ => none

/-- The name of the kind of the word in listings. -/
def kindName : Word → String
  | symbol s => s.name
  | keyword k => k.text.map Char.toUpper
  | identifier _ => "IDENTIFIER"
  | string _ => "STRING"
  | number .. => "NUMBER"

end Word

/-- A word of program text. -/
structure Token where
  word : Word
  /-- The line on which the token ends, counted from 1 in program text. -/
  line : Int
deriving DecidableEq, Repr

namespace Token

/-- The token of a symbol. -/
def ofSymbol (s : Symbol) (line : Int) : Token := ⟨.symbol s, line⟩

/-- The token of a keyword. -/
def ofKeyword (k : Keyword) (line : Int) : Token := ⟨.keyword k, line⟩

/-- The token of a name. -/
def ofName (name : String) (line : Int) : Token := ⟨.identifier name, line⟩

/-- The token as it is written. -/
def lexeme (t : Token) : String := t.word.lexeme

/-- A line in a listing of tokens. -/
def listing (kindName lexeme : String) (literal : Option Literal) (line : Int) : String :=
  "Token(" ++ kindName ++ ", " ++ Text.quoted lexeme ++ ", " ++
    (literal.map Literal.inspect).getD "None" ++ ", line=" ++ toString line ++ ")"

/-- A token in a listing. -/
def inspect (t : Token) : String := listing t.word.kindName t.lexeme t.word.literal t.line

end Token

end LoxLang
