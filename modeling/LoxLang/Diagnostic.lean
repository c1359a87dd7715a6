import LoxLang.Token.Basic

/-!
# Diagnostics

What is wrong with a program before it runs: the cause (`StaticError`), the line, and what stands
there (`Place`). `Diagnostic.text` is the line shown to the user.
-/

namespace LoxLang

/-- The largest count of parameters, and of arguments of a call. -/
def maxArguments : Nat := 255

/-- Causes of a diagnostic. -/
inductive StaticError where
  | unexpectedCharacter
  | unterminatedString
  /-- Something else was called for. -/
  | expected (what : String)
  /-- More parameters or arguments than allowed. -/
  | tooMany (what : String)
  | invalidAssignmentTarget
  | alreadyDeclared
  /-- A local variable is read in its own initializer. -/
  | ownInitializer
  /-- A class names itself as its superclass. -/
  | inheritsItself
  | returnAtTopLevel
  | returnFromInitializer
  | thisOutsideClass
  | superOutsideClass
  | superWithoutSuperclass
  /-- A jump has no loop around it. -/
  | outsideLoop (jump : Keyword)
  /-- A remark of the program that embeds the language. -/
  | remark (message : String)
deriving DecidableEq, Repr

/-- The wording of a cause. -/
def StaticError.message : StaticError → String
  | unexpectedCharacter => "Unexpected character."
  | unterminatedString => "Unterminated string."
  | expected what => "Expect " ++ what ++ "."
  | tooMany what => "Can't have more than " ++ toString maxArguments ++ " " ++ what ++ "."
  | invalidAssignmentTarget => "Invalid assignment target."
  | alreadyDeclared => "Already a variable with this name in this scope."
  | ownInitializer => "Can't read local variable in its own initializer."
  | inheritsItself => "A class can't inherit from itself."
  | returnAtTopLevel => "Can't return from top-level code."
  | returnFromInitializer => "Can't return a value from an initializer."
  | thisOutsideClass => "Can't use 'this' outside of a class."
  | superOutsideClass => "Can't use 'super' outside of a class."
  | superWithoutSuperclass => "Can't use 'super' in a class with no superclass."
  | outsideLoop jump => "Can't use '" ++ jump.text ++ "' outside of a loop."
  | remark message => message

/-- What stands where something is wrong. -/
inductive Place where
  /-- Only the line is known. -/
  | line
  /-- The end of the program text. -/
  | atEnd
  | lexeme (text : String)
deriving DecidableEq, Repr

/-- A place as part of a diagnostic. -/
def Place.text : Place → String
  | line => ""
  | atEnd => " at end"
  | lexeme text => " at '" ++ text ++ "'"

/-- Something wrong with a program, found before it runs. -/
structure Diagnostic where
  line : Int
  place : Place
  error : StaticError
deriving DecidableEq, Repr

namespace Diagnostic

/-- A diagnostic at a token. -/
def atToken (t : Token) (error : StaticError) : Diagnostic :=
  ⟨t.line, .lexeme t.lexeme, error⟩

/-- A diagnostic as it is shown. -/
def text (d : Diagnostic) : String :=
  "[line " ++ toString d.line ++ "] Error" ++ d.place.text ++ ": " ++ d.error.message

end Diagnostic

end LoxLang
