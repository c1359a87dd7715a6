import LoxLang.Tree.Basic

/-!
# Nested forms

A program written on one line as nested forms: an operator or a keyword and its operands in
parentheses. Lines and marks do not show.
-/

namespace LoxLang

/-- Words in parentheses. -/
def parens (words : List String) : String := "(" ++ " ".intercalate words ++ ")"

/-- The form of a constant. -/
def Constant.form : Constant → String
  | nil => "nil"
  | bool b => if b then "true" else "false"
  | number x => x.text
  | string s => "\"" ++ s ++ "\""

variable {β : Type}

mutual

/-- The form of an expression. -/
def Expr.form : Expr β → String
  | .constant value => value.form
  | .group inner => parens ["group", inner.form]
  | .unary op _ operand => parens [op.symbol.text, operand.form]
  | .binary left op _ right => parens [op.symbol.text, left.form, right.form]
  | .logical left op _ right => parens [op.keyword.text, left.form, right.form]
  | .var name _ => name.text
  | .assign name value _ => parens ["=", name.text, value.form]
  | .call callee arguments _ => parens ("call" :: callee.form :: Expr.forms arguments)
  | .list elements _ => "[" ++ ", ".intercalate (Expr.forms elements) ++ "]"
  | .map entries _ => "\x7b" ++ ", ".intercalate (Expr.entryForms entries) ++ "\x7d"
  | .index container position _ => parens ["index", container.form, position.form]
  | .setIndex container position value _ =>
    parens ["index=", container.form, position.form, value.form]
  | .get object name => parens [".", object.form, name.text]
  | .set object name value => parens ["=", object.form, name.text, value.form]
  | .thisRef _ _ => "this"
  | .superRef _ method _ => parens ["super", method.text]

/-- The forms of expressions. -/
def Expr.forms : List (Expr β) → List String
  | [] => []
  | e :: es => e.form :: Expr.forms es

/-- The forms of map entries. -/
def Expr.entryForms : List (Expr β × Expr β) → List String
  | [] => []
  | (key, value) :: entries => (key.form ++ ": " ++ value.form) :: Expr.entryForms entries

end

/-- The form of a marker. -/
def Marker.form (m : Marker β) : String :=
  parens <| m.keyword.text :: match m with
    | .set name value => [name.text, value.form]
    | .build root mark path arguments => (Expr.path root mark path).form :: Expr.forms arguments
    | .walk operand | .check operand | .thru operand => [operand.form]
    | .otherwise => []

mutual

/-- The form of a statement. -/
def Stmt.form : Stmt β → String
  | .expression value => parens [";", value.form]
  | .print value => parens ["print", value.form]
  | .var name none => parens ["var", name.text]
  | .var name (some initializer) => parens ["var", name.text, initializer.form]
  | .block body => parens ("block" :: Stmt.forms body)
  | .branch condition yes none => parens ["if", condition.form, yes.form]
  | .branch condition yes (some no) => parens ["if-else", condition.form, yes.form, no.form]
  | .whileLoop condition body => parens ["while", condition.form, body.form]
  | .doWhile body condition => parens ["do-while", body.form, condition.form]
  | .breakLoop _ => "(break)"
  | .continueLoop _ => "(continue)"
  | .returnValue _ none => "(return)"
  | .returnValue _ (some value) => parens ["return", value.form]
  | .function decl => decl.form
  | .classDecl name superclass methods =>
    let heading := match superclass with
      | none => [name.text]
      | some (parent, _) => [name.text, "<", parent.text]
    parens ("class" :: heading ++ Function.forms methods)
  | .marker _ marker => marker.form

/-- The forms of statements. -/
def Stmt.forms : List (Stmt β) → List String
  | [] => []
  | s :: ss => s.form :: Stmt.forms ss

/-- The form of a function. -/
def Function.form : Function β → String
  | ⟨name, params, body⟩ =>
    parens ("fun" :: name.text :: parens (params.map Name.text) :: Stmt.forms body)

/-- The forms of methods. -/
def Function.forms : List (Function β) → List String
  | [] => []
  | f :: fs => f.form :: Function.forms fs

end

/-- The form of a program. -/
def Program.form (program : Program β) : String := " ".intercalate (Stmt.forms program)

end LoxLang
