import LoxLang.Tree.Basic

/-!
# Changing marks

`Program.mapMarks` applies a function to the mark of every use in a program, and leaves the rest as
it is.
-/

namespace LoxLang

variable {β γ : Type} (f : β → γ)

mutual

/-- Apply a function to the mark of every use in an expression. -/
def Expr.mapMarks : Expr β → Expr γ
  | .constant value => .constant value
  | .group inner => .group inner.mapMarks
  | .unary op line operand => .unary op line operand.mapMarks
  | .binary left op line right => .binary left.mapMarks op line right.mapMarks
  | .logical left op line right => .logical left.mapMarks op line right.mapMarks
  | .var name mark => .var name (f mark)
  | .assign name value mark => .assign name value.mapMarks (f mark)
  | .call callee arguments line => .call callee.mapMarks (Expr.mapAllMarks arguments) line
  | .list elements line => .list (Expr.mapAllMarks elements) line
  | .map entries line => .map (Expr.mapEntryMarks entries) line
  | .index container position line => .index container.mapMarks position.mapMarks line
  | .setIndex container position value line =>
    .setIndex container.mapMarks position.mapMarks value.mapMarks line
  | .get object name => .get object.mapMarks name
  | .set object name value => .set object.mapMarks name value.mapMarks
  | .thisRef line mark => .thisRef line (f mark)
  | .superRef line method mark => .superRef line method (f mark)

/-- Apply a function to the mark of every use in expressions. -/
def Expr.mapAllMarks : List (Expr β) → List (Expr γ)
  | [] => []
  | e :: es => e.mapMarks :: Expr.mapAllMarks es

/-- Apply a function to the mark of every use in map entries. -/
def Expr.mapEntryMarks : List (Expr β × Expr β) → List (Expr γ × Expr γ)
  | [] => []
  | (key, value) :: entries => (key.mapMarks, value.mapMarks) :: Expr.mapEntryMarks entries

end

/-- Apply a function to the mark of every use in a marker. -/
def Marker.mapMarks : Marker β → Marker γ
  | .set name value => .set name (value.mapMarks f)
  | .build root mark path arguments => .build root (f mark) path (Expr.mapAllMarks f arguments)
  | .walk operand => .walk (operand.mapMarks f)
  | .check operand => .check (operand.mapMarks f)
  | .thru operand => .thru (operand.mapMarks f)
  | .otherwise => .otherwise

mutual

/-- Apply a function to the mark of every use in a statement. -/
def Stmt.mapMarks : Stmt β → Stmt γ
  | .expression value => .expression (value.mapMarks f)
  | .print value => .print (value.mapMarks f)
  | .var name initializer => .var name (initializer.map (Expr.mapMarks f))
  | .block body => .block (Stmt.mapAllMarks body)
  | .branch condition yes none => .branch (condition.mapMarks f) yes.mapMarks none
  | .branch condition yes (some no) =>
    .branch (condition.mapMarks f) yes.mapMarks (some no.mapMarks)
  | .whileLoop condition body => .whileLoop (condition.mapMarks f) body.mapMarks
  | .doWhile body condition => .doWhile body.mapMarks (condition.mapMarks f)
  | .breakLoop line => .breakLoop line
  | .continueLoop line => .continueLoop line
  | .returnValue line value => .returnValue line (value.map (Expr.mapMarks f))
  | .function decl => .function decl.mapMarks
  | .classDecl name superclass methods =>
    .classDecl name (superclass.map fun (parent, mark) => (parent, f mark))
      (Function.mapAllMarks methods)
  | .marker line m => .marker line (m.mapMarks f)

/-- Apply a function to the mark of every use in statements. -/
def Stmt.mapAllMarks : List (Stmt β) → List (Stmt γ)
  | [] => []
  | s :: ss => s.mapMarks :: Stmt.mapAllMarks ss

/-- Apply a function to the mark of every use in a function. -/
def Function.mapMarks : Function β → Function γ
  | ⟨name, params, body⟩ => ⟨name, params, Stmt.mapAllMarks body⟩

/-- Apply a function to the mark of every use in functions. -/
def Function.mapAllMarks : List (Function β) → List (Function γ)
  | [] => []
  | decl :: decls => decl.mapMarks :: Function.mapAllMarks decls

end

/-- Apply a function to the mark of every use in a program. -/
def Program.mapMarks (program : Program β) : Program γ := Stmt.mapAllMarks f program

end LoxLang
