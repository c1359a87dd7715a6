import LoxLang.Binding.Basic
import LoxLang.Tree.Marks

/-!
# Binding a program

Every use of a variable in a program is bound to the innermost scope in which its name can be
used, and the static rules are checked on the way: a scope declares a name once, an initializer
does not read the variable it belongs to, jumps stand in loops, a value is returned from a function
that is not an initializer, `this` and `super` stand in suitable classes, and no class is its own
superclass. A program with faults is bound to its end.

What a use carries afterwards is made by `mark`, from the scopes around the use and the hops that it
is bound to.
-/

namespace LoxLang

/-- What a statement is the body of. -/
inductive FunctionContext where
  | topLevel
  | function
  | method
  | initializer
deriving DecidableEq, Repr

/-- What kind of class there is around a place. -/
inductive ClassContext where
  | outside
  | rootClass
  | subclass
deriving DecidableEq, Repr

/-- What there is around a place, the scopes apart. -/
structure Context where
  function : FunctionContext
  classes : ClassContext
  inLoop : Bool
deriving DecidableEq, Repr

/-- The context of a program's own statements. -/
def Context.program : Context := ⟨.topLevel, .outside, false⟩

/-- The name of the method that sets up a new instance. -/
def initializerName : String := "init"

namespace Expr

/-- An expression without the parentheses around it. -/
def ungrouped {β : Type} : Expr β → Expr β
  | .group inner => inner.ungrouped
  | e => e

/-- The expression is only a use of the name, perhaps in parentheses. -/
def isUseOf {β : Type} (e : Expr β) (name : String) : Bool :=
  match e.ungrouped with
  | .var used _ => used.text = name
  | _ => false

variable {β : Type} (mark : Scopes → Hops → β) (classes : ClassContext) (scopes : Scopes)

mutual

/-- Bind the uses in an expression. -/
def resolve : Expr Unit → Bound (Expr β)
  | .constant value => return .constant value
  | .group inner => return .group (← inner.resolve)
  | .unary op line operand => return .unary op line (← operand.resolve)
  | .binary left op line right => return .binary (← left.resolve) op line (← right.resolve)
  | .logical left op line right => return .logical (← left.resolve) op line (← right.resolve)
  | .var name () => return .var name (mark scopes (← scopes.bindUse .read name.text name.line))
  | .assign name value () => do
    let value ← value.resolve
    return .assign name value (mark scopes (← scopes.bindUse .assign name.text name.line))
  | .call callee arguments line => return .call (← callee.resolve) (← resolveAll arguments) line
  | .list elements line => return .list (← resolveAll elements) line
  | .map entries line => return .map (← resolveEntries entries) line
  | .index container position line =>
    return .index (← container.resolve) (← position.resolve) line
  | .setIndex container position value line =>
    return .setIndex (← container.resolve) (← position.resolve) (← value.resolve) line
  | .get object name => return .get (← object.resolve) name
  | .set object name value => return .set (← object.resolve) name (← value.resolve)
  | .thisRef line () => do
    let token := Token.ofKeyword .thisWord line
    Bound.reportIf (classes = .outside) token .thisOutsideClass
    if classes = .outside then return .thisRef line (mark scopes none)
    else return .thisRef line (mark scopes (← scopes.bindUse .thisRef token.lexeme line))
  | .superRef line method () => do
    let token := Token.ofKeyword .superWord line
    Bound.reportIf (classes = .outside) token .superOutsideClass
    Bound.reportIf (classes = .rootClass) token .superWithoutSuperclass
    return .superRef line method (mark scopes (← scopes.bindUse .superRef token.lexeme line))

/-- Bind the uses in expressions, one after the other. -/
def resolveAll : List (Expr Unit) → Bound (List (Expr β))
  | [] => return []
  | e :: es => return (← e.resolve) :: (← resolveAll es)

/-- Bind the uses in map entries, each key before its value. -/
def resolveEntries : List (Expr Unit × Expr Unit) → Bound (List (Expr β × Expr β))
  | [] => return []
  | (key, value) :: entries =>
    return (← key.resolve, ← value.resolve) :: (← resolveEntries entries)

end

end Expr

variable {β : Type} (mark : Scopes → Hops → β)

/-- Bind the uses in a marker. -/
def Marker.resolve (classes : ClassContext) (scopes : Scopes) :
    Marker Unit → Bound (Marker β)
  | .set name value => return .set name (← value.resolve mark classes scopes)
  | .build root () path arguments => do
    let hops ← scopes.bindUse .read root.text root.line
    return .build root (mark scopes hops) path (← Expr.resolveAll mark classes scopes arguments)
  | .walk operand => return .walk (← operand.resolve mark classes scopes)
  | .check operand => return .check (← operand.resolve mark classes scopes)
  | .thru operand => return .thru (← operand.resolve mark classes scopes)
  | .otherwise => return .otherwise

/-- Bind the uses in an expression that may be missing. -/
def Expr.resolveOption (classes : ClassContext) (scopes : Scopes) :
    Option (Expr Unit) → Bound (Option (Expr β))
  | none => return none
  | some e => return some (← e.resolve mark classes scopes)

/-- Bind the superclass of a class that is called `name`. -/
def resolveSuperclass (scopes : Scopes) (name : Name) :
    Option (Name × Unit) → Bound (Option (Name × β))
  | none => return none
  | some (parent, ()) => do
    Bound.reportIf (parent.text = name.text) parent.token .inheritsItself
    return some (parent, mark scopes (← scopes.bindUse .read parent.text parent.line))

mutual

/-- Bind the uses in a statement, and give the scopes that it leaves. -/
def Stmt.resolve (context : Context) (scopes : Scopes) : Stmt Unit → Bound (Stmt β × Scopes)
  | .expression value =>
    return (.expression (← value.resolve mark context.classes scopes), scopes)
  | .print value => return (.print (← value.resolve mark context.classes scopes), scopes)
  | .var name initializer => do
    let declared ← scopes.declare name
    Bound.reportIf (!scopes.isEmpty && initializer.any (·.isUseOf name.text)) name.token
      .ownInitializer
    let initializer ← Expr.resolveOption mark context.classes declared initializer
    return (.var name initializer, declared.set name.text true)
  | .block body => do
    let (body, _) ← Stmt.resolveAll context (scopes.enter []) body
    return (.block body, scopes)
  | .branch condition yes no => do
    let condition ← condition.resolve mark context.classes scopes
    let (yes, scopes) ← yes.resolve context scopes
    match no with
    | none => return (.branch condition yes none, scopes)
    | some no =>
      let (no, scopes) ← no.resolve context scopes
      return (.branch condition yes (some no), scopes)
  | .whileLoop condition body => do
    let condition ← condition.resolve mark context.classes scopes
    let (body, scopes) ← body.resolve { context with inLoop := true } scopes
    return (.whileLoop condition body, scopes)
  | .doWhile body condition => do
    let (body, scopes) ← body.resolve { context with inLoop := true } scopes
    return (.doWhile body (← condition.resolve mark context.classes scopes), scopes)
  | .breakLoop line => do
    Bound.reportIf (!context.inLoop) (.ofKeyword .breakWord line) (.outsideLoop .breakWord)
    return (.breakLoop line, scopes)
  | .continueLoop line => do
    Bound.reportIf (!context.inLoop) (.ofKeyword .continueWord line) (.outsideLoop .continueWord)
    return (.continueLoop line, scopes)
  | .returnValue line value => do
    let token := Token.ofKeyword .returnWord line
    Bound.reportIf (context.function = .topLevel) token .returnAtTopLevel
    Bound.reportIf (value.isSome && context.function = .initializer) token .returnFromInitializer
    return (.returnValue line (← Expr.resolveOption mark context.classes scopes value), scopes)
  | .function decl => do
    let scopes ← scopes.declareUsable decl.name
    return (.function (← decl.resolve { context with function := .function } scopes), scopes)
  | .classDecl name superclass methods => do
    let scopes ← scopes.declareUsable name
    let superclass ← resolveSuperclass mark scopes name superclass
    let around := if superclass.isSome then scopes.enter [Keyword.superWord.text] else scopes
    let classes := if superclass.isSome then .subclass else .rootClass
    let methods ← Function.resolveMethods { context with classes := classes }
      (around.enter [Keyword.thisWord.text]) methods
    return (.classDecl name superclass methods, scopes)
  | .marker line marker =>
    return (.marker line (← marker.resolve mark context.classes scopes), scopes)

/-- Bind the uses in statements, one after the other. -/
def Stmt.resolveAll (context : Context) (scopes : Scopes) :
    List (Stmt Unit) → Bound (List (Stmt β) × Scopes)
  | [] => return ([], scopes)
  | s :: ss => do
    let (s, scopes) ← s.resolve context scopes
    let (ss, scopes) ← Stmt.resolveAll context scopes ss
    return (s :: ss, scopes)

/-- Bind the uses in a function. Its parameters and its body share a scope. -/
def Function.resolve (context : Context) (scopes : Scopes) :
    Function Unit → Bound (Function β)
  | ⟨name, params, body⟩ => do
    let inner ← (scopes.enter []).declareAll params
    let (body, _) ← Stmt.resolveAll { context with inLoop := false } inner body
    return ⟨name, params, body⟩

/-- Bind the uses in methods. -/
def Function.resolveMethods (context : Context) (scopes : Scopes) :
    List (Function Unit) → Bound (List (Function β))
  | [] => return []
  | f :: fs => do
    let kind : FunctionContext := if f.name.text = initializerName then .initializer else .method
    let f ← f.resolve { context with function := kind } scopes
    return f :: (← Function.resolveMethods context scopes fs)

end

/-- Bind the uses in a program, with marks of any kind. -/
def Program.resolveWith (program : Program Unit) : Bound (Program β) := do
  return (← Stmt.resolveAll mark .program [] program).1

/-- Bind the uses in a program. -/
def Program.resolve (program : Program Unit) : Bound (Program Hops) :=
  Program.resolveWith (fun _ hops => hops) program

/-- A program as it was read, to be run without being bound: every use is looked up among the
globals. -/
def Program.unbound (program : Program Unit) : Program Hops :=
  Program.mapMarks (fun _ => none) program

end LoxLang
