import LoxLang.Binding.Program
import LoxLang.Eval.Access
import LoxLang.Eval.Dialogue
import LoxLang.Eval.Native
import LoxLang.Eval.Operator

/-!
# Running programs

Expressions are evaluated to a value; statements are executed, and either come to their end or
leave with a jump. Loops take breaks and continues, calls take returns, and everything else hands
a jump on. `Task.body` says what each of these tasks does, in terms of further tasks, and `Task.run`
carries it out. `depth` is the number of levels that are left of the stack, `rounds` the number of
rounds that each loop has.
-/

namespace LoxLang

open Dialogue (perform)

variable {σ : Scoping}

/-! ### Calls -/

namespace Store

/-- How many arguments a value takes when it is called, if it can be called. -/
def arity? (s : Store σ) : Value → Option Nat
  | .function ref => some (s.functions.get ref).decl.params.length
  | .native f => some f.arity
  | .cls ref => some (((s.method? ref initializerName).map (·.decl.params.length)).getD 0)
  | _ => none

/-- The name of a value that can be called. -/
def calleeName (s : Store σ) : Value → String
  | .function ref => s.functionName ref
  | .native f => f.name
  | .cls ref => s.className ref
  | _ => ""

end Store

/-- What a call gives, by the jump that has left the body of the function. An initializer gives the
object that it has set up. -/
def Closure.result (closure : Closure σ) : Option Jump → Eval σ Value
  | some (.breakLoop line) => Eval.fault (.outsideLoop .breakWord) (.ofKeyword .breakWord line)
  | some (.continueLoop line) =>
    Eval.fault (.outsideLoop .continueWord) (.ofKeyword .continueWord line)
  | jump => do
    if closure.isInitializer then
      Eval.expect (σ.receiver (← Eval.store).memory closure.scope)
    else
      match jump with
      | some (.returnValue _ value) => return value
      | _ => return .nil

/-- Call a function. Its body sees the parameters in front of what its declaration sees. -/
def Closure.apply (closure : Closure σ) (arguments : List Value) : Dialogue σ Value := do
  let locals := (closure.decl.params.map Name.text).zip arguments
  let inner ← perform (Eval.alloc (·.enter closure.scope locals))
  let jump ← Dialogue.block inner closure.decl.body
  perform (closure.result jump)

/-- Make an instance of a class and set it up. -/
def Class.instantiate (cls : Ref .cls) (arguments : List Value) : Dialogue σ Value := do
  let object ← perform (Eval.alloc (·.newObject cls))
  match (← perform Eval.store).method? cls initializerName with
  | none => return .object object
  | some method =>
    let closure ← perform (Eval.alloc (·.bindMethod method (.object object)))
    let _ ← closure.apply arguments
    return .object object

/-- Check a call and note it. -/
def noteCall (callee : Value) (arguments : List Value) (paren : Token) : Eval σ Unit := do
  let store ← Eval.store
  match store.arity? callee with
  | none => Eval.fault .notCallable paren
  | some arity =>
    if arguments.length ≠ arity then Eval.fault (.wrongArity arity arguments.length) paren
    else
      let name := store.calleeName callee
      Eval.trace ["call", name, "line", toString paren.line]
      Eval.pushCall ⟨name, arguments⟩

/-- Note a call and carry it out. The call stays noted if it does not return. -/
def callBody (callee : Value) (arguments : List Value) (paren : Token) : Dialogue σ Value := do
  perform (noteCall callee arguments paren)
  let result ← Dialogue.invoke callee arguments paren
  perform Eval.popCall
  return result

/-- Carry out a call. -/
def invokeBody (depth : Nat) (callee : Value) (arguments : List Value) : Dialogue σ Value := do
  match callee with
  | .function ref => ((← perform Eval.store).functions.get ref).apply arguments
  | .cls ref => Class.instantiate ref arguments
  | .native f => perform (f.call depth arguments)
  | _ => perform (Eval.halt (.defect .notCallable))

/-! ### Loops -/

/-- Test, then run the body, round after round. -/
def whileRounds (condition : Expr σ.Mark) (body : Stmt σ.Mark) :
    (rounds : Nat) → Dialogue σ (Option Jump)
  | 0 => perform (Eval.halt .unfinished)
  | rounds + 1 => do
    if (← Dialogue.eval condition).isTruthy then
      match ← Dialogue.exec body with
      | some (.breakLoop _) => return none
      | some (.returnValue line value) => return some (.returnValue line value)
      | _ => whileRounds condition body rounds
    else return none

/-- Run the body, then test, round after round. -/
def doWhileRounds (body : Stmt σ.Mark) (condition : Expr σ.Mark) :
    (rounds : Nat) → Dialogue σ (Option Jump)
  | 0 => perform (Eval.halt .unfinished)
  | rounds + 1 => do
    match ← Dialogue.exec body with
    | some (.breakLoop _) => return none
    | some (.returnValue line value) => return some (.returnValue line value)
    | _ =>
      if (← Dialogue.eval condition).isTruthy then doWhileRounds body condition rounds
      else return none

/-! ### Classes -/

/-- The class that a declaration inherits from. -/
def superclass? : Option (Name × σ.Mark) → Eval σ (Option (Ref .cls))
  | none => return none
  | some (parent, mark) => do
    match ← Eval.readVariable mark parent.token with
    | .cls ref => return some ref
    | _ => Eval.fault .superclassNotClass parent.token

/-- Do something for a class that may inherit from another: then that other class is `super` in a
scope of its own, which is current meanwhile. In the end the scope around it is current again. -/
def withSuper {α : Type} (parent : Option (Ref .cls)) (x : Eval σ α) : Eval σ α :=
  match parent with
  | none => x
  | some parent => do
    let outer ← Eval.scope
    Eval.setScope (← Eval.alloc (·.enter outer [(Keyword.superWord.text, .cls parent)]))
    let a ← x
    Eval.setScope outer
    return a

/-- A method as it is declared in a class. -/
def Closure.ofMethod (scope : σ.Scope) (method : Function σ.Mark) : Closure σ :=
  ⟨method, scope, method.name.text = initializerName⟩

/-- Make a class whose methods see the current scope. -/
def makeClass (name : Name) (parent : Option (Ref .cls)) (methods : List (Function σ.Mark)) :
    Eval σ Value := do
  let scope ← Eval.scope
  let closures := methods.map fun m => (m.name.text, Closure.ofMethod scope m)
  let ancestors := (parent.map (← Eval.store).line).getD []
  Eval.alloc (·.newClass ⟨name.text, ancestors, .ofList closures⟩)

/-- Declare a class. Its name is there before its methods are, and is given the class last. -/
def declareClass (name : Name) (superclass : Option (Name × σ.Mark))
    (methods : List (Function σ.Mark)) : Eval σ Unit := do
  let parent ← superclass? superclass
  let slot ← Eval.announce name.text
  let cls ← withSuper parent (makeClass name parent methods)
  Eval.put slot cls

/-- Declare a function, which can see itself. -/
def declareFunction (decl : Function σ.Mark) : Eval σ Unit := do
  let slot ← Eval.announce decl.name.text
  let scope ← Eval.scope
  Eval.put slot (← Eval.alloc (·.newFunction ⟨decl, scope, false⟩))

/-- Declare a variable with a value. -/
def declareVariable (name : Name) (value : Value) : Eval σ Unit := do
  Eval.put (← Eval.announce name.text) value

/-! ### Expressions and statements -/

/-- Write an entry into a map that is being built. -/
def writeEntry (brace : Token) (written : Entries) (key value : Value) : Eval σ Entries := do
  Eval.checkKey key brace
  Eval.expect (written.write key value)

/-- Print a value on a line. -/
def printValue (depth : Nat) (value : Value) : Eval σ Unit := do
  Eval.write (← Eval.text depth 0 value) "\n"

/-- Open a scope in the current one. -/
def openBlock : Eval σ σ.Scope := do
  let outer ← Eval.scope
  Eval.alloc (·.enter outer [])

/-- Evaluate an expression, which may be missing. -/
def evalOption : Option (Expr σ.Mark) → Dialogue σ Value
  | none => return .nil
  | some e => Dialogue.eval e

/-- Evaluate an expression. -/
def Expr.body (depth : Nat) : Expr σ.Mark → Dialogue σ Value
  | .constant value => return value.value
  | .group inner => Dialogue.eval inner
  | .unary op line operand => do perform (op.apply line (← Dialogue.eval operand))
  | .binary left op line right => do
    let left ← Dialogue.eval left
    let right ← Dialogue.eval right
    perform (op.apply depth line left right)
  | .logical left op _ right => do
    let left ← Dialogue.eval left
    if op.decides left then return left else Dialogue.eval right
  | .var name mark => perform (Eval.readVariable mark name.token)
  | .assign name value mark => do
    let value ← Dialogue.eval value
    perform (Eval.assign mark name value)
    return value
  | .call callee arguments line => do
    let callee ← Dialogue.eval callee
    let arguments ← arguments.mapM Dialogue.eval
    Dialogue.call callee arguments (.ofSymbol .rightParen line)
  | .list elements _ => do
    let elements ← elements.mapM Dialogue.eval
    perform (Eval.alloc (·.newList elements.toArray))
  | .map entries line => do
    let brace := Token.ofSymbol .leftBrace line
    let entries ← entries.foldlM (fun (written : Entries) (key, value) => do
      let key ← Dialogue.eval key
      let value ← Dialogue.eval value
      perform (writeEntry brace written key value)) .empty
    perform (Eval.alloc (·.newMap entries))
  | .index container position line => do
    let container ← Dialogue.eval container
    let position ← Dialogue.eval position
    perform (Eval.element depth container position (.ofSymbol .leftBracket line))
  | .setIndex container position value line => do
    let container ← Dialogue.eval container
    let position ← Dialogue.eval position
    let value ← Dialogue.eval value
    perform (Eval.setElement container position value (.ofSymbol .leftBracket line))
    return value
  | .get object name => do
    match ← Dialogue.eval object with
    | .object ref => perform (Eval.property ref name)
    | _ => perform (Eval.fault .propertyOfNonObject name.token)
  | .set object name value => do
    match ← Dialogue.eval object with
    | .object ref =>
      let value ← Dialogue.eval value
      perform (Eval.modifyStore (·.setField ref name.text value))
      return value
    | _ => perform (Eval.fault .fieldOfNonObject name.token)
  | .thisRef line mark => perform (Eval.readVariable mark (.ofKeyword .thisWord line))
  | .superRef _ method mark => perform (Eval.superMethod mark method)

/-- Execute statements until one leaves with a jump. -/
def Stmt.untilJump : List (Stmt σ.Mark) → Dialogue σ (Option Jump)
  | [] => return none
  | s :: ss => do
    match ← Dialogue.exec s with
    | some jump => return some jump
    | none => Stmt.untilJump ss

/-- Execute a statement. -/
def Stmt.body (rounds depth : Nat) : Stmt σ.Mark → Dialogue σ (Option Jump)
  | .expression value => do
    let _ ← Dialogue.eval value
    return none
  | .print value => do
    let value ← Dialogue.eval value
    perform (printValue depth value)
    return none
  | .var name initializer => do
    let value ← evalOption initializer
    perform (declareVariable name value)
    return none
  | .block body => do
    let inner ← perform openBlock
    Dialogue.block inner body
  | .branch condition yes no => do
    if (← Dialogue.eval condition).isTruthy then Dialogue.exec yes
    else
      match no with
      | none => return none
      | some no => Dialogue.exec no
  | .whileLoop condition body => whileRounds condition body rounds
  | .doWhile body condition => doWhileRounds body condition rounds
  | .breakLoop line => return some (.breakLoop line)
  | .continueLoop line => return some (.continueLoop line)
  | .returnValue line value => return some (.returnValue line (← evalOption value))
  | .function decl => do
    perform (declareFunction decl)
    return none
  | .classDecl name superclass methods => do
    perform (declareClass name superclass methods)
    return none
  | .marker line m => do
    perform (Eval.trace ["no-op statement", m.keyword.text, "line", toString line])
    return none

/-! ### Tasks -/

namespace Task

/-- What a task does. -/
def body (rounds depth : Nat) : (t : Task σ) → Dialogue σ t.Answer
  | eval e => e.body depth
  | call callee arguments paren => callBody callee arguments paren
  | invoke callee arguments _ => invokeBody depth callee arguments
  | block _ body => Stmt.untilJump body
  | exec s => s.body rounds depth

/-- The machine on which a task is carried out: a block has a scope of its own. -/
def enter (t : Task σ) (m : Machine σ) : Machine σ :=
  match t with
  | block inner _ => { m with scope := inner }
  | _ => m

/-- The machine that a task leaves: after a block the former scope is current again, whatever has
happened. -/
def leave (t : Task σ) (outer : σ.Scope) (m : Machine σ) : Machine σ :=
  match t with
  | block .. => { m with scope := outer }
  | _ => m

/-- Why a task halts: a fault without a place is blamed on the call. -/
def blame (t : Task σ) (halt : Halt) : Halt :=
  match t with
  | invoke _ _ paren => Eval.blame paren halt
  | _ => halt

/-- Carry out a task. -/
def run (rounds : Nat) : (depth : Nat) → (t : Task σ) → Eval σ t.Answer
  | 0, _ => throw .exhausted
  | depth + 1, t => fun m =>
    let outer := m.scope
    match (t.body rounds depth).run (run rounds depth) (t.enter m) with
    | .ok a m => .ok a (t.leave outer m)
    | .error halt m => .error (t.blame halt) (t.leave outer m)

end Task

/-! ### Programs -/

/-- The fault of a jump that leaves the program. -/
def Jump.escaped (jump : Jump) : Fault :=
  match jump with
  | .returnValue .. => ⟨.returnAtTopLevel, some jump.token⟩
  | _ => ⟨.outsideLoop jump.keyword, some jump.token⟩

/-- Execute a statement of a program. An expression by itself has a value. -/
def Stmt.topBody (s : Stmt σ.Mark) : Dialogue σ Value := do
  match s with
  | .expression value => Dialogue.eval value
  | s =>
    match ← Dialogue.exec s with
    | none => return .nil
    | some jump => perform (Eval.halt (.fault jump.escaped))

/-- What a program does. Its value is that of its last statement, if that is an expression. -/
def Program.body (program : Program σ.Mark) : Dialogue σ Value :=
  program.foldlM (fun _ s => s.topBody) .nil

/-- Run a program. -/
def Program.run (rounds depth : Nat) (program : Program σ.Mark) : Eval σ Value :=
  (Program.body program).run (Task.run rounds depth)

end LoxLang
