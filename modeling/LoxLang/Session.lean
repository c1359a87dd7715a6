import LoxLang.Eval.Program
import LoxLang.Scoping.Frames
import LoxLang.Tree.Form
import LoxLang.Tree.Reading.Program

/-!
# Sessions

In a session one machine runs program texts one after the other, and what one of them defines is
there for the next. `Session.run` takes a text through all stages and gives a `Report`. A text with
anything wrong in it is not run at all; a fault ends the run and is part of the report.

As far as the stages do not depend on it, they are written for an arbitrary scoping.
-/

namespace LoxLang

/-- How far a program may go. -/
structure Limits where
  /-- Levels of the stack. -/
  depth : Nat
  /-- Rounds of each loop. -/
  rounds : Nat
deriving DecidableEq, Repr

namespace Limits

/-- Levels of the stack that reading a program takes up before it runs. -/
def reserved : Nat := 36

/-- The limits for a stack of the given size. No run gets to the end of the rounds. -/
def ofStack (size : Nat) : Limits := ⟨size - reserved, 1000000000000000000⟩

/-- The size of the stack unless told otherwise. -/
def defaultStack : Nat := 10000

end Limits

/-- What came of running a text. -/
inductive Outcome where
  /-- The value of the last statement. -/
  | success (value : Value)
  /-- What was wrong before the program ran. -/
  | rejected (diagnostics : List Diagnostic)
  /-- What went wrong in the program, and the calls that were pending, earliest first. -/
  | faulted (f : Fault) (calls : List String)
deriving DecidableEq, Repr

/-- What came of running a text, with the messages of the run, earliest first. -/
structure Report where
  outcome : Outcome
  effects : List Effect
deriving DecidableEq, Repr

namespace Report

/-- The messages that the program wrote. -/
def output (r : Report) : List String :=
  r.effects.filterMap fun
    | .output message => some message
    | .error _ => none

/-- The messages about what is wrong. -/
def errors (r : Report) : List String :=
  r.effects.filterMap fun
    | .output _ => none
    | .error message => some message

/-- What is wrong, as it is shown to the user. -/
def errorText (r : Report) : String :=
  match r.outcome with
  | .success _ => ""
  | .rejected diagnostics => "\n".intercalate (diagnostics.map Diagnostic.text)
  | .faulted f _ => f.text

/-- The exit code of a program that ends with this report. -/
def exitCode (r : Report) : Nat :=
  match r.outcome with
  | .success _ => 0
  | .rejected _ => 65
  | .faulted .. => 70

end Report

variable {σ : Scoping}

/-- The global variables of the native functions. -/
def Native.globals (natives : List Native) : Frame :=
  Table.ofList (natives.map fun f => (f.name, .native f))

/-- A machine that has not run anything, with nothing in the store but variables. -/
def Machine.ofMemory (memory : σ.Memory) (input : List String) (output : Option String)
    (tracing : Bool) (clock : Clock) : Machine σ :=
  { store := .ofMemory memory
    scope := σ.top
    calls := []
    effects := []
    input := input
    output := output
    errors := ""
    tracing := tracing
    clock := clock }

/-- A machine that has not run anything. -/
def Machine.start (natives : List Native) (input : List String) (output : Option String)
    (tracing : Bool) (clock : Clock) : Machine .bound :=
  .ofMemory (Frames.ofGlobals (Native.globals natives)) input output tracing clock

namespace Session

/-- Add a message about what is wrong. -/
def noteError (message : String) : Eval σ Unit :=
  modify fun m => { m with effects := .error message :: m.effects }

/-- The report with the messages so far. -/
def report (outcome : Outcome) : Eval σ Report := return ⟨outcome, (← get).effects.reverse⟩

/-- Reject a text. -/
def reject (diagnostics : List Diagnostic) : Eval σ Report := do
  diagnostics.forM (noteError ·.text)
  report (.rejected diagnostics)

/-- A pending call with its arguments. -/
def callText (depth : Nat) (call : PendingCall) : Eval σ String := do
  let arguments ← call.arguments.mapM (Eval.text depth 1)
  return "(" ++ " ".intercalate (call.name :: arguments) ++ ")"

/-- Report a fault. -/
def reportFault (depth : Nat) (f : Fault) : Eval σ Report := do
  noteError f.text
  let calls ← (← get).calls.reverse.mapM (callText depth)
  report (.faulted f calls)

/-- Run a program that has been bound. -/
def runBound (limits : Limits) (program : Program σ.Mark) : Eval σ Report := fun m =>
  match program.run limits.rounds limits.depth m with
  | .ok value m => report (.success value) m
  | .error (.fault f) m => reportFault limits.depth f m
  | .error halt m => .error halt m

/-- Trace a binding. -/
def traceBinding (b : Binding) : Eval σ Unit :=
  Eval.trace ["resolve", b.name, "line", toString b.line, "distance", toString b.hops]

/-- Run a text whose program is made ready by `bind`. -/
def runWith (bind : Program Unit → Bound (Program σ.Mark)) (limits : Limits) (text : String) :
    Eval σ Report := do
  modify fun m => { m with effects := [], calls := [] }
  let source := Source.ofText text
  if source.diagnostics.isEmpty then
    Eval.trace ["ast", Program.form source.program]
    let bound := bind source.program
    bound.bindings.forM traceBinding
    if bound.diagnostics.isEmpty then runBound limits bound.result
    else reject bound.diagnostics
  else reject source.diagnostics

/-- Run a text. -/
def run (limits : Limits) (text : String) : Eval .bound Report :=
  runWith Program.resolve limits text

end Session

end LoxLang
