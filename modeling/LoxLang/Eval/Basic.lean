import LoxLang.Fault
import LoxLang.Store.Containers
import LoxLang.Text.Lines
import LoxLang.Value.Display
import LoxLang.Value.Equality

/-!
# Evaluation

`Eval α` is a computation on a `Machine` that ends with a result or halts (`Halt`); the machine
that it leaves is there in both cases. The machine holds the store, the scope that is current, the
calls that are pending, and the streams of the program. All of it is for an arbitrary scoping `σ`.

A program can go on for ever. Two limits see to it that every evaluation ends: one on the levels
of the stack, which nested expressions, statements and calls take up, and one on the rounds of each
loop. Running into them is kept apart from what a program can run into by itself.
-/

namespace LoxLang

/-- A call that has not returned. -/
structure PendingCall where
  name : String
  arguments : List Value
deriving DecidableEq, Repr

/-- A message of a program or about it. -/
inductive Effect where
  | output (message : String)
  | error (message : String)
deriving DecidableEq, Repr

/-- The readings of a clock that are still to come, in seconds. The last of them stays. -/
structure Clock where
  next : Number
  later : List Number

/-- The clock after a reading. -/
def Clock.advance (clock : Clock) : Clock :=
  match clock.later with
  | [] => clock
  | next :: later => ⟨next, later⟩

/-- The state of a running program. -/
structure Machine (σ : Scoping) where
  store : Store σ
  /-- What the current place can see. -/
  scope : σ.Scope
  /-- The pending calls, latest first. -/
  calls : List PendingCall
  /-- The messages of this run, latest first. -/
  effects : List Effect
  /-- The lines of standard input that have not been read. -/
  input : List String
  /-- What has been written to standard output, if it is attached. -/
  output : Option String
  /-- What has been written to standard error. -/
  errors : String
  /-- Whether standard error gets a line for each step of interest. -/
  tracing : Bool
  clock : Clock

/-- Computations on a machine. -/
abbrev Eval (σ : Scoping) := EStateM Halt (Machine σ)

/-- How a statement leaves those around it. -/
inductive Jump where
  | breakLoop (line : Int)
  | continueLoop (line : Int)
  | returnValue (line : Int) (value : Value)
deriving DecidableEq, Repr

namespace Jump

/-- The keyword of a jump. -/
def keyword : Jump → Keyword
  | breakLoop _ => .breakWord
  | continueLoop _ => .continueWord
  | returnValue .. => .returnWord

/-- The token of the keyword of a jump. -/
def token : Jump → Token
  | breakLoop line => .ofKeyword .breakWord line
  | continueLoop line => .ofKeyword .continueWord line
  | returnValue line _ => .ofKeyword .returnWord line

end Jump

namespace Eval

variable {σ : Scoping} {α : Type}

/-- Halt. -/
def halt (why : Halt) : Eval σ α := throw why

/-- Halt with a fault at a token. -/
def fault (cause : Cause) (place : Token) : Eval σ α := halt (.fault ⟨cause, some place⟩)

/-- Halt if something that is taken for granted is not so. -/
def expect : Except Defect α → Eval σ α
  | .ok a => pure a
  | .error d => halt (.defect d)

/-- Halt if the levels of the stack did not suffice. -/
def enough : Option α → Eval σ α
  | some a => pure a
  | none => halt .exhausted

/-- Blame a token for a fault that has no place yet. -/
def blame (place : Token) : Halt → Halt
  | .fault ⟨cause, none⟩ => .fault ⟨cause, some place⟩
  | why => why

/-! ### Streams -/

/-- Write a message, and `ending` after it, to standard output. -/
def write (message ending : String) : Eval σ Unit :=
  modify fun m =>
    { m with
      effects := .output message :: m.effects
      output := m.output.map (· ++ (message ++ ending)) }

/-- Read a line without its end, or nil if there is none. -/
def readLine : Eval σ Value :=
  modifyGet fun m =>
    match m.input with
    | [] => (.nil, m)
    | line :: lines => (.string (Text.dropLineEnd line), { m with input := lines })

/-- Read the clock. -/
def readClock : Eval σ Value :=
  modifyGet fun m => (.number m.clock.next, { m with clock := m.clock.advance })

/-- Write a line to standard error if tracing. -/
def trace (words : List String) : Eval σ Unit :=
  modify fun m =>
    if m.tracing then { m with errors := m.errors ++ ("[DBG] " ++ " ".intercalate words ++ "\n") }
    else m

/-! ### Scopes, the store and calls -/

/-- What the current place can see. -/
def scope : Eval σ σ.Scope := return (← get).scope

/-- Make a scope current. -/
def setScope (scope : σ.Scope) : Eval σ Unit := modify fun m => { m with scope := scope }

/-- Everything that is shared by reference. -/
def store : Eval σ (Store σ) := return (← get).store

/-- Apply a function to the store. -/
def modifyStore (f : Store σ → Store σ) : Eval σ Unit :=
  modify fun m => { m with store := f m.store }

/-- Take something new into the store. -/
def alloc (f : Store σ → α × Store σ) : Eval σ α :=
  modifyGet fun m =>
    let (a, store) := f m.store
    (a, { m with store := store })

/-- Declare a variable that is nil; what can be seen from then on is current. -/
def announce (name : String) : Eval σ σ.Slot := do
  let update ← expect (σ.announce (← scope) name)
  modifyGet fun m =>
    let ((slot, scope), memory) := update m.store.memory
    (slot, { m with store := { m.store with memory := memory }, scope := scope })

/-- Write the value at the place of a variable. -/
def put (slot : σ.Slot) (value : Value) : Eval σ Unit :=
  modifyStore fun s => { s with memory := σ.put s.memory slot value }

/-- Note a call. -/
def pushCall (call : PendingCall) : Eval σ Unit :=
  modify fun m => { m with calls := call :: m.calls }

/-- Strike out the latest call. -/
def popCall : Eval σ Unit := modify fun m => { m with calls := m.calls.tail }

/-! ### Texts and comparisons -/

/-- How many levels of the stack one step into a list or a map takes. -/
def levelsPerStep : Nat := 3

/-- The text of a value. -/
def text (depth : Nat) (level : Int) (v : Value) : Eval σ String := do
  enough (v.text? (← store) (depth / levelsPerStep) level)

/-- Two values are equal. -/
def equal (depth : Nat) (a b : Value) : Eval σ Bool := do
  match a.equal (← store) (depth / levelsPerStep) b with
  | .ok answer => return answer
  | .error why => halt why

end Eval

end LoxLang
