import LoxLang.Session
import LoxLang.Text.Digit

/-!
# The command line

The program takes the path of a script, or else asks for lines at a prompt and runs each of them in
one session. Both are functions on a machine whose streams are those of the program, so that all of
it but the reading of arguments, files and streams is here.
-/

namespace LoxLang

namespace CommandLine

/-- What the arguments ask for. -/
inductive Request where
  | script (path : String)
  | prompt
  | usage
deriving DecidableEq, Repr

/-- What the arguments ask for. -/
def Request.ofArguments : List String → Request
  | [] => prompt
  | [path] => script path
  | _ => usage

/-- Why the program ends without an exit code. -/
inductive Breakdown where
  /-- The stack is used up where nothing catches it. -/
  | exhausted
  /-- A setting or a path cannot be what it is. -/
  | badValue
  /-- A setting is too large. -/
  | overflow
deriving DecidableEq, Repr

/-- How the program ends. -/
inductive Ending where
  | exit (code : Nat)
  | breakdown (why : Breakdown)
deriving DecidableEq, Repr

/-! ### Settings -/

/-- The smallest stack that can be asked for. -/
def smallestStack : Nat := 6

/-- The largest stack that can be asked for. -/
def largestStack : Nat := 2147483647

/-- The most digits that are read as a setting. -/
def longestSetting : Nat := 4300

/-- The limits for the text of the stack setting. A text that is not all digits is ignored, and one
of too many digits is not read, whatever its value. -/
def limitsOf (setting : String) : Except Breakdown Limits :=
  let cs := setting.toList
  if cs.isEmpty || !cs.all Text.isDigitShape then .ok (.ofStack Limits.defaultStack)
  else if longestSetting < cs.length then .error .badValue
  else
    match Text.decimalNat? cs with
    | none | some 0 => .error .badValue
    | some size =>
      if size < smallestStack then .error .exhausted
      else if largestStack < size then .error .overflow
      else .ok (.ofStack size)

/-! ### Streams -/

/-- Write to standard output. -/
def print (text : String) (m : Machine .bound) : Machine .bound :=
  { m with output := m.output.map (· ++ text) }

/-- Write a line to standard error. -/
def printError (text : String) (m : Machine .bound) : Machine .bound :=
  { m with errors := m.errors ++ (text ++ "\n") }

/-- Tell what is wrong, and the pending calls if tracing. -/
def showError (r : Report) (m : Machine .bound) : Machine .bound :=
  let m := printError r.errorText m
  match r.outcome with
  | .faulted _ calls =>
    if m.tracing && !calls.isEmpty then
      printError ("Lox stacktrace: " ++ " ".intercalate calls) m
    else m
  | _ => m

/-- The message for a run without a report: the stack is used up. -/
def overflowMessage : String := "Fatal: stack overflow."

/-! ### Scripts -/

/-- Run the text of a script. -/
def runScript (limits : Limits) (text : String) (m : Machine .bound) : Ending × Machine .bound :=
  match Session.run limits text m with
  | .ok report m =>
    let m := match report.outcome with
      | .success _ => m
      | _ => showError report m
    (.exit report.exitCode, m)
  | .error _ m => (.exit 70, printError overflowMessage m)

/-- Run the script at a path; `text?` is what the file holds, if it can be read. -/
def script (limits : Limits) (path : String) (text? : Option String) (m : Machine .bound) :
    Ending × Machine .bound :=
  match text? with
  | some text => runScript limits (String.ofList (Text.unifyLineEnds text.toList)) m
  | none => (.exit 66, printError ("Error: could not read file: " ++ path) m)

/-! ### The prompt -/

/-- Show the value of a line unless it is nil. Nothing catches a stack that is used up here. -/
def echo (limits : Limits) (value : Value) (m : Machine .bound) :
    Option Breakdown × Machine .bound :=
  if value = .nil then (none, m)
  else
    match value.text? m.store (limits.depth / Eval.levelsPerStep) 0 with
    | some text => (none, print (text ++ "\n") m)
    | none => (some .exhausted, m)

/-- Run a line that has been typed. -/
def runLine (limits : Limits) (line : String) (m : Machine .bound) :
    Option Breakdown × Machine .bound :=
  match Session.run limits line m with
  | .ok report m =>
    match report.outcome with
    | .success value => echo limits value m
    | _ => (none, showError report m)
  | .error _ m => (none, printError overflowMessage m)

/-- Ask for a line. -/
def ask (m : Machine .bound) : Machine .bound := print "> " m

/-- Greet the user and ask for the first line. -/
def greet (m : Machine .bound) : Machine .bound :=
  ask (print "Lox REPL\nType 'exit' or press Ctrl+D to quit.\n" m)

/-- Answer a line that has been typed, and ask for the next one unless the program ends. -/
def answer (limits : Limits) (line : String) (m : Machine .bound) :
    Option Ending × Machine .bound :=
  let line := Text.strip line
  if line.isEmpty then (none, ask m)
  else if line = "exit" then (some (.exit 0), print "Exiting.\n" m)
  else
    match runLine limits line m with
    | (none, m) => (none, ask m)
    | (some why, m) => (some (.breakdown why), m)

/-- Answer the lines of standard input, at most `count` of them, until the program ends or there
are no more. A line may itself read some of those that follow. -/
def answerLines (limits : Limits) :
    (count : Nat) → Machine .bound → Option Ending × Machine .bound
  | 0, m => (none, m)
  | count + 1, m =>
    match m.input with
    | [] => (none, m)
    | line :: lines =>
      match answer limits line { m with input := lines } with
      | (none, m) => answerLines limits count m
      | (some ending, m) => (some ending, m)

/-- Answer all lines of standard input that have not been read. -/
def answerInput (limits : Limits) (m : Machine .bound) : Option Ending × Machine .bound :=
  answerLines limits m.input.length m

/-- The end of standard input ends the program. -/
def endOfInput (m : Machine .bound) : Ending × Machine .bound := (.exit 0, print "\nExiting.\n" m)

/-- Run lines from standard input at a prompt. -/
def prompt (limits : Limits) (m : Machine .bound) : Ending × Machine .bound :=
  match answerInput limits (greet m) with
  | (some ending, m) => (ending, m)
  | (none, m) => endOfInput m

/-! ### The whole program -/

/-- The lines of standard input. -/
def inputLines (input : String) : List String :=
  Text.lines (String.ofList (Text.unifyLineEnds input.toList))

/-- The machine of the program, with the text of standard input. -/
def machine (input : String) (tracing : Bool) (clock : Clock) : Machine .bound :=
  .start Native.all (inputLines input) (some "") tracing clock

/-- The text has the name of the native function that reads standard input. A program in which no
text has it does not read anything. -/
def namesInput (text : String) : Bool :=
  (Scan.ofText text).tokens.any fun t => t.word = .identifier Native.input.name

/-- Do what the arguments ask for. `setting` is the text of the stack setting, and `read` gives what
the file at a path holds. -/
def run (arguments : List String) (setting : String) (read : String → Option String)
    (m : Machine .bound) : Ending × Machine .bound :=
  match Request.ofArguments arguments with
  | .usage => (.exit 64, printError "Usage: lox [script]" m)
  | request =>
    match limitsOf setting with
    | .error why => (.breakdown why, m)
    | .ok limits =>
      match request with
      | .script path =>
        if path.contains (Char.ofNat 0) then (.breakdown .badValue, m)
        else script limits path (read path) m
      | _ => prompt limits m

end CommandLine

end LoxLang
