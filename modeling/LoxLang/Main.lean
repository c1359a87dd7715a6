import LoxLang.CommandLine
import Mathlib

/-!
# The program

Reads arguments, settings, files and standard input for `CommandLine`, and writes what comes of it.
At the prompt each line is answered as it comes in, as long as no line can read others: from the
first line on that names the native function for it, all lines are taken in first. The clock is read
before a script and before each line that is answered.
-/

namespace LoxLang

namespace CommandLine

/-- Write what is waiting in the streams of a machine, and empty them. -/
def flushStreams (m : Machine .bound) : IO (Machine .bound) := do
  let stdout ← IO.getStdout
  stdout.putStr (m.output.getD "")
  stdout.flush
  (← IO.getStderr).putStr m.errors
  return { m with output := some "", errors := "" }

/-- A clock that shows the seconds since the epoch as of now. -/
def currentClock : IO Clock := do
  let now ← Std.Time.Timestamp.now
  return ⟨Number.ofCount now.toNanosecondsSinceUnixEpoch.val.toNat / 1000000000, []⟩

/-- All that is left of standard input. -/
partial def readRest (stdin : IO.FS.Stream) (read : String) : IO String := do
  let line ← stdin.getLine
  if line.isEmpty then return read else readRest stdin (read ++ line)

/-- The text of a file, if it can be read. -/
def readFile? (path : String) : IO (Option String) := do
  try return String.fromUTF8? (← IO.FS.readBinFile path)
  catch _ => return none

/-- Tell how the program ends, and give the exit code. -/
def finish : Ending × Machine .bound → IO UInt32
  | (.exit code, m) => do
    let _ ← flushStreams m
    return code.toUInt32
  | (.breakdown why, m) => do
    let message := match why with
      | .exhausted => "The stack is used up."
      | .badValue => "A setting or a path is not valid."
      | .overflow => "A setting is too large."
    let _ ← flushStreams (printError message m)
    return 1

/-- Answer lines as they come in. -/
partial def converse (limits : Limits) (stdin : IO.FS.Stream) (m : Machine .bound) : IO UInt32 := do
  let m ← flushStreams m
  let line ← stdin.getLine
  if line.isEmpty then finish (endOfInput m)
  else if namesInput line then
    let input := inputLines (← readRest stdin line)
    match answerInput limits { m with input := input, clock := ← currentClock } with
    | (some ending, m) => finish (ending, m)
    | (none, m) => finish (endOfInput m)
  else
    match answerInput limits { m with input := inputLines line, clock := ← currentClock } with
    | (some ending, m) => finish (ending, m)
    | (none, m) => converse limits stdin m

end CommandLine

end LoxLang

open LoxLang CommandLine in
/-- Run a script, or lines at a prompt. -/
def main (arguments : List String) : IO UInt32 := do
  let stdin ← IO.getStdin
  let setting := (← IO.getEnv "LOX_RECURSION_LIMIT").getD ""
  let tracing := ((← IO.getEnv "LOX_DEBUG").getD "") != ""
  let clock ← currentClock
  match Request.ofArguments arguments, limitsOf setting with
  | .prompt, .ok limits => converse limits stdin (greet (machine "" tracing clock))
  | .script path, _ =>
    let text? ← readFile? path
    let input ← if text?.any namesInput then readRest stdin "" else pure ""
    finish (run arguments setting (fun _ => text?) (machine input tracing clock))
  | _, _ => finish (run arguments setting (fun _ => none) (machine "" tracing clock))
