import LoxLang.Token.Lexer
import LoxLang.Tree.Reading.Expr

/-!
# Reading programs

A program is a sequence of declarations and statements. Each of them, in a block too, is read by
itself: if reading gets stuck, it is dropped and reading resumes at the next boundary.
`Source.ofText` goes from program text to the tree with all diagnostics.
-/

namespace LoxLang

namespace Stmt

open Reading

variable (endLine : Int)

/-- Read names with commas between them up to the closing parenthesis, the first at the given
position. -/
def readParamsFrom (position : Nat) (ts : List Token) : Reading ts.length (List Name) :=
  ((expectName endLine "parameter name" ts).andThen fun name rest _ =>
    match rest with
    | t :: after =>
      if t.word = .symbol .comma then
        ((readParamsFrom (position + 1) after).map (name :: ·)).after
      else
        (expect endLine (.symbol .rightParen) "')' after parameters" (t :: after)).map
          fun _ => [name]
    | [] => fail endLine [] (.expected "')' after parameters")).reporting
      (if maxArguments ≤ position then [complaint endLine ts (.tooMany "parameters")] else [])
termination_by ts.length
decreasing_by all_goals grind

/-- Read parameters up to the closing parenthesis. -/
def readParams (ts : List Token) : Reading ts.length (List Name) :=
  match ts with
  | [] => readParamsFrom endLine 0 []
  | t :: rest =>
    if t.word = .symbol .rightParen then single [] rest
    else readParamsFrom endLine 0 (t :: rest)

/-- Read the semicolon that closes a statement. -/
def readEnd (what : String) (stmt : Stmt Unit) (ts : List Token) : Reading ts.length (Stmt Unit) :=
  (expect endLine (.symbol .semicolon) ("';' after " ++ what) ts).map fun _ => stmt

/-- Read an expression and the semicolon after it. -/
def readOperand (what : String) (make : Expr Unit → Stmt Unit) (ts : List Token) :
    Reading ts.length (Stmt Unit) :=
  (Expr.read endLine ts).andThen fun value rest _ => readEnd endLine what (make value) rest

/-- Read a condition in parentheses. -/
def readCondition (keyword : Keyword) (what : String) (ts : List Token) :
    Reading ts.length (Expr Unit) :=
  (expect endLine (.symbol .leftParen) ("'(' after '" ++ keyword.text ++ "'") ts).andThen
    fun _ rest _ =>
      (Expr.read endLine rest).andThen fun condition rest _ =>
        (expect endLine (.symbol .rightParen) ("')' after " ++ what) rest).map fun _ => condition

/-- Read a variable declaration after its keyword. -/
def readVar (ts : List Token) : Reading ts.length (Stmt Unit) :=
  (expectName endLine "variable name" ts).andThen fun name rest _ =>
    match rest with
    | [] => readEnd endLine "variable declaration" (.var name none) []
    | t :: after =>
      if t.word = .symbol .equal then
        (readOperand endLine "variable declaration" (fun value => .var name (some value))
          after).after
      else readEnd endLine "variable declaration" (.var name none) (t :: after)

/-- Read a return statement after its keyword. -/
def readReturn (line : Int) (ts : List Token) : Reading ts.length (Stmt Unit) :=
  match ts with
  | [] => readOperand endLine "return value" (fun value => .returnValue line (some value)) []
  | t :: rest =>
    if t.word = .symbol .semicolon then
      single (.returnValue line none) rest
    else
      readOperand endLine "return value" (fun value => .returnValue line (some value)) (t :: rest)

/-- What is missing after a marker that is not closed. -/
def markerEnd (keyword : Keyword) : String := "'" ++ keyword.text ++ "' statement"

/-- Read a `set` marker after its keyword. -/
def readSet (line : Int) (ts : List Token) : Reading ts.length (Stmt Unit) :=
  (expectName endLine "variable name after 'set'" ts).andThen fun name rest _ =>
    (expect endLine (.symbol .equal) "'=' after variable name" rest).andThen fun _ rest _ =>
      readOperand endLine (markerEnd .setWord) (fun value => .marker line (.set name value)) rest

/-- Read the properties that follow the name of a `build` marker, its arguments and its end. -/
def readBuildTail (line : Int) (root : Name) (path : List Name) (ts : List Token) :
    Reading ts.length (Stmt Unit) :=
  match ts with
  | [] => readEnd endLine (markerEnd .buildWord) (.marker line (.build root () path [])) []
  | t :: rest =>
    if t.word = .symbol .dot then
      ((expectName endLine "property name after '.'" rest).andThen fun name rest _ =>
        readBuildTail line root (path ++ [name]) rest).after
    else if t.word = .symbol .leftParen then
      ((Expr.readItems endLine .buildArguments rest).andThen fun (arguments, _) rest _ =>
        readEnd endLine (markerEnd .buildWord) (.marker line (.build root () path arguments))
          rest).after
    else
      readEnd endLine (markerEnd .buildWord) (.marker line (.build root () path [])) (t :: rest)
termination_by ts.length
decreasing_by all_goals grind

/-- Read a `build` marker after its keyword. -/
def readBuild (line : Int) (ts : List Token) : Reading ts.length (Stmt Unit) :=
  (expectName endLine "name after 'build'" ts).andThen fun root rest _ =>
    readBuildTail endLine line root [] rest

mutual

/-- Read a statement. -/
def read (ts : List Token) : Reading ts.length (Stmt Unit) :=
  match ts with
  | [] => readOperand endLine "expression" .expression []
  | t :: rest =>
    match t.word with
    | .keyword .printWord => (readOperand endLine "value" .print rest).after
    | .keyword .ifWord => (readBranch rest).after
    | .keyword .whileWord => (readWhile rest).after
    | .keyword .doWord => (readDoWhile rest).after
    | .keyword .breakWord => (readEnd endLine "'break'" (.breakLoop t.line) rest).after
    | .keyword .continueWord => (readEnd endLine "'continue'" (.continueLoop t.line) rest).after
    | .keyword .returnWord => (readReturn endLine t.line rest).after
    | .keyword .setWord => (readSet endLine t.line rest).after
    | .keyword .buildWord => (readBuild endLine t.line rest).after
    | .keyword .walkWord =>
      (readOperand endLine (markerEnd .walkWord) (fun e => .marker t.line (.walk e)) rest).after
    | .keyword .checkWord =>
      (readOperand endLine (markerEnd .checkWord) (fun e => .marker t.line (.check e)) rest).after
    | .keyword .thruWord =>
      (readOperand endLine (markerEnd .thruWord) (fun e => .marker t.line (.thru e)) rest).after
    | .keyword .otherwiseWord =>
      (readEnd endLine (markerEnd .otherwiseWord) (.marker t.line .otherwise) rest).after
    | .symbol .leftBrace => ((readBlock rest).map .block).after
    | _ => readOperand endLine "expression" .expression (t :: rest)
termination_by ts.length * 8 + 1
decreasing_by all_goals grind

/-- Read a conditional statement after its keyword. -/
def readBranch (ts : List Token) : Reading ts.length (Stmt Unit) :=
  (readCondition endLine .ifWord "if condition" ts).andThen fun condition rest _ =>
    (read rest).andTail fun yes rest _ =>
      match rest with
      | [] => pure (.branch condition yes none) []
      | t :: after =>
        if t.word = .keyword .elseWord then
          ((read after).map fun no => .branch condition yes (some no)).afterTail
        else pure (.branch condition yes none) (t :: after)
termination_by ts.length * 8
decreasing_by all_goals grind

/-- Read a loop that tests first, after its keyword. -/
def readWhile (ts : List Token) : Reading ts.length (Stmt Unit) :=
  (readCondition endLine .whileWord "condition" ts).andThen fun condition rest _ =>
    (read rest).map (.whileLoop condition)
termination_by ts.length * 8
decreasing_by all_goals grind

/-- Read a loop that tests last, after its keyword. -/
def readDoWhile (ts : List Token) : Reading ts.length (Stmt Unit) :=
  (read ts).andThen fun body rest _ =>
    (expect endLine (.keyword .whileWord) "'while' after 'do' body" rest).andThen fun _ rest _ =>
      (readCondition endLine .whileWord "condition" rest).andThen fun condition rest _ =>
        readEnd endLine "do-while" (.doWhile body condition) rest
termination_by ts.length * 8 + 2
decreasing_by all_goals grind

/-- Read a declaration or a statement. -/
def readDeclaration (ts : List Token) : Reading ts.length (Stmt Unit) :=
  match ts with
  | [] => read []
  | t :: rest =>
    match t.word with
    | .keyword .classWord => (readClass rest).after
    | .keyword .funWord => ((readFunction "function" rest).map .function).after
    | .keyword .varWord => (readVar endLine rest).after
    | _ => read (t :: rest)
termination_by ts.length * 8 + 2
decreasing_by all_goals grind

/-- Read the statements of a block up to its closing brace. -/
def readBlock (ts : List Token) : Reading ts.length (List (Stmt Unit)) :=
  match ts with
  | [] => fail endLine [] (.expected "'\x7d' after block")
  | t :: rest =>
    if t.word = .symbol .rightBrace then single [] rest
    else
      let first := (readDeclaration (t :: rest)).recover (Nat.succ_pos _)
      have := first.shorter
      (((readBlock first.rest).weaken (Nat.le_of_lt first.shorter)).map
        (first.result.toList ++ ·)).reporting first.reports
termination_by ts.length * 8 + 3
decreasing_by all_goals grind

/-- Read a function or a method from its name on. -/
def readFunction (what : String) (ts : List Token) : Reading ts.length (Function Unit) :=
  (expectName endLine (what ++ " name") ts).andThen fun name rest _ =>
    (expect endLine (.symbol .leftParen) ("'(' after " ++ what ++ " name") rest).andThen
      fun _ rest _ =>
        (readParams endLine rest).andThen fun params rest _ =>
          (expect endLine (.symbol .leftBrace) ("'\x7b' before " ++ what ++ " body") rest).andThen
            fun _ rest _ => (readBlock rest).map fun body => ⟨name, params, body⟩
termination_by ts.length * 8
decreasing_by all_goals grind

/-- Read the methods of a class up to its closing brace. -/
def readMethods (ts : List Token) : Reading ts.length (List (Function Unit)) :=
  match ts with
  | [] => fail endLine [] (.expected "'\x7d' after class body")
  | t :: rest =>
    if t.word = .symbol .rightBrace then single [] rest
    else
      (readFunction "method" (t :: rest)).andThen fun method rest _ =>
        (readMethods rest).map (method :: ·)
termination_by ts.length * 8 + 1
decreasing_by all_goals grind

/-- Read a class from its name on. -/
def readClass (ts : List Token) : Reading ts.length (Stmt Unit) :=
  (expectName endLine "class name" ts).andThen fun name rest _ =>
    match rest with
    | [] => readClassBody name none []
    | t :: after =>
      if t.word = .symbol .less then
        ((expectName endLine "superclass name" after).andThen fun parent rest _ =>
          readClassBody name (some (parent, ())) rest).after
      else readClassBody name none (t :: after)
termination_by ts.length * 8
decreasing_by all_goals grind

/-- Read a class from its opening brace on. -/
def readClassBody (name : Name) (superclass : Option (Name × Unit)) (ts : List Token) :
    Reading ts.length (Stmt Unit) :=
  (expect endLine (.symbol .leftBrace) "'\x7b' before class body" ts).andThen fun _ rest _ =>
    (readMethods rest).map (.classDecl name superclass)
termination_by ts.length * 8
decreasing_by all_goals grind

end

end Stmt

/-- A program that has been read, and what is wrong with its text. -/
structure Source where
  program : Program Unit
  diagnostics : List Diagnostic

namespace Source

/-- The program that tokens make up. -/
def ofTokens (endLine : Int) (ts : List Token) : Source :=
  match ts with
  | [] => ⟨[], []⟩
  | t :: rest =>
    let first := (Stmt.readDeclaration endLine (t :: rest)).recover (Nat.succ_pos _)
    have := first.shorter
    let later := ofTokens endLine first.rest
    ⟨first.result.toList ++ later.program, first.reports ++ later.diagnostics⟩
termination_by ts.length
decreasing_by assumption

/-- The program of a scanned text. -/
def ofScan (s : Scan) : Source :=
  let source := ofTokens s.endLine s.tokens
  { source with diagnostics := s.diagnostics ++ source.diagnostics }

/-- The program of a text. -/
def ofText (text : String) : Source := ofScan (Scan.ofText text)

end Source

end LoxLang
