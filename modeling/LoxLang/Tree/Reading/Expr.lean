import LoxLang.Tree.Reading.Basic

/-!
# Reading expressions

Operators between operands stand in tiers of rising strength (`ladder`); the operators of a tier
take their operands from the next tier and group to the left. Stronger than all of them are the
operators before an operand, then what follows an operand (arguments, a property, an index). An
assignment is weaker than all of them and groups to the right: what stands before its equals sign
is read as an expression, and turned into a target afterwards.
-/

namespace LoxLang

/-- Operators between two operands. -/
inductive Operator where
  | binary (op : BinaryOp)
  | logical (op : LogicalOp)
deriving DecidableEq, Repr

namespace Operator

/-- The word that an operator is written with. -/
def word : Operator → Word
  | binary op => .symbol op.symbol
  | logical op => .keyword op.keyword

/-- An operator with its operands. -/
def apply (left : Expr Unit) (line : Int) (right : Expr Unit) : Operator → Expr Unit
  | binary op => .binary left op line right
  | logical op => .logical left op line right

end Operator

/-- Operators of the same strength. -/
abbrev Tier := List Operator

/-- The operator of a tier that a token stands for. -/
def Tier.operator? (tier : Tier) (t : Token) : Option Operator := tier.find? (·.word = t.word)

/-- The tiers, weakest first. -/
def ladder : List Tier := [
  [.logical .or],
  [.logical .and],
  [.binary .notEqual, .binary .equal],
  [.binary .greater, .binary .greaterEqual, .binary .less, .binary .lessEqual],
  [.binary .subtract, .binary .add],
  [.binary .divide, .binary .multiply, .binary .remainder]]

theorem length_ladder : ladder.length = 6 := rfl

/-- The operator before an operand that a token stands for. -/
def UnaryOp.ofToken? (t : Token) : Option UnaryOp :=
  if t.word = .symbol .bang then some .complement
  else if t.word = .symbol .minus then some .negate
  else none

/-- An assignment to what has been read as an expression, if it can be assigned to. -/
def Expr.assignment? (target value : Expr Unit) : Option (Expr Unit) :=
  match target with
  | .var name mark => some (.assign name value mark)
  | .get object name => some (.set object name value)
  | .index container position line => some (.setIndex container position value line)
  | _ => none

/-- Turn what has been read into an assignment. If it cannot be assigned to, it stays and the
value is dropped. -/
def Reading.assigning {limit : Nat} (target : Expr Unit) (equals : Token) :
    Reading limit (Expr Unit) → Reading limit (Expr Unit)
  | .done value rest shorter reports =>
    match target.assignment? value with
    | some assigned => .done assigned rest shorter reports
    | none =>
      .done target rest shorter (reports ++ [.atToken equals .invalidAssignmentTarget])
  | .stuck rest notLonger reports => .stuck rest notLonger reports

/-- How a list of expressions is closed. -/
structure Closing where
  symbol : Symbol
  /-- What is missing if the list is not closed. -/
  what : String
  /-- Whether the list has a largest length. -/
  limited : Bool

namespace Closing

/-- Arguments of a call. -/
def arguments : Closing := ⟨.rightParen, "')' after arguments", true⟩

/-- Arguments of a `build` marker. -/
def buildArguments : Closing := ⟨.rightParen, "')' after arguments", false⟩

/-- Elements of a list. -/
def elements : Closing := ⟨.rightBracket, "']' after list elements", false⟩

end Closing

namespace Expr

open Reading

variable (endLine : Int)

/-- What is reported before the item with the given position is read. -/
def countReports (closing : Closing) (position : Nat) (ts : List Token) : List Diagnostic :=
  if closing.limited && maxArguments ≤ position then
    [complaint endLine ts (.tooMany "arguments")]
  else []

mutual

/-- Read an expression. -/
def read (ts : List Token) : Reading ts.length (Expr Unit) :=
  (readTiers ladder ts).andTail fun target rest _ =>
    match rest with
    | [] => pure target []
    | t :: after =>
      if t.word = .symbol .equal then ((read after).assigning target t).afterTail
      else pure target (t :: after)
termination_by ts.length * 16 + 10
decreasing_by all_goals grind [length_ladder]

/-- Read operands with operators of the given tiers between them. -/
def readTiers (tiers : List Tier) (ts : List Token) : Reading ts.length (Expr Unit) :=
  match tiers with
  | [] => readUnary ts
  | tier :: stronger =>
    (readTiers stronger ts).andTail fun left rest _ => readTierTail tier stronger left rest
termination_by ts.length * 16 + 3 + tiers.length
decreasing_by all_goals grind

/-- Read what follows the operand `left` of a tier. -/
def readTierTail (tier : Tier) (stronger : List Tier) (left : Expr Unit) (ts : List Token) :
    Reading (ts.length + 1) (Expr Unit) :=
  match ts with
  | [] => pure left []
  | t :: rest =>
    match tier.operator? t with
    | none => pure left (t :: rest)
    | some op =>
      ((readTiers stronger rest).andTail fun right rest _ =>
        readTierTail tier stronger (op.apply left t.line right) rest).afterTail
termination_by ts.length * 16 + 3 + stronger.length
decreasing_by all_goals grind

/-- Read an operand with the operators before it. -/
def readUnary (ts : List Token) : Reading ts.length (Expr Unit) :=
  match ts with
  | [] => readPostfix []
  | t :: rest =>
    match UnaryOp.ofToken? t with
    | some op => ((readUnary rest).map (.unary op t.line)).after
    | none => readPostfix (t :: rest)
termination_by ts.length * 16 + 2
decreasing_by all_goals grind

/-- Read an operand with what follows it. -/
def readPostfix (ts : List Token) : Reading ts.length (Expr Unit) :=
  (readPrimary ts).andTail fun operand rest _ => readPostfixTail operand rest
termination_by ts.length * 16 + 1
decreasing_by all_goals grind

/-- Read arguments, properties and indices after an operand. -/
def readPostfixTail (operand : Expr Unit) (ts : List Token) : Reading (ts.length + 1) (Expr Unit) :=
  match ts with
  | [] => pure operand []
  | t :: rest =>
    if t.word = .symbol .leftParen then
      ((readItems .arguments rest).andTail fun (arguments, line) rest _ =>
        readPostfixTail (.call operand arguments line) rest).afterTail
    else if t.word = .symbol .dot then
      ((expectName endLine "property name after '.'" rest).andTail fun name rest _ =>
        readPostfixTail (.get operand name) rest).afterTail
    else if t.word = .symbol .leftBracket then
      ((read rest).andThen fun position rest _ =>
        (expect endLine (.symbol .rightBracket) "']' after index" rest).andTail fun _ rest _ =>
          readPostfixTail (.index operand position t.line) rest).afterTail
    else pure operand (t :: rest)
termination_by ts.length * 16
decreasing_by all_goals grind

/-- Read expressions with commas between them up to the closing symbol, whose line is part of the
result. -/
def readItems (closing : Closing) (ts : List Token) : Reading ts.length (List (Expr Unit) × Int) :=
  match ts with
  | [] => readItemsFrom closing 0 []
  | t :: rest =>
    if t.word = .symbol closing.symbol then single ([], t.line) rest
    else readItemsFrom closing 0 (t :: rest)
termination_by ts.length * 16 + 12
decreasing_by all_goals grind

/-- Read at least one expression, the first at the given position. -/
def readItemsFrom (closing : Closing) (position : Nat) (ts : List Token) :
    Reading ts.length (List (Expr Unit) × Int) :=
  ((read ts).andThen fun item rest _ =>
    match rest with
    | t :: after =>
      if t.word = .symbol .comma then
        ((readItemsFrom closing (position + 1) after).map fun (items, line) =>
          (item :: items, line)).after
      else
        (expect endLine (.symbol closing.symbol) closing.what (t :: after)).map fun last =>
          ([item], last.line)
    | [] => fail endLine [] (.expected closing.what)).reporting
      (countReports endLine closing position ts)
termination_by ts.length * 16 + 11
decreasing_by all_goals grind

/-- Read the entries of a map up to the closing brace. -/
def readEntries (ts : List Token) : Reading ts.length (List (Expr Unit × Expr Unit)) :=
  (read ts).andThen fun key rest _ =>
    (expect endLine (.symbol .colon) "':' after map key" rest).andThen fun _ rest _ =>
      (read rest).andThen fun value rest _ =>
        match rest with
        | t :: after =>
          if t.word = .symbol .comma then ((readEntries after).map ((key, value) :: ·)).after
          else
            (expect endLine (.symbol .rightBrace) "'\x7d' after map entries" (t :: after)).map
              fun _ => [(key, value)]
        | [] => fail endLine [] (.expected "'\x7d' after map entries")
termination_by ts.length * 16 + 11
decreasing_by all_goals grind

/-- Read an operand. -/
def readPrimary (ts : List Token) : Reading ts.length (Expr Unit) :=
  match ts with
  | [] => fail endLine [] (.expected "expression")
  | t :: rest =>
    match t.word with
    | .keyword .falseWord => single (.constant (.bool false)) rest
    | .keyword .trueWord => single (.constant (.bool true)) rest
    | .keyword .nilWord => single (.constant .nil) rest
    | .number _ value => single (.constant (.number value)) rest
    | .string content => single (.constant (.string content)) rest
    | .keyword .thisWord => single (.thisRef t.line ()) rest
    | .keyword .superWord =>
      ((expect endLine (.symbol .dot) "'.' after 'super'" rest).andThen fun _ rest _ =>
        (expectName endLine "superclass method name" rest).map fun method =>
          .superRef t.line method ()).after
    | .identifier name => single (.var ⟨name, t.line⟩ ()) rest
    | .symbol .leftParen =>
      ((read rest).andThen fun inner rest _ =>
        (expect endLine (.symbol .rightParen) "')' after expression" rest).map fun _ =>
          .group inner).after
    | .symbol .leftBracket =>
      ((readItems .elements rest).map fun (elements, _) => .list elements t.line).after
    | .symbol .leftBrace =>
      match rest with
      | closing :: others =>
        if closing.word = .symbol .rightBrace then .done (.map [] t.line) others
          (by simp only [List.length_cons]; omega) []
        else ((readEntries (closing :: others)).map fun entries => .map entries t.line).after
      | [] => ((readEntries []).map fun entries => .map entries t.line).after
    | _ => fail endLine (t :: rest) (.expected "expression")
termination_by ts.length * 16
decreasing_by all_goals grind

end

end Expr

end LoxLang
