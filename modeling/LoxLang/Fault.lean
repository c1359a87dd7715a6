import LoxLang.Value.Basic

/-!
# Faults

What goes wrong while a program runs: a cause, and the token it is blamed on. A native function
does not know the place it is called from; the call fills it in.

A run can also end for reasons that are no fault of the program (`Halt`): it runs into a limit, or
something that the evaluation takes for granted is not so (`Defect`).
-/

namespace LoxLang

/-- Causes of a fault. -/
inductive Cause where
  | undefinedVariable (name : String)
  | undefinedProperty (name : String)
  /-- The map has no such key; the key is given by its text. -/
  | undefinedKey (text : String)
  | propertyOfNonObject
  | fieldOfNonObject
  | operandNotNumber
  | operandsNotNumbers
  | operandsNotAddable
  | notCallable
  | wrongArity (expected got : Nat)
  | notKey
  | positionNotWhole
  | positionOutOfRange
  | notSubscriptable
  | superclassNotClass
  | returnAtTopLevel
  /-- A jump has no loop around it. -/
  | outsideLoop (jump : Keyword)
  /-- The first argument has to be a list. -/
  | notList (native : Native)
  /-- The first argument has to be a map. -/
  | notMap (native : Native)
  | noLength
  | popFromEmpty
deriving DecidableEq, Repr

/-- The wording of a cause. -/
def Cause.message : Cause → String
  | undefinedVariable name => "Undefined variable '" ++ name ++ "'."
  | undefinedProperty name => "Undefined property '" ++ name ++ "'."
  | undefinedKey text => "Undefined key '" ++ text ++ "'."
  | propertyOfNonObject => "Only instances have properties."
  | fieldOfNonObject => "Only instances have fields."
  | operandNotNumber => "Operand must be a number."
  | operandsNotNumbers => "Operands must be numbers."
  | operandsNotAddable => "Operands must be two numbers or two strings."
  | notCallable => "Can only call functions and classes."
  | wrongArity expected got =>
    "Expected " ++ toString expected ++ " arguments but got " ++ toString got ++ "."
  | notKey => "Map keys must be nil, booleans, numbers, strings, or objects."
  | positionNotWhole => "List index must be an integer."
  | positionOutOfRange => "List index out of range."
  | notSubscriptable => "Only lists and maps can be subscripted."
  | superclassNotClass => "Superclass must be a class."
  | returnAtTopLevel => "Can't return from top-level code."
  | outsideLoop jump => "Can't use '" ++ jump.text ++ "' outside of a loop."
  | notList native => native.name ++ "() expects a list as its first argument."
  | notMap native => native.name ++ "() expects a map as its first argument."
  | noLength => "len() expects a list, map or string."
  | popFromEmpty => "Can't pop from an empty list."

/-- A message with the line it is about on a line of its own. -/
def located (message : String) : Option Int → String
  | none => message
  | some line => message ++ "\n[line " ++ toString line ++ "]"

/-- Something that went wrong while a program ran. -/
structure Fault where
  cause : Cause
  place : Option Token
deriving DecidableEq, Repr

/-- A fault as it is shown. -/
def Fault.text (f : Fault) : String := located f.cause.message (f.place.map Token.line)

/-- Things that an evaluation takes for granted, when they are not so. -/
inductive Defect where
  /-- A chain of frames is not that long. -/
  | noFrame
  /-- A frame does not have the name. -/
  | noName
  /-- A use of `super` is not bound to anything. -/
  | noBinding
  /-- What is inherited from is not a class. -/
  | notClass
  /-- A list has no such position. -/
  | noElement
  /-- A map has no such key. -/
  | noEntry
  /-- A list or a map is no key. -/
  | notKey
  /-- What is called cannot be called. -/
  | notCallable
  /-- A native function is called with too few or too many arguments. -/
  | wrongArity
  /-- A number is divided by zero. -/
  | zeroDivisor
  /-- There is no remainder of the dividend, or by the divisor. -/
  | noRemainder
  /-- A number has no integer part. -/
  | notFinite
deriving DecidableEq, Repr

/-- Why an evaluation ends without a result. -/
inductive Halt where
  | fault (f : Fault)
  | defect (d : Defect)
  /-- The stack is used up. -/
  | exhausted
  /-- A loop has had all its rounds. -/
  | unfinished
deriving DecidableEq, Repr

end LoxLang
