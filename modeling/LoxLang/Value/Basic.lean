import LoxLang.Tree.Basic

/-!
# Values

A value is nil, a truth value, a number, a text, a native function, or a reference to something
that lives in the store and is shared: a list, a map, a function, a class or an object (an instance
of a class). Two references are the same if they refer to the same place.

A map finds its entries by `Key`: the values that can be keys, made alike exactly if they are the
same key. Lists and maps are no keys.
-/

namespace LoxLang

/-- Regions of the store, one for each kind of thing in it. -/
inductive Region where
  | frame
  | list
  | map
  | function
  | cls
  | object
deriving DecidableEq, Repr

/-- A place in a region of the store. -/
structure Ref (region : Region) where
  index : Nat
deriving DecidableEq, Repr, Inhabited

/-- Functions that are part of the language. -/
inductive Native where
  | clock
  | contains
  | input
  | len
  | pop
  | push
  | remove
deriving DecidableEq, Repr

namespace Native

/-- The name of the global variable that holds a native function. -/
def name : Native → String
  | clock => "clock"
  | contains => "contains"
  | input => "input"
  | len => "len"
  | pop => "pop"
  | push => "push"
  | remove => "remove"

/-- How many arguments a native function takes. -/
def arity : Native → Nat
  | clock => 0
  | input | len | pop => 1
  | contains | push | remove => 2

/-- All native functions, by name. -/
def all : List Native := [clock, contains, input, len, pop, push, remove]

end Native

/-- Values of the language. -/
inductive Value where
  | nil
  | bool (b : Bool)
  | number (x : Number)
  | string (s : String)
  | list (ref : Ref .list)
  | map (ref : Ref .map)
  | function (ref : Ref .function)
  | native (f : Native)
  | cls (ref : Ref .cls)
  | object (ref : Ref .object)
deriving DecidableEq, Repr, Inhabited

/-- The value of a constant. -/
def Constant.value : Constant → Value
  | .nil => .nil
  | .bool b => .bool b
  | .number x => .number x
  | .string s => .string s

namespace Value

/-- Only nil and false do not hold. -/
def isTruthy : Value → Bool
  | nil => false
  | bool b => b
  | _ => true

/-- The value is a number. -/
def isNumber : Value → Bool
  | number _ => true
  | _ => false

end Value

/-- What a map finds its entries by. -/
inductive Key where
  | nil
  | bool (b : Bool)
  | number (x : Number)
  | string (s : String)
  | function (ref : Ref .function)
  | native (f : Native)
  | cls (ref : Ref .cls)
  | object (ref : Ref .object)
deriving DecidableEq, Repr

/-- The key of a value. The two zeros are the same key. All NaN are one key too: numbers have no
identity here. Where they have, a map that compares keys by identity first tells two NaN apart,
which this one does not. -/
def Key.ofValue? : Value → Option Key
  | .nil => some .nil
  | .bool b => some (.bool b)
  | .number x => some (.number (if x == 0 then 0 else x))
  | .string s => some (.string s)
  | .function ref => some (.function ref)
  | .native f => some (.native f)
  | .cls ref => some (.cls ref)
  | .object ref => some (.object ref)
  | .list _ | .map _ => none

end LoxLang
