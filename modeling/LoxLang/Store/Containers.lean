import LoxLang.Fault
import LoxLang.Table

/-!
# Lists and maps by themselves

Operations on the elements of a list at positions that may count from the back (`-1` is the last
element), and on the entries of a map by values as keys. A list or a map is no key, and the
operations that take a key refuse it.
-/

namespace LoxLang

/-- The elements of a list. -/
abbrev Elements := Array Value

/-- The entries of a map by key: the key as it was last written, and the value. -/
abbrev Entries := Table Key (Value × Value)

namespace Elements

/-- The index of a position among `size` elements. -/
def index? (size : Nat) (position : Int) : Option Nat :=
  let fromFront := if position < 0 then position + size else position
  if 0 ≤ fromFront ∧ fromFront < size then some fromFront.toNat else none

/-- The element at a position. -/
def at? (elements : Elements) (position : Int) : Option Value :=
  (index? elements.size position).bind (elements[·]?)

/-- Replace the element at a position. -/
def replace? (elements : Elements) (position : Int) (value : Value) : Option Elements :=
  (index? elements.size position).map (elements.setIfInBounds · value)

/-- Remove the element at a position. -/
def remove? (elements : Elements) (position : Int) : Option Elements :=
  (index? elements.size position).map elements.eraseIdxIfInBounds

/-- Put a value in front of the element at a position, or at an end if there is none. -/
def putBefore (elements : Elements) (position : Int) (value : Value) : Elements :=
  let fromFront := if position < 0 then position + elements.size else position
  elements.insertIdxIfInBounds (min fromFront.toNat elements.size) value

/-- The last element, and the elements before it. -/
def pop? (elements : Elements) : Option (Value × Elements) :=
  elements.back?.map fun last => (last, elements.pop)

end Elements

namespace Entries

/-- The value can be a key. -/
def isKey (v : Value) : Bool := (Key.ofValue? v).isSome

/-- The key of a value. -/
def key (v : Value) : Except Defect Key :=
  match Key.ofValue? v with
  | some key => .ok key
  | none => .error .notKey

/-- The value has an entry. -/
def has (entries : Entries) (v : Value) : Bool := (Key.ofValue? v).any entries.contains

/-- The value at a key. -/
def read (entries : Entries) (v : Value) : Except Defect Value := do
  match entries.get? (← key v) with
  | some (_, value) => return value
  | none => throw .noEntry

/-- Write the value at a key. The key shows from then on as it is given here. -/
def write (entries : Entries) (v value : Value) : Except Defect Entries := do
  return entries.insert (← key v) (v, value)

/-- Remove the entry of a key. -/
def remove (entries : Entries) (v : Value) : Except Defect Entries := do
  let key ← key v
  if entries.contains key then return entries.erase key else throw .noEntry

/-- Remove the entry of a key, if there is one, and give its value. -/
def take (entries : Entries) (v : Value) : Except Defect (Option Value × Entries) := do
  let key ← key v
  return ((entries.get? key).map Prod.snd, entries.erase key)

/-- The keys as they were last written. -/
def shownKeys (entries : Entries) : List Value := entries.entries.map fun e => e.2.1

end Entries

end LoxLang
