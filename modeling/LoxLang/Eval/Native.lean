import LoxLang.Eval.Basic

/-!
# Native functions

What the functions that are part of the language do. They halt with faults that have no place.
-/

namespace LoxLang

namespace Native

variable {σ : Scoping}

/-- Halt with a fault that has no place yet. -/
def fault {α : Type} (cause : Cause) : Eval σ α := Eval.halt (.fault ⟨cause, none⟩)

/-- The list that a native function works on. -/
def expectList (f : Native) : Value → Eval σ (Ref .list)
  | .list ref => return ref
  | _ => fault (.notList f)

/-- The map that a native function works on. -/
def expectMap (f : Native) : Value → Eval σ (Ref .map)
  | .map ref => return ref
  | _ => fault (.notMap f)

/-- How many characters, elements or entries a value has. -/
def length (v : Value) : Eval σ Value := do
  match v with
  | .string s => return .number (Number.ofCount s.length)
  | .list ref => return .number (Number.ofCount ((← Eval.store).lists.get ref).size)
  | .map ref => return .number (Number.ofCount ((← Eval.store).maps.get ref).size)
  | _ => fault .noLength

/-- Remove the entry of a key and give its value, or nil if there is none. -/
def removeKey (ref : Ref .map) (key : Value) : Eval σ Value := do
  if Entries.isKey key then
    let (found, entries) ← Eval.expect (((← Eval.store).maps.get ref).take key)
    Eval.modifyStore (·.modifyMap ref fun _ => entries)
    return found.getD .nil
  else fault .notKey

/-- Remove the last element of a list and give it. -/
def popLast (ref : Ref .list) : Eval σ Value := do
  let elements := (← Eval.store).lists.get ref
  if elements.isEmpty then fault .popFromEmpty
  else
    match elements.back? with
    | none => Eval.halt (.defect .noElement)
    | some last =>
      Eval.modifyStore (·.modifyList ref (·.pop))
      return last

/-- Call a native function. -/
def call (depth : Nat) (f : Native) (arguments : List Value) : Eval σ Value :=
  match f, arguments with
  | clock, [] => Eval.readClock
  | input, [prompt] => do
    Eval.write (← Eval.text depth 0 prompt) ""
    Eval.readLine
  | len, [v] => length v
  | contains, [container, key] => do
    let ref ← expectMap f container
    return .bool (((← Eval.store).maps.get ref).has key)
  | remove, [container, key] => do removeKey (← expectMap f container) key
  | push, [container, value] => do
    let ref ← expectList f container
    Eval.modifyStore (·.modifyList ref (·.push value))
    return .nil
  | pop, [container] => do popLast (← expectList f container)
  | _, _ => Eval.halt (.defect .wrongArity)

end Native

end LoxLang
