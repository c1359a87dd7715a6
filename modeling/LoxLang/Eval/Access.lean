import LoxLang.Eval.Basic

/-!
# Variables, properties and elements

Reading and writing by name, by property and by position or key.
-/

namespace LoxLang

namespace Eval

variable {σ : Scoping}

/-! ### Variables -/

/-- The place of the variable that is used. -/
def locate (mark : σ.Mark) (token : Token) : Eval σ σ.Slot := do
  let m ← get
  match σ.locate m.store.memory m.scope mark token.lexeme with
  | .ok slot => return slot
  | .error .undefined => fault (.undefinedVariable token.lexeme) token
  | .error (.defect d) => halt (.defect d)

/-- The value of a variable. -/
def readVariable (mark : σ.Mark) (token : Token) : Eval σ Value := do
  let slot ← locate mark token
  match σ.get? (← store).memory slot with
  | some value => return value
  | none => halt (.defect .noName)

/-- Give a variable a value. -/
def assign (mark : σ.Mark) (name : Name) (value : Value) : Eval σ Unit := do
  put (← locate mark name.token) value

/-! ### Properties -/

/-- A method of an object as a function of its own. -/
def bindMethod (method : Closure σ) (object : Value) : Eval σ Value :=
  alloc fun s =>
    let (closure, s) := s.bindMethod method object
    s.newFunction closure

/-- The field or else the method of an object. -/
def property (object : Ref .object) (name : Name) : Eval σ Value := do
  let s ← store
  let o := s.objects.get object
  match o.fields.get? name.text with
  | some value => return value
  | none =>
    match s.method? o.cls name.text with
    | some method => bindMethod method (.object object)
    | none => fault (.undefinedProperty name.text) name.token

/-- The method that the superclass of the current class has, for the current object. -/
def superMethod (mark : σ.Mark) (name : Name) : Eval σ Value := do
  let m ← get
  match ← expect (σ.inherited m.store.memory m.scope mark) with
  | (.cls cls, object) =>
    match m.store.method? cls name.text with
    | some method => bindMethod method object
    | none => fault (.undefinedProperty name.text) name.token
  | _ => halt (.defect .notClass)

/-! ### Elements -/

/-- The position in a list that a value stands for. -/
def listPosition (size : Nat) (position : Value) (bracket : Token) : Eval σ Int := do
  match position with
  | .number x =>
    if x.isWhole then
      match x.truncate? with
      | some i => if i < 0 ∨ size ≤ i then fault .positionOutOfRange bracket else return i
      | none => halt (.defect .notFinite)
    else fault .positionNotWhole bracket
  | _ => fault .positionNotWhole bracket

/-- Halt unless a value can be a key. -/
def checkKey (key : Value) (place : Token) : Eval σ Unit :=
  if Entries.isKey key then return () else fault .notKey place

/-- The element at a position of a list or at a key of a map. -/
def element (depth : Nat) (container position : Value) (bracket : Token) : Eval σ Value := do
  match container with
  | .list ref =>
    let elements := (← store).lists.get ref
    let position ← listPosition elements.size position bracket
    match elements.at? position with
    | some value => return value
    | none => halt (.defect .noElement)
  | .map ref =>
    checkKey position bracket
    let entries := (← store).maps.get ref
    if entries.has position then expect (entries.read position)
    else fault (.undefinedKey (← text depth 0 position)) bracket
  | _ => fault .notSubscriptable bracket

/-- Replace the element at a position of a list or at a key of a map. -/
def setElement (container position value : Value) (bracket : Token) : Eval σ Unit := do
  match container with
  | .list ref =>
    let size := ((← store).lists.get ref).size
    let position ← listPosition size position bracket
    match Elements.index? size position with
    | some index => modifyStore (·.modifyList ref (·.setIfInBounds index value))
    | none => halt (.defect .noElement)
  | .map ref =>
    checkKey position bracket
    let entries ← expect (((← store).maps.get ref).write position value)
    modifyStore (·.modifyMap ref fun _ => entries)
  | _ => fault .notSubscriptable bracket

end Eval

end LoxLang
