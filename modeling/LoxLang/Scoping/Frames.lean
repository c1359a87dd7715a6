import LoxLang.Binding.Basic
import LoxLang.Scoping.Basic
import LoxLang.Store.Arena

/-!
# Frames

Variables live in frames, which are shared by reference. A chain lists the frames that a place can
see, innermost first, and ends with the global frame. It is a list of references and not of links
between frames, so to follow it is to walk down a list.

`Chain.read` and `Chain.assign` look for a variable along the chain, `Chain.readAt` and
`Chain.assignAt` go to the frame that it is known to be in. `Scoping.frames` is the scoping by
frames and chains: the mark of a use tells how many frames out the variable is.
-/

namespace LoxLang

/-- Variables by name, in order of definition. -/
abbrev Frame := Table String Value

/-- The frames that a place can see, innermost first. -/
abbrev Chain := List (Ref .frame)

/-- All frames. -/
abbrev Frames := Arena .frame Frame

/-- The frame of the global variables. -/
def globalFrame : Ref .frame := ⟨0⟩

/-- What statements outside of all blocks can see. -/
def globalChain : Chain := [globalFrame]

namespace Frames

/-- Only a global frame. -/
def ofGlobals (globals : Frame) : Frames := ⟨#[globals]⟩

/-- Define a variable in a frame, or give it a new value there. -/
def define (frames : Frames) (frame : Ref .frame) (name : String) (value : Value) : Frames :=
  frames.modify frame (·.insert name value)

/-- The variable's value in the innermost frame that has it. -/
def lookup? (frames : Frames) (chain : Chain) (name : String) : Option Value :=
  match chain with
  | [] => none
  | frame :: outer =>
    match (frames.get frame).get? name with
    | some value => some value
    | none => lookup? frames outer name

/-- The innermost frame that has the variable. -/
def holder? (frames : Frames) (chain : Chain) (name : String) : Option (Ref .frame) :=
  chain.find? fun frame => (frames.get frame).contains name

/-- Give the variable a value in the innermost frame that has it. -/
def assign? (frames : Frames) (chain : Chain) (name : String) (value : Value) : Option Frames :=
  (holder? frames chain name).map fun frame => define frames frame name value

/-- The part of a chain from a number of hops out on. Nothing is left of it one hop beyond its last
frame, and further out there is nothing to speak of. -/
def outward (chain : Chain) (hops : Nat) : Except Defect Chain :=
  if hops ≤ chain.length then .ok (chain.drop hops) else .error .noFrame

/-- The frame a number of hops out. -/
def frameAt (chain : Chain) (hops : Nat) : Except Defect (Ref .frame) :=
  match chain[hops]? with
  | some frame => .ok frame
  | none => .error .noFrame

/-- The variable's value in the frame a number of hops out. -/
def valueAt (frames : Frames) (chain : Chain) (hops : Nat) (name : String) :
    Except Defect Value := do
  match (frames.get (← frameAt chain hops)).get? name with
  | some value => return value
  | none => throw .noName

/-- Give the variable a value in the frame a number of hops out. -/
def assignAt (frames : Frames) (chain : Chain) (hops : Nat) (name : String) (value : Value) :
    Except Defect Frames := do
  return define frames (← frameAt chain hops) name value

/-- The place of a variable: in the frame a number of hops out, or among the globals. -/
def locate (frames : Frames) (chain : Chain) (hops : Hops) (name : String) :
    Except Miss (Ref .frame × String) :=
  match hops with
  | some hops => ((frameAt chain hops).map (·, name)).mapError .defect
  | none =>
    match holder? frames globalChain name with
    | some frame => .ok (frame, name)
    | none => .error .undefined

/-- Define a variable as nil in the innermost frame. -/
def announce (chain : Chain) (name : String) :
    Except Defect (Frames → ((Ref .frame × String) × Chain) × Frames) := do
  let frame ← frameAt chain 0
  return fun frames => (((frame, name), chain), define frames frame name .nil)

/-- A declaration goes to one frame, and leaves the chain as it is. -/
theorem exists_of_announce {chain : Chain} {name : String}
    {update : Frames → ((Ref .frame × String) × Chain) × Frames}
    (h : announce chain name = .ok update) :
    ∃ frame, update = fun frames => (((frame, name), chain), define frames frame name .nil) := by
  cases hframe : frameAt chain 0 with
  | ok frame =>
    simp only [announce, hframe] at h
    cases h
    exact ⟨frame, rfl⟩
  | error d =>
    simp only [announce, hframe] at h
    cases h

/-- Open a frame with the given variables in front of a chain. -/
def enter (chain : Chain) (locals : List (String × Value)) (frames : Frames) :
    Chain × Frames :=
  let (ref, frames) := frames.alloc (.ofList locals)
  (ref :: chain, frames)

/-- The values of `super`, and of `this` one frame further in. -/
def inherited (frames : Frames) (chain : Chain) (hops : Hops) : Except Defect (Value × Value) :=
  match hops with
  | none => .error .noBinding
  | some hops => do
    let parent ← valueAt frames chain hops Keyword.superWord.text
    let object ← valueAt frames chain (hops - 1) Keyword.thisWord.text
    return (parent, object)

/-- The value of `this` in the innermost frame. -/
def receiver (frames : Frames) (chain : Chain) : Except Defect Value :=
  valueAt frames chain 0 Keyword.thisWord.text

end Frames

namespace Chain

/-- What is done with frames, which may end without a result. -/
abbrev Access := EStateM Halt Frames

/-- What has been found, unless the name is not that of a variable. -/
def found {α : Type} (name : Token) : Option α → Access α
  | some a => pure a
  | none => throw (.fault ⟨.undefinedVariable name.lexeme, some name⟩)

/-- What has been found where it was taken for granted. -/
def granted {α : Type} : Except Defect α → Access α
  | .ok a => pure a
  | .error d => throw (.defect d)

/-- The value of the variable in the innermost frame that has it. -/
def read (chain : Chain) (name : Token) : Access Value := do
  found name (Frames.lookup? (← get) chain name.lexeme)

/-- Give the variable a value in the innermost frame that has it. -/
def assign (chain : Chain) (name : Token) (value : Value) : Access Unit := do
  set (← found name (Frames.assign? (← get) chain name.lexeme value))

/-- The value of the variable in the frame a number of hops out. -/
def readAt (chain : Chain) (hops : Nat) (name : String) : Access Value := do
  granted (Frames.valueAt (← get) chain hops name)

/-- Give the variable a value in the frame a number of hops out. -/
def assignAt (chain : Chain) (hops : Nat) (name : Token) (value : Value) : Access Unit := do
  set (← granted (Frames.assignAt (← get) chain hops name.lexeme value))

/-- Define a variable in the innermost frame, or give it a new value there. -/
def define (chain : Chain) (name : String) (value : Value) : Access Unit := do
  set (← granted (Frames.assignAt (← get) chain 0 name value))

end Chain

/-- Variables in frames, found by the hops that are part of a mark. -/
abbrev Scoping.frames {β : Type} (hops : β → Hops) : Scoping where
  Mark := β
  Scope := Chain
  Memory := Frames
  Slot := Ref .frame × String
  top := globalChain
  locate frames chain mark name := Frames.locate frames chain (hops mark) name
  get? frames slot := (frames.get slot.1).get? slot.2
  put frames slot value := Frames.define frames slot.1 slot.2 value
  announce := Frames.announce
  enter := Frames.enter
  inherited frames chain mark := Frames.inherited frames chain (hops mark)
  receiver := Frames.receiver

/-- The scoping of programs that have been bound. -/
abbrev Scoping.bound : Scoping := .frames (id : Hops → Hops)

end LoxLang
