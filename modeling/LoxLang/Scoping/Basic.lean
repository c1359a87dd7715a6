import LoxLang.Fault

/-!
# Scopings

A scoping is a way to keep the variables of a program. It says what a place in a program can see
(`Scope`), where the variables are (`Memory`, in places of type `Slot`), and what a use of a
variable carries to find its place (`Mark`). Everything else about running a program is the same
for all scopings, and is written once for all of them.

The operations that change the memory tell first whether they can be done, and then what there is
to be done.
-/

namespace LoxLang

/-- Why a use of a variable leads to no place. -/
inductive Miss where
  /-- There is no variable of the name. -/
  | undefined
  | defect (d : Defect)
deriving DecidableEq, Repr

/-- A way to keep variables. -/
structure Scoping where
  /-- What a use of a variable carries. -/
  Mark : Type
  /-- What a place in a program can see. -/
  Scope : Type
  /-- Where the variables are. -/
  Memory : Type
  /-- The place of one variable. -/
  Slot : Type
  /-- What statements outside of all blocks can see. -/
  top : Scope
  /-- The place of the variable that is used. -/
  locate : Memory → Scope → Mark → String → Except Miss Slot
  /-- The value at a place. -/
  get? : Memory → Slot → Option Value
  /-- Write the value at a place. -/
  put : Memory → Slot → Value → Memory
  /-- Declare a variable that is nil, and give its place and what can be seen from then on. -/
  announce : Scope → String → Except Defect (Memory → (Slot × Scope) × Memory)
  /-- Open a scope in another one, with the given variables. -/
  enter : Scope → List (String × Value) → Memory → Scope × Memory
  /-- What `super` and `this` are at a use of `super`. -/
  inherited : Memory → Scope → Mark → Except Defect (Value × Value)
  /-- What `this` is in the scope of a method that has been bound. -/
  receiver : Memory → Scope → Except Defect Value

end LoxLang
