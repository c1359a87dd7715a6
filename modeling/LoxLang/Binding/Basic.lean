import LoxLang.Diagnostic
import LoxLang.Table
import LoxLang.Tree.Basic

/-!
# Bindings

Frames nest as blocks, calls and classes do, so the number of frames between the use of a variable
and its declaration is known before a program runs. `Hops` is the mark that a bound tree carries
at each use: that number, or nothing for a variable that is looked up among the globals.

`Bound α` is a result together with the bindings recorded and the diagnostics reported on the
way, in order. `Scopes` holds the names of the scopes around a place, innermost first.
-/

namespace LoxLang

/-- How many frames out from the current one a variable is; `none` stands for the globals. -/
abbrev Hops := Option Nat

/-- Ways to use a variable. -/
inductive Use where
  | read
  | assign
  | thisRef
  | superRef
deriving DecidableEq, Repr

/-- A use that has been bound. -/
structure Binding where
  use : Use
  name : String
  line : Int
  hops : Nat
deriving DecidableEq, Repr

/-- A result with the bindings and diagnostics that came with it. -/
structure Bound (α : Type) where
  result : α
  bindings : List Binding
  diagnostics : List Diagnostic

namespace Bound

instance : Monad Bound where
  pure a := ⟨a, [], []⟩
  bind x f :=
    let y := f x.result
    ⟨y.result, x.bindings ++ y.bindings, x.diagnostics ++ y.diagnostics⟩

/-- Report an error at a token if `wrong`. -/
def reportIf (wrong : Bool) (place : Token) (error : StaticError) : Bound Unit :=
  ⟨(), [], if wrong then [.atToken place error] else []⟩

end Bound

/-- The names of one scope: `false` for a name whose initializer is being read, `true` once it can
be used. -/
abbrev Scope := Table String Bool

/-- The scopes around a place, innermost first. The globals are not among them. -/
abbrev Scopes := List Scope

namespace Scopes

/-- How many scopes out the innermost one is in which the name can be used. -/
def hops? (scopes : Scopes) (name : String) : Option Nat :=
  scopes.findIdx? fun scope => scope.get? name = some true

/-- Set the state of a name in the innermost scope. -/
def set (scopes : Scopes) (name : String) (usable : Bool) : Scopes :=
  match scopes with
  | [] => []
  | scope :: outer => scope.insert name usable :: outer

/-- The innermost scope has the name already. -/
def declares (scopes : Scopes) (name : String) : Bool :=
  match scopes with
  | [] => false
  | scope :: _ => scope.contains name

/-- Declare a name that cannot be used yet. -/
def declare (scopes : Scopes) (name : Name) : Bound Scopes := do
  Bound.reportIf (scopes.declares name.text) name.token .alreadyDeclared
  return scopes.set name.text false

/-- Declare a name that can be used at once. -/
def declareUsable (scopes : Scopes) (name : Name) : Bound Scopes := do
  return (← scopes.declare name).set name.text true

/-- Declare names one after the other. -/
def declareAll (scopes : Scopes) : List Name → Bound Scopes
  | [] => return scopes
  | name :: names => do
    let scopes ← scopes.declareUsable name
    scopes.declareAll names

/-- Open a scope around a place with the given names. -/
def enter (scopes : Scopes) (names : List String) : Scopes :=
  Table.ofList (names.map fun name => (name, true)) :: scopes

/-- Bind a use of a name. -/
def bindUse (scopes : Scopes) (use : Use) (name : String) (line : Int) : Bound Hops :=
  match scopes.hops? name with
  | some hops => ⟨some hops, [⟨use, name, line, hops⟩], []⟩
  | none => ⟨none, [], []⟩

end Scopes

end LoxLang
