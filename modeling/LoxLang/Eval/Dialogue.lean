import LoxLang.Eval.Basic

/-!
# Tasks and dialogues

Running a program takes many steps of the same kinds inside of each other: an expression is
evaluated for another one, statements are executed for a block, a call is carried out for an
expression. Such a step is a `Task`. What a task does by itself is a `Dialogue`: it acts on the
machine, and asks for the answers of further tasks. A dialogue does not say how it gets the answers;
`Dialogue.run` takes that as an argument, and `Dialogue.Asks` tells which tasks are asked for on the
way, and when.
-/

namespace LoxLang

/-- Steps of a running program that have steps inside. -/
inductive Task (σ : Scoping) where
  /-- Evaluate an expression. -/
  | eval (e : Expr σ.Mark)
  /-- Call a value; faults of the call itself are at its closing parenthesis. -/
  | call (callee : Value) (arguments : List Value) (paren : Token)
  /-- Carry out a call. -/
  | invoke (callee : Value) (arguments : List Value) (paren : Token)
  /-- Execute statements in a scope of their own. -/
  | block (inner : σ.Scope) (body : List (Stmt σ.Mark))
  /-- Execute a statement. -/
  | exec (s : Stmt σ.Mark)

/-- What comes of a task: a value, or for statements how they leave those around them. -/
abbrev Task.Answer {σ : Scoping} : Task σ → Type
  | eval _ | call .. | invoke .. => Value
  | block .. | exec _ => Option Jump

/-- A computation that asks for the answers of tasks. -/
inductive Dialogue (σ : Scoping) (α : Type) : Type 1 where
  | done (a : α)
  /-- Act on the machine. -/
  | act {β : Type} (x : Eval σ β) (next : β → Dialogue σ α)
  /-- Ask for the answer of a task. -/
  | ask (t : Task σ) (next : t.Answer → Dialogue σ α)

namespace Dialogue

variable {σ : Scoping} {α β : Type}

/-- Go on after a dialogue with another one. -/
def andThen (p : Dialogue σ α) (f : α → Dialogue σ β) : Dialogue σ β :=
  match p with
  | done a => f a
  | act x next => act x fun b => (next b).andThen f
  | ask t next => ask t fun a => (next a).andThen f

instance : Monad (Dialogue σ) where
  pure := done
  bind := andThen

/-- Only act on the machine. -/
def perform (x : Eval σ α) : Dialogue σ α := act x done

/-- Ask for the value of an expression. -/
def eval (e : Expr σ.Mark) : Dialogue σ Value := ask (.eval e) done

/-- Ask for the result of a call. -/
def call (callee : Value) (arguments : List Value) (paren : Token) : Dialogue σ Value :=
  ask (.call callee arguments paren) done

/-- Ask for a call to be carried out. -/
def invoke (callee : Value) (arguments : List Value) (paren : Token) : Dialogue σ Value :=
  ask (.invoke callee arguments paren) done

/-- Ask for statements to be executed in a scope of their own. -/
def block (inner : σ.Scope) (body : List (Stmt σ.Mark)) : Dialogue σ (Option Jump) :=
  ask (.block inner body) done

/-- Ask for a statement to be executed. -/
def exec (s : Stmt σ.Mark) : Dialogue σ (Option Jump) := ask (.exec s) done

variable (self : (t : Task σ) → Eval σ t.Answer)

/-- Carry out a dialogue; `self` gives the answers. -/
def run : Dialogue σ α → Eval σ α
  | done a => pure a
  | act x next => do (next (← x)).run
  | ask t next => do (next (← self t)).run

/-- A dialogue that is carried out on the machine `m` asks for the task `u` when the machine is
`n`. -/
def Asks : Dialogue σ α → (m : Machine σ) → (u : Task σ) → (n : Machine σ) → Prop
  | done _, _, _, _ => False
  | act x next, m, u, n =>
    match x m with
    | .ok b m => (next b).Asks m u n
    | .error _ _ => False
  | ask t next, m, u, n =>
    (u = t ∧ n = m) ∨
      match self t m with
      | .ok a m => (next a).Asks m u n
      | .error _ _ => False

end Dialogue

end LoxLang
