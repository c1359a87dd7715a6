import LoxLang.Binding.Basic
import LoxLang.Tree.Reading.Program
import Mathlib.Order.Basic

/-!
# Proper programs

Two facts about the trees that reading a text gives are used when programs are bound and run. A name
that a program declares or uses as a variable is never a keyword (`Name.Proper`), so `this` and
`super` are only what a class makes them. And what a branch chooses or a loop repeats is never a
declaration, so every declaration stands in a sequence of statements.

That this is so of what is read is `Source.proper_ofText` in `Naming`.
-/

namespace LoxLang

/-- The name is not a keyword. -/
def Name.Proper (n : Name) : Prop := Keyword.ofText? n.text = none

theorem Keyword.mem_all (k : Keyword) : k ∈ Keyword.all := by
  cases k <;> decide

/-- What does not stand for a keyword is not spelt like one. -/
theorem Keyword.text_ne_of_ofText? {x : String} (h : Keyword.ofText? x = none) (k : Keyword) :
    k.text ≠ x := by
  rw [ofText?, List.find?_eq_none] at h
  simpa using h k k.mem_all

/-! ### Uses in expressions -/

mutual

/-- `p` holds of every use in the expression: the kind of use, the name and the mark. -/
def Expr.Uses {β : Type} (p : Use → String → β → Prop) : Expr β → Prop
  | .constant _ => True
  | .group inner => inner.Uses p
  | .unary _ _ operand => operand.Uses p
  | .binary left _ _ right => left.Uses p ∧ right.Uses p
  | .logical left _ _ right => left.Uses p ∧ right.Uses p
  | .var name mark => p .read name.text mark
  | .assign name value mark => p .assign name.text mark ∧ value.Uses p
  | .call callee arguments _ => callee.Uses p ∧ Expr.AllUses p arguments
  | .list elements _ => Expr.AllUses p elements
  | .map entries _ => Expr.EntryUses p entries
  | .index container position _ => container.Uses p ∧ position.Uses p
  | .setIndex container position value _ => container.Uses p ∧ position.Uses p ∧ value.Uses p
  | .get object _ => object.Uses p
  | .set object _ value => object.Uses p ∧ value.Uses p
  | .thisRef _ mark => p .thisRef Keyword.thisWord.text mark
  | .superRef _ _ mark => p .superRef Keyword.superWord.text mark

/-- `p` holds of every use in the expressions. -/
def Expr.AllUses {β : Type} (p : Use → String → β → Prop) : List (Expr β) → Prop
  | [] => True
  | e :: es => e.Uses p ∧ Expr.AllUses p es

/-- `p` holds of every use in the entries. -/
def Expr.EntryUses {β : Type} (p : Use → String → β → Prop) : List (Expr β × Expr β) → Prop
  | [] => True
  | (key, value) :: entries => key.Uses p ∧ value.Uses p ∧ Expr.EntryUses p entries

end

/-- `p` holds of every use in the expression, if there is one. -/
def Expr.OptionUses {β : Type} (p : Use → String → β → Prop) : Option (Expr β) → Prop
  | none => True
  | some e => e.Uses p

/-- A variable that is read or assigned does not have a keyword for its name. -/
def Use.Proper : Use → String → Unit → Prop
  | .read, name, _ | .assign, name, _ => Keyword.ofText? name = none
  | _, _, _ => True

/-! ### Statements -/

/-- The name that a statement declares. -/
def Stmt.declared? {β : Type} : Stmt β → Option Name
  | .var name _ => some name
  | .function decl => some decl.name
  | .classDecl name _ _ => some name
  | _ => none

mutual

/-- Names are proper, and what a branch or a loop contains is not a declaration. -/
def Stmt.Proper : Stmt Unit → Prop
  | .expression value => value.Uses Use.Proper
  | .print value => value.Uses Use.Proper
  | .var name initializer => name.Proper ∧ Expr.OptionUses Use.Proper initializer
  | .block body => Stmt.AllProper body
  | .branch condition yes none =>
    condition.Uses Use.Proper ∧ yes.Proper ∧ yes.declared? = none
  | .branch condition yes (some no) =>
    condition.Uses Use.Proper ∧ yes.Proper ∧ yes.declared? = none ∧ no.Proper ∧
      no.declared? = none
  | .whileLoop condition body =>
    condition.Uses Use.Proper ∧ body.Proper ∧ body.declared? = none
  | .doWhile body condition =>
    condition.Uses Use.Proper ∧ body.Proper ∧ body.declared? = none
  | .breakLoop _ => True
  | .continueLoop _ => True
  | .returnValue _ value => Expr.OptionUses Use.Proper value
  | .function decl => decl.Proper
  | .classDecl name _ methods => name.Proper ∧ Function.AllProper methods
  | .marker _ _ => True

/-- All of the statements are proper. -/
def Stmt.AllProper : List (Stmt Unit) → Prop
  | [] => True
  | s :: ss => s.Proper ∧ Stmt.AllProper ss

/-- The name, the parameters and the body are proper. -/
def Function.Proper : Function Unit → Prop
  | ⟨name, params, body⟩ => name.Proper ∧ (∀ n ∈ params, n.Proper) ∧ Stmt.AllProper body

/-- All of the functions are proper. -/
def Function.AllProper : List (Function Unit) → Prop
  | [] => True
  | f :: fs => f.Proper ∧ Function.AllProper fs

end

theorem Function.Proper.name {f : Function Unit} (hf : f.Proper) : f.name.Proper := by
  cases f
  exact hf.1

theorem Stmt.Proper.declared {s : Stmt Unit} (hs : s.Proper) {name : Name}
    (h : s.declared? = some name) : name.Proper := by
  cases s with
  | var name' initializer =>
    cases h
    exact hs.1
  | function decl =>
    cases h
    exact Function.Proper.name hs
  | classDecl name' superclass methods =>
    cases h
    exact hs.1
  | _ => cases h

end LoxLang
