import LoxLang.Proofs.Origins
import Mathlib.Data.List.Pairwise

/-!
# Renaming a local variable

A variable or parameter `x` of a block or of a function is given another name `z`: the declaration
is renamed, and so are exactly the uses that are bound to it. In a bound program these can be told
from their hops, for a use is bound to the scope that is as many scopes out as it has hops. A use of
`x` that is bound to another scope keeps its name, as does one that is bound to nothing since it
comes too early.

`Program.Renames` is the renaming of one declaration somewhere in a program. If nothing is reported
about the program and `z` is nowhere in it, then nothing is reported about the renamed program, and
binding that gives the same hops everywhere (`Program.mirrors_of_renames`). The reason is that `x`
before and its new name after are found equally many scopes out (`Scopes.Renamed.hops?_eq`).
-/

namespace LoxLang

/-! ### Renaming in trees -/

section

variable (x z : String)

/-- Where `there`, the name `z` in place of `x`. -/
def renamedIf (there : Bool) (y : String) : String := if there ∧ y = x then z else y

/-- Where `there`, the name `z` in place of `x`, on the same line. -/
def Name.renameIf (there : Bool) (name : Name) : Name :=
  { name with text := renamedIf x z there name.text }

mutual

/-- Rename the uses of `x` in an expression that are bound to the scope `n` scopes out. -/
def Expr.rename (n : Nat) : Expr Hops → Expr Hops
  | .constant value => .constant value
  | .group inner => .group (inner.rename n)
  | .unary op line operand => .unary op line (operand.rename n)
  | .binary left op line right => .binary (left.rename n) op line (right.rename n)
  | .logical left op line right => .logical (left.rename n) op line (right.rename n)
  | .var name hops => .var (name.renameIf x z (hops = some n)) hops
  | .assign name value hops => .assign (name.renameIf x z (hops = some n)) (value.rename n) hops
  | .call callee arguments line => .call (callee.rename n) (Expr.renameAll n arguments) line
  | .list elements line => .list (Expr.renameAll n elements) line
  | .map entries line => .map (Expr.renameEntries n entries) line
  | .index container position line => .index (container.rename n) (position.rename n) line
  | .setIndex container position value line =>
    .setIndex (container.rename n) (position.rename n) (value.rename n) line
  | .get object name => .get (object.rename n) name
  | .set object name value => .set (object.rename n) name (value.rename n)
  | .thisRef line hops => .thisRef line hops
  | .superRef line method hops => .superRef line method hops

/-- Rename the uses in expressions. -/
def Expr.renameAll (n : Nat) : List (Expr Hops) → List (Expr Hops)
  | [] => []
  | e :: es => e.rename n :: Expr.renameAll n es

/-- Rename the uses in map entries. -/
def Expr.renameEntries (n : Nat) : List (Expr Hops × Expr Hops) → List (Expr Hops × Expr Hops)
  | [] => []
  | (key, value) :: entries => (key.rename n, value.rename n) :: Expr.renameEntries n entries

end

/-- Rename the uses in a marker. -/
def Marker.rename (n : Nat) : Marker Hops → Marker Hops
  | .set name value => .set name (value.rename x z n)
  | .build root hops path arguments =>
    .build (root.renameIf x z (hops = some n)) hops path (Expr.renameAll x z n arguments)
  | .walk operand => .walk (operand.rename x z n)
  | .check operand => .check (operand.rename x z n)
  | .thru operand => .thru (operand.rename x z n)
  | .otherwise => .otherwise

mutual

/-- Rename the variable `x` of the scope `n` scopes out in a statement: its uses, and its
declaration if the statement is in that scope. -/
def Stmt.rename (n : Nat) : Stmt Hops → Stmt Hops
  | .expression value => .expression (value.rename x z n)
  | .print value => .print (value.rename x z n)
  | .var name initializer =>
    .var (name.renameIf x z (n = 0)) (initializer.map (Expr.rename x z n))
  | .block body => .block (Stmt.renameAll (n + 1) body)
  | .branch condition yes none => .branch (condition.rename x z n) (yes.rename n) none
  | .branch condition yes (some no) =>
    .branch (condition.rename x z n) (yes.rename n) (some (no.rename n))
  | .whileLoop condition body => .whileLoop (condition.rename x z n) (body.rename n)
  | .doWhile body condition => .doWhile (body.rename n) (condition.rename x z n)
  | .breakLoop line => .breakLoop line
  | .continueLoop line => .continueLoop line
  | .returnValue line value => .returnValue line (value.map (Expr.rename x z n))
  | .function decl => .function (decl.rename (n + 1))
  | .classDecl name none methods => .classDecl name none (Function.renameAll (n + 2) methods)
  | .classDecl name (some (parent, hops)) methods =>
    .classDecl name (some (parent.renameIf x z (hops = some n), hops))
      (Function.renameAll (n + 3) methods)
  | .marker line m => .marker line (m.rename x z n)

/-- Rename a variable in statements. -/
def Stmt.renameAll (n : Nat) : List (Stmt Hops) → List (Stmt Hops)
  | [] => []
  | s :: ss => s.rename n :: Stmt.renameAll n ss

/-- Rename a variable in a function. The scope is `n` scopes out from its body, so it is that of the
parameters if `n` is zero. -/
def Function.rename (n : Nat) : Function Hops → Function Hops
  | ⟨name, params, body⟩ =>
    ⟨name, params.map (Name.renameIf x z (n = 0)), Stmt.renameAll n body⟩

/-- Rename a variable in functions. -/
def Function.renameAll (n : Nat) : List (Function Hops) → List (Function Hops)
  | [] => []
  | decl :: decls => decl.rename n :: Function.renameAll n decls

end

/-- One of the statements declares the variable `x`. -/
def Stmt.DeclareVar {β : Type} (body : List (Stmt β)) : Prop :=
  ∃ name initializer, .var name initializer ∈ body ∧ name.text = x

mutual

/-- One local variable `x` in a statement is renamed. -/
inductive Stmt.Renames : Stmt Hops → Stmt Hops → Prop where
  /-- It is a variable of the block. -/
  | scope {body : List (Stmt Hops)} (h : Stmt.DeclareVar x body) :
    Stmt.Renames (.block body) (.block (Stmt.renameAll x z 0 body))
  | block {body body' : List (Stmt Hops)} (h : Stmt.AllRenames body body') :
    Stmt.Renames (.block body) (.block body')
  | yes {condition : Expr Hops} {s s' : Stmt Hops} {no : Option (Stmt Hops)}
    (h : Stmt.Renames s s') : Stmt.Renames (.branch condition s no) (.branch condition s' no)
  | no {condition : Expr Hops} {yes s s' : Stmt Hops} (h : Stmt.Renames s s') :
    Stmt.Renames (.branch condition yes (some s)) (.branch condition yes (some s'))
  | whileLoop {condition : Expr Hops} {s s' : Stmt Hops} (h : Stmt.Renames s s') :
    Stmt.Renames (.whileLoop condition s) (.whileLoop condition s')
  | doWhile {condition : Expr Hops} {s s' : Stmt Hops} (h : Stmt.Renames s s') :
    Stmt.Renames (.doWhile s condition) (.doWhile s' condition)
  | function {decl decl' : Function Hops} (h : Function.Renames decl decl') :
    Stmt.Renames (.function decl) (.function decl')
  | classDecl {name : Name} {superclass : Option (Name × Hops)}
    {decls decls' : List (Function Hops)} (h : Function.AllRenames decls decls') :
    Stmt.Renames (.classDecl name superclass decls) (.classDecl name superclass decls')

/-- One local variable in statements is renamed. -/
inductive Stmt.AllRenames : List (Stmt Hops) → List (Stmt Hops) → Prop where
  | head {s s' : Stmt Hops} {ss : List (Stmt Hops)} (h : Stmt.Renames s s') :
    Stmt.AllRenames (s :: ss) (s' :: ss)
  | tail {s : Stmt Hops} {ss ss' : List (Stmt Hops)} (h : Stmt.AllRenames ss ss') :
    Stmt.AllRenames (s :: ss) (s :: ss')

/-- One local variable in a function is renamed. -/
inductive Function.Renames : Function Hops → Function Hops → Prop where
  /-- It is a parameter, or a variable of the body. -/
  | scope {decl : Function Hops}
    (h : x ∈ decl.params.map Name.text ∨ Stmt.DeclareVar x decl.body) :
    Function.Renames decl (decl.rename x z 0)
  | body {name : Name} {params : List Name} {body body' : List (Stmt Hops)}
    (h : Stmt.AllRenames body body') :
    Function.Renames ⟨name, params, body⟩ ⟨name, params, body'⟩

/-- One local variable in functions is renamed. -/
inductive Function.AllRenames : List (Function Hops) → List (Function Hops) → Prop where
  | head {decl decl' : Function Hops} {decls : List (Function Hops)}
    (h : Function.Renames decl decl') : Function.AllRenames (decl :: decls) (decl' :: decls)
  | tail {decl : Function Hops} {decls decls' : List (Function Hops)}
    (h : Function.AllRenames decls decls') : Function.AllRenames (decl :: decls) (decl :: decls')

end

/-- In a bound program one local variable `x` is renamed to `z`: its declaration, and exactly the
uses that are bound to it. -/
def Program.Renames (program program' : Program Hops) : Prop := Stmt.AllRenames x z program program'

end

variable {x z : String}

theorem Function.Renames.name_eq {decl decl' : Function Hops}
    (h : Function.Renames x z decl decl') : decl'.name = decl.name := by
  cases h with
  | scope =>
    cases decl
    rfl
  | body => rfl

/-! ### Names -/

theorem renamedIf_of_ne (there : Bool) {y : String} (h : y ≠ x) : renamedIf x z there y = y := by
  simp [renamedIf, h]

@[simp]
theorem renamedIf_false (y : String) : renamedIf x z false y = y := by
  simp [renamedIf]

/-- Names that are different stay so, as long as neither of them is `z`. -/
theorem eq_of_renamedIf_eq {there there' : Bool} {y y' : String} (hy : y ≠ z) (hy' : y' ≠ z)
    (h : renamedIf x z there y = renamedIf x z there' y') : y = y' := by
  unfold renamedIf at h
  split at h <;> split at h <;> simp_all

theorem renamedIf_ne (hxz : x ≠ z) (y : String) : renamedIf x z true y ≠ x := by
  unfold renamedIf
  split
  · exact hxz.symm
  · simp_all

/-- The token is not the identifier `z`. -/
def Token.IsNot (z : String) (t : Token) : Prop := t.word ≠ .identifier z

@[simp]
theorem Name.isNot_token {name : Name} : name.token.IsNot z ↔ name.text ≠ z := by
  simp [Token.IsNot, Name.token, Token.ofName]

/-- In the second table `z` has the value that `x` has in the first one. -/
structure Table.Renamed {α : Type} (x z : String) (t t' : Table String α) : Prop where
  get?_eq : ∀ y, y ≠ z → t'.get? (renamedIf x z true y) = t.get? y
  get?_old : t'.get? x = none
  get?_new : t.get? z = none

namespace Table.Renamed

variable {α : Type} {t t' : Table String α}

theorem get?_of_ne (h : t.Renamed x z t') {y : String} (hx : y ≠ x) (hz : y ≠ z) :
    t'.get? y = t.get? y := by
  have hy := h.get?_eq y hz
  rwa [renamedIf_of_ne true hx] at hy

theorem get?_moved (h : t.Renamed x z t') (hxz : x ≠ z) : t'.get? z = t.get? x := by
  have hx := h.get?_eq x hxz
  rwa [renamedIf, if_pos ⟨rfl, rfl⟩] at hx

theorem empty : (.empty : Table String α).Renamed x z .empty := ⟨fun _ _ => rfl, rfl, rfl⟩

theorem insert (h : t.Renamed x z t') (hxz : x ≠ z) {y : String} (hy : y ≠ z) (v : α) :
    (t.insert y v).Renamed x z (t'.insert (renamedIf x z true y) v) := by
  refine ⟨fun y' hy' => ?_, ?_, ?_⟩
  · rw [Table.get?_insert, Table.get?_insert, h.get?_eq y' hy']
    by_cases heq : y' = y
    · simp [heq]
    · rw [if_neg heq, if_neg fun hr => heq (eq_of_renamedIf_eq hy' hy hr)]
  · rw [Table.get?_insert_of_ne _ _ (renamedIf_ne hxz y).symm, h.get?_old]
  · rw [Table.get?_insert_of_ne _ _ hy.symm, h.get?_new]

/-- Tables that are made from lists, with `z` in place of `x` in the second one. -/
theorem ofList (hxz : x ≠ z) {es es' : List (String × α)}
    (h : List.Forall₂ (fun e e' => e.1 ≠ z ∧ e' = (renamedIf x z true e.1, e.2)) es es') :
    (Table.ofList es).Renamed x z (.ofList es') := by
  have hfold : ∀ t t' : Table String α, t.Renamed x z t' →
      (es.foldl (fun t e => t.insert e.1 e.2) t).Renamed x z
        (es'.foldl (fun t e => t.insert e.1 e.2) t') := by
    induction h with
    | nil => exact fun _ _ ht => ht
    | cons he _ ih =>
      obtain ⟨hz, rfl⟩ := he
      exact fun t t' ht => ih _ _ (ht.insert hxz hz _)
  exact hfold _ _ .empty

end Table.Renamed

/-! ### Scopes -/

/-- None of the scopes has the name. -/
def Scopes.Lack (z : String) (scopes : Scopes) : Prop := ∀ scope ∈ scopes, scope.get? z = none

/-- In the second scopes the variable `x` of the scope `n` scopes out is called `z`. -/
inductive Scopes.Renamed (x z : String) : Nat → Scopes → Scopes → Prop where
  | here {scope scope' : Scope} {outer : Scopes} (h : scope.Renamed x z scope')
    (ho : outer.Lack z) : Renamed x z 0 (scope :: outer) (scope' :: outer)
  | inside {n : Nat} {scope : Scope} {a b : Scopes} (hz : scope.get? z = none)
    (h : Renamed x z n a b) : Renamed x z (n + 1) (scope :: a) (scope :: b)

namespace Scopes

theorem hops?_cons (scope : Scope) (outer : Scopes) (y : String) :
    hops? (scope :: outer) y =
      if scope.get? y = some true then some 0 else (outer.hops? y).map (· + 1) := by
  simp [hops?, List.findIdx?_cons]

theorem Lack.set {scopes : Scopes} (h : scopes.Lack z) {y : String} (hy : y ≠ z) (b : Bool) :
    (scopes.set y b).Lack z := by
  cases scopes with
  | nil => exact h
  | cons scope outer =>
    obtain ⟨hscope, houter⟩ := List.forall_mem_cons.1 h
    refine List.forall_mem_cons.2 ⟨?_, houter⟩
    rw [Table.get?_insert_of_ne _ _ hy.symm, hscope]

theorem Lack.after {β : Type} {scopes : Scopes} (h : scopes.Lack z) {s : Stmt β}
    (hs : ∀ name, s.declared? = some name → name.text ≠ z) : (scopes.after s).Lack z := by
  unfold Scopes.after
  split
  · exact h
  · exact h.set (hs _ ‹_›) true

/-- A new scope does not have a name that is not among those it is opened with. -/
theorem get?_enter_of_not_mem {names : List String} {y : String} (h : y ∉ names) :
    (Table.ofList (names.map fun name => (name, true))).get? y = none := by
  have hc := Table.contains_ofList (names.map fun name => (name, true)) y
  rw [Table.contains_eq_isSome, List.map_map] at hc
  simpa [Function.comp_def, h] using hc

theorem contains_enter {names : List String} {y : String} (h : y ∈ names) :
    (Table.ofList (names.map fun name => (name, true))).contains y = true := by
  rw [Table.contains_eq_isSome, get?_enter_iff.2 h]
  rfl

theorem Lack.enter {scopes : Scopes} (h : scopes.Lack z) {names : List String} (hz : z ∉ names) :
    (scopes.enter names).Lack z :=
  List.forall_mem_cons.2 ⟨get?_enter_of_not_mem hz, h⟩

namespace Renamed

variable {n : Nat} {a b : Scopes}

/-- **A variable is as many scopes out under its new name.** Any other name is where it was. -/
theorem hops?_eq (h : Renamed x z n a b) (hxz : x ≠ z) {y : String} (hy : y ≠ z) :
    b.hops? (renamedIf x z (a.hops? y = some n) y) = a.hops? y := by
  by_cases hyx : y = x
  · subst hyx
    induction h with
    | @here scope scope' outer h ho =>
      by_cases hfound : scope.get? y = some true
      · have hnew : scope'.get? z = some true := (h.get?_moved hxz).trans hfound
        simp [renamedIf, hops?_cons, hfound, hnew]
      · -- In the other scope nothing is called `x` any more.
        have hmissed : scope'.get? y ≠ some true := by simp [h.get?_old]
        have hhops : hops? (scope :: outer) y = (outer.hops? y).map (· + 1) := by
          rw [hops?_cons, if_neg hfound]
        have hother : renamedIf y z (hops? (scope :: outer) y = some 0) y = y := by
          simp [renamedIf, hhops]
        rw [hother, hhops, hops?_cons, if_neg hmissed]
    | @inside n scope a b hz h ih =>
      by_cases hfound : scope.get? y = some true
      · simp [renamedIf, hops?_cons, hfound]
      · have hhops : hops? (scope :: a) y = (a.hops? y).map (· + 1) := by
          rw [hops?_cons, if_neg hfound]
        have hsame : decide (hops? (scope :: a) y = some (n + 1)) =
            decide (a.hops? y = some n) := by
          rw [hhops]
          cases a.hops? y <;> simp
        have hmissed : scope.get? (renamedIf y z (a.hops? y = some n) y) ≠ some true := by
          unfold renamedIf
          split
          · simp [hz]
          · exact hfound
        rw [hsame, hhops, hops?_cons, if_neg hmissed, ih]
  · rw [renamedIf_of_ne _ hyx]
    induction h with
    | here h ho => rw [hops?_cons, hops?_cons, h.get?_of_ne hyx hy]
    | inside hz h ih => rw [hops?_cons, hops?_cons, ih]

theorem declares_eq (h : Renamed x z n a b) {y : String} (hy : y ≠ z) :
    b.declares (renamedIf x z (n = 0) y) = a.declares y := by
  cases h with
  | here h ho =>
    simp only [declares, Table.contains_eq_isSome, decide_true, h.get?_eq y hy]
  | inside hz h => simp [declares]

theorem set (h : Renamed x z n a b) (hxz : x ≠ z) {y : String} (hy : y ≠ z) (usable : Bool) :
    Renamed x z n (a.set y usable) (b.set (renamedIf x z (n = 0) y) usable) := by
  cases h with
  | here h ho => exact .here (h.insert hxz hy usable) ho
  | inside hz h =>
    simp only [Nat.add_eq_zero_iff, Nat.one_ne_zero, and_false, decide_false, renamedIf_false]
    exact .inside ((Table.get?_insert_of_ne _ _ hy.symm).trans hz) h

theorem enter (h : Renamed x z n a b) {names : List String} (hz : z ∉ names) :
    Renamed x z (n + 1) (a.enter names) (b.enter names) :=
  .inside (get?_enter_of_not_mem hz) h

theorem isEmpty_eq (h : Renamed x z n a b) : b.isEmpty = a.isEmpty := by
  cases h <;> rfl

end Renamed

/-- A scope that is opened without any names has nothing to be renamed yet. -/
theorem Lack.renamed {scopes : Scopes} (h : scopes.Lack z) :
    Renamed x z 0 (scopes.enter []) (scopes.enter []) :=
  .here .empty h

end Scopes

/-! ### Binding in step -/

/-- All of a binding but the name. -/
def Binding.unnamed (b : Binding) : Use × Int × Nat := (b.use, b.line, b.hops)

namespace Bound

variable {α β γ δ : Type} {R : α → β → Prop} {Q : γ → δ → Prop} {u : Bound α} {v : Bound β}

/-- If nothing is reported about the first, then nothing is reported about the second, the results
correspond, and the bindings are the same apart from names. -/
def Mirrors (R : α → β → Prop) (u : Bound α) (v : Bound β) : Prop :=
  u.diagnostics = [] → R u.result v.result ∧ v.diagnostics = [] ∧
    v.bindings.map Binding.unnamed = u.bindings.map Binding.unnamed

theorem mirrors_pure {a : α} {b : β} (h : R a b) : (pure a : Bound α).Mirrors R (pure b) :=
  fun _ => ⟨h, rfl, rfl⟩

theorem Mirrors.bind {f : α → Bound γ} {g : β → Bound δ} (h : u.Mirrors R v)
    (hf : R u.result v.result → (f u.result).Mirrors Q (g v.result)) :
    (u >>= f).Mirrors Q (v >>= g) := by
  intro hclean
  obtain ⟨hu, hrest⟩ := List.append_eq_nil_iff.1 hclean
  obtain ⟨hresult, hv, hbindings⟩ := h hu
  obtain ⟨hresult', hv', hbindings'⟩ := hf hresult hrest
  refine ⟨hresult', List.append_eq_nil_iff.2 ⟨hv, hv'⟩, ?_⟩
  exact List.map_append.trans ((congr (congrArg _ hbindings) hbindings').trans List.map_append.symm)

theorem Mirrors.of_clean (h : u.diagnostics = [] → u.Mirrors R v) : u.Mirrors R v :=
  fun hclean => h hclean hclean

theorem Mirrors.refl (u : Bound α) : u.Mirrors Eq u := fun h => ⟨rfl, h, rfl⟩

theorem Mirrors.of_eq {v : Bound α} (h : v = u) : u.Mirrors Eq v := h ▸ .refl v

theorem mirrors_reportIf {wrong wrong' : Bool} {place place' : Token} {error error' : StaticError}
    (h : wrong = false → wrong' = false) :
    (reportIf wrong place error).Mirrors (fun _ _ => True) (reportIf wrong' place' error') :=
  fun hclean => ⟨trivial, diagnostics_reportIf_eq_nil.2 (h (diagnostics_reportIf_eq_nil.1 hclean)),
    rfl⟩

end Bound

open LoxLang.Bound (mirrors_pure mirrors_reportIf)
open LoxLang.Part (Within)

namespace Scopes.Renamed

variable {n : Nat} {a b : Scopes}

theorem mirrors_bindUse (h : Renamed x z n a b) (hxz : x ≠ z) (use : Use) {y : String} (hy : y ≠ z)
    (line : Int) :
    (a.bindUse use y line).Mirrors (fun r r' => r = a.hops? y ∧ r' = r)
      (b.bindUse use (renamedIf x z (a.hops? y = some n) y) line) := by
  intro _
  have hhops := h.hops?_eq hxz hy
  unfold bindUse
  rw [hhops]
  cases a.hops? y with
  | none => exact ⟨⟨rfl, rfl⟩, rfl, rfl⟩
  | some hops => exact ⟨⟨rfl, rfl⟩, rfl, rfl⟩

/-- A keyword that stands for a variable is not renamed. -/
theorem mirrors_bindUse_keyword (h : Renamed x z n a b) (hxz : x ≠ z) (use : Use) {k : Keyword}
    (hx : k.text ≠ x) (hz : k.text ≠ z) (line : Int) :
    (a.bindUse use k.text line).Mirrors (fun r r' => r' = r) (b.bindUse use k.text line) := by
  intro hclean
  have huse := h.mirrors_bindUse hxz use hz line hclean
  rw [renamedIf_of_ne _ hx] at huse
  exact ⟨huse.1.2, huse.2⟩

theorem mirrors_declare (h : Renamed x z n a b) (hxz : x ≠ z) {name : Name} (hz : name.text ≠ z) :
    (a.declare name).Mirrors (fun r r' => Renamed x z n r r')
      (b.declare (name.renameIf x z (n = 0))) := by
  refine (mirrors_reportIf fun hnew => ?_).bind fun _ => mirrors_pure (h.set hxz hz false)
  exact (h.declares_eq hz).trans hnew

theorem mirrors_declareUsable (h : Renamed x z n a b) (hxz : x ≠ z) {name : Name}
    (hz : name.text ≠ z) :
    (a.declareUsable name).Mirrors (fun r r' => Renamed x z n r r')
      (b.declareUsable (name.renameIf x z (n = 0))) :=
  (h.mirrors_declare hxz hz).bind fun h => mirrors_pure (h.set hxz hz true)

theorem mirrors_declareAll (hxz : x ≠ z) {names : List Name} (hz : ∀ name ∈ names, name.text ≠ z)
    (h : Renamed x z n a b) :
    (a.declareAll names).Mirrors (fun r r' => Renamed x z n r r')
      (b.declareAll (names.map (Name.renameIf x z (n = 0)))) := by
  induction names generalizing a b with
  | nil => exact mirrors_pure h
  | cons name names ih =>
    obtain ⟨hname, hnames⟩ := List.forall_mem_cons.1 hz
    exact (h.mirrors_declareUsable hxz hname).bind fun h => ih hnames h

end Scopes.Renamed

/-- The names are different, and neither of them is a keyword. -/
structure Renamable (x z : String) : Prop where
  ne : x ≠ z
  old : Keyword.ofText? x = none
  new : Keyword.ofText? z = none

theorem Renamable.keyword_ne (hxz : Renamable x z) (k : Keyword) : k.text ≠ x ∧ k.text ≠ z :=
  ⟨Keyword.text_ne_of_ofText? hxz.old k, Keyword.text_ne_of_ofText? hxz.new k⟩

/-- A scope that is opened for a keyword does not have the new name. -/
theorem Renamable.not_mem_keyword (hxz : Renamable x z) (k : Keyword) : z ∉ [k.text] :=
  fun hz => (hxz.keyword_ne k).2 (List.mem_singleton.1 hz).symm

/-! ### Expressions -/

section

variable {β : Type}

/-- No variable that is used is called `z`. -/
abbrev Use.IsNot (z : String) : Use → String → β → Prop := fun _ y _ => y ≠ z

theorem Use.isNot_toldBy (hz : Keyword.ofText? z = none) :
    ToldBy (Token.IsNot z) (Use.IsNot z : Use → String → β → Prop) where
  name _ _ _ := Name.isNot_token.1
  this _ := Keyword.text_ne_of_ofText? hz _
  super _ := Keyword.text_ne_of_ofText? hz _

end

section

variable {n : Nat} {a b : Scopes} {classes : ClassContext}

mutual

/-- **Binding an expression with the new name** gives the same as binding it with the old one and
renaming then. -/
theorem Expr.mirrors_rename (hxz : Renamable x z) (h : Scopes.Renamed x z n a b) (e : Expr Unit)
    (he : e.Uses (Use.IsNot z)) :
    (e.resolve (fun _ hops => hops) classes a).Mirrors (fun r r' => r' = r.rename x z n)
      ((((e.resolve (fun _ hops => hops) classes a).result.rename x z n).mapMarks
        fun _ => ()).resolve (fun _ hops => hops) classes b) := by
  match e with
  | .constant value => exact mirrors_pure rfl
  | .group inner =>
    exact (inner.mirrors_rename hxz h he).bind fun hr => mirrors_pure (by rw [hr]; rfl)
  | .unary op line operand =>
    exact (operand.mirrors_rename hxz h he).bind fun hr => mirrors_pure (by rw [hr]; rfl)
  | .binary left op line right =>
    exact (left.mirrors_rename hxz h he.1).bind fun hl =>
      (right.mirrors_rename hxz h he.2).bind fun hr => mirrors_pure (by rw [hl, hr]; rfl)
  | .logical left op line right =>
    exact (left.mirrors_rename hxz h he.1).bind fun hl =>
      (right.mirrors_rename hxz h he.2).bind fun hr => mirrors_pure (by rw [hl, hr]; rfl)
  | .var name () =>
    simp only [resolve, Bound.result_bind, Bound.result_pure, Scopes.result_bindUse, rename,
      mapMarks]
    exact (h.mirrors_bindUse hxz.ne .read he name.line).bind fun ⟨hr, hr'⟩ =>
      mirrors_pure (by rw [hr', hr]; rfl)
  | .assign name value () =>
    simp only [resolve, Bound.result_bind, Bound.result_pure, Scopes.result_bindUse, rename,
      mapMarks]
    exact (value.mirrors_rename hxz h he.2).bind fun hv =>
      (h.mirrors_bindUse hxz.ne .assign he.1 name.line).bind fun ⟨hr, hr'⟩ =>
        mirrors_pure (by rw [hv, hr', hr]; rfl)
  | .call callee arguments line =>
    exact (callee.mirrors_rename hxz h he.1).bind fun hc =>
      (Expr.mirrors_renameAll hxz h arguments he.2).bind fun ha =>
        mirrors_pure (by rw [hc, ha]; rfl)
  | .list elements line =>
    exact (Expr.mirrors_renameAll hxz h elements he).bind fun hr => mirrors_pure (by rw [hr]; rfl)
  | .map entries line =>
    exact (Expr.mirrors_renameEntries hxz h entries he).bind fun hr =>
      mirrors_pure (by rw [hr]; rfl)
  | .index container position line =>
    exact (container.mirrors_rename hxz h he.1).bind fun hc =>
      (position.mirrors_rename hxz h he.2).bind fun hi => mirrors_pure (by rw [hc, hi]; rfl)
  | .setIndex container position value line =>
    exact (container.mirrors_rename hxz h he.1).bind fun hc =>
      (position.mirrors_rename hxz h he.2.1).bind fun hi =>
        (value.mirrors_rename hxz h he.2.2).bind fun hv => mirrors_pure (by rw [hc, hi, hv]; rfl)
  | .get object name =>
    exact (object.mirrors_rename hxz h he).bind fun hr => mirrors_pure (by rw [hr]; rfl)
  | .set object name value =>
    exact (object.mirrors_rename hxz h he.1).bind fun ho =>
      (value.mirrors_rename hxz h he.2).bind fun hv => mirrors_pure (by rw [ho, hv]; rfl)
  | .thisRef line () =>
    obtain ⟨hx, hz⟩ := hxz.keyword_ne .thisWord
    by_cases ho : classes = .outside
    · intro hclean
      simp [resolve, ho, Bound.reportIf] at hclean
    · simp only [resolve, ho, Bound.result_bind, if_false, Bound.result_pure, rename, mapMarks]
      exact (mirrors_reportIf id).bind fun _ =>
        (h.mirrors_bindUse_keyword hxz.ne .thisRef hx hz line).bind fun hr =>
          mirrors_pure (by rw [hr]; rfl)
  | .superRef line method () =>
    obtain ⟨hx, hz⟩ := hxz.keyword_ne .superWord
    exact (mirrors_reportIf id).bind fun _ => (mirrors_reportIf id).bind fun _ =>
      (h.mirrors_bindUse_keyword hxz.ne .superRef hx hz line).bind fun hr =>
        mirrors_pure (by rw [hr]; rfl)

theorem Expr.mirrors_renameAll (hxz : Renamable x z) (h : Scopes.Renamed x z n a b)
    (es : List (Expr Unit)) (hes : Expr.AllUses (Use.IsNot z) es) :
    (Expr.resolveAll (fun _ hops => hops) classes a es).Mirrors
      (fun r r' => r' = Expr.renameAll x z n r)
      (Expr.resolveAll (fun _ hops => hops) classes b (Expr.mapAllMarks (fun _ => ())
        (Expr.renameAll x z n (Expr.resolveAll (fun _ hops => hops) classes a es).result))) := by
  match es with
  | [] => exact mirrors_pure rfl
  | e :: es =>
    exact (e.mirrors_rename hxz h hes.1).bind fun he =>
      (Expr.mirrors_renameAll hxz h es hes.2).bind fun hes => mirrors_pure (by rw [he, hes]; rfl)

theorem Expr.mirrors_renameEntries (hxz : Renamable x z) (h : Scopes.Renamed x z n a b)
    (entries : List (Expr Unit × Expr Unit)) (hes : Expr.EntryUses (Use.IsNot z) entries) :
    (Expr.resolveEntries (fun _ hops => hops) classes a entries).Mirrors
      (fun r r' => r' = Expr.renameEntries x z n r)
      (Expr.resolveEntries (fun _ hops => hops) classes b (Expr.mapEntryMarks (fun _ => ())
        (Expr.renameEntries x z n
          (Expr.resolveEntries (fun _ hops => hops) classes a entries).result))) := by
  match entries with
  | [] => exact mirrors_pure rfl
  | (key, value) :: entries =>
    exact (key.mirrors_rename hxz h hes.1).bind fun hk =>
      (value.mirrors_rename hxz h hes.2.1).bind fun hv =>
        (Expr.mirrors_renameEntries hxz h entries hes.2.2).bind fun hes =>
          mirrors_pure (by rw [hk, hv, hes]; rfl)

end

theorem Expr.mirrors_renameOption (hxz : Renamable x z) (h : Scopes.Renamed x z n a b)
    (e : Option (Expr Unit)) (he : Expr.OptionUses (Use.IsNot z) e) :
    (Expr.resolveOption (fun _ hops => hops) classes a e).Mirrors
      (fun r r' => r' = r.map (Expr.rename x z n))
      (Expr.resolveOption (fun _ hops => hops) classes b
        (((Expr.resolveOption (fun _ hops => hops) classes a e).result.map (Expr.rename x z n)).map
          (Expr.mapMarks fun _ => ()))) := by
  cases e with
  | none => exact mirrors_pure rfl
  | some e => exact (e.mirrors_rename hxz h he).bind fun hr => mirrors_pure (by rw [hr]; rfl)

end

/-! ### Statements -/

theorem Part.within_optional {tokens : Token → Prop} {pss : List (List Part)} :
    Within tokens (Part.optional pss) ↔ ∀ ps ∈ pss, Within tokens ps := by
  cases pss with
  | nil => simp [Part.optional]
  | cons ps pss =>
    simp only [Part.optional, Part.within_symbol, Part.within_append, Part.within_separated,
      Part.within_nil, and_true]

section

variable {β : Type}

/-- No variable that the marker uses is called `z`. -/
def Marker.Avoids (z : String) : Marker β → Prop
  | .set _ value => value.Uses (Use.IsNot z)
  | .build root _ _ arguments => root.text ≠ z ∧ Expr.AllUses (Use.IsNot z) arguments
  | .walk operand => operand.Uses (Use.IsNot z)
  | .check operand => operand.Uses (Use.IsNot z)
  | .thru operand => operand.Uses (Use.IsNot z)
  | .otherwise => True

mutual

/-- Nothing that the statement declares or uses is called `z`. -/
def Stmt.Avoids (z : String) : Stmt β → Prop
  | .expression value => value.Uses (Use.IsNot z)
  | .print value => value.Uses (Use.IsNot z)
  | .var name initializer => name.text ≠ z ∧ Expr.OptionUses (Use.IsNot z) initializer
  | .block body => Stmt.AllAvoid z body
  | .branch condition yes none => condition.Uses (Use.IsNot z) ∧ yes.Avoids z
  | .branch condition yes (some no) =>
    condition.Uses (Use.IsNot z) ∧ yes.Avoids z ∧ no.Avoids z
  | .whileLoop condition body => condition.Uses (Use.IsNot z) ∧ body.Avoids z
  | .doWhile body condition => condition.Uses (Use.IsNot z) ∧ body.Avoids z
  | .breakLoop _ => True
  | .continueLoop _ => True
  | .returnValue _ value => Expr.OptionUses (Use.IsNot z) value
  | .function decl => decl.name.text ≠ z ∧ decl.Avoids z
  | .classDecl name none methods => name.text ≠ z ∧ Function.AllAvoid z methods
  | .classDecl name (some (parent, _)) methods =>
    name.text ≠ z ∧ parent.text ≠ z ∧ Function.AllAvoid z methods
  | .marker _ m => m.Avoids z

/-- Nothing that the statements declare or use is called `z`. -/
def Stmt.AllAvoid (z : String) : List (Stmt β) → Prop
  | [] => True
  | s :: ss => s.Avoids z ∧ Stmt.AllAvoid z ss

/-- Nothing that the function declares in its scope or uses is called `z`. -/
def Function.Avoids (z : String) : Function β → Prop
  | ⟨_, params, body⟩ => (∀ name ∈ params, name.text ≠ z) ∧ Stmt.AllAvoid z body

/-- Nothing that the functions declare in their scopes or use is called `z`. -/
def Function.AllAvoid (z : String) : List (Function β) → Prop
  | [] => True
  | decl :: decls => decl.Avoids z ∧ Function.AllAvoid z decls

end

theorem Stmt.Avoids.declared {s : Stmt β} (hs : s.Avoids z) {name : Name}
    (hname : s.declared? = some name) : name.text ≠ z := by
  match s with
  | .var name' initializer =>
    cases hname
    exact hs.1
  | .function decl =>
    cases hname
    exact hs.1
  | .classDecl name' none methods =>
    cases hname
    exact hs.1
  | .classDecl name' (some (parent, mark)) methods =>
    cases hname
    exact hs.1
  | .expression _ | .print _ | .block _ | .branch .. | .whileLoop .. | .doWhile .. | .breakLoop _
  | .continueLoop _ | .returnValue .. | .marker .. => cases hname

theorem Marker.avoids_of_within (hz : Use.ToldBy (Token.IsNot z) (Use.IsNot (β := β) z))
    (m : Marker β) (hm : Within (Token.IsNot z) m.parts) : m.Avoids z := by
  cases m with
  | set name value =>
    simp only [parts, Part.within_name, Part.within_symbol] at hm
    exact value.uses_of_within hz hm.2
  | build root mark path arguments =>
    simp only [parts, Part.within_name, Name.isNot_token, Part.within_append,
      Part.within_optional] at hm
    exact ⟨hm.1, Expr.allUses_of_within hz arguments hm.2.2⟩
  | walk operand => exact operand.uses_of_within hz hm
  | check operand => exact operand.uses_of_within hz hm
  | thru operand => exact operand.uses_of_within hz hm
  | otherwise => trivial

mutual

/-- If `z` is not among the tokens of a statement, nothing in it has that name. -/
theorem Stmt.avoids_of_within (hz : Use.ToldBy (Token.IsNot z) (Use.IsNot (β := β) z)) (s : Stmt β)
    (hs : Within (Token.IsNot z) s.parts) : s.Avoids z := by
  match s with
  | .expression value =>
    simp only [Stmt.parts, Part.within_append] at hs
    exact value.uses_of_within hz hs.1
  | .print value =>
    simp only [Stmt.parts, Part.within_keyword, Part.within_append] at hs
    exact value.uses_of_within hz hs.1
  | .var name none =>
    simp only [Stmt.parts, Part.within_keyword, Part.within_name, Name.isNot_token] at hs
    exact ⟨hs.1, trivial⟩
  | .var name (some value) =>
    simp only [Stmt.parts, Part.within_keyword, Part.within_name, Name.isNot_token,
      Part.within_symbol, Part.within_append] at hs
    exact ⟨hs.1, value.uses_of_within hz hs.2.1⟩
  | .block body =>
    simp only [Stmt.parts, Part.within_symbol, Part.within_append] at hs
    exact Stmt.allAvoid_of_within hz body hs.1
  | .branch condition yes none =>
    simp only [Stmt.parts, Part.within_keyword, Part.within_symbol, Part.within_append] at hs
    exact ⟨condition.uses_of_within hz hs.1, yes.avoids_of_within hz hs.2⟩
  | .branch condition yes (some no) =>
    simp only [Stmt.parts, Part.within_keyword, Part.within_symbol, Part.within_append] at hs
    exact ⟨condition.uses_of_within hz hs.1, yes.avoids_of_within hz hs.2.1,
      no.avoids_of_within hz hs.2.2⟩
  | .whileLoop condition body =>
    simp only [Stmt.parts, Part.within_keyword, Part.within_symbol, Part.within_append] at hs
    exact ⟨condition.uses_of_within hz hs.1, body.avoids_of_within hz hs.2⟩
  | .doWhile body condition =>
    simp only [Stmt.parts, Part.within_keyword, Part.within_symbol, Part.within_append] at hs
    exact ⟨condition.uses_of_within hz hs.2.1, body.avoids_of_within hz hs.1⟩
  | .breakLoop line => trivial
  | .continueLoop line => trivial
  | .returnValue line none => trivial
  | .returnValue line (some value) =>
    simp only [Stmt.parts, Part.within_keywordAt, Part.within_append] at hs
    exact value.uses_of_within hz hs.2.1
  | .function ⟨name, params, body⟩ =>
    simp only [Stmt.parts, Part.within_keyword] at hs
    have hname : name.text ≠ z := by
      simp only [Function.parts, Part.within_name, Name.isNot_token] at hs
      exact hs.1
    exact ⟨hname, Function.avoids_of_within hz ⟨name, params, body⟩ hs⟩
  | .classDecl name none methods =>
    simp only [Stmt.parts, Part.within_keyword, Part.within_name, Name.isNot_token,
      Part.within_symbol, Part.within_append] at hs
    exact ⟨hs.1, Function.allAvoid_of_within hz methods hs.2.1⟩
  | .classDecl name (some (parent, mark)) methods =>
    simp only [Stmt.parts, Part.within_keyword, Part.within_name, Name.isNot_token,
      Part.within_symbol, Part.within_append] at hs
    exact ⟨hs.1, hs.2.1, Function.allAvoid_of_within hz methods hs.2.2.1⟩
  | .marker line m =>
    simp only [Stmt.parts, Part.within_keywordAt, Part.within_append] at hs
    exact m.avoids_of_within hz hs.2.1

theorem Stmt.allAvoid_of_within (hz : Use.ToldBy (Token.IsNot z) (Use.IsNot (β := β) z))
    (ss : List (Stmt β))
    (hs : Within (Token.IsNot z) (Stmt.allParts ss)) : Stmt.AllAvoid z ss := by
  match ss with
  | [] => trivial
  | s :: ss =>
    simp only [Stmt.allParts, Part.within_append] at hs
    exact ⟨s.avoids_of_within hz hs.1, Stmt.allAvoid_of_within hz ss hs.2⟩

theorem Function.avoids_of_within (hz : Use.ToldBy (Token.IsNot z) (Use.IsNot (β := β) z))
    (decl : Function β)
    (hd : Within (Token.IsNot z) decl.parts) : decl.Avoids z := by
  match decl with
  | ⟨name, params, body⟩ =>
    simp only [Function.parts, Part.within_name, Part.within_symbol, Part.within_append,
      Part.within_separated, Part.within_capped] at hd
    refine ⟨fun param hparam => ?_, Stmt.allAvoid_of_within hz body hd.2.2.1⟩
    have hpart := hd.2.1 [.name param] (List.mem_map_of_mem hparam)
    simpa using hpart

theorem Function.allAvoid_of_within (hz : Use.ToldBy (Token.IsNot z) (Use.IsNot (β := β) z))
    (decls : List (Function β))
    (hd : Within (Token.IsNot z) (Function.allParts decls)) : Function.AllAvoid z decls := by
  match decls with
  | [] => trivial
  | decl :: decls =>
    simp only [Function.allParts, Part.within_append] at hd
    exact ⟨decl.avoids_of_within hz hd.1, Function.allAvoid_of_within hz decls hd.2⟩

end

end

/-! ### Inside the scope that is renamed in -/

/-- If the statement declares `x`, it does so as a variable. -/
def Stmt.DeclaresOnlyVar {β : Type} (x : String) (s : Stmt β) : Prop :=
  ∀ name, s.declared? = some name → name.text = x → ∃ initializer, s = .var name initializer

theorem Stmt.declaresOnlyVar_of_none {β : Type} {s : Stmt β} (h : s.declared? = none) :
    s.DeclaresOnlyVar x := by
  intro name hname
  rw [h] at hname
  cases hname

theorem Stmt.DeclaresOnlyVar.function_ne {β : Type} {decl : Function β}
    (h : (Stmt.function decl).DeclaresOnlyVar x) : decl.name.text ≠ x := by
  intro hx
  obtain ⟨initializer, heq⟩ := h decl.name rfl hx
  cases heq

theorem Stmt.DeclaresOnlyVar.class_ne {β : Type} {name : Name} {superclass : Option (Name × β)}
    {methods : List (Function β)} (h : (Stmt.classDecl name superclass methods).DeclaresOnlyVar x) :
    name.text ≠ x := by
  intro hx
  obtain ⟨initializer, heq⟩ := h name rfl hx
  cases heq

theorem Name.renameIf_eq_self {there : Bool} {name : Name} (h : there = true → name.text ≠ x) :
    name.renameIf x z there = name := by
  have htext : renamedIf x z there name.text = name.text := by
    unfold renamedIf
    rw [if_neg fun hx => h hx.1 hx.2]
  rw [renameIf, htext]

/-- What is not called `x` is declared by the same name. -/
theorem Scopes.Renamed.mirrors_declareUsable_same {n : Nat} {a b : Scopes}
    (h : Scopes.Renamed x z n a b) (hxz : x ≠ z) {name : Name} (hz : name.text ≠ z)
    (hx : n = 0 → name.text ≠ x) :
    (a.declareUsable name).Mirrors (fun r r' => Scopes.Renamed x z n r r')
      (b.declareUsable name) := by
  have hname : name.renameIf x z (n = 0) = name :=
    Name.renameIf_eq_self fun h0 => hx (of_decide_eq_true h0)
  have hdeclare := h.mirrors_declareUsable hxz hz
  rwa [hname] at hdeclare

theorem Expr.isUseOf_of_rename {n : Nat} {a : Scopes} {classes : ClassContext} {there : Bool}
    {y : String} (hy : y ≠ z) (e : Expr Unit) (he : e.Uses (Use.IsNot z))
    (huse : (((e.resolve (fun _ hops => hops) classes a).result.rename x z n).mapMarks
      fun _ => ()).isUseOf (renamedIf x z there y) = true) : e.isUseOf y = true := by
  match e with
  | .group inner => exact inner.isUseOf_of_rename hy he huse
  | .var name () =>
    exact decide_eq_true (eq_of_renamedIf_eq he hy (of_decide_eq_true huse))
  | .thisRef line () =>
    simp only [resolve, Bound.result_bind] at huse
    split at huse
    · cases huse
    · cases huse
  | .constant _ | .unary .. | .binary .. | .logical .. | .assign .. | .call .. | .list .. | .map ..
  | .index .. | .setIndex .. | .get .. | .set .. | .superRef .. => cases huse

section

variable {n : Nat} {a b : Scopes}

theorem Marker.mirrors_rename (hxz : Renamable x z) (h : Scopes.Renamed x z n a b)
    (classes : ClassContext) (m : Marker Unit) (hm : m.Avoids z) :
    (m.resolve (fun _ hops => hops) classes a).Mirrors (fun r r' => r' = r.rename x z n)
      ((((m.resolve (fun _ hops => hops) classes a).result.rename x z n).mapMarks
        fun _ => ()).resolve (fun _ hops => hops) classes b) := by
  cases m with
  | set name value =>
    exact (value.mirrors_rename hxz h hm).bind fun hr => mirrors_pure (by rw [hr]; rfl)
  | build root mark path arguments =>
    simp only [resolve, Bound.result_bind, Bound.result_pure, Scopes.result_bindUse, rename,
      mapMarks]
    exact (h.mirrors_bindUse hxz.ne .read hm.1 root.line).bind fun ⟨hr, hr'⟩ =>
      (Expr.mirrors_renameAll hxz h arguments hm.2).bind fun ha =>
        mirrors_pure (by rw [hr', hr, ha])
  | walk operand =>
    exact (operand.mirrors_rename hxz h hm).bind fun hr => mirrors_pure (by rw [hr]; rfl)
  | check operand =>
    exact (operand.mirrors_rename hxz h hm).bind fun hr => mirrors_pure (by rw [hr]; rfl)
  | thru operand =>
    exact (operand.mirrors_rename hxz h hm).bind fun hr => mirrors_pure (by rw [hr]; rfl)
  | otherwise => exact mirrors_pure rfl

theorem mirrors_renameSuperclass (hxz : Renamable x z) (h : Scopes.Renamed x z n a b)
    {name parent : Name} (hn : name.text ≠ z) (hp : parent.text ≠ z) :
    (resolveSuperclass (fun _ hops => hops) a name (some (parent, ()))).Mirrors
      (fun r r' => r = some (parent, a.hops? parent.text) ∧
        r' = some (parent.renameIf x z (a.hops? parent.text = some n), a.hops? parent.text))
      (resolveSuperclass (fun _ hops => hops) b name
        (some (parent.renameIf x z (a.hops? parent.text = some n), ()))) := by
  refine (mirrors_reportIf fun hdiffers => decide_eq_false fun heq => ?_).bind fun _ => ?_
  · -- A class that is its own superclass after the renaming would have been so before.
    have hsame : renamedIf x z (a.hops? parent.text = some n) parent.text =
        renamedIf x z false name.text := by
      rw [renamedIf_false]
      exact heq
    exact of_decide_eq_false hdiffers (eq_of_renamedIf_eq hp hn hsame)
  · exact (h.mirrors_bindUse hxz.ne .read hp parent.line).bind fun ⟨hr, hr'⟩ =>
      mirrors_pure (by rw [hr', hr]; exact ⟨rfl, rfl⟩)

end

mutual

/-- **Binding a statement with the new name** gives the same as binding it with the old one and
renaming then, and leaves scopes with the new name. -/
theorem Stmt.mirrors_rename {n : Nat} {a b : Scopes} (hxz : Renamable x z)
    (h : Scopes.Renamed x z n a b) (context : Context) (s : Stmt Unit) (hs : s.Proper)
    (hz : s.Avoids z)
    (ho : n = 0 → (s.resolve (fun _ hops => hops) context a).result.1.DeclaresOnlyVar x) :
    (s.resolve (fun _ hops => hops) context a).Mirrors
      (fun r r' => r'.1 = r.1.rename x z n ∧ Scopes.Renamed x z n r.2 r'.2)
      ((((s.resolve (fun _ hops => hops) context a).result.1.rename x z n).mapMarks
        fun _ => ()).resolve (fun _ hops => hops) context b) := by
  -- What a branch chooses or a loop repeats declares nothing.
  have hnone {context : Context} {a : Scopes} {s : Stmt Unit} (hs : s.declared? = none) :
      (s.resolve (fun _ hops => hops) context a).result.1.DeclaresOnlyVar x :=
    Stmt.declaresOnlyVar_of_none ((Stmt.declared?_resolve s).trans hs)
  match s with
  | .expression value =>
    exact (value.mirrors_rename hxz h hz).bind fun hr => mirrors_pure ⟨by rw [hr]; rfl, h⟩
  | .print value =>
    exact (value.mirrors_rename hxz h hz).bind fun hr => mirrors_pure ⟨by rw [hr]; rfl, h⟩
  | .var name initializer =>
    refine (h.mirrors_declare hxz.ne hz.1).bind fun h' => ?_
    refine (mirrors_reportIf fun hother => ?_).bind fun _ => ?_
    · rw [h.isEmpty_eq]
      rw [Bool.and_eq_false_iff] at hother ⊢
      refine hother.imp_right fun hother => ?_
      cases initializer with
      | none => rfl
      | some value =>
        refine Bool.eq_false_iff.2 fun huse => ?_
        rw [Option.any_some, Expr.isUseOf_of_rename hz.1 value hz.2 huse] at hother
        cases hother
    · exact (Expr.mirrors_renameOption hxz h' initializer hz.2).bind fun hr =>
        mirrors_pure ⟨by rw [hr]; rfl, h'.set hxz.ne hz.1 true⟩
  | .block body =>
    exact (Stmt.mirrors_renameAll hxz (h.enter List.not_mem_nil) context body hs hz
      fun h0 => absurd h0 (Nat.succ_ne_zero _)).bind fun hr => mirrors_pure ⟨by rw [hr.1]; rfl, h⟩
  | .branch condition yes none =>
    exact (condition.mirrors_rename hxz h hz.1).bind fun hc =>
      (Stmt.mirrors_rename hxz h context yes hs.2.1 hz.2 fun _ => hnone hs.2.2).bind fun hy =>
        mirrors_pure ⟨by rw [hc, hy.1]; rfl, hy.2⟩
  | .branch condition yes (some no) =>
    exact (condition.mirrors_rename hxz h hz.1).bind fun hc =>
      (Stmt.mirrors_rename hxz h context yes hs.2.1 hz.2.1 fun _ => hnone hs.2.2.1).bind fun hy =>
        (Stmt.mirrors_rename hxz hy.2 context no hs.2.2.2.1 hz.2.2
          fun _ => hnone hs.2.2.2.2).bind fun hn =>
            mirrors_pure ⟨by rw [hc, hy.1, hn.1]; rfl, hn.2⟩
  | .whileLoop condition body =>
    exact (condition.mirrors_rename hxz h hz.1).bind fun hc =>
      (Stmt.mirrors_rename hxz h _ body hs.2.1 hz.2 fun _ => hnone hs.2.2).bind fun hb =>
        mirrors_pure ⟨by rw [hc, hb.1]; rfl, hb.2⟩
  | .doWhile body condition =>
    exact (Stmt.mirrors_rename hxz h _ body hs.2.1 hz.2 fun _ => hnone hs.2.2).bind fun hb =>
      (condition.mirrors_rename hxz hb.2 hz.1).bind fun hc =>
        mirrors_pure ⟨by rw [hc, hb.1]; rfl, hb.2⟩
  | .breakLoop line => exact (mirrors_reportIf id).bind fun _ => mirrors_pure ⟨rfl, h⟩
  | .continueLoop line => exact (mirrors_reportIf id).bind fun _ => mirrors_pure ⟨rfl, h⟩
  | .returnValue line value =>
    refine (mirrors_reportIf id).bind fun _ => (mirrors_reportIf fun hwrong => ?_).bind fun _ => ?_
    · cases value <;> exact hwrong
    · exact (Expr.mirrors_renameOption hxz h value hz).bind fun hr =>
        mirrors_pure ⟨by rw [hr]; rfl, h⟩
  | .function ⟨name, params, body⟩ =>
    exact (h.mirrors_declareUsable_same hxz.ne hz.1 fun h0 => (ho h0).function_ne).bind fun h =>
      (Function.mirrors_rename hxz (h.enter List.not_mem_nil) _ ⟨name, params, body⟩ hs hz.2
        fun h0 => absurd h0 (Nat.succ_ne_zero _)).bind fun hr => mirrors_pure ⟨by rw [hr]; rfl, h⟩
  | .classDecl name none methods =>
    exact (h.mirrors_declareUsable_same hxz.ne hz.1 fun h0 => (ho h0).class_ne).bind fun h =>
      (mirrors_pure (R := fun r r' => r = none ∧ r' = none) ⟨rfl, rfl⟩).bind fun _ =>
        (Function.mirrors_renameMethods hxz (h.enter (hxz.not_mem_keyword _)) _ methods hs.2
          hz.2).bind fun hr => mirrors_pure ⟨by rw [hr]; rfl, h⟩
  | .classDecl name (some (parent, ())) methods =>
    simp only [Stmt.resolve, resolveSuperclass, Bound.result_bind, Bound.result_pure,
      Scopes.result_bindUse, Stmt.rename, Stmt.mapMarks]
    exact (h.mirrors_declareUsable_same hxz.ne hz.1 fun h0 => (ho h0).class_ne).bind fun h =>
      (mirrors_renameSuperclass hxz h hz.1 hz.2.1).bind fun hp =>
        (Function.mirrors_renameMethods hxz ((h.enter (hxz.not_mem_keyword _)).enter
          (hxz.not_mem_keyword _)) _ methods hs.2 hz.2.2).bind fun hr =>
            mirrors_pure ⟨by rw [hr, hp.2, hp.1]; rfl, h⟩
  | .marker line m =>
    exact (m.mirrors_rename hxz h _ hz).bind fun hr => mirrors_pure ⟨by rw [hr]; rfl, h⟩

theorem Stmt.mirrors_renameAll {n : Nat} {a b : Scopes} (hxz : Renamable x z)
    (h : Scopes.Renamed x z n a b) (context : Context) (ss : List (Stmt Unit))
    (hs : Stmt.AllProper ss) (hz : Stmt.AllAvoid z ss)
    (ho : n = 0 → ∀ s ∈ (Stmt.resolveAll (fun _ hops => hops) context a ss).result.1,
      s.DeclaresOnlyVar x) :
    (Stmt.resolveAll (fun _ hops => hops) context a ss).Mirrors
      (fun r r' => r'.1 = Stmt.renameAll x z n r.1 ∧ Scopes.Renamed x z n r.2 r'.2)
      (Stmt.resolveAll (fun _ hops => hops) context b (Stmt.mapAllMarks (fun _ => ())
        (Stmt.renameAll x z n
          (Stmt.resolveAll (fun _ hops => hops) context a ss).result.1))) := by
  match ss with
  | [] => exact mirrors_pure ⟨rfl, h⟩
  | s :: ss =>
    exact (Stmt.mirrors_rename hxz h context s hs.1 hz.1
        fun h0 => (List.forall_mem_cons.1 (ho h0)).1).bind fun hr =>
      (Stmt.mirrors_renameAll hxz hr.2 context ss hs.2 hz.2
        fun h0 => (List.forall_mem_cons.1 (ho h0)).2).bind fun hrs =>
          mirrors_pure ⟨by rw [hr.1, hrs.1]; rfl, hrs.2⟩

/-- The scope that is renamed in is `n` scopes out from the body of the function. -/
theorem Function.mirrors_rename {n : Nat} {a b : Scopes} (hxz : Renamable x z)
    (h : Scopes.Renamed x z n (a.enter []) (b.enter [])) (context : Context) (f : Function Unit)
    (hf : f.Proper) (hz : f.Avoids z)
    (ho : n = 0 → ∀ s ∈ (f.resolve (fun _ hops => hops) context a).result.body,
      s.DeclaresOnlyVar x) :
    (f.resolve (fun _ hops => hops) context a).Mirrors (fun r r' => r' = r.rename x z n)
      ((((f.resolve (fun _ hops => hops) context a).result.rename x z n).mapMarks
        fun _ => ()).resolve (fun _ hops => hops) context b) := by
  match f with
  | ⟨name, params, body⟩ =>
    exact (Scopes.Renamed.mirrors_declareAll hxz.ne hz.1 h).bind fun h =>
      (Stmt.mirrors_renameAll hxz h _ body hf.2.2 hz.2 ho).bind fun hr =>
        mirrors_pure (by rw [hr.1]; rfl)

theorem Function.mirrors_renameMethods {n : Nat} {a b : Scopes} (hxz : Renamable x z)
    (h : Scopes.Renamed x z n a b) (context : Context) (fs : List (Function Unit))
    (hf : Function.AllProper fs) (hz : Function.AllAvoid z fs) :
    (Function.resolveMethods (fun _ hops => hops) context a fs).Mirrors
      (fun r r' => r' = Function.renameAll x z (n + 1) r)
      (Function.resolveMethods (fun _ hops => hops) context b (Function.mapAllMarks (fun _ => ())
        (Function.renameAll x z (n + 1)
          (Function.resolveMethods (fun _ hops => hops) context a fs).result))) := by
  match fs with
  | [] => exact mirrors_pure rfl
  | ⟨name, params, body⟩ :: fs =>
    exact (Function.mirrors_rename hxz (h.enter List.not_mem_nil) _ ⟨name, params, body⟩ hf.1 hz.1
        fun h0 => absurd h0 (Nat.succ_ne_zero _)).bind fun hr =>
      (Function.mirrors_renameMethods hxz h context fs hf.2 hz.2).bind fun hrs =>
        mirrors_pure (by rw [hr, hrs]; rfl)

end

/-! ### Around the scope that is renamed in -/

/-- The statements do not declare the same name. -/
def Stmt.Apart {β : Type} (s t : Stmt β) : Prop :=
  ∀ name name', s.declared? = some name → t.declared? = some name' → name.text ≠ name'.text

instance {β : Type} : Std.Symm (@Stmt.Apart β) :=
  ⟨fun _ _ h name name' hname hname' => (h name' name hname' hname).symm⟩

section

variable {ι : Type} {M : Marking ι} {clean : ι → Prop} {site : Site ι} {scope : Scope}
  {outer : Scopes}

/-- What a bound statement declares is new in the innermost scope. -/
theorem Stmt.BoundAt.fresh {s : Stmt M.Mark} (hs : s.BoundAt M clean site) {name : Name}
    (hname : s.declared? = some name) : site.Fresh clean name := by
  match s with
  | .var name' initializer =>
    cases hname
    exact hs.2.1
  | .function ⟨name', params, body⟩ =>
    cases hname
    exact hs.2.1
  | .classDecl name' none methods =>
    cases hname
    exact hs.2.1
  | .classDecl name' (some (parent, mark)) methods =>
    cases hname
    exact hs.2.1
  | .expression _ | .print _ | .block _ | .branch .. | .whileLoop .. | .doWhile .. | .breakLoop _
  | .continueLoop _ | .returnValue .. | .marker .. => cases hname

/-- Statements that are bound without a report declare different names, none of which has been in
their scope before. -/
theorem Stmt.AllBoundAt.apart (hclean : clean site.source) (hsite : site.scopes = scope :: outer)
    {ss : List (Stmt M.Mark)} (hs : Stmt.AllBoundAt M clean site ss) :
    (∀ s ∈ ss, ∀ name, s.declared? = some name → scope.contains name.text = false) ∧
      ss.Pairwise Stmt.Apart := by
  induction ss generalizing site scope with
  | nil => simp
  | cons s ss ih =>
    cases hdeclared : s.declared? with
    | none =>
      have hafter : (site.after s).scopes = scope :: outer :=
        (site.scopes.after_of_declares_nothing hdeclared).trans hsite
      have hclean' : clean (site.after s).source := hclean
      obtain ⟨hnew, happart⟩ := ih hclean' hafter hs.2
      refine ⟨List.forall_mem_cons.2 ⟨?_, hnew⟩, List.pairwise_cons.2 ⟨?_, happart⟩⟩
      · simp [hdeclared]
      · simp [Stmt.Apart, hdeclared]
    | some name =>
      have hfresh : scope.contains name.text = false := by
        have hdeclares := hs.1.fresh hdeclared hclean
        rwa [hsite] at hdeclares
      have hafter : (site.after s).scopes = scope.insert name.text true :: outer := by
        show site.scopes.after s = _
        rw [Scopes.after, hdeclared, hsite]
        rfl
      have hclean' : clean (site.after s).source := hclean
      obtain ⟨hnew, happart⟩ := ih hclean' hafter hs.2
      have hother : ∀ t ∈ ss, ∀ name', t.declared? = some name' →
          name'.text ≠ name.text ∧ scope.contains name'.text = false := by
        intro t ht name' hname'
        have hmissing := hnew t ht name' hname'
        rw [Table.contains_insert, Bool.or_eq_false_iff] at hmissing
        exact ⟨of_decide_eq_false hmissing.1, hmissing.2⟩
      refine ⟨List.forall_mem_cons.2 ⟨?_, fun t ht name' h => (hother t ht name' h).2⟩,
        List.pairwise_cons.2 ⟨?_, happart⟩⟩
      · rintro _ hname
        cases hdeclared.symm.trans hname
        exact hfresh
      · rintro t ht _ name' hname hname'
        cases hdeclared.symm.trans hname
        exact (hother t ht name' hname').1.symm

/-- Where `x` is a parameter or a variable, nothing else is declared by that name. -/
theorem Stmt.AllBoundAt.declaresOnlyVar (hclean : clean site.source)
    (hsite : site.scopes = scope :: outer) {ss : List (Stmt M.Mark)}
    (hs : Stmt.AllBoundAt M clean site ss)
    (hx : scope.contains x = true ∨ Stmt.DeclareVar x ss) : ∀ s ∈ ss, s.DeclaresOnlyVar x := by
  intro s hmem name hname htext
  obtain ⟨hnew, happart⟩ := hs.apart hclean hsite
  obtain hparam | ⟨name', initializer, hvar, htext'⟩ := hx
  · have hmissing := hnew s hmem name hname
    rw [htext, hparam] at hmissing
    cases hmissing
  · by_cases heq : s = .var name' initializer
    · subst heq
      cases hname
      exact ⟨initializer, rfl⟩
    · exact absurd (htext.trans htext'.symm)
        (happart.forall hmem hvar heq name name' hname rfl)

end

/-- In a scope that is bound without a report, nothing is declared by the name of a parameter or of
a variable but these. -/
theorem Stmt.declaresOnlyVar_resolveAll (context : Context) {a : Scopes}
    (hc : ClassScopes context.classes a) {names : List Name} (hnames : ∀ name ∈ names, name.Proper)
    {ss : List (Stmt Unit)} (hs : Stmt.AllProper ss)
    (hclean : (Stmt.resolveAll (fun _ hops => hops) context (a.enter (names.map Name.text))
      ss).diagnostics = [])
    (hx : x ∈ names.map Name.text ∨ Stmt.DeclareVar x (Stmt.resolveAll (fun _ hops => hops) context
      (a.enter (names.map Name.text)) ss).result.1) :
    ∀ s ∈ (Stmt.resolveAll (fun _ hops => hops) context (a.enter (names.map Name.text))
      ss).result.1, s.DeclaresOnlyVar x := by
  have hbound : Stmt.AllBoundAt (.plain : Marking Unit) (fun _ => True)
      (context.site () (a.enter (names.map Name.text))) _ :=
    Stmt.allBoundAt_resolve context (hc.enter hnames) hs fun _ => hclean
  exact hbound.declaresOnlyVar trivial rfl (hx.imp_left Scopes.contains_enter)

mutual

/-- **Binding a statement in which a variable is renamed** gives it back with the same hops. -/
theorem Stmt.mirrors_of_renames (hxz : Renamable x z) (context : Context) {a : Scopes}
    (hc : ClassScopes context.classes a) (ha : a.Lack z) (s : Stmt Unit) (hs : s.Proper)
    (hz : s.Avoids z) {q : Stmt Hops}
    (hq : Stmt.Renames x z (s.resolve (fun _ hops => hops) context a).result.1 q) :
    (s.resolve (fun _ hops => hops) context a).Mirrors (fun r r' => r'.1 = q ∧ r'.2 = r.2)
      ((q.mapMarks fun _ => ()).resolve (fun _ hops => hops) context a) := by
  match s with
  | .block body =>
    have hnames : ∀ name ∈ ([] : List Name), name.Proper := List.forall_mem_nil _
    cases hq with
    | scope hx =>
      -- Nothing else is declared by the name, since that would have been reported.
      refine .of_clean fun hclean => ?_
      have honly := Stmt.declaresOnlyVar_resolveAll context hc hnames hs
        (List.append_eq_nil_iff.1 hclean).1 (.inr hx)
      exact (Stmt.mirrors_renameAll hxz ha.renamed context body hs hz fun _ => honly).bind fun hr =>
        mirrors_pure ⟨congrArg Stmt.block hr.1, rfl⟩
    | block h =>
      exact (Stmt.mirrors_of_allRenames hxz context (hc.enter hnames) (ha.enter List.not_mem_nil)
        body hs hz h).bind fun hr => mirrors_pure ⟨congrArg Stmt.block hr.1, rfl⟩
  | .branch condition yes none =>
    cases hq with
    | yes h =>
      simp only [Stmt.mapMarks, Expr.forget_resolve]
      exact (Bound.Mirrors.refl _).bind fun _ =>
        (Stmt.mirrors_of_renames hxz context hc ha yes hs.2.1 hz.2 h).bind fun hr =>
          mirrors_pure ⟨congrArg (Stmt.branch _ · none) hr.1, hr.2⟩
  | .branch condition yes (some no) =>
    cases hq with
    | yes h =>
      simp only [Stmt.mapMarks, Expr.forget_resolve, Stmt.forget_resolve]
      exact (Bound.Mirrors.refl _).bind fun _ =>
        (Stmt.mirrors_of_renames hxz context hc ha yes hs.2.1 hz.2.1 h).bind fun hr =>
          (Bound.Mirrors.of_eq (by rw [hr.2])).bind fun hn =>
            mirrors_pure ⟨congr (congrArg (Stmt.branch _) hr.1) (congrArg (some ·.1) hn.symm),
              (congrArg Prod.snd hn.symm :)⟩
    | no h =>
      -- The first branch declares nothing, so the second one is bound in the same scopes.
      have hyes : (yes.resolve (fun _ hops => hops) context a).result.2 = a :=
        (Stmt.scopes_resolve hs.2.1 context).trans (a.after_of_declares_nothing hs.2.2.1)
      simp only [Stmt.mapMarks, Expr.forget_resolve, Stmt.forget_resolve]
      exact (Bound.Mirrors.refl _).bind fun _ => (Bound.Mirrors.refl _).bind fun _ =>
        (Stmt.mirrors_of_renames hxz context (hyes.symm ▸ hc) (hyes.symm ▸ ha) no hs.2.2.2.1 hz.2.2
          h).bind fun hr => mirrors_pure ⟨congrArg (Stmt.branch _ _ <| some ·) hr.1, hr.2⟩
  | .whileLoop condition body =>
    cases hq with
    | whileLoop h =>
      simp only [Stmt.mapMarks, Expr.forget_resolve]
      exact (Bound.Mirrors.refl _).bind fun _ =>
        (Stmt.mirrors_of_renames hxz { context with inLoop := true } hc ha body hs.2.1 hz.2 h).bind
          fun hr => mirrors_pure ⟨congrArg (Stmt.whileLoop _) hr.1, hr.2⟩
  | .doWhile body condition =>
    cases hq with
    | doWhile h =>
      simp only [Stmt.mapMarks, Expr.forget_resolve]
      exact (Stmt.mirrors_of_renames hxz { context with inLoop := true } hc ha body hs.2.1 hz.2
        h).bind fun hr => (Bound.Mirrors.of_eq (by rw [hr.2])).bind fun hcond =>
          mirrors_pure ⟨congr (congrArg Stmt.doWhile hr.1) hcond.symm, hr.2⟩
  | .function ⟨name, params, body⟩ =>
    have hname : name.Proper := hs.1
    cases hq with
    | @function _ decl' h =>
      have hdecl : (decl'.mapMarks fun _ => ()).name = name := by cases h <;> rfl
      have hscopes := Scopes.result_declareUsable a name
      simp only [Stmt.mapMarks, Stmt.resolve, hdecl]
      exact (Bound.Mirrors.refl _).bind fun _ =>
        (Function.mirrors_of_renames hxz { context with function := .function }
          (hscopes.symm ▸ hc.set hname true) (hscopes.symm ▸ ha.set hz.1 true)
          ⟨name, params, body⟩ hs hz.2 h).bind fun hr =>
            mirrors_pure ⟨congrArg Stmt.function hr, rfl⟩
  | .classDecl name none methods =>
    have hscopes := Scopes.result_declareUsable a name
    cases hq with
    | classDecl h =>
      exact (Bound.Mirrors.refl _).bind fun _ => (Bound.Mirrors.refl _).bind fun _ =>
        (Function.mirrors_of_allRenames hxz { context with classes := .rootClass }
          ClassScopes.rootClass ((hscopes.symm ▸ ha.set hz.1 true : Scopes.Lack z _).enter
            (hxz.not_mem_keyword _)) methods hs.2 hz.2 h).bind fun hr =>
              mirrors_pure ⟨congrArg (Stmt.classDecl _ _) hr, rfl⟩
  | .classDecl name (some (parent, ())) methods =>
    have hscopes := Scopes.result_declareUsable a name
    cases hq with
    | classDecl h =>
      exact (Bound.Mirrors.refl _).bind fun _ => (Bound.Mirrors.refl _).bind fun _ =>
        (Function.mirrors_of_allRenames hxz { context with classes := .subclass }
          ClassScopes.subclass
          (((hscopes.symm ▸ ha.set hz.1 true : Scopes.Lack z _).enter
            (hxz.not_mem_keyword _)).enter (hxz.not_mem_keyword _)) methods hs.2 hz.2.2 h).bind
              fun hr => mirrors_pure ⟨congrArg (Stmt.classDecl _ _) hr, rfl⟩
  | .expression _ | .print _ | .var .. | .breakLoop _ | .continueLoop _ | .returnValue ..
  | .marker .. => cases hq

theorem Stmt.mirrors_of_allRenames (hxz : Renamable x z) (context : Context) {a : Scopes}
    (hc : ClassScopes context.classes a) (ha : a.Lack z) (ss : List (Stmt Unit))
    (hs : Stmt.AllProper ss) (hz : Stmt.AllAvoid z ss) {qs : List (Stmt Hops)}
    (hq : Stmt.AllRenames x z (Stmt.resolveAll (fun _ hops => hops) context a ss).result.1 qs) :
    (Stmt.resolveAll (fun _ hops => hops) context a ss).Mirrors (fun r r' => r'.1 = qs ∧ r'.2 = r.2)
      (Stmt.resolveAll (fun _ hops => hops) context a (Stmt.mapAllMarks (fun _ => ()) qs)) := by
  match ss with
  | [] => cases hq
  | s :: ss =>
    have hscopes : (s.resolve (fun _ hops => hops) context a).result.2 = a.after s :=
      Stmt.scopes_resolve hs.1 context
    cases hq with
    | head h =>
      simp only [Stmt.mapAllMarks, Stmt.forget_resolveAll]
      exact (Stmt.mirrors_of_renames hxz context hc ha s hs.1 hz.1 h).bind fun hr =>
        (Bound.Mirrors.of_eq (by rw [hr.2])).bind fun hrs =>
          mirrors_pure ⟨congr (congrArg List.cons hr.1) (congrArg Prod.fst hrs.symm),
            (congrArg Prod.snd hrs.symm :)⟩
    | tail h =>
      simp only [Stmt.mapAllMarks, Stmt.forget_resolve]
      exact (Bound.Mirrors.refl _).bind fun _ =>
        (Stmt.mirrors_of_allRenames hxz context (hscopes.symm ▸ hc.after hs.1)
          (hscopes.symm ▸ ha.after fun _ => hz.1.declared) ss hs.2 hz.2 h).bind fun hrs =>
            mirrors_pure ⟨congrArg (List.cons _) hrs.1, hrs.2⟩

theorem Function.mirrors_of_renames (hxz : Renamable x z) (context : Context) {a : Scopes}
    (hc : ClassScopes context.classes a) (ha : a.Lack z) (f : Function Unit) (hf : f.Proper)
    (hz : f.Avoids z) {q : Function Hops}
    (hq : Function.Renames x z (f.resolve (fun _ hops => hops) context a).result q) :
    (f.resolve (fun _ hops => hops) context a).Mirrors (fun _ r' => r' = q)
      ((q.mapMarks fun _ => ()).resolve (fun _ hops => hops) context a) := by
  match f with
  | ⟨name, params, body⟩ =>
    have hscopes := Scopes.result_declareAll_enter a params
    cases hq with
    | scope hx =>
      refine .of_clean fun hclean => ?_
      have hresult : ((⟨name, params, body⟩ : Function Unit).resolve (fun _ hops => hops) context
          a).result = ⟨name, params, (Stmt.resolveAll (fun _ hops => hops)
            { context with inLoop := false } (a.enter (params.map Name.text)) body).result.1⟩ := by
        simp only [Function.resolve, Bound.result_bind, Bound.result_pure, hscopes]
      simp only [Function.resolve, Bound.diagnostics_bind, Bound.diagnostics_pure, List.append_nil,
        List.append_eq_nil_iff, hscopes] at hclean
      refine Function.mirrors_rename hxz ha.renamed context _ hf hz fun _ => ?_
      rw [hresult] at hx ⊢
      exact Stmt.declaresOnlyVar_resolveAll { context with inLoop := false } hc hf.2.1 hf.2.2
        hclean.2 hx
    | body h =>
      have hparams : z ∉ params.map Name.text := by simpa using hz.1
      exact (Bound.Mirrors.refl _).bind fun _ =>
        (Stmt.mirrors_of_allRenames hxz { context with inLoop := false }
          (hscopes.symm ▸ hc.enter hf.2.1) (hscopes.symm ▸ ha.enter hparams) body hf.2.2 hz.2
          h).bind fun hr => mirrors_pure (congrArg (Function.mk name params) hr.1)

theorem Function.mirrors_of_allRenames (hxz : Renamable x z) (context : Context) {a : Scopes}
    (hc : ClassScopes context.classes a) (ha : a.Lack z) (fs : List (Function Unit))
    (hf : Function.AllProper fs) (hz : Function.AllAvoid z fs) {qs : List (Function Hops)}
    (hq : Function.AllRenames x z
      (Function.resolveMethods (fun _ hops => hops) context a fs).result qs) :
    (Function.resolveMethods (fun _ hops => hops) context a fs).Mirrors (fun _ r' => r' = qs)
      (Function.resolveMethods (fun _ hops => hops) context a
        (Function.mapAllMarks (fun _ => ()) qs)) := by
  match fs with
  | [] => cases hq
  | ⟨name, params, body⟩ :: fs =>
    cases hq with
    | @head _ decl' _ h =>
      have hdecl : (decl'.mapMarks fun _ => ()).name = name := by cases h <;> rfl
      simp only [Function.mapAllMarks, Function.forget_resolveMethods, Function.resolveMethods,
        hdecl]
      let kind : FunctionContext := if name.text = initializerName then .initializer else .method
      exact (Function.mirrors_of_renames hxz { context with function := kind } hc ha
        ⟨name, params, body⟩ hf.1 hz.1 h).bind fun hr => (Bound.Mirrors.refl _).bind fun hrs =>
          mirrors_pure (congr (congrArg List.cons hr) hrs.symm)
    | tail h =>
      simp only [Function.mapAllMarks, Function.forget_resolve]
      exact (Bound.Mirrors.refl _).bind fun _ =>
        (Function.mirrors_of_allRenames hxz context hc ha fs hf.2 hz.2 h).bind fun hrs =>
          mirrors_pure (congrArg (List.cons _) hrs)

end

/-- **Binding a program in which a variable is renamed** gives it back with the same hops, and
nothing is reported about it. -/
theorem Program.mirrors_of_renames (hxz : Renamable x z) {program : Program Unit}
    (hp : Stmt.AllProper program) (hz : Stmt.AllAvoid z program) {q : Program Hops}
    (hq : Program.Renames x z program.resolve.result q) :
    program.resolve.Mirrors (fun _ r' => r' = q) (Program.resolve (q.mapMarks fun _ => ())) :=
  (Stmt.mirrors_of_allRenames hxz .program ClassScopes.outside (List.forall_mem_nil _) program hp hz
    hq).bind fun hr => mirrors_pure hr.1

end LoxLang
