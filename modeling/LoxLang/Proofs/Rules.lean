import LoxLang.Proofs.Joining

/-!
# The static rules

What is reported when a program is bound, said without scopes and contexts. A program is a sequence
of occurrences that the rules are about (`Program.occurrences`): returns, jumps, uses of `this` and
`super`, superclasses, declarations and initializers, each with what stands around it. An occurrence
may break a rule (`Occurrence.diagnostic?`), which is seen from the layers around it alone,
innermost first. The diagnostics are those of the occurrences, in order
(`Source.diagnostics_are_broken_rules`).
-/

namespace LoxLang

/-- What a place in a program can stand in. -/
inductive Layer where
  | block
  | loop
  | function
  | method (name : String)
  /-- A class, and whether it has a superclass. -/
  | classBody (inherits : Bool)
deriving DecidableEq, Repr

namespace Layer

/-- The layer is the body of a function. Methods are functions. -/
def isFunction : Layer → Bool
  | function | method _ => true
  | _ => false

/-- The layer is a class: whether it has a superclass. -/
def inherits? : Layer → Option Bool
  | classBody inherits => some inherits
  | _ => none

end Layer

/-- Where something stands. -/
structure Position where
  /-- The layers around the place, innermost first. -/
  around : List Layer
  /-- The names that are declared before the place, in the innermost scope around it. -/
  declared : List String

namespace Position

/-- The place of a program's first statement. -/
def top : Position := ⟨[], []⟩

variable (p : Position)

/-- The innermost function around the place. -/
def function? : Option Layer := p.around.find? Layer.isFunction

/-- Whether the innermost class around the place has a superclass. -/
def inherits? : Option Bool := p.around.findSome? Layer.inherits?

/-- There is a loop between the place and its innermost function. -/
def inLoop : Bool := (p.around.takeWhile (!·.isFunction)).contains .loop

/-- The place is in a local scope: every layer but a loop has one. -/
def isLocal : Bool := p.around.any (· ≠ .loop)

/-- The place at the beginning of a layer. What a loop repeats is in the scope around the loop. -/
def inside (layer : Layer) : Position :=
  ⟨layer :: p.around, if layer = .loop then p.declared else []⟩

/-- The place after a declaration. -/
def declare (name : Name) : Position := { p with declared := name.text :: p.declared }

/-- The place after declarations. -/
def declareAll (names : List Name) : Position := names.foldl declare p

/-- The place after a statement. -/
def after (s : Stmt Unit) : Position := p.declareAll s.declared?.toList

end Position

/-- What the rules are about. -/
inductive Item where
  | returning (line : Int) (withValue : Bool)
  /-- A `break` or a `continue`. -/
  | jump (word : Keyword) (line : Int)
  | thisUse (line : Int)
  | superUse (line : Int)
  /-- A class and its superclass. -/
  | inheriting (name parent : Name)
  /-- A variable, a function, a class or a parameter. -/
  | declaring (name : Name)
  | initializing (name : Name) (value : Expr Unit)

/-- Something that the rules are about, and where it stands. -/
structure Occurrence where
  item : Item
  position : Position

/-- The expression is nothing but the name, in any number of parentheses. -/
def Expr.isBare (name : String) : Expr Unit → Bool
  | .group inner => inner.isBare name
  | .var used _ => used.text = name
  | _ => false

/-- The rule that an occurrence breaks: what is reported, and where. -/
def Occurrence.diagnostic? : Occurrence → Option Diagnostic
  | ⟨.returning line withValue, p⟩ =>
    if p.function? = none then
      some (.atToken (.ofKeyword .returnWord line) .returnAtTopLevel)
    else if withValue ∧ p.function? = some (.method "init") then
      some (.atToken (.ofKeyword .returnWord line) .returnFromInitializer)
    else none
  | ⟨.jump word line, p⟩ =>
    if p.inLoop then none else some (.atToken (.ofKeyword word line) (.outsideLoop word))
  | ⟨.thisUse line, p⟩ =>
    if p.inherits? = none then
      some (.atToken (.ofKeyword .thisWord line) .thisOutsideClass)
    else none
  | ⟨.superUse line, p⟩ =>
    if p.inherits? = none then
      some (.atToken (.ofKeyword .superWord line) .superOutsideClass)
    else if p.inherits? = some false then
      some (.atToken (.ofKeyword .superWord line) .superWithoutSuperclass)
    else none
  | ⟨.inheriting name parent, _⟩ =>
    if parent.text = name.text then some (.atToken parent.token .inheritsItself) else none
  | ⟨.declaring name, p⟩ =>
    if p.isLocal ∧ name.text ∈ p.declared then
      some (.atToken name.token .alreadyDeclared)
    else none
  | ⟨.initializing name value, p⟩ =>
    if p.isLocal ∧ value.isBare name.text then
      some (.atToken name.token .ownInitializer)
    else none

/-- What is reported about occurrences, in order: one diagnostic for each that breaks a rule. -/
def Occurrence.violations (occurrences : List Occurrence) : List Diagnostic :=
  occurrences.filterMap diagnostic?

/-! ### The occurrences in a program -/

mutual

/-- The occurrences in an expression, from left to right. -/
def Expr.occurrences (p : Position) : Expr Unit → List Occurrence
  | .constant _ => []
  | .group inner => inner.occurrences p
  | .unary _ _ operand => operand.occurrences p
  | .binary left _ _ right => left.occurrences p ++ right.occurrences p
  | .logical left _ _ right => left.occurrences p ++ right.occurrences p
  | .var _ _ => []
  | .assign _ value _ => value.occurrences p
  | .call callee arguments _ => callee.occurrences p ++ Expr.allOccurrences p arguments
  | .list elements _ => Expr.allOccurrences p elements
  | .map entries _ => Expr.entryOccurrences p entries
  | .index container position _ => container.occurrences p ++ position.occurrences p
  | .setIndex container position value _ =>
    container.occurrences p ++ (position.occurrences p ++ value.occurrences p)
  | .get object _ => object.occurrences p
  | .set object _ value => object.occurrences p ++ value.occurrences p
  | .thisRef line _ => [⟨.thisUse line, p⟩]
  | .superRef line _ _ => [⟨.superUse line, p⟩]

/-- The occurrences in expressions. -/
def Expr.allOccurrences (p : Position) : List (Expr Unit) → List Occurrence
  | [] => []
  | e :: es => e.occurrences p ++ Expr.allOccurrences p es

/-- The occurrences in map entries, those of a key before those of its value. -/
def Expr.entryOccurrences (p : Position) : List (Expr Unit × Expr Unit) → List Occurrence
  | [] => []
  | (key, value) :: entries =>
    key.occurrences p ++ (value.occurrences p ++ Expr.entryOccurrences p entries)

end

/-- The occurrences in an expression that may be missing. -/
def Expr.optionOccurrences (p : Position) : Option (Expr Unit) → List Occurrence
  | none => []
  | some e => e.occurrences p

/-- The occurrences in a marker. -/
def Marker.occurrences (p : Position) : Marker Unit → List Occurrence
  | .set _ value => value.occurrences p
  | .build _ _ _ arguments => Expr.allOccurrences p arguments
  | .walk operand => operand.occurrences p
  | .check operand => operand.occurrences p
  | .thru operand => operand.occurrences p
  | .otherwise => []

/-- Declarations, one after the other. -/
def Position.declarations (p : Position) : List Name → List Occurrence
  | [] => []
  | name :: names => ⟨.declaring name, p⟩ :: (p.declare name).declarations names

mutual

/-- The occurrences in a statement, in the order in which they are written. -/
def Stmt.occurrences (p : Position) : Stmt Unit → List Occurrence
  | .expression value => value.occurrences p
  | .print value => value.occurrences p
  | .var name none => [⟨.declaring name, p⟩]
  | .var name (some value) =>
    ⟨.declaring name, p⟩ :: ⟨.initializing name value, p⟩ :: value.occurrences p
  | .block body => Stmt.allOccurrences (p.inside .block) body
  | .branch condition yes none => condition.occurrences p ++ yes.occurrences p
  | .branch condition yes (some no) =>
    condition.occurrences p ++ (yes.occurrences p ++ no.occurrences p)
  | .whileLoop condition body => condition.occurrences p ++ body.occurrences (p.inside .loop)
  | .doWhile body condition => body.occurrences (p.inside .loop) ++ condition.occurrences p
  | .breakLoop line => [⟨.jump .breakWord line, p⟩]
  | .continueLoop line => [⟨.jump .continueWord line, p⟩]
  | .returnValue line value =>
    ⟨.returning line value.isSome, p⟩ :: Expr.optionOccurrences p value
  | .function decl => ⟨.declaring decl.name, p⟩ :: decl.occurrences (p.inside .function)
  | .classDecl name none methods =>
    ⟨.declaring name, p⟩ :: Function.methodOccurrences (p.inside (.classBody false)) methods
  | .classDecl name (some (parent, _)) methods =>
    ⟨.declaring name, p⟩ :: ⟨.inheriting name parent, p⟩ ::
      Function.methodOccurrences (p.inside (.classBody true)) methods
  | .marker _ marker => marker.occurrences p

/-- The occurrences in statements, each after what those before it declare. -/
def Stmt.allOccurrences (p : Position) : List (Stmt Unit) → List Occurrence
  | [] => []
  | s :: ss => s.occurrences p ++ Stmt.allOccurrences (p.after s) ss

/-- The occurrences in a function whose layer is entered. -/
def Function.occurrences (p : Position) : Function Unit → List Occurrence
  | ⟨_, params, body⟩ => p.declarations params ++ Stmt.allOccurrences (p.declareAll params) body

/-- The occurrences in methods. -/
def Function.methodOccurrences (p : Position) : List (Function Unit) → List Occurrence
  | [] => []
  | f :: fs =>
    f.occurrences (p.inside (.method f.name.text)) ++ Function.methodOccurrences p fs

end

/-- The occurrences in a program. -/
def Program.occurrences (program : Program Unit) : List Occurrence :=
  Stmt.allOccurrences .top program

/-! ### Contexts and scopes of a place -/

theorem Scopes.isEmpty_set (scopes : Scopes) (x : String) (usable : Bool) :
    (scopes.set x usable).isEmpty = scopes.isEmpty := by
  cases scopes <;> rfl

theorem Scopes.declares_set (scopes : Scopes) (x y : String) (usable : Bool) :
    (scopes.set x usable).declares y =
      ((!scopes.isEmpty && decide (y = x)) || scopes.declares y) := by
  cases scopes with
  | nil => rfl
  | cons scope outer => exact Table.contains_insert scope x y usable

namespace Position

variable (p : Position)

/-- What the function around the place is to the rules. -/
def functionContext : FunctionContext :=
  match p.function? with
  | none => .topLevel
  | some (.method name) => if name = initializerName then .initializer else .method
  | some _ => .function

/-- What the class around the place is to the rules. -/
def classContext : ClassContext :=
  match p.inherits? with
  | none => .outside
  | some false => .rootClass
  | some true => .subclass

theorem functionContext_eq_topLevel_iff : p.functionContext = .topLevel ↔ p.function? = none := by
  unfold functionContext
  split
  · simp [*]
  · split <;> simp [*]
  · simp [*]

theorem functionContext_eq_initializer_iff :
    p.functionContext = .initializer ↔ p.function? = some (.method "init") := by
  unfold functionContext
  cases p.function? with
  | none => simp
  | some layer =>
    cases layer with
    | method name => by_cases h : name = "init" <;> simp [initializerName, h]
    | _ => simp

theorem classContext_eq_outside_iff : p.classContext = .outside ↔ p.inherits? = none := by
  unfold classContext
  split <;> simp [*]

theorem classContext_eq_rootClass_iff : p.classContext = .rootClass ↔ p.inherits? = some false := by
  unfold classContext
  split <;> simp [*]

/-- The context and the scopes are those of the place. -/
structure Fits (context : Context) (scopes : Scopes) : Prop where
  function : context.function = p.functionContext
  classes : context.classes = p.classContext
  inLoop : context.inLoop = p.inLoop
  isEmpty : scopes.isEmpty = !p.isLocal
  declares : ∀ x, scopes.declares x = (p.isLocal && p.declared.contains x)

namespace Fits

variable {p : Position} {context : Context} {scopes : Scopes}

theorem inBlock (h : p.Fits context scopes) : (p.inside .block).Fits context (scopes.enter []) where
  function := h.function
  classes := h.classes
  inLoop := h.inLoop
  isEmpty := rfl
  declares _ := rfl

theorem inLoopBody (h : p.Fits context scopes) :
    (p.inside .loop).Fits { context with inLoop := true } scopes where
  function := h.function
  classes := h.classes
  inLoop := rfl
  isEmpty := h.isEmpty
  declares := h.declares

/-- A function has no loop around it, and a scope of its own. -/
theorem inFunction (h : p.Fits context scopes) (scopes' : Scopes) :
    (p.inside .function).Fits ⟨.function, context.classes, false⟩ (scopes'.enter []) where
  function := rfl
  classes := h.classes
  inLoop := rfl
  isEmpty := rfl
  declares _ := rfl

theorem declare (h : p.Fits context scopes) (name : Name) (usable : Bool) :
    (p.declare name).Fits context (scopes.set name.text usable) where
  function := h.function
  classes := h.classes
  inLoop := h.inLoop
  isEmpty := (scopes.isEmpty_set name.text usable).trans h.isEmpty
  declares x := by
    rw [Scopes.declares_set, h.isEmpty, h.declares, Bool.not_not, ← Bool.and_or_distrib_left]
    simp [Position.declare, isLocal]

theorem declareAll (h : p.Fits context scopes) (names : List Name) :
    (p.declareAll names).Fits context (scopes.declareAll names).result := by
  induction names generalizing p scopes with
  | nil => exact h
  | cons name names ih =>
    have hname := h.declare name true
    rw [← Scopes.result_declareUsable] at hname
    exact ih hname

theorem after (h : p.Fits context scopes) (s : Stmt Unit) :
    (p.after s).Fits context (scopes.after s) := by
  unfold Position.after Scopes.after
  cases s.declared? with
  | none => exact h
  | some name => exact h.declare name true

end Fits

/-- What is around the class does not matter to the rules for its methods. -/
theorem fits_method (p : Position) (inherits : Bool) (name : String) (scopes : Scopes) :
    ((p.inside (.classBody inherits)).inside (.method name)).Fits
      ⟨if name = initializerName then .initializer else .method,
        if inherits then .subclass else .rootClass, false⟩ (scopes.enter []) where
  function := rfl
  classes := by cases inherits <;> rfl
  inLoop := rfl
  isEmpty := rfl
  declares _ := rfl

end Position

/-! ### One rule at a time -/

namespace Occurrence

@[simp]
theorem violations_nil : violations [] = [] := rfl

@[simp]
theorem violations_cons (o : Occurrence) (os : List Occurrence) :
    violations (o :: os) = o.diagnostic?.toList ++ violations os := by
  cases h : o.diagnostic? <;> simp [violations, h]

@[simp]
theorem violations_append (os os' : List Occurrence) :
    violations (os ++ os') = violations os ++ violations os' :=
  List.filterMap_append

end Occurrence

theorem Expr.isUseOf_eq_isBare (e : Expr Unit) (name : String) :
    e.isUseOf name = e.isBare name := by
  match e with
  | .group inner => exact inner.isUseOf_eq_isBare name
  | .constant _ | .unary .. | .binary .. | .logical .. | .var .. | .assign .. | .call .. | .list ..
  | .map .. | .index .. | .setIndex .. | .get .. | .set .. | .thisRef .. | .superRef .. => rfl

theorem Position.diagnostics_thisUse (p : Position) (line : Int) :
    (Bound.reportIf (p.classContext = .outside) (.ofKeyword .thisWord line)
        .thisOutsideClass).diagnostics =
      (Occurrence.mk (.thisUse line) p).diagnostic?.toList := by
  simp only [classContext_eq_outside_iff]
  by_cases hclass : p.inherits? = none <;> simp [Bound.reportIf, Occurrence.diagnostic?, hclass]

theorem Position.diagnostics_superUse (p : Position) (line : Int) :
    (Bound.reportIf (p.classContext = .outside) (.ofKeyword .superWord line)
        .superOutsideClass).diagnostics ++
      (Bound.reportIf (p.classContext = .rootClass) (.ofKeyword .superWord line)
        .superWithoutSuperclass).diagnostics =
      (Occurrence.mk (.superUse line) p).diagnostic?.toList := by
  simp only [classContext_eq_outside_iff, classContext_eq_rootClass_iff]
  by_cases hclass : p.inherits? = none
  · simp [Bound.reportIf, Occurrence.diagnostic?, hclass]
  · by_cases hroot : p.inherits? = some false <;>
      simp [Bound.reportIf, Occurrence.diagnostic?, hclass, hroot]

namespace Position.Fits

variable {p : Position} {context : Context} {scopes : Scopes} (h : p.Fits context scopes)

include h

theorem diagnostics_declaring (name : Name) :
    (Bound.reportIf (scopes.declares name.text) name.token .alreadyDeclared).diagnostics =
      (Occurrence.mk (.declaring name) p).diagnostic?.toList := by
  rw [h.declares]
  by_cases hlocal : p.isLocal <;> by_cases hname : name.text ∈ p.declared <;>
    simp [Bound.reportIf, Occurrence.diagnostic?, hlocal, hname]

theorem diagnostics_initializing (name : Name) (value : Expr Unit) :
    (Bound.reportIf (!scopes.isEmpty && value.isUseOf name.text) name.token
        .ownInitializer).diagnostics =
      (Occurrence.mk (.initializing name value) p).diagnostic?.toList := by
  rw [h.isEmpty, Expr.isUseOf_eq_isBare]
  cases hlocal : p.isLocal <;> cases hbare : value.isBare name.text <;>
    simp [Bound.reportIf, Occurrence.diagnostic?, hlocal, hbare]

theorem diagnostics_jump (word : Keyword) (line : Int) :
    (Bound.reportIf (!context.inLoop) (.ofKeyword word line) (.outsideLoop word)).diagnostics =
      (Occurrence.mk (.jump word line) p).diagnostic?.toList := by
  rw [h.inLoop]
  cases hloop : p.inLoop <;> simp [Bound.reportIf, Occurrence.diagnostic?, hloop]

/-- The two rules about a return exclude each other. -/
theorem diagnostics_returning (line : Int) (withValue : Bool) :
    (Bound.reportIf (context.function = .topLevel) (.ofKeyword .returnWord line)
        .returnAtTopLevel).diagnostics ++
      (Bound.reportIf (withValue && context.function = .initializer) (.ofKeyword .returnWord line)
        .returnFromInitializer).diagnostics =
      (Occurrence.mk (.returning line withValue) p).diagnostic?.toList := by
  simp only [h.function, functionContext_eq_topLevel_iff, functionContext_eq_initializer_iff]
  by_cases htop : p.function? = none
  · simp [Bound.reportIf, Occurrence.diagnostic?, htop]
  · by_cases hinit : p.function? = some (.method "init") <;> cases withValue <;>
      simp [Bound.reportIf, Occurrence.diagnostic?, htop, hinit]

end Position.Fits

/-! ### Every rule in its place -/

section

open Occurrence (violations)

variable {β : Type} {mark : Scopes → Hops → β}

section

variable (p : Position) (scopes : Scopes)

mutual

theorem Expr.diagnostics_resolve (e : Expr Unit) :
    (e.resolve mark p.classContext scopes).diagnostics = violations (e.occurrences p) := by
  match e with
  | .constant _ => rfl
  | .var _ () => simp [Expr.resolve, Expr.occurrences]
  | .group inner => simp [Expr.resolve, Expr.occurrences, inner.diagnostics_resolve]
  | .unary _ _ operand => simp [Expr.resolve, Expr.occurrences, operand.diagnostics_resolve]
  | .binary left _ _ right =>
    simp [Expr.resolve, Expr.occurrences, left.diagnostics_resolve, right.diagnostics_resolve]
  | .logical left _ _ right =>
    simp [Expr.resolve, Expr.occurrences, left.diagnostics_resolve, right.diagnostics_resolve]
  | .assign _ value () => simp [Expr.resolve, Expr.occurrences, value.diagnostics_resolve]
  | .call callee arguments _ =>
    simp [Expr.resolve, Expr.occurrences, callee.diagnostics_resolve,
      Expr.diagnostics_resolveAll arguments]
  | .list elements _ =>
    simp [Expr.resolve, Expr.occurrences, Expr.diagnostics_resolveAll elements]
  | .map entries _ =>
    simp [Expr.resolve, Expr.occurrences, Expr.diagnostics_resolveEntries entries]
  | .index container position _ =>
    simp [Expr.resolve, Expr.occurrences, container.diagnostics_resolve,
      position.diagnostics_resolve]
  | .setIndex container position value _ =>
    simp [Expr.resolve, Expr.occurrences, container.diagnostics_resolve,
      position.diagnostics_resolve, value.diagnostics_resolve]
  | .get object _ => simp [Expr.resolve, Expr.occurrences, object.diagnostics_resolve]
  | .set object _ value =>
    simp [Expr.resolve, Expr.occurrences, object.diagnostics_resolve, value.diagnostics_resolve]
  | .thisRef line () =>
    have hrule := p.diagnostics_thisUse line
    -- Outside of every class the use is reported, and not looked up.
    by_cases hclass : p.classContext = .outside <;> simp_all [Expr.resolve, Expr.occurrences]
  | .superRef line method () =>
    simp [Expr.resolve, Expr.occurrences, ← p.diagnostics_superUse line]

theorem Expr.diagnostics_resolveAll (es : List (Expr Unit)) :
    (Expr.resolveAll mark p.classContext scopes es).diagnostics =
      violations (Expr.allOccurrences p es) := by
  match es with
  | [] => rfl
  | e :: es =>
    simp [Expr.resolveAll, Expr.allOccurrences, e.diagnostics_resolve,
      Expr.diagnostics_resolveAll es]

theorem Expr.diagnostics_resolveEntries (entries : List (Expr Unit × Expr Unit)) :
    (Expr.resolveEntries mark p.classContext scopes entries).diagnostics =
      violations (Expr.entryOccurrences p entries) := by
  match entries with
  | [] => rfl
  | (key, value) :: entries =>
    simp [Expr.resolveEntries, Expr.entryOccurrences, key.diagnostics_resolve,
      value.diagnostics_resolve, Expr.diagnostics_resolveEntries entries]

end

theorem Expr.diagnostics_resolveOption (e : Option (Expr Unit)) :
    (Expr.resolveOption mark p.classContext scopes e).diagnostics =
      violations (Expr.optionOccurrences p e) := by
  cases e with
  | none => rfl
  | some e => simp [Expr.resolveOption, Expr.optionOccurrences, Expr.diagnostics_resolve]

theorem Marker.diagnostics_resolve (m : Marker Unit) :
    (m.resolve mark p.classContext scopes).diagnostics = violations (m.occurrences p) := by
  cases m <;>
    simp [Marker.resolve, Marker.occurrences, Expr.diagnostics_resolve,
      Expr.diagnostics_resolveAll]

end

theorem diagnostics_resolveSuperclass (mark : Scopes → Hops → β) (scopes : Scopes)
    (p : Position) (name parent : Name) :
    (resolveSuperclass mark scopes name (some (parent, ()))).diagnostics =
      (Occurrence.mk (.inheriting name parent) p).diagnostic?.toList := by
  by_cases hself : parent.text = name.text <;>
    simp [resolveSuperclass, Bound.reportIf, Occurrence.diagnostic?, hself]

namespace Position.Fits

variable {p : Position} {context : Context} {scopes : Scopes}

theorem diagnostics_expr (h : p.Fits context scopes) (e : Expr Unit) (scopes' : Scopes) :
    (e.resolve mark context.classes scopes').diagnostics = violations (e.occurrences p) :=
  h.classes ▸ Expr.diagnostics_resolve p scopes' e

theorem diagnostics_declare (h : p.Fits context scopes) (name : Name) :
    (scopes.declare name).diagnostics = (Occurrence.mk (.declaring name) p).diagnostic?.toList := by
  simp [Scopes.declare, h.diagnostics_declaring]

theorem diagnostics_declareUsable (h : p.Fits context scopes) (name : Name) :
    (scopes.declareUsable name).diagnostics =
      (Occurrence.mk (.declaring name) p).diagnostic?.toList := by
  simp [Scopes.declareUsable, h.diagnostics_declare]

theorem diagnostics_declareAll (h : p.Fits context scopes) (names : List Name) :
    (scopes.declareAll names).diagnostics = violations (p.declarations names) := by
  induction names generalizing p scopes with
  | nil => rfl
  | cons name names ih =>
    have hrest := ih (h.declare name true)
    simp [Scopes.declareAll, Position.declarations, h.diagnostics_declareUsable,
      Scopes.result_declareUsable, hrest]

end Position.Fits

mutual

theorem Stmt.diagnostics_resolve {p : Position} {context : Context} {scopes : Scopes}
    (h : p.Fits context scopes) {s : Stmt Unit} (hs : s.Proper) :
    (s.resolve mark context scopes).diagnostics = violations (s.occurrences p) := by
  match s with
  | .expression value => simp [Stmt.resolve, Stmt.occurrences, h.diagnostics_expr]
  | .print value => simp [Stmt.resolve, Stmt.occurrences, h.diagnostics_expr]
  | .var name none =>
    simp [Stmt.resolve, Stmt.occurrences, h.diagnostics_declare, Expr.resolveOption,
      Bound.reportIf]
  | .var name (some value) =>
    have hown := h.diagnostics_initializing name value
    simp [Stmt.resolve, Stmt.occurrences, h.diagnostics_declare, Expr.resolveOption,
      h.diagnostics_expr, hown]
  | .block body => simp [Stmt.resolve, Stmt.occurrences, Stmt.diagnostics_resolveAll h.inBlock hs]
  | .branch condition yes none =>
    simp [Stmt.resolve, Stmt.occurrences, h.diagnostics_expr, Stmt.diagnostics_resolve h hs.2.1]
  | .branch condition yes (some no) =>
    have hscopes : (yes.resolve mark context scopes).result.2 = scopes :=
      (Stmt.scopes_resolve hs.2.1 context).trans (scopes.after_of_declares_nothing hs.2.2.1)
    simp [Stmt.resolve, Stmt.occurrences, h.diagnostics_expr, Stmt.diagnostics_resolve h hs.2.1,
      hscopes, Stmt.diagnostics_resolve h hs.2.2.2.1]
  | .whileLoop condition body =>
    simp [Stmt.resolve, Stmt.occurrences, h.diagnostics_expr,
      Stmt.diagnostics_resolve h.inLoopBody hs.2.1]
  | .doWhile body condition =>
    simp [Stmt.resolve, Stmt.occurrences, h.diagnostics_expr,
      Stmt.diagnostics_resolve h.inLoopBody hs.2.1]
  | .breakLoop line => simp [Stmt.resolve, Stmt.occurrences, h.diagnostics_jump]
  | .continueLoop line => simp [Stmt.resolve, Stmt.occurrences, h.diagnostics_jump]
  | .returnValue line value =>
    have hrule := h.diagnostics_returning line value.isSome
    simp [Stmt.resolve, Stmt.occurrences, h.classes, Expr.diagnostics_resolveOption, ← hrule]
  | .function decl =>
    have hdecl := Function.diagnostics_resolve { context with function := .function }
      (h.inFunction (scopes.set decl.name.text true)) hs
    simp [Stmt.resolve, Stmt.occurrences, h.diagnostics_declareUsable, Scopes.result_declareUsable,
      hdecl]
  | .classDecl name none methods =>
    have hmethods := Function.diagnostics_resolveMethods p false
      { context with classes := .rootClass }
      ((scopes.set name.text true).enter [Keyword.thisWord.text]) rfl hs.2
    simp [Stmt.resolve, Stmt.occurrences, h.diagnostics_declareUsable, Scopes.result_declareUsable,
      resolveSuperclass, hmethods]
  | .classDecl name (some (parent, ())) methods =>
    have hparent := diagnostics_resolveSuperclass mark (scopes.set name.text true) p name parent
    have hsome : (resolveSuperclass mark (scopes.set name.text true) name
      (some (parent, ()))).result.isSome = true := rfl
    have hmethods := Function.diagnostics_resolveMethods p true
      { context with classes := .subclass }
      (((scopes.set name.text true).enter [Keyword.superWord.text]).enter [Keyword.thisWord.text])
      rfl hs.2
    simp [Stmt.resolve, Stmt.occurrences, h.diagnostics_declareUsable, Scopes.result_declareUsable,
      hparent, hsome, hmethods]
  | .marker line m =>
    simp [Stmt.resolve, Stmt.occurrences, h.classes, Marker.diagnostics_resolve]

theorem Stmt.diagnostics_resolveAll {p : Position} {context : Context} {scopes : Scopes}
    (h : p.Fits context scopes) {ss : List (Stmt Unit)} (hs : Stmt.AllProper ss) :
    (Stmt.resolveAll mark context scopes ss).diagnostics =
      violations (Stmt.allOccurrences p ss) := by
  match ss with
  | [] => rfl
  | s :: ss =>
    simp [Stmt.resolveAll, Stmt.allOccurrences, Stmt.diagnostics_resolve h hs.1,
      Stmt.scopes_resolve hs.1, Stmt.diagnostics_resolveAll (h.after s) hs.2]

theorem Function.diagnostics_resolve {p : Position} (context : Context) {scopes : Scopes}
    (h : p.Fits { context with inLoop := false } (scopes.enter [])) {f : Function Unit}
    (hf : f.Proper) :
    (f.resolve mark context scopes).diagnostics = violations (f.occurrences p) := by
  obtain ⟨name, params, body⟩ := f
  simp [Function.resolve, Function.occurrences, h.diagnostics_declareAll,
    Stmt.diagnostics_resolveAll (h.declareAll params) hf.2.2]

theorem Function.diagnostics_resolveMethods (p : Position) (inherits : Bool) (context : Context)
    (scopes : Scopes) (hc : context.classes = if inherits then .subclass else .rootClass)
    {fs : List (Function Unit)} (hfs : Function.AllProper fs) :
    (Function.resolveMethods mark context scopes fs).diagnostics =
      violations (Function.methodOccurrences (p.inside (.classBody inherits)) fs) := by
  match fs with
  | [] => rfl
  | f :: fs =>
    have hfits := p.fits_method inherits f.name.text scopes
    rw [← hc] at hfits
    have hf := Function.diagnostics_resolve { context with
      function := if f.name.text = initializerName then .initializer else .method } hfits hfs.1
    have hrest := Function.diagnostics_resolveMethods p inherits context scopes hc hfs.2
    simp [Function.resolveMethods, Function.methodOccurrences, hf, hrest]

end

end

theorem Position.fits_top : Position.top.Fits .program [] where
  function := rfl
  classes := rfl
  inLoop := rfl
  isEmpty := rfl
  declares _ := rfl

/-- The diagnostics of a proper program. -/
theorem Program.diagnostics_resolve {program : Program Unit} (hp : Stmt.AllProper program) :
    (Program.resolve program).diagnostics = Occurrence.violations program.occurrences := by
  have hall : (Stmt.resolveAll (fun _ hops => hops) .program [] program).diagnostics =
      Occurrence.violations program.occurrences :=
    Stmt.diagnostics_resolveAll Position.fits_top hp
  simpa [Program.resolve, Program.resolveWith] using hall

/-- The diagnostics of a program that has been read are those of the occurrences that break a rule,
in order. At its end no scope is open, and whatever comes then is bound as if it came first. -/
theorem Source.diagnostics_are_broken_rules (text : String) (later : Program Unit) :
    let program := (Source.ofText text).program
    (Program.resolve program).diagnostics = Occurrence.violations program.occurrences ∧
      (Stmt.resolveAll (fun _ hops => hops) .program [] program).result.2 = [] ∧
      Program.resolve (program ++ later) = do
        let first ← Program.resolve program
        let rest ← Program.resolve later
        return first ++ rest := by
  intro program
  have hproper : Stmt.AllProper program := Source.proper_ofText text
  exact ⟨Program.diagnostics_resolve hproper, Stmt.scopes_resolveAll_top _ _ hproper,
    Program.resolve_append hproper later⟩

end LoxLang
