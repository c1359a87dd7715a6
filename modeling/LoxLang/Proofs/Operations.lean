import LoxLang.Proofs.Changes

/-!
# What tasks do themselves

A task acts on the machine, and asks for further tasks. Its acts are made up of few operations on
the machine: a variable is declared or written, something is taken into the store, a line is
written, a call is noted. An `Op` is one of these, `Eval.Does` tells which of them a computation
does, `Eval.Made` also that it does not look at the streams, and `Dialogue.Acts` what the acts of a
dialogue are like, whatever the answers are.

Which operations there are depends on the task: classes are made only where one is declared, calls
are noted only by calls, and a task declares or writes no variable but the one that it names. This
is `Op.By`, and `Task.acts_made` says once and for all that a task does no more. What a relation
between machines allows of all single operations of a task, it allows of the acts of that task.
-/

namespace LoxLang

open Streams (Change)

variable {σ : Scoping} {α β γ : Type}

/-! ### Operations -/

/-- A single change to a machine. -/
inductive Op (σ : Scoping) where
  /-- Declare a variable that is nil. -/
  | announce (name : String)
  | put (slot : σ.Slot) (value : Value)
  /-- Open a scope, which does not become current by itself. -/
  | enter (scope : σ.Scope) (locals : List (String × Value))
  /-- Add lists and maps or change those that there are. -/
  | containers (lists : Arena .list Elements) (maps : Arena .map Entries)
  | newFunction (closure : Closure σ)
  | newClass (cls : Class σ)
  | newObject (cls : Ref .cls)
  | setField (object : Ref .object) (name : String) (value : Value)
  | write (message ending : String)
  | trace (words : List String)
  | readLine
  | readClock
  | pushCall (call : PendingCall)
  | popCall

namespace Eval

theorem leaves_of_ok {x : Eval σ α} {m n : Machine σ} {a : α} (h : x m = .ok a n) :
    x.leaves m = n := by
  rw [leaves, h]

theorem leaves_of_error {x : Eval σ α} {m n : Machine σ} {why : Halt} (h : x m = .error why n) :
    x.leaves m = n := by
  rw [leaves, h]

theorem leaves_bind_of_ok {x : Eval σ α} {m n : Machine σ} {a : α} (h : x m = .ok a n)
    (f : α → Eval σ β) : (x >>= f).leaves m = (f a).leaves n := by
  rw [leaves, bind_of_ok h, leaves]

theorem leaves_bind_of_error {x : Eval σ α} {m n : Machine σ} {why : Halt}
    (h : x m = .error why n) (f : α → Eval σ β) : (x >>= f).leaves m = n :=
  leaves_of_error (bind_of_error h f)

theorem leaves_modifyGet {g : Machine σ → α × Machine σ} {m : Machine σ} :
    (modifyGet g : Eval σ α).leaves m = (g m).2 := rfl

end Eval

/-- The machine after an operation. -/
def Op.apply (m : Machine σ) : Op σ → Machine σ
  | announce name => (Eval.announce name).leaves m
  | put slot value => (Eval.put slot value).leaves m
  | enter scope locals => { m with store := (m.store.enter scope locals).2 }
  | containers lists maps => { m with store := { m.store with lists := lists, maps := maps } }
  | newFunction closure => { m with store := (m.store.newFunction closure).2 }
  | newClass cls => { m with store := (m.store.newClass cls).2 }
  | newObject cls => { m with store := (m.store.newObject cls).2 }
  | setField object name value => { m with store := m.store.setField object name value }
  | write message ending => (Eval.write message ending).leaves m
  | trace words => (Eval.trace words).leaves m
  | readLine => Eval.readLine.leaves m
  | readClock => Eval.readClock.leaves m
  | pushCall call => (Eval.pushCall call).leaves m
  | popCall => Eval.popCall.leaves m

/-- A use or a declaration of a variable of the name may lead to the place. -/
def Scoping.Names (σ : Scoping) (name : String) (slot : σ.Slot) : Prop :=
  (∃ memory scope mark, σ.locate memory scope mark name = .ok slot) ∨
    ∃ scope update memory, σ.announce scope name = .ok update ∧ slot = (update memory).1.1

/-! ### Computations -/

namespace Eval

/-- Whatever comes of it, the computation does nothing to the machine but operations of which `P`
holds. -/
def Does (P : Op σ → Prop) (x : Eval σ α) : Prop :=
  ∀ m, Relation.ReflTransGen (fun m n => ∃ op, P op ∧ n = op.apply m) m (x.leaves m)

variable {P Q : Op σ → Prop} {x : Eval σ α} {f : α → Eval σ β}

/-- **A relation that allows the operations allows the computation.** -/
theorem Does.leaves (hx : x.Does P) {R : Machine σ → Machine σ → Prop} (hrefl : ∀ m, R m m)
    (htrans : ∀ {l m n}, R l m → R m n → R l n) (hop : ∀ m op, P op → R m (op.apply m))
    (m : Machine σ) : R m (x.leaves m) := by
  generalize x.leaves m = n, hx m = hsteps
  -- On the operations that lead from `m` to what the computation leaves.
  induction hsteps with
  | refl => exact hrefl m
  | tail _ hstep ih =>
    obtain ⟨op, hP, rfl⟩ := hstep
    exact htrans ih (hop _ op hP)

theorem Does.mono (hx : x.Does P) (h : ∀ op, P op → Q op) : x.Does Q := by
  intro m
  refine Relation.ReflTransGen.mono ?_ _ _ (hx m)
  rintro k n ⟨op, hP, rfl⟩
  exact ⟨op, h op hP, rfl⟩

/-- What goes on only has to be known for the results that there can be. -/
theorem Does.bind_of_ok (hx : x.Does P) (hf : ∀ a m n, x m = .ok a n → (f a).Does P) :
    (x >>= f).Does P := by
  intro m
  have hm := hx m
  cases h : x m with
  | ok a n =>
    rw [leaves_of_ok h] at hm
    rw [leaves_bind_of_ok h]
    exact hm.trans (hf a m n h n)
  | error why n =>
    rw [leaves_of_error h] at hm
    rwa [leaves_bind_of_error h]

theorem Does.bind (hx : x.Does P) (hf : ∀ a, (f a).Does P) : (x >>= f).Does P :=
  hx.bind_of_ok fun a _ _ _ => hf a

/-- A computation that leaves every machine as it is does nothing. -/
theorem does_of_leaves_eq (h : ∀ m, x.leaves m = m) : x.Does P := fun m => by
  rw [h m]

/-- A computation that is a single operation. -/
theorem does_of_apply {op : Op σ} (hop : P op) (h : ∀ m, x.leaves m = op.apply m) : x.Does P :=
  fun m => .single ⟨op, hop, h m⟩

/-- A computation without operations leaves the machine as it is. -/
theorem Does.same (hx : x.Does fun _ => False) (m : Machine σ) :
    x.Ends m (fun _ n => n = m) fun _ n => n = m := by
  have hm : x.leaves m = m :=
    hx.leaves (R := fun m n => n = m) (fun _ => rfl) (fun h h' => h'.trans h)
      (fun _ _ h => h.elim) m
  unfold Ends
  cases h : x m with
  | ok a n => rwa [leaves_of_ok h] at hm
  | error why n => rwa [leaves_of_error h] at hm

/-! What the operations leave that may fail, or depend on the machine. -/

theorem leaves_announce (name : String) (m : Machine σ) :
    (announce name).leaves m = m ∨ ∃ update, σ.announce m.scope name = .ok update ∧
      (announce name).leaves m =
        { m with
          store := { m.store with memory := (update m.store.memory).2 }
          scope := (update m.store.memory).1.2 } := by
  have hends : (announce name : Eval σ σ.Slot).Ends m
      (fun _ n => ∃ update, σ.announce m.scope name = .ok update ∧
        n = { m with
          store := { m.store with memory := (update m.store.memory).2 }
          scope := (update m.store.memory).1.2 }) fun _ n => n = m := by
    refine ends_bind.2 (ends_scope.2 (ends_bind.2 ?_))
    cases hupdate : σ.announce m.scope name with
    | ok update => exact ⟨update, rfl, rfl⟩
    | error d => exact rfl
  cases h : announce name m with
  | ok slot n =>
    rw [leaves_of_ok h]
    exact .inr (hends.of_ok h)
  | error why n =>
    rw [leaves_of_error h]
    exact .inl (hends.of_error h)

theorem leaves_trace (words : List String) (m : Machine σ) :
    ∃ errors, (trace words).leaves m = { m with errors := errors } := by
  by_cases htracing : m.tracing = true
  · exact ⟨_, (leaves_modifyGet (m := m)).trans (if_pos htracing)⟩
  · exact ⟨m.errors, (leaves_modifyGet (m := m)).trans (if_neg htracing)⟩

theorem leaves_readLine (m : Machine σ) :
    readLine.leaves m = m ∨
      ∃ line lines, m.input = line :: lines ∧ readLine.leaves m = { m with input := lines } := by
  rw [readLine, leaves_modifyGet]
  cases h : m.input with
  | nil => exact .inl rfl
  | cons line lines => exact .inr ⟨line, lines, rfl, rfl⟩

/-- What is declared is at a place that the name leads to. -/
theorem names_of_announce {name : String} {slot : σ.Slot} {m n : Machine σ}
    (h : announce name m = .ok slot n) : σ.Names name slot := by
  have hends : (announce name : Eval σ σ.Slot).Ends m (fun slot _ => σ.Names name slot)
      fun _ _ => True := by
    refine ends_bind.2 (ends_scope.2 (ends_bind.2 ?_))
    cases hupdate : σ.announce m.scope name with
    | ok update => exact .inr ⟨m.scope, update, m.store.memory, hupdate, rfl⟩
    | error d => exact trivial
  exact hends.of_ok h

/-! ### What computations are made up of -/

/-- The computation is made up of operations of which `P` holds, and does not look at the
streams. -/
structure Made (P : Op σ → Prop) (x : Eval σ α) : Prop where
  does : x.Does P
  oblivious : ∀ T : Change, x.Oblivious T

theorem Made.bind_of_ok (hx : x.Made P) (hf : ∀ a m n, x m = .ok a n → (f a).Made P) :
    (x >>= f).Made P where
  does := hx.does.bind_of_ok fun a m n h => (hf a m n h).does
  oblivious T := (hx.oblivious T).bind_of_ok fun a m n h => (hf a m n h).oblivious T

theorem Made.bind (hx : x.Made P) (hf : ∀ a, (f a).Made P) : (x >>= f).Made P :=
  hx.bind_of_ok fun a _ _ _ => hf a

theorem made_pure {a : α} : (pure a : Eval σ α).Made P :=
  ⟨does_of_leaves_eq fun _ => rfl, fun _ => oblivious_pure⟩

theorem made_halt {why : Halt} : (halt why : Eval σ α).Made P :=
  ⟨does_of_leaves_eq fun _ => rfl, fun _ => oblivious_halt⟩

theorem made_fault {cause : Cause} {place : Token} : (fault cause place : Eval σ α).Made P :=
  made_halt

theorem made_expect {r : Except Defect α} : (expect r : Eval σ α).Made P := by
  cases r with
  | ok a => exact made_pure
  | error d => exact made_halt

theorem made_enough {r : Option α} : (enough r : Eval σ α).Made P := by
  cases r with
  | some a => exact made_pure
  | none => exact made_halt

theorem does_get : (get : Eval σ (Machine σ)).Does P := does_of_leaves_eq fun _ => rfl

/-- What is looked up on a machine is not in the streams. -/
theorem made_get {f : Machine σ → Eval σ β} (hf : ∀ m, (f m).Made P)
    (hstreams : ∀ (T : Change) m, f (m.change T) = f m) : (get >>= f).Made P where
  does := does_get.bind fun m => (hf m).does
  oblivious T := oblivious_get (fun m => (hf m).oblivious T) (hstreams T)

theorem made_store : (store : Eval σ (Store σ)).Made P :=
  made_get (fun _ => made_pure) fun _ _ => rfl

theorem made_scope : (scope : Eval σ σ.Scope).Made P :=
  made_get (fun _ => made_pure) fun _ _ => rfl

theorem made_enter {scope : σ.Scope} {locals : List (String × Value)}
    (h : P (.enter scope locals)) : (alloc (·.enter scope locals)).Made P :=
  ⟨does_of_apply h fun _ => rfl, fun _ => oblivious_alloc⟩

theorem made_newFunction {closure : Closure σ} (h : P (.newFunction closure)) :
    (alloc (·.newFunction closure)).Made P :=
  ⟨does_of_apply h fun _ => rfl, fun _ => oblivious_alloc⟩

theorem made_newClass {cls : Class σ} (h : P (.newClass cls)) :
    (alloc (·.newClass cls)).Made P :=
  ⟨does_of_apply h fun _ => rfl, fun _ => oblivious_alloc⟩

theorem made_newObject {cls : Ref .cls} (h : P (.newObject cls)) :
    (alloc (·.newObject cls) : Eval σ (Ref .object)).Made P :=
  ⟨does_of_apply h fun _ => rfl, fun _ => oblivious_alloc⟩

theorem made_setField {object : Ref .object} {name : String} {v : Value}
    (h : P (.setField object name v)) : (modifyStore (σ := σ) (·.setField object name v)).Made P :=
  ⟨does_of_apply h fun _ => rfl, fun _ => oblivious_modifyStore⟩

theorem made_put {slot : σ.Slot} {v : Value} (h : P (.put slot v)) : (put slot v).Made P :=
  ⟨does_of_apply h fun _ => rfl, fun _ => oblivious_modifyStore⟩

theorem made_announce {name : String} (h : P (.announce name)) :
    (announce name : Eval σ σ.Slot).Made P :=
  ⟨does_of_apply h fun _ => rfl, fun _ => oblivious_announce⟩

theorem made_write {message ending : String} (h : P (.write message ending)) :
    (write message ending : Eval σ Unit).Made P :=
  ⟨does_of_apply h fun _ => rfl, fun _ => oblivious_write⟩

theorem made_trace {words : List String} (h : P (.trace words)) :
    (trace words : Eval σ Unit).Made P :=
  ⟨does_of_apply h fun _ => rfl, fun _ => oblivious_trace⟩

theorem made_readLine (h : P .readLine) : (readLine : Eval σ Value).Made P :=
  ⟨does_of_apply h fun _ => rfl, fun _ => oblivious_readLine⟩

theorem made_readClock (h : P .readClock) : (readClock : Eval σ Value).Made P :=
  ⟨does_of_apply h fun _ => rfl, fun _ => oblivious_readClock⟩

theorem made_pushCall {call : PendingCall} (h : P (.pushCall call)) :
    (pushCall call : Eval σ Unit).Made P :=
  ⟨does_of_apply h fun _ => rfl, fun _ => oblivious_modifyGet fun _ => rfl⟩

theorem made_popCall (h : P .popCall) : (popCall : Eval σ Unit).Made P :=
  ⟨does_of_apply h fun _ => rfl, fun _ => oblivious_modifyGet fun _ => rfl⟩

/-! ### Variables, properties and elements -/

theorem made_text {depth : Nat} {level : Int} {v : Value} :
    (text depth level v : Eval σ String).Made P :=
  made_store.bind fun _ => made_enough

theorem made_equal {depth : Nat} {a b : Value} : (equal depth a b : Eval σ Bool).Made P := by
  refine made_store.bind fun s => ?_
  cases a.equal s (depth / levelsPerStep) b with
  | ok answer => exact made_pure
  | error why => exact made_halt

/-- Looking for a place leaves the machine as it is, and finds a place that the name leads to. -/
theorem locate_names {mark : σ.Mark} {token : Token} (m : Machine σ) :
    (locate mark token).Ends m (fun slot n => n = m ∧ σ.Names token.lexeme slot)
      fun _ n => n = m := by
  refine ends_bind.2 (ends_get.2 ?_)
  cases hslot : σ.locate m.store.memory m.scope mark token.lexeme with
  | ok slot => exact ⟨rfl, .inl ⟨_, _, mark, hslot⟩⟩
  | error miss => cases miss <;> exact rfl

theorem made_locate {mark : σ.Mark} {token : Token} : (locate mark token).Made P := by
  refine made_get (fun m => ?_) fun _ _ => rfl
  split
  · exact made_pure
  · exact made_fault
  · exact made_halt

theorem made_readVariable {mark : σ.Mark} {token : Token} : (readVariable mark token).Made P := by
  refine made_locate.bind fun slot => made_store.bind fun s => ?_
  cases σ.get? s.memory slot with
  | some v => exact made_pure
  | none => exact made_halt

theorem made_assign {mark : σ.Mark} {name : Name} {v : Value}
    (h : ∀ slot, σ.Names name.text slot → P (.put slot v)) : (assign mark name v).Made P :=
  made_locate.bind_of_ok fun slot m _ hslot => made_put (h slot ((locate_names m).of_ok hslot).2)

/-- Binding a method opens a scope and makes a function. -/
theorem made_bindMethod {method : Closure σ} {object : Value}
    (henter : P (.enter method.scope [(Keyword.thisWord.text, object)]))
    (hfunction : ∀ scope, P (.newFunction { method with scope := scope })) :
    (bindMethod method object).Made P where
  does m := .tail (.single ⟨_, henter, rfl⟩)
    ⟨_, hfunction (m.store.enter method.scope [(Keyword.thisWord.text, object)]).1, rfl⟩
  oblivious _ := oblivious_alloc

theorem made_property {object : Ref .object} {name : Name}
    (henter : ∀ scope, P (.enter scope [(Keyword.thisWord.text, .object object)]))
    (hfunction : ∀ closure, P (.newFunction closure)) :
    (property object name : Eval σ Value).Made P := by
  refine made_store.bind fun s => ?_
  dsimp only
  split
  · exact made_pure
  · split
    · exact made_bindMethod (henter _) fun _ => hfunction _
    · exact made_fault

theorem made_superMethod {mark : σ.Mark} {name : Name}
    (henter : ∀ scope v, P (.enter scope [(Keyword.thisWord.text, v)]))
    (hfunction : ∀ closure, P (.newFunction closure)) : (superMethod mark name).Made P := by
  refine made_get (fun m => made_expect.bind fun found => ?_) fun _ _ => rfl
  split
  · split
    · exact made_bindMethod (henter _ _) fun _ => hfunction _
    · exact made_fault
  · exact made_halt

theorem made_listPosition {size : Nat} {position : Value} {bracket : Token} :
    (listPosition size position bracket : Eval σ Int).Made P := by
  unfold listPosition
  split
  · split
    · split
      · split
        · exact made_fault
        · exact made_pure
      · exact made_halt
    · exact made_fault
  · exact made_fault

theorem made_checkKey {key : Value} {place : Token} :
    (checkKey key place : Eval σ Unit).Made P := by
  unfold checkKey
  split
  · exact made_pure
  · exact made_fault

theorem made_element {depth : Nat} {container position : Value} {bracket : Token} :
    (element depth container position bracket : Eval σ Value).Made P := by
  unfold element
  split
  · refine made_store.bind fun s => made_listPosition.bind fun i => ?_
    split
    · exact made_pure
    · exact made_halt
  · refine made_checkKey.bind fun _ => made_store.bind fun s => ?_
    dsimp only
    split
    · exact made_expect
    · exact made_text.bind fun _ => made_fault
  · exact made_fault

section Containers

/-! The computations that change lists and maps. -/

variable (h : ∀ lists maps, P (.containers lists maps))

include h

theorem made_newList {elements : Elements} :
    (alloc (·.newList elements) : Eval σ Value).Made P :=
  ⟨fun _ => .single ⟨_, h _ _, rfl⟩, fun _ => oblivious_alloc⟩

theorem made_newMap {entries : Entries} : (alloc (·.newMap entries) : Eval σ Value).Made P :=
  ⟨fun _ => .single ⟨_, h _ _, rfl⟩, fun _ => oblivious_alloc⟩

theorem made_modifyList {ref : Ref .list} {g : Elements → Elements} :
    (modifyStore (σ := σ) (·.modifyList ref g)).Made P :=
  ⟨fun _ => .single ⟨_, h _ _, rfl⟩, fun _ => oblivious_modifyStore⟩

theorem made_modifyMap {ref : Ref .map} {g : Entries → Entries} :
    (modifyStore (σ := σ) (·.modifyMap ref g)).Made P :=
  ⟨fun _ => .single ⟨_, h _ _, rfl⟩, fun _ => oblivious_modifyStore⟩

theorem made_setElement {container position value : Value} {bracket : Token} :
    (setElement container position value bracket : Eval σ Unit).Made P := by
  unfold setElement
  split
  · refine made_store.bind fun s => made_listPosition.bind fun i => ?_
    split
    · exact made_modifyList h
    · exact made_halt
  · exact made_checkKey.bind fun _ => made_store.bind fun _ => made_expect.bind fun _ =>
      made_modifyMap h
  · exact made_fault

end Containers

end Eval

open Eval

variable {P Q : Op σ → Prop}

theorem UnaryOp.made_apply {op : UnaryOp} {line : Int} {v : Value} :
    (op.apply line v : Eval σ Value).Made P := by
  unfold UnaryOp.apply
  split
  · exact made_pure
  · exact made_pure
  · exact made_fault

theorem BinaryOp.made_apply {depth : Nat} {op : BinaryOp} {line : Int} {left right : Value} :
    (op.apply depth line left right : Eval σ Value).Made P := by
  unfold BinaryOp.apply
  dsimp only
  split
  · exact made_equal.bind fun _ => made_pure
  · exact made_equal.bind fun _ => made_pure
  · split
    · exact made_expect
    · exact made_pure
    · exact made_fault
  · split
    · exact made_expect
    · exact made_fault

namespace Native

theorem made_expectList {f : Native} {v : Value} :
    (expectList f v : Eval σ (Ref .list)).Made P := by
  unfold expectList
  split
  · exact made_pure
  · exact made_halt

theorem made_expectMap {f : Native} {v : Value} : (expectMap f v : Eval σ (Ref .map)).Made P := by
  unfold expectMap
  split
  · exact made_pure
  · exact made_halt

theorem made_length {v : Value} : (length v : Eval σ Value).Made P := by
  unfold length
  split
  · exact made_pure
  · exact made_store.bind fun _ => made_pure
  · exact made_store.bind fun _ => made_pure
  · exact made_halt

theorem made_removeKey (h : ∀ lists maps, P (.containers lists maps)) {ref : Ref .map}
    {key : Value} : (removeKey ref key : Eval σ Value).Made P := by
  unfold removeKey
  split
  · exact made_store.bind fun _ => made_expect.bind fun _ => (made_modifyMap h).bind fun _ =>
      made_pure
  · exact made_halt

theorem made_popLast (h : ∀ lists maps, P (.containers lists maps)) {ref : Ref .list} :
    (popLast ref : Eval σ Value).Made P := by
  refine made_store.bind fun s => ?_
  dsimp only
  split
  · exact made_halt
  · split
    · exact made_halt
    · exact (made_modifyList h).bind fun _ => made_pure

/-- Of the native functions only `input` writes, and only `input` reads lines. -/
theorem made_call (h : ∀ lists maps, P (.containers lists maps)) (hclock : P .readClock)
    {f : Native} (hwrite : f = .input → ∀ message, P (.write message ""))
    (hread : f = .input → P .readLine) {depth : Nat} {arguments : List Value} :
    (call depth f arguments : Eval σ Value).Made P := by
  unfold call
  split
  · exact made_readClock hclock
  · exact made_text.bind fun _ => (made_write (hwrite rfl _)).bind fun _ =>
      made_readLine (hread rfl)
  · exact made_length
  · exact made_expectMap.bind fun _ => made_store.bind fun _ => made_pure
  · exact made_expectMap.bind fun _ => made_removeKey h
  · exact made_expectList.bind fun _ => (made_modifyList h).bind fun _ => made_pure
  · exact made_expectList.bind fun _ => made_popLast h
  · exact made_halt

end Native

theorem made_writeEntry {brace : Token} {written : Entries} {key value : Value} :
    (writeEntry brace written key value : Eval σ Entries).Made P :=
  made_checkKey.bind fun _ => made_expect

/-! ### Declarations and calls -/

theorem made_superclass? {superclass : Option (Name × σ.Mark)} :
    (superclass? superclass).Made P := by
  cases superclass with
  | none => exact made_pure
  | some parent =>
    refine made_readVariable.bind fun v => ?_
    split
    · exact made_pure
    · exact made_fault

theorem made_methodScope {parent : Option (Ref .cls)} {outer : σ.Scope}
    (henter : ∀ scope c, P (.enter scope [(Keyword.superWord.text, .cls c)])) :
    (methodScope parent outer).Made P := by
  unfold methodScope
  split
  · exact made_pure
  · exact made_enter (henter _ _)

section Declarations

/-! `x` is the name that is declared. -/

variable {x : String} (hannounce : P (.announce x))
  (hput : ∀ slot v, σ.Names x slot → P (.put slot v))

include hannounce hput

theorem made_declareVariable {name : Name} (hx : name.text = x) {v : Value} :
    (declareVariable name v : Eval σ Unit).Made P := by
  subst hx
  exact (made_announce hannounce).bind_of_ok fun slot _ _ h =>
    made_put (hput slot v (names_of_announce h))

theorem made_declareFunction {decl : Function σ.Mark} (hx : decl.name.text = x)
    (hfunction : ∀ scope, P (.newFunction ⟨decl, scope, false⟩)) :
    (declareFunction decl).Made P := by
  subst hx
  refine (made_announce hannounce).bind_of_ok fun slot _ _ h => made_scope.bind fun scope => ?_
  exact (made_newFunction (hfunction scope)).bind fun _ =>
    made_put (hput slot _ (names_of_announce h))

theorem made_declareClass {name : Name} (hx : name.text = x)
    {superclass : Option (Name × σ.Mark)} {methods : List (Function σ.Mark)}
    (henter : ∀ scope c, P (.enter scope [(Keyword.superWord.text, .cls c)]))
    (hclass : ∀ cls, P (.newClass cls)) : (declareClass name superclass methods).Made P := by
  subst hx
  rw [declareClass_eq]
  refine made_superclass?.bind fun parent =>
    (made_announce hannounce).bind_of_ok fun slot _ _ h => made_scope.bind fun scope => ?_
  refine (made_methodScope henter).bind fun inner => made_store.bind fun s => ?_
  exact (made_newClass (hclass _)).bind fun _ => made_put (hput slot _ (names_of_announce h))

end Declarations

theorem Closure.made_result {f : Closure σ} {jump : Option Jump} : (f.result jump).Made P := by
  unfold Closure.result
  split
  · exact made_fault
  · exact made_fault
  · split
    · exact made_store.bind fun _ => made_expect
    · split
      · exact made_pure
      · exact made_pure

theorem made_noteCall (htrace : ∀ words, P (.trace words)) (hpush : ∀ call, P (.pushCall call))
    {callee : Value} {arguments : List Value} {paren : Token} :
    (noteCall callee arguments paren : Eval σ Unit).Made P := by
  refine made_store.bind fun s => ?_
  split
  · exact made_fault
  · split
    · exact made_fault
    · exact (made_trace (htrace _)).bind fun _ => made_pushCall (hpush _)

/-! ### Dialogues -/

namespace Dialogue

/-- `P` holds of all that the dialogue does to the machine itself, whatever the answers are. -/
def Acts (P : {β : Type} → Eval σ β → Prop) : Dialogue σ α → Prop
  | done _ => True
  | act x next => P x ∧ ∀ b, (next b).Acts P
  | ask _ next => ∀ a, (next a).Acts P

variable {P : {β : Type} → Eval σ β → Prop}

theorem acts_pure {a : α} : (pure a : Dialogue σ α).Acts P := trivial

theorem Acts.mono {P' : {β : Type} → Eval σ β → Prop} {p : Dialogue σ α} (hp : p.Acts P)
    (h : ∀ {β : Type} {x : Eval σ β}, P x → P' x) : p.Acts P' := by
  induction p with
  | done a => trivial
  | act x next ih => exact ⟨h hp.1, fun b => ih b (hp.2 b)⟩
  | ask t next ih => exact fun a => ih a (hp a)

theorem Acts.bind {p : Dialogue σ α} {f : α → Dialogue σ β} (hp : p.Acts P)
    (hf : ∀ a, (f a).Acts P) : (p >>= f).Acts P := by
  induction p with
  | done a => exact hf a
  | act x next ih => exact ⟨hp.1, fun b => ih b (hp.2 b)⟩
  | ask t next ih => exact fun a => ih a (hp a)

theorem acts_perform {x : Eval σ α} (hx : P x) : (perform x).Acts P := ⟨hx, fun _ => trivial⟩

theorem acts_ask {t : Task σ} : (ask t done).Acts P := fun _ => trivial

theorem acts_eval (e : Expr σ.Mark) : (eval e).Acts P := acts_ask

theorem acts_mapM {F : γ → Dialogue σ α} (hF : ∀ c, (F c).Acts P) (l : List γ) :
    (l.mapM F).Acts P := by
  induction l with
  | nil => exact acts_pure
  | cons c l ih =>
    rw [List.mapM_cons]
    exact (hF c).bind fun _ => ih.bind fun _ => acts_pure

theorem acts_foldlM {F : α → γ → Dialogue σ α} (hF : ∀ a c, (F a c).Acts P) (l : List γ) (a : α) :
    (l.foldlM F a).Acts P := by
  induction l generalizing a with
  | nil => exact acts_pure
  | cons c l ih =>
    rw [List.foldlM_cons]
    exact (hF a c).bind ih

end Dialogue

open Dialogue

/-- The name that a task declares or assigns by itself. -/
def Task.name? : Task σ → Option String
  | .eval (.assign name ..) => some name.text
  | .exec (.var name _) => some name.text
  | .exec (.function decl) => some decl.name.text
  | .exec (.classDecl name ..) => some name.text
  | _ => none

/-- What variables the task opens scopes with depends on the machine: it looks for a method of the
superclass, or carries out a call. -/
def Task.opensAny : Task σ → Bool
  | .eval (.superRef ..) | .invoke .. => true
  | _ => false

/-- The operation is one that the task may do. -/
def Op.By (t : Task σ) : Op σ → Prop
  | announce x => t.name? = some x
  | put slot _ => ∃ x, t.name? = some x ∧ σ.Names x slot
  | enter _ locals =>
    t.opensAny ∨ locals = [] ∨ (∃ c, locals = [(Keyword.superWord.text, .cls c)]) ∨
      ∃ object, locals = [(Keyword.thisWord.text, .object object)]
  | newClass _ => ∃ name superclass methods, t = .exec (.classDecl name superclass methods)
  | newObject _ => ∃ callee arguments paren, t = .invoke callee arguments paren
  | write .. => (∃ e, t = .exec (.print e)) ∨
    ∃ arguments paren, t = .invoke (.native .input) arguments paren
  | readLine => ∃ arguments paren, t = .invoke (.native .input) arguments paren
  | pushCall _ | popCall => ∃ callee arguments paren, t = .call callee arguments paren
  -- No use is made of which tasks do these.
  | containers .. | newFunction _ | setField .. | trace _ | readClock => True

theorem Closure.acts_apply (henter : ∀ scope locals, P (.enter scope locals)) {f : Closure σ}
    {arguments : List Value} : (f.apply arguments).Acts (Made P) :=
  (acts_perform (made_enter (henter _ _))).bind fun _ => acts_ask.bind fun _ =>
    acts_perform Closure.made_result

theorem Class.acts_instantiate (henter : ∀ scope locals, P (.enter scope locals))
    (hobject : ∀ c, P (.newObject c)) {cls : Ref .cls} {arguments : List Value} :
    (Class.instantiate (σ := σ) cls arguments).Acts (Made P) := by
  refine (acts_perform (made_newObject (hobject cls))).bind fun object =>
    (acts_perform made_store).bind fun s => ?_
  split
  · exact acts_pure
  · rename_i method _
    -- The initializer is called at once, so no function is made of it.
    have hbind : (alloc (·.bindMethod method (.object object))).Made P :=
      ⟨fun _ => .single ⟨_, henter method.scope [(Keyword.thisWord.text, .object object)], rfl⟩,
        fun _ => oblivious_alloc⟩
    exact (acts_perform hbind).bind fun _ => (Closure.acts_apply henter).bind fun _ => acts_pure

theorem acts_callBody {callee : Value} {arguments : List Value} {paren : Token} :
    (callBody (σ := σ) callee arguments paren).Acts
      (Made (Op.By (.call callee arguments paren))) := by
  have hcall : ∃ c as p, Task.call (σ := σ) callee arguments paren = .call c as p := ⟨_, _, _, rfl⟩
  refine (acts_perform (made_noteCall (fun _ => trivial) fun _ => hcall)).bind fun _ =>
    acts_ask.bind fun _ => ?_
  exact (acts_perform (made_popCall hcall)).bind fun _ => acts_pure

theorem acts_invokeBody {depth : Nat} {callee : Value} {arguments : List Value} {paren : Token} :
    (invokeBody depth callee arguments : Dialogue σ Value).Acts
      (Made (Op.By (.invoke callee arguments paren))) := by
  unfold invokeBody
  split
  · exact (acts_perform made_store).bind fun _ => Closure.acts_apply fun _ _ => .inl rfl
  · exact Class.acts_instantiate (fun _ _ => .inl rfl) fun _ => ⟨_, _, _, rfl⟩
  · refine acts_perform (Native.made_call (fun _ _ => trivial) trivial ?_ ?_)
    · rintro rfl -
      exact .inr ⟨_, _, rfl⟩
    · rintro rfl
      exact ⟨_, _, rfl⟩
  · exact acts_perform made_halt

theorem acts_whileRounds {condition : Expr σ.Mark} {body : Stmt σ.Mark} {rounds : Nat} :
    (whileRounds condition body rounds).Acts (Made P) := by
  induction rounds with
  | zero => exact acts_perform made_halt
  | succ rounds ih =>
    refine acts_ask.bind fun v => ?_
    split
    · refine acts_ask.bind fun jump => ?_
      split
      · exact acts_pure
      · exact acts_pure
      · exact ih
    · exact acts_pure

theorem acts_doWhileRounds {body : Stmt σ.Mark} {condition : Expr σ.Mark} {rounds : Nat} :
    (doWhileRounds body condition rounds).Acts (Made P) := by
  induction rounds with
  | zero => exact acts_perform made_halt
  | succ rounds ih =>
    refine acts_ask.bind fun jump => ?_
    split
    · exact acts_pure
    · exact acts_pure
    · refine acts_ask.bind fun v => ?_
      split
      · exact ih
      · exact acts_pure

theorem acts_evalOption {e : Option (Expr σ.Mark)} : (evalOption e).Acts (Made P) := by
  cases e with
  | none => exact acts_pure
  | some e => exact acts_ask

theorem Expr.acts_body {depth : Nat} (e : Expr σ.Mark) :
    (e.body depth).Acts (Made (Op.By (.eval e))) := by
  cases e with
  | constant value => exact acts_pure
  | group inner => exact acts_ask
  | unary op line operand => exact acts_ask.bind fun _ => acts_perform UnaryOp.made_apply
  | binary left op line right =>
    exact acts_ask.bind fun _ => acts_ask.bind fun _ => acts_perform BinaryOp.made_apply
  | logical left op line right =>
    refine acts_ask.bind fun v => ?_
    split
    · exact acts_pure
    · exact acts_ask
  | var name mark => exact acts_perform made_readVariable
  | assign name value mark =>
    refine acts_ask.bind fun _ => (acts_perform (made_assign fun slot h => ?_)).bind fun _ =>
      acts_pure
    exact ⟨_, rfl, h⟩
  | call callee arguments line =>
    exact acts_ask.bind fun _ => (acts_mapM acts_eval _).bind fun _ => acts_ask
  | list elements line =>
    exact (acts_mapM acts_eval _).bind fun _ => acts_perform (made_newList fun _ _ => trivial)
  | map entries line =>
    refine (acts_foldlM (fun _ _ => ?_) _ _).bind fun _ =>
      acts_perform (made_newMap fun _ _ => trivial)
    exact acts_ask.bind fun _ => acts_ask.bind fun _ => acts_perform made_writeEntry
  | index container position line =>
    exact acts_ask.bind fun _ => acts_ask.bind fun _ => acts_perform made_element
  | setIndex container position value line =>
    exact acts_ask.bind fun _ => acts_ask.bind fun _ => acts_ask.bind fun _ =>
      (acts_perform (made_setElement fun _ _ => trivial)).bind fun _ => acts_pure
  | get object name =>
    refine acts_ask.bind fun v => ?_
    split
    · exact acts_perform (made_property (fun _ => .inr (.inr (.inr ⟨_, rfl⟩))) fun _ => trivial)
    · exact acts_perform made_fault
  | set object name value =>
    refine acts_ask.bind fun v => ?_
    split
    · exact acts_ask.bind fun _ => (acts_perform (made_setField trivial)).bind fun _ => acts_pure
    · exact acts_perform made_fault
  | thisRef line mark => exact acts_perform made_readVariable
  | superRef line method mark =>
    exact acts_perform (made_superMethod (fun _ _ => .inl rfl) fun _ => trivial)

theorem Stmt.acts_untilJump (body : List (Stmt σ.Mark)) : (untilJump body).Acts (Made P) := by
  induction body with
  | nil => exact acts_pure
  | cons s body ih =>
    refine acts_ask.bind fun jump => ?_
    split
    · exact acts_pure
    · exact ih

theorem Stmt.acts_body {rounds depth : Nat} (s : Stmt σ.Mark) :
    (s.body rounds depth).Acts (Made (Op.By (.exec s))) := by
  cases s with
  | expression value => exact acts_ask.bind fun _ => acts_pure
  | print value =>
    refine acts_ask.bind fun v => (acts_perform ?_).bind fun _ => acts_pure
    exact made_text.bind fun _ => made_write (.inl ⟨_, rfl⟩)
  | var name initializer =>
    refine acts_evalOption.bind fun v => (acts_perform ?_).bind fun _ => acts_pure
    exact made_declareVariable (P := Op.By (.exec (.var name initializer))) rfl
      (fun _ _ h => ⟨_, rfl, h⟩) rfl
  | block body =>
    refine (acts_perform (made_scope.bind fun _ => ?_)).bind fun _ => acts_ask
    exact made_enter (.inr (.inl rfl))
  | branch condition yes no =>
    refine acts_ask.bind fun v => ?_
    split
    · exact acts_ask
    · cases no with
      | none => exact acts_pure
      | some no => exact acts_ask
  | whileLoop condition body => exact acts_whileRounds
  | doWhile body condition => exact acts_doWhileRounds
  | breakLoop line => exact acts_pure
  | continueLoop line => exact acts_pure
  | returnValue line value => exact acts_evalOption.bind fun _ => acts_pure
  | function decl =>
    refine (acts_perform ?_).bind fun _ => acts_pure
    exact made_declareFunction (P := Op.By (.exec (.function decl))) rfl
      (fun _ _ h => ⟨_, rfl, h⟩) rfl fun _ => trivial
  | classDecl name superclass methods =>
    refine (acts_perform ?_).bind fun _ => acts_pure
    exact made_declareClass (P := Op.By (.exec (.classDecl name superclass methods))) rfl
      (fun _ _ h => ⟨_, rfl, h⟩) rfl (fun _ c => .inr (.inr (.inl ⟨c, rfl⟩))) fun _ =>
        ⟨_, _, _, rfl⟩
  | marker line m => exact (acts_perform (made_trace trivial)).bind fun _ => acts_pure

/-- **A task does only operations of its own,** and does not look at the streams. -/
theorem Task.acts_made (rounds depth : Nat) (t : Task σ) :
    (t.body rounds depth).Acts (Made (Op.By t)) := by
  cases t with
  | eval e => exact e.acts_body
  | call callee arguments paren => exact acts_callBody
  | invoke callee arguments paren => exact acts_invokeBody
  | block inner body => exact Stmt.acts_untilJump body
  | exec s => exact s.acts_body

theorem Task.acts_body (rounds depth : Nat) (t : Task σ) :
    (t.body rounds depth).Acts (Does (Op.By t)) :=
  (t.acts_made rounds depth).mono Made.does

/-- A program does nothing by itself: it only asks for its statements. -/
theorem Program.acts_made (program : Program σ.Mark) :
    (Program.body program).Acts (Made fun _ : Op σ => False) := by
  refine acts_foldlM (fun _ s => ?_) _ _
  unfold Stmt.topBody
  split
  · exact acts_ask
  · refine acts_ask.bind fun jump => ?_
    split
    · exact acts_pure
    · exact acts_perform made_halt

theorem Program.acts_body (program : Program σ.Mark) :
    (Program.body program).Acts (Does fun _ : Op σ => False) :=
  (Program.acts_made program).mono Made.does

end LoxLang
