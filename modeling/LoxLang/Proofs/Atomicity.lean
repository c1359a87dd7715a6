import LoxLang.Proofs.Dispatch
import LoxLang.Proofs.PairLists

/-!
# Operations that fail change nothing

An operation is applied to values: its operands are evaluated first, one after the other, and may
change whatever they like. From then on it either does all of its work, or halts with a fault and
leaves the machine as the operands have left it (`Eval.Atomic`). The reason is the same in all of
them: everything is checked before anything is done (`Eval.Atomic.of_checks`).

A call of a native function is carried out as an operation as well, but has been noted by then, as
one that has not returned.

An element that is written by a subscript is the only thing that changes, and is there for the next
one who reads it (`Session.operations_are_atomic`).
-/

namespace LoxLang

variable {σ : Scoping} {α β : Type}

/-! ### Computations -/

namespace Eval

/-- If the computation halts with a fault, then the machine is left as it was. -/
def Atomic (x : Eval σ α) : Prop := ∀ m f n, x m = .error (.fault f) n → n = m

/-- The computation does not halt with a fault. -/
def Faultless (x : Eval σ α) : Prop := ∀ m f n, x m ≠ .error (.fault f) n

variable {x : Eval σ α} {g : α → Eval σ β}

theorem Faultless.atomic (hx : x.Faultless) : x.Atomic := fun m f n h => absurd h (hx m f n)

theorem Faultless.bind (hx : x.Faultless) (hg : ∀ a, (g a).Faultless) : (x >>= g).Faultless := by
  intro m f n h
  cases hm : x m with
  | ok a k => exact hg a k f n ((bind_of_ok hm g).symm.trans h)
  | error why k =>
    rw [bind_of_error hm] at h
    cases h
    exact hx m f _ hm

theorem faultless_pure {a : α} : (pure a : Eval σ α).Faultless := fun _ _ _ h => by cases h

theorem faultless_modifyGet {g : Machine σ → α × Machine σ} :
    (modifyGet g : Eval σ α).Faultless := fun _ _ _ h => by cases h

theorem faultless_defect {d : Defect} : (halt (.defect d) : Eval σ α).Faultless :=
  fun _ _ _ h => by cases h

theorem faultless_expect {r : Except Defect α} : (expect r : Eval σ α).Faultless := by
  cases r with
  | ok a => exact faultless_pure
  | error d => exact faultless_defect

theorem faultless_scope : (scope : Eval σ σ.Scope).Faultless := fun _ _ _ h => by cases h

theorem faultless_store : (store : Eval σ (Store σ)).Faultless := fun _ _ _ h => by cases h

/-- Checks leave the machine as it is. -/
theorem atomic_of_does (hx : x.Does fun _ => False) : x.Atomic :=
  fun m _ _ h => (hx.same m).of_error h

theorem atomic_fault {cause : Cause} {place : Token} : (fault cause place : Eval σ α).Atomic :=
  atomic_of_does made_fault.does

/-- **Checks come first.** A computation that begins with checks is atomic if the rest is. -/
theorem Atomic.of_checks (hx : x.Does fun _ => False) (hg : ∀ a, (g a).Atomic) :
    (x >>= g).Atomic := by
  intro m f n h
  cases hm : x m with
  | ok a k =>
    obtain rfl : k = m := (hx.same m).of_ok hm
    exact hg a k f n ((bind_of_ok hm g).symm.trans h)
  | error why k =>
    rw [bind_of_error hm] at h
    cases h
    exact (hx.same m).of_error hm

/-- What is given along with the result makes no difference. -/
theorem Atomic.bind_pure (hx : x.Atomic) {g : α → β} :
    (x >>= fun a => pure (g a) : Eval σ β).Atomic := by
  intro m f n h
  cases hm : x m with
  | ok a k =>
    rw [bind_of_ok hm] at h
    cases h
  | error why k =>
    rw [bind_of_error hm] at h
    cases h
    exact hx m f _ hm

/-! ### Variables, properties and elements -/

theorem faultless_put {slot : σ.Slot} {v : Value} : (put slot v).Faultless := faultless_modifyGet

theorem faultless_announce {name : String} : (announce name : Eval σ σ.Slot).Faultless :=
  faultless_scope.bind fun _ => faultless_expect.bind fun _ => faultless_modifyGet

theorem atomic_readVariable {mark : σ.Mark} {token : Token} : (readVariable mark token).Atomic :=
  atomic_of_does made_readVariable.does

theorem atomic_assign {mark : σ.Mark} {name : Name} {v : Value} : (assign mark name v).Atomic :=
  .of_checks made_locate.does fun _ => faultless_put.atomic

theorem atomic_property {object : Ref .object} {name : Name} :
    (property object name : Eval σ Value).Atomic := by
  refine .of_checks made_store.does fun s => ?_
  dsimp only
  split
  · exact faultless_pure.atomic
  · split
    · exact Faultless.atomic faultless_modifyGet
    · exact atomic_fault

theorem atomic_superMethod {mark : σ.Mark} {name : Name} : (superMethod mark name).Atomic := by
  refine .of_checks does_get fun m => .of_checks made_expect.does fun found => ?_
  split
  · split
    · exact Faultless.atomic faultless_modifyGet
    · exact atomic_fault
  · exact faultless_defect.atomic

theorem atomic_setElement {container position value : Value} {bracket : Token} :
    (setElement container position value bracket : Eval σ Unit).Atomic := by
  unfold setElement
  split
  · refine .of_checks made_store.does fun s => .of_checks made_listPosition.does fun i => ?_
    split
    · exact Faultless.atomic faultless_modifyGet
    · exact faultless_defect.atomic
  · exact .of_checks made_checkKey.does fun _ => .of_checks made_store.does fun _ =>
      .of_checks made_expect.does fun _ => Faultless.atomic faultless_modifyGet
  · exact atomic_fault

end Eval

open Eval

/-! ### Native functions and classes -/

namespace Native

theorem atomic_removeKey {ref : Ref .map} {key : Value} :
    (removeKey ref key : Eval σ Value).Atomic := by
  unfold removeKey
  split
  · exact .of_checks made_store.does fun _ => .of_checks made_expect.does fun _ =>
      (faultless_modifyGet.bind fun _ => faultless_pure).atomic
  · exact atomic_of_does made_halt.does

theorem atomic_popLast {ref : Ref .list} : (popLast ref : Eval σ Value).Atomic := by
  refine .of_checks made_store.does fun s => ?_
  dsimp only
  split
  · exact atomic_of_does made_halt.does
  · split
    · exact faultless_defect.atomic
    · exact (faultless_modifyGet.bind fun _ => faultless_pure).atomic

theorem faultless_enough {r : Option α} : (enough r : Eval σ α).Faultless := by
  cases r with
  | some a => exact faultless_pure
  | none => exact fun _ _ _ h => by cases h

/-- Native functions halt with a fault before they change anything, `input` not at all. -/
theorem atomic_call {depth : Nat} {f : Native} {arguments : List Value} :
    (call depth f arguments : Eval σ Value).Atomic := by
  unfold call
  split
  · exact Faultless.atomic faultless_modifyGet
  -- `input` writes before it reads, and neither can halt with a fault.
  · refine ((faultless_store.bind fun _ => faultless_enough).bind fun _ => ?_).atomic
    exact faultless_modifyGet.bind fun _ => faultless_modifyGet
  · exact atomic_of_does made_length.does
  · exact atomic_of_does (made_expectMap.bind fun _ => made_store.bind fun _ => made_pure).does
  · exact .of_checks made_expectMap.does fun _ => atomic_removeKey
  · exact .of_checks made_expectList.does fun _ =>
      (faultless_modifyGet.bind fun _ => faultless_pure).atomic
  · exact .of_checks made_expectList.does fun _ => atomic_popLast
  · exact faultless_defect.atomic

end Native

/-- The superclass is looked up before the name of the class is declared. -/
theorem atomic_declareClass {name : Name} {superclass : Option (Name × σ.Mark)}
    {methods : List (Function σ.Mark)} : (declareClass name superclass methods).Atomic := by
  rw [declareClass_eq]
  refine .of_checks made_superclass?.does fun parent => (faultless_announce.bind fun slot =>
    faultless_scope.bind fun scope => ?_).atomic
  have hscope : (methodScope parent scope : Eval σ σ.Scope).Faultless := by
    cases parent with
    | none => exact faultless_pure
    | some parent => exact faultless_modifyGet
  exact hscope.bind fun _ => faultless_store.bind fun _ => faultless_modifyGet.bind fun _ =>
    faultless_put

/-! ### Operands -/

/-- Evaluate expressions one after the other. -/
def evaluate (rounds depth : Nat) (es : List (Expr σ.Mark)) : Eval σ (List Value) :=
  es.mapM fun e => Task.run rounds depth (.eval e)

/-- All that is left of the expression, once the operands `es` have the values `vs`, is to apply an
operation to these values. -/
inductive Expr.Applies {μ : Type} : Expr μ → (es : List (Expr μ)) → (vs : List Value) → Prop where
  | unary {op line operand v} : Applies (.unary op line operand) [operand] [v]
  | binary {left op line right v w} : Applies (.binary left op line right) [left, right] [v, w]
  | index {container position line v w} :
    Applies (.index container position line) [container, position] [v, w]
  | setIndex {container position value line u v w} :
    Applies (.setIndex container position value line) [container, position, value] [u, v, w]
  | get {object name v} : Applies (.get object name) [object] [v]
  | set {object name value o v} : Applies (.set object name value) [object, value] [.object o, v]
  /-- What is not an object is refused before the value is evaluated. -/
  | setNonObject {object name value v} (hv : ∀ o, v ≠ .object o) :
    Applies (.set object name value) [object] [v]
  | var {name mark} : Applies (.var name mark) [] []
  | assign {name value mark v} : Applies (.assign name value mark) [value] [v]
  | thisRef {line mark} : Applies (.thisRef line mark) [] []
  | superRef {line method mark} : Applies (.superRef line method mark) [] []

section

variable {rounds depth : Nat} {m n k : Machine σ}

theorem evaluate_cons {e : Expr σ.Mark} {es : List (Expr σ.Mark)} {vs : List Value}
    (h : evaluate rounds depth (e :: es) m = .ok vs n) :
    ∃ v k vs', Task.run rounds depth (.eval e) m = .ok v k ∧
      evaluate rounds depth es k = .ok vs' n ∧ vs = v :: vs' := by
  rw [evaluate, List.mapM_cons] at h
  obtain ⟨v, k, hv, h⟩ := exists_of_bind_ok h
  obtain ⟨vs', k', hvs', h⟩ := exists_of_bind_ok h
  cases h
  exact ⟨v, k, vs', hv, hvs', rfl⟩

theorem evaluate_one {e : Expr σ.Mark} {v : Value}
    (h : evaluate rounds depth [e] m = .ok [v] n) :
    Task.run rounds depth (.eval e) m = .ok v n := by
  obtain ⟨v', k, vs', hv, hnil, hvs⟩ := evaluate_cons h
  cases hvs
  cases hnil
  exact hv

theorem Task.run_eval {e : Expr σ.Mark} :
    Task.run rounds (depth + 1) (.eval e) m =
      (e.body depth).run (Task.run rounds depth) m := by
  cases h : (e.body depth).run (Task.run rounds depth) m with
  | ok v n => exact Task.run_of_ok (t := .eval e) h
  | error why n => exact Task.run_of_error (t := .eval e) h

theorem Dialogue.run_eval_bind {e : Expr σ.Mark} {v : Value} {f : Value → Dialogue σ α}
    (h : Task.run rounds depth (.eval e) m = .ok v n) :
    (Dialogue.eval e >>= f).run (Task.run rounds depth) m = (f v).run (Task.run rounds depth) n :=
  bind_of_ok h _

/-! ### Applying operations -/

/-- What is left of an expression once its operands are evaluated is atomic. -/
theorem Expr.Applies.exists_atomic {e : Expr σ.Mark} {es : List (Expr σ.Mark)} {vs : List Value}
    (h : e.Applies es vs) (hes : evaluate rounds depth es m = .ok vs n) :
    ∃ x : Eval σ Value, x.Atomic ∧ Task.run rounds (depth + 1) (.eval e) m = x n := by
  rw [Task.run_eval]
  cases h with
  | unary =>
    refine ⟨_, ?_, Dialogue.run_eval_bind (evaluate_one hes)⟩
    exact (atomic_of_does UnaryOp.made_apply.does).bind_pure
  | binary =>
    obtain ⟨v, k, vs', hleft, hes, hvs⟩ := evaluate_cons hes
    cases hvs
    refine ⟨_, ?_, (Dialogue.run_eval_bind hleft).trans
      (Dialogue.run_eval_bind (evaluate_one hes))⟩
    exact (atomic_of_does BinaryOp.made_apply.does).bind_pure
  | index =>
    obtain ⟨v, k, vs', hcontainer, hes, hvs⟩ := evaluate_cons hes
    cases hvs
    refine ⟨_, ?_, (Dialogue.run_eval_bind hcontainer).trans
      (Dialogue.run_eval_bind (evaluate_one hes))⟩
    exact (atomic_of_does made_element.does).bind_pure
  | setIndex =>
    obtain ⟨u, k, vs', hcontainer, hes, hvs⟩ := evaluate_cons hes
    cases hvs
    obtain ⟨v, k', vs', hposition, hes, hvs⟩ := evaluate_cons hes
    cases hvs
    refine ⟨_, ?_, (Dialogue.run_eval_bind hcontainer).trans
      ((Dialogue.run_eval_bind hposition).trans (Dialogue.run_eval_bind (evaluate_one hes)))⟩
    exact atomic_setElement.bind_pure
  | @get object name v =>
    refine ⟨_, ?_, Dialogue.run_eval_bind (evaluate_one hes)⟩
    cases v with
    | object o => exact atomic_property.bind_pure
    | _ => exact atomic_fault.bind_pure
  | set =>
    obtain ⟨u, k, vs', hobject, hes, hvs⟩ := evaluate_cons hes
    cases hvs
    refine ⟨_, ?_, (Dialogue.run_eval_bind hobject).trans
      (Dialogue.run_eval_bind (evaluate_one hes))⟩
    exact (Faultless.atomic faultless_modifyGet).bind_pure
  | @setNonObject object name value v hv =>
    refine ⟨_, ?_, Dialogue.run_eval_bind (evaluate_one hes)⟩
    cases v with
    | object o => exact absurd rfl (hv o)
    | _ => exact atomic_fault.bind_pure
  | var =>
    cases hes
    exact ⟨_, atomic_readVariable.bind_pure, rfl⟩
  | assign =>
    refine ⟨_, ?_, Dialogue.run_eval_bind (evaluate_one hes)⟩
    exact atomic_assign.bind_pure
  | thisRef =>
    cases hes
    exact ⟨_, atomic_readVariable.bind_pure, rfl⟩
  | superRef =>
    cases hes
    exact ⟨_, atomic_superMethod.bind_pure, rfl⟩

/-- A class whose declaration halts with a fault has not been declared. -/
theorem Task.eq_of_classDecl_fault {name : Name} {superclass : Option (Name × σ.Mark)}
    {methods : List (Function σ.Mark)} {f : Fault}
    (h : Task.run rounds depth (.exec (.classDecl name superclass methods)) m =
      .error (.fault f) n) : n = m := by
  cases depth with
  | zero => cases h
  | succ depth =>
    rw [Task.run_exec] at h
    exact atomic_declareClass.bind_pure m f n h

/-! ### Calls -/

/-- The machine with a call noted; a line may have been traced for it. -/
def Machine.Notes (m : Machine σ) (call : PendingCall) (n : Machine σ) : Prop :=
  ∃ errors, (m.tracing = false → errors = m.errors) ∧
    n = { m with errors := errors, calls := call :: m.calls }

theorem Dialogue.run_mapM_eval (es : List (Expr σ.Mark)) :
    (es.mapM (Dialogue.eval (σ := σ))).run (Task.run rounds depth) = evaluate rounds depth es := by
  induction es with
  | nil => rfl
  | cons e es ih =>
    rw [List.mapM_cons, evaluate, List.mapM_cons, Dialogue.run_bind]
    have hfirst : (Dialogue.eval e).run (Task.run rounds depth) = Task.run rounds depth (.eval e) :=
      bind_pure _
    rw [hfirst]
    refine congrArg _ (funext fun v => ?_)
    rw [Dialogue.run_bind, ih]
    rfl

/-- A call expression calls the value of the callee with the values of the arguments. -/
theorem Task.run_call_expr {callee : Expr σ.Mark} {arguments : List (Expr σ.Mark)} {line : Int}
    {v : Value} {vs : List Value}
    (h : evaluate rounds depth (callee :: arguments) m = .ok (v :: vs) n) :
    Task.run rounds (depth + 1) (.eval (.call callee arguments line)) m =
      Task.run rounds depth (.call v vs (.ofSymbol .rightParen line)) n := by
  obtain ⟨v', k, vs', hcallee, hes, hvs⟩ := evaluate_cons h
  cases hvs
  rw [Task.run_eval]
  refine (Dialogue.run_eval_bind hcallee).trans ?_
  rw [Dialogue.run_bind, Dialogue.run_mapM_eval, bind_of_ok hes]
  exact congrFun (bind_pure _) n

theorem noteCall_of_arity {callee : Value} {arguments : List Value} (paren : Token)
    (harity : m.store.arity? callee = some arguments.length) :
    ∃ n, noteCall callee arguments paren m = .ok () n ∧
      m.Notes ⟨m.store.calleeName callee, arguments⟩ n := by
  rcases noteCall_eq callee arguments paren m with ⟨-, errors, herrors, hnote⟩ | ⟨hne, -⟩
  · exact ⟨_, hnote, errors, herrors, rfl⟩
  · exact absurd harity hne

/-- A call that is refused has not been noted. -/
theorem Task.eq_of_call_fault {callee : Value} {arguments : List Value} {paren : Token} {f : Fault}
    (harity : m.store.arity? callee ≠ some arguments.length)
    (h : Task.run rounds depth (.call callee arguments paren) m = .error (.fault f) n) : n = m := by
  cases depth with
  | zero => cases h
  | succ depth =>
    rcases noteCall_eq callee arguments paren m with ⟨harity', -⟩ | ⟨-, cause, hnote⟩
    · exact absurd harity' harity
    · have hbody : (callBody callee arguments paren).run (Task.run rounds depth) m =
          .error (.fault ⟨cause, some paren⟩) m := bind_of_error hnote _
      rw [Task.run_of_error (t := .call callee arguments paren) hbody] at h
      cases h
      rfl

/-- A native function that halts with a fault has changed nothing. -/
theorem Task.eq_of_invoke_fault {g : Native} {arguments : List Value} {paren : Token} {f : Fault}
    (h : Task.run rounds depth (.invoke (.native g) arguments paren) m = .error (.fault f) n) :
    n = m := by
  cases depth with
  | zero => cases h
  | succ depth =>
    have hbody : (Task.body (σ := σ) rounds depth (.invoke (.native g) arguments paren)).run
        (Task.run rounds depth) = g.call depth arguments := Dialogue.run_perform _
    cases hcall : g.call depth arguments m with
    | ok v k =>
      rw [Task.run_of_ok (t := .invoke (.native g) arguments paren)
        ((congrFun hbody m).trans hcall)] at h
      cases h
    | error why k =>
      rw [Task.run_of_error (t := .invoke (.native g) arguments paren)
        ((congrFun hbody m).trans hcall)] at h
      cases why with
      | fault f' =>
        obtain rfl : k = m := Native.atomic_call m f' k hcall
        exact (EStateM.Result.error.inj h).2.symm
      | _ => cases h

/-- A call of a native function that halts with a fault has been noted, and that is all. -/
theorem Task.notes_of_call_fault {g : Native} {arguments : List Value} {paren : Token} {f : Fault}
    (harity : g.arity = arguments.length)
    (h : Task.run rounds depth (.call (.native g) arguments paren) m = .error (.fault f) n) :
    m.Notes ⟨g.name, arguments⟩ n := by
  cases depth with
  | zero => cases h
  | succ depth =>
    have harity : m.store.arity? (.native g) = some arguments.length := congrArg some harity
    obtain ⟨k, hnote, hnotes⟩ := noteCall_of_arity paren harity
    -- The call is noted on `k`, and only the function itself can still halt with a fault.
    cases hinvoke : Task.run rounds depth (.invoke (.native g) arguments paren) k with
    | ok v j =>
      have hbody : (callBody (.native g) arguments paren).run (Task.run rounds depth) m =
          .ok v { j with calls := j.calls.tail } :=
        (bind_of_ok hnote _).trans (bind_of_ok hinvoke _)
      rw [Task.run_of_ok (t := .call (.native g) arguments paren) hbody] at h
      cases h
    | error why j =>
      have hbody : (callBody (.native g) arguments paren).run (Task.run rounds depth) m =
          .error why j := (bind_of_ok hnote _).trans (bind_of_error hinvoke _)
      rw [Task.run_of_error (t := .call (.native g) arguments paren) hbody] at h
      cases h
      obtain rfl := Task.eq_of_invoke_fault hinvoke
      exact hnotes

/-! ### Writing elements -/

/-- The second machine differs from the first in the element `i` of the list `r` only, which is the
value. -/
structure Machine.PutsElement (m : Machine σ) (r : Ref .list) (i : Nat) (value : Value)
    (n : Machine σ) : Prop where
  rest : n = { m with store := { m.store with lists := n.store.lists } }
  holds : ∀ r', n.store.lists.Holds r' ↔ m.store.lists.Holds r'
  others : ∀ r', r' ≠ r → n.store.lists.get r' = m.store.lists.get r'
  bound : i < (m.store.lists.get r).size
  size : (n.store.lists.get r).size = (m.store.lists.get r).size
  elements : ∀ j, (n.store.lists.get r)[j]? =
    if j = i then some value else (m.store.lists.get r)[j]?

/-- The second machine differs from the first in the entry of the key in the map `r` only, which is
the value. A key that was not there comes last. -/
structure Machine.PutsEntry (m : Machine σ) (r : Ref .map) (key : Key) (shown value : Value)
    (n : Machine σ) : Prop where
  rest : n = { m with store := { m.store with maps := n.store.maps } }
  holds : ∀ r', n.store.maps.Holds r' ↔ m.store.maps.Holds r'
  others : ∀ r', r' ≠ r → n.store.maps.get r' = m.store.maps.get r'
  size : (n.store.maps.get r).size =
    if (m.store.maps.get r).contains key then (m.store.maps.get r).size
    else (m.store.maps.get r).size + 1
  keys : (n.store.maps.get r).keys =
    if (m.store.maps.get r).contains key then (m.store.maps.get r).keys
    else (m.store.maps.get r).keys ++ [key]
  entries : ∀ j, (n.store.maps.get r).get? j =
    if j = key then some (shown, value) else (m.store.maps.get r).get? j

/-- The second machine is the first one after the value has been written at the position of the list
or at the key of the map. -/
def Machine.Puts (m : Machine σ) (container position value : Value) (n : Machine σ) : Prop :=
  (∃ r x, ∃ i : Nat, container = .list r ∧ position = .number x ∧ x.isWhole = true ∧
    x.truncate? = some (i : Int) ∧ m.PutsElement r i value n) ∨
  ∃ r key, container = .map r ∧ Key.ofValue? position = some key ∧
    m.PutsEntry r key position value n

/-- A position that is accepted is that of an element. -/
theorem Eval.listPosition_ends {size : Nat} {position : Value} {bracket : Token} :
    (listPosition size position bracket).Ends m
      (fun i n => n = m ∧ ∃ x, ∃ j : Nat, i = j ∧ j < size ∧ position = .number x ∧
        x.isWhole = true ∧ x.truncate? = some (j : Int)) fun _ _ => True := by
  unfold listPosition
  split
  · rename_i x
    split
    · rename_i hwhole
      split
      · rename_i i htruncate
        split
        · trivial
        · rename_i hrange
          obtain ⟨j, rfl⟩ := Int.eq_ofNat_of_zero_le (by omega : 0 ≤ i)
          exact ⟨rfl, x, j, rfl, by omega, rfl, hwhole, htruncate⟩
      · trivial
    · trivial
  · trivial

theorem Eval.listPosition_of_truncate {size : Nat} {x : Number} {bracket : Token} {j : Nat}
    (hwhole : x.isWhole = true) (htruncate : x.truncate? = some (j : Int)) (hj : j < size) :
    listPosition size (.number x) bracket m = .ok (j : Int) m := by
  simp only [listPosition, hwhole, if_true, htruncate]
  rw [if_neg (by omega)]
  rfl

theorem Elements.index?_of_lt {size j : Nat} (hj : j < size) : index? size (j : Int) = some j :=
  index?_eq_some (by omega) (by omega)

/-- A list that has been written to has the value where it was written. -/
theorem Store.putsElement_modifyList {r : Ref .list} {i : Nat} {value : Value}
    (hr : m.store.lists.Holds r) (hi : i < (m.store.lists.get r).size) :
    m.PutsElement r i value
      { m with store := m.store.modifyList r (·.setIfInBounds i value) } := by
  have hget : ((m.store.modifyList r (·.setIfInBounds i value)).lists).get r =
      (m.store.lists.get r).setIfInBounds i value := Arena.get_modify_self _ hr
  refine ⟨rfl, fun r' => Arena.holds_modify_iff _ _ _ _, fun r' hr' => ?_, hi, ?_, fun j => ?_⟩
  · exact Arena.get_modify_of_ne _ _ hr'
  · rw [hget, Array.size_setIfInBounds]
  · rw [hget, Array.getElem?_setIfInBounds]
    by_cases hj : j = i
    · simp [hj, hi]
    · simp [hj, Ne.symm hj]

theorem Store.putsEntry_modifyMap {r : Ref .map} {key : Key} {shown value : Value}
    (hr : m.store.maps.Holds r) :
    m.PutsEntry r key shown value
      { m with store := m.store.modifyMap r fun _ =>
        Table.insert (m.store.maps.get r) key (shown, value) } := by
  have hget : ((m.store.modifyMap r fun _ =>
      Table.insert (m.store.maps.get r) key (shown, value)).maps).get r =
      Table.insert (m.store.maps.get r) key (shown, value) := Arena.get_modify_self _ hr
  refine ⟨rfl, fun r' => Arena.holds_modify_iff _ _ _ _, fun r' hr' => ?_, ?_, ?_, fun j => ?_⟩
  · exact Arena.get_modify_of_ne _ _ hr'
  · rw [hget, Table.size, Table.entries_insert]
    split <;> simp [Table.size]
  · rw [hget, Table.keys_insert]
  · rw [hget, Table.get?_insert]

/-- **Writing an element** changes that element only. -/
theorem Eval.puts_of_setElement {container position value : Value} {bracket : Token}
    (hcontainer : container.In m.store)
    (h : setElement container position value bracket m = .ok () n) :
    m.Puts container position value n := by
  refine Ends.of_ok (Q := fun _ n => m.Puts container position value n) (H := fun _ _ => True) ?_ h
  unfold setElement
  split
  · rename_i r
    refine ends_bind.2 (ends_store.2 (ends_bind.2 (listPosition_ends.mono ?_ fun _ _ _ => trivial)))
    rintro i k ⟨rfl, x, j, rfl, hj, rfl, hwhole, htruncate⟩
    rw [Elements.index?_of_lt hj]
    exact .inl ⟨r, x, j, rfl, rfl, hwhole, htruncate, Store.putsElement_modifyList hcontainer hj⟩
  · rename_i r
    unfold checkKey
    split
    · rename_i hkey
      obtain ⟨key, hkey⟩ := Option.isSome_iff_exists.1 hkey
      refine ends_bind.2 (ends_bind.2 (ends_store.2 (ends_bind.2 ?_)))
      rw [Entries.write_of_key hkey]
      exact .inr ⟨r, key, rfl, hkey, Store.putsEntry_modifyMap hcontainer⟩
    · trivial
  · trivial

/-- What has been written can be read. -/
theorem Machine.Puts.element {container position value : Value}
    (h : m.Puts container position value n) (depth : Nat) (bracket : Token) :
    Eval.element depth container position bracket n = .ok value n := by
  rcases h with ⟨r, x, i, rfl, rfl, hwhole, htruncate, hputs⟩ | ⟨r, key, rfl, hkey, hputs⟩
  · have hi : i < (n.store.lists.get r).size := hputs.size ▸ hputs.bound
    have hat : Elements.at? (n.store.lists.get r) i = some value := by
      rw [Elements.at?, Elements.index?_of_lt hi, Option.bind_some, hputs.elements, if_pos rfl]
    refine (bind_of_ok (x := Eval.store) (a := n.store) (n := n) rfl _).trans ?_
    refine (bind_of_ok (listPosition_of_truncate hwhole htruncate hi) _).trans ?_
    rw [hat]
    rfl
  · have hentry : (n.store.maps.get r).get? key = some (position, value) :=
      (hputs.entries key).trans (if_pos rfl)
    have hcheck : checkKey position bracket n = .ok () n := by
      rw [checkKey, Entries.isKey, hkey]
      rfl
    have hhas : Entries.has (n.store.maps.get r) position = true := by
      rw [Entries.has, hkey, Option.any_some, Table.contains_eq_isSome, hentry]
      rfl
    refine (bind_of_ok hcheck _).trans ?_
    refine (bind_of_ok (x := Eval.store) (a := n.store) (n := n) rfl _).trans ?_
    rw [if_pos hhas, Entries.read_of_key hkey, hentry]
    rfl

/-- A subscript that is written to has been given its value. -/
theorem Task.puts_of_setIndex_ok {container position value : Expr σ.Mark} {line : Int}
    {u v w a : Value} (hes : evaluate rounds depth [container, position, value] m = .ok [u, v, w] n)
    (hu : u.In n.store)
    (h : Task.run rounds (depth + 1) (.eval (.setIndex container position value line)) m =
      .ok a k) : a = w ∧ n.Puts u v w k := by
  obtain ⟨u', k₁, vs₁, hcontainer, hes, hvs⟩ := evaluate_cons hes
  cases hvs
  obtain ⟨v', k₂, vs₂, hposition, hes, hvs⟩ := evaluate_cons hes
  cases hvs
  rw [Task.run_eval] at h
  have h := (Dialogue.run_eval_bind hcontainer).symm.trans h
  have h := (Dialogue.run_eval_bind hposition).symm.trans h
  have h := (Dialogue.run_eval_bind (evaluate_one hes)).symm.trans h
  obtain ⟨⟨⟩, k', hset, h⟩ := exists_of_bind_ok h
  cases h
  exact ⟨rfl, Eval.puts_of_setElement hu hset⟩

end

/-! ### Sessions -/

/-- Operands that are evaluated have values that refer to something in the store. -/
theorem evaluate_in {hops : β → Hops} {rounds depth : Nat} {es : List (Expr β)} {vs : List Value}
    {m n : Machine (.frames hops)} {pending world : List Chain} (hm : m.Within pending world)
    (h : evaluate (σ := .frames hops) rounds depth es m = .ok vs n) :
    ∃ later, m.Evolves world n later ∧ ∀ v ∈ vs, v.In n.store := by
  induction es generalizing m vs world with
  | nil =>
    cases h
    exact ⟨world, .refl hm.sound, fun v hv => absurd hv List.not_mem_nil⟩
  | cons e es ih =>
    obtain ⟨v, k, vs', hv, hes, rfl⟩ := evaluate_cons h
    obtain ⟨later, hk, hvk⟩ :=
      ((upkeep_kept hops pending rounds).run depth (t := .eval e) ⟨hm, trivial⟩).of_ok hv
    obtain ⟨last, hn, hvs⟩ := ih (hm.evolves hk) hes
    refine ⟨last, hk.trans hn, List.forall_mem_cons.2 ⟨hn.store v hvk, hvs⟩⟩

namespace Session

/-- **Operations that fail change nothing.** Let the operands of an operation be evaluated, and let
`n` be the machine that they leave.

* An operator, a subscript, a property or a variable, read or written, that halts with a fault
  leaves just this machine.
* So does a call of something that cannot be called or takes another number of arguments.
* A native function leaves it with the call noted.
* A class whose superclass is no class is not declared.

In any session, a subscript that has been written to has changed at this one element, which can be
read from then on. -/
theorem operations_are_atomic (limits : Limits) (natives : List Native) (input : List String)
    (output : Option String) (tracing : Bool) (clock : Clock) (texts : List String) :
    (∀ d e es vs m n f k, e.Applies es vs →
      evaluate (σ := .bound) limits.rounds d es m = .ok vs n →
      Task.run limits.rounds (d + 1) (.eval e) m = .error (.fault f) k → k = n) ∧
    (∀ d callee arguments line v vs m n f k,
      evaluate (σ := .bound) limits.rounds d (callee :: arguments) m = .ok (v :: vs) n →
      Task.run limits.rounds (d + 1) (.eval (.call callee arguments line)) m =
        .error (.fault f) k →
      (n.store.arity? v ≠ some vs.length → k = n) ∧
      ∀ g, v = .native g → g.arity = vs.length → n.Notes ⟨g.name, vs⟩ k) ∧
    (∀ d name superclass methods m f k,
      Task.run (σ := .bound) limits.rounds d (.exec (.classDecl name superclass methods)) m =
        .error (.fault f) k → k = m) ∧
    ∀ d container position value line m u v w n a k,
      Visits limits texts (.start natives input output tracing clock)
        ⟨d + 1, .eval (.setIndex container position value line), m⟩ →
      evaluate (σ := .bound) limits.rounds d [container, position, value] m = .ok [u, v, w] n →
      Task.run limits.rounds (d + 1) (.eval (.setIndex container position value line)) m =
        .ok a k →
      a = w ∧ n.Puts u v w k ∧
        ∀ depth bracket, Eval.element depth u v bracket k = .ok w k := by
  refine ⟨?_, ?_, ?_, ?_⟩
  · intro d e es vs m n f k happlies hes h
    obtain ⟨x, hx, hrun⟩ := happlies.exists_atomic hes
    exact hx n f k (hrun.symm.trans h)
  · intro d callee arguments line v vs m n f k hes h
    rw [Task.run_call_expr hes] at h
    refine ⟨fun harity => Task.eq_of_call_fault harity h, ?_⟩
    rintro g rfl harity
    exact Task.notes_of_call_fault harity h
  · exact fun d name superclass methods m f k h => Task.eq_of_classDecl_fault h
  · intro d container position value line m u v w n a k hvisits hes h
    -- A list or map that is not in the store could not be written to.
    obtain ⟨world, hm⟩ := hvisits.within (within_start natives input output tracing clock)
    obtain ⟨later, -, hin⟩ := evaluate_in hm hes
    obtain ⟨rfl, hputs⟩ := Task.puts_of_setIndex_ok hes (hin u List.mem_cons_self) h
    exact ⟨rfl, hputs, hputs.element⟩

/-- The fault that a computation halts with. -/
def fault? {α : Type} (x : Eval .bound α) (m : Machine .bound) : Option Fault :=
  match x m with
  | .error (.fault f) _ => some f
  | _ => none

theorem exists_of_fault? {α : Type} {x : Eval .bound α} {m : Machine .bound} {f : Fault}
    (h : fault? x m = some f) : ∃ n, x m = .error (.fault f) n := by
  unfold fault? at h
  split at h
  · rename_i f' n hx
    cases h
    exact ⟨n, hx⟩
  · cases h

theorem exists_of_run' {α : Type} {x : Eval .bound α} {m : Machine .bound} {a : α}
    (h : x.run' m = some a) : ∃ n, x m = .ok a n := by
  unfold EStateM.run' EStateM.run at h
  cases hx : x m with
  | ok b n =>
    rw [hx] at h
    cases h
    exact ⟨n, rfl⟩
  | error why n =>
    rw [hx] at h
    cases h

/-- The point is a subscript that is written to and comes to its end. -/
def writesElement (rounds : Nat) : Point .bound → Bool
  | ⟨d + 1, .eval (.setIndex container position value line), m⟩ =>
    ((Task.run rounds (d + 1) (.eval (.setIndex container position value line))).run' m).isSome &&
      ((evaluate (σ := .bound) rounds d [container, position, value]).run' m).isSome
  | _ => false

theorem exists_of_writesElement {rounds : Nat} {p : Point .bound}
    (h : writesElement rounds p = true) :
    ∃ d container position value line m u v w n a k,
      p = ⟨d + 1, .eval (.setIndex container position value line), m⟩ ∧
      evaluate (σ := .bound) rounds d [container, position, value] m = .ok [u, v, w] n ∧
      Task.run rounds (d + 1) (.eval (.setIndex container position value line)) m = .ok a k := by
  unfold writesElement at h
  split at h
  · rename_i d container position value line m
    rw [Bool.and_eq_true, Option.isSome_iff_exists, Option.isSome_iff_exists] at h
    obtain ⟨⟨a, ha⟩, vs, hvs⟩ := h
    obtain ⟨k, hk⟩ := exists_of_run' ha
    obtain ⟨n, hn⟩ := exists_of_run' hvs
    obtain ⟨u, k₁, vs₁, -, hes₁, rfl⟩ := evaluate_cons hn
    obtain ⟨v, k₂, vs₂, -, hes₂, rfl⟩ := evaluate_cons hes₁
    obtain ⟨w, k₃, vs₃, -, hes₃, rfl⟩ := evaluate_cons hes₂
    cases hes₃
    exact ⟨d, container, position, value, line, m, u, v, w, _, a, k, rfl, hn, hk⟩
  · cases h

/-- A list is changed while the position in it is evaluated, which is none; a native function has
too few arguments; another is not given a list; and a list is no superclass. -/
theorem operations_are_atomic_shared :
    let text := "var l = [0]; l[0] = l;"
    let start := Machine.start [.push, .pop] [] none false ⟨0, []⟩
    let m := (run ⟨20, 9⟩ text).leaves start
    let l : Expr Hops := .var ⟨"l", 1⟩ none
    let push (arguments : List (Expr Hops)) := Expr.call (.var ⟨"push", 1⟩ none) arguments 1
    (∃ n f k, evaluate (σ := .bound) 9 9 [l, push [l, l], l] m =
        .ok [.list ⟨0⟩, .nil, .list ⟨0⟩] n ∧
      (m.store.lists.get ⟨0⟩).size = 1 ∧ (n.store.lists.get ⟨0⟩).size = 2 ∧
      Task.run 9 10 (.eval (.setIndex l (push [l, l]) l 1)) m = .error (.fault f) k ∧ k = n) ∧
    (∃ n f k, evaluate (σ := .bound) 9 9 [.var ⟨"push", 1⟩ none, push [l, l]] m =
        .ok [.native .push, .nil] n ∧
      Task.run (σ := .bound) 9 10 (.eval (push [push [l, l]])) m = .error (.fault f) k ∧ k = n) ∧
    (∃ n f k, evaluate (σ := .bound) 9 9 [.var ⟨"push", 1⟩ none, push [l, l], l] m =
        .ok [.native .push, .nil, .list ⟨0⟩] n ∧
      Task.run (σ := .bound) 9 10 (.eval (push [push [l, l], l])) m = .error (.fault f) k ∧
      n.Notes ⟨"push", [.nil, .list ⟨0⟩]⟩ k) ∧
    (∃ f k, Task.run (σ := .bound) 9 9 (.exec (.classDecl ⟨"C", 1⟩ (some (⟨"l", 1⟩, none)) [])) m =
        .error (.fault f) k ∧ k = m) ∧
    ∃ d container position value line j u v w n a k,
      Visits ⟨20, 9⟩ [text] start ⟨d + 1, .eval (.setIndex container position value line), j⟩ ∧
      evaluate (σ := .bound) 9 d [container, position, value] j = .ok [u, v, w] n ∧
      Task.run 9 (d + 1) (.eval (.setIndex container position value line)) j = .ok a k ∧
      a = w ∧ n.Puts u v w k ∧ Eval.element 0 u v (.ofSymbol .leftBracket 1) k = .ok w k := by
  intro text start m l push
  obtain ⟨hoperation, hcall, hclass, hwrite⟩ :=
    operations_are_atomic ⟨20, 9⟩ [.push, .pop] [] none false ⟨0, []⟩ [text]
  refine ⟨?_, ?_, ?_, ?_, ?_⟩
  · have hvs : (evaluate (σ := .bound) 9 9 [l, push [l, l], l]).run' m =
        some [.list ⟨0⟩, .nil, .list ⟨0⟩] := by decide +kernel
    have hsize : (((evaluate (σ := .bound) 9 9 [l, push [l, l], l]).leaves m).store.lists.get
        ⟨0⟩).size = 2 := by decide +kernel
    have hf : fault? (Task.run 9 10 (.eval (.setIndex l (push [l, l]) l 1))) m =
        some ⟨.positionNotWhole, some (.ofSymbol .leftBracket 1)⟩ := by decide +kernel
    obtain ⟨n, hn⟩ := exists_of_run' hvs
    obtain ⟨k, hk⟩ := exists_of_fault? hf
    rw [Eval.leaves_of_ok hn] at hsize
    exact ⟨n, _, k, hn, by decide +kernel, hsize, hk, hoperation 9 _ _ _ m n _ k .setIndex hn hk⟩
  · have hvs : (evaluate (σ := .bound) 9 9 [.var ⟨"push", 1⟩ none, push [l, l]]).run' m =
        some [.native .push, .nil] := by decide +kernel
    have hf : fault? (Task.run (σ := .bound) 9 10 (.eval (push [push [l, l]]))) m =
        some ⟨.wrongArity 2 1, some (.ofSymbol .rightParen 1)⟩ := by decide +kernel
    obtain ⟨n, hn⟩ := exists_of_run' hvs
    obtain ⟨k, hk⟩ := exists_of_fault? hf
    exact ⟨n, _, k, hn, hk,
      (hcall 9 _ _ 1 _ _ m n _ k hn hk).1 (by simp [Store.arity?, Native.arity])⟩
  · have hvs : (evaluate (σ := .bound) 9 9 [.var ⟨"push", 1⟩ none, push [l, l], l]).run' m =
        some [.native .push, .nil, .list ⟨0⟩] := by decide +kernel
    have hf : fault? (Task.run (σ := .bound) 9 10 (.eval (push [push [l, l], l]))) m =
        some ⟨.notList .push, some (.ofSymbol .rightParen 1)⟩ := by decide +kernel
    obtain ⟨n, hn⟩ := exists_of_run' hvs
    obtain ⟨k, hk⟩ := exists_of_fault? hf
    exact ⟨n, _, k, hn, hk, (hcall 9 _ _ 1 _ _ m n _ k hn hk).2 .push rfl rfl⟩
  · have hf : fault? (Task.run (σ := .bound) 9 9
        (.exec (.classDecl ⟨"C", 1⟩ (some (⟨"l", 1⟩, none)) []))) m =
        some ⟨.superclassNotClass, some (Name.token ⟨"l", 1⟩)⟩ := by decide +kernel
    obtain ⟨k, hk⟩ := exists_of_fault? hf
    exact ⟨_, k, hk, hclass 9 _ _ _ m _ k hk⟩
  · have haccepts : Accepts text := by decide +kernel
    have hany : ((program text).points 9 20 ((prepare text).leaves start)).any
        (writesElement 9) = true := by decide +kernel
    obtain ⟨p, hp, hwrites⟩ := List.any_eq_true.1 hany
    obtain ⟨d, container, position, value, line, j, u, v, w, n, a, k, rfl, hn, hk⟩ :=
      exists_of_writesElement hwrites
    have hvisits : Visits ⟨20, 9⟩ [text] start
        ⟨d + 1, .eval (.setIndex container position value line), j⟩ :=
      .inl ⟨haccepts, Program.mem_points_iff.1 hp⟩
    obtain ⟨ha, hputs, helement⟩ :=
      hwrite d container position value line j u v w n a k hvisits hn hk
    exact ⟨d, container, position, value, line, j, u, v, w, n, a, k, hvisits, hn, hk, ha, hputs,
      helement 0 _⟩

end Session

end LoxLang
