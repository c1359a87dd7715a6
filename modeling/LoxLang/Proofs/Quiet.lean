import LoxLang.Proofs.Operations
import LoxLang.Proofs.Reports

/-!
# Quiet tasks

Almost all of the operations on a machine are quiet (`Op.Quiet`): they write no message and make no
class. So almost all tasks are, in what they do themselves. The exceptions are printing, the native
function `input` and the declaration of a class (`Task.acts_quiet`).
-/

namespace LoxLang

variable {σ : Scoping} {α β : Type}

/-! ### Operations and computations that are quiet -/

/-- The second machine has the classes of the first, and no more has been written. -/
structure Machine.Still (m n : Machine σ) : Prop where
  classes : n.store.classes = m.store.classes
  effects : n.effects = m.effects
  output : n.output = m.output

theorem Machine.Still.refl (m : Machine σ) : m.Still m := ⟨rfl, rfl, rfl⟩

theorem Machine.Still.trans {l m n : Machine σ} (h : l.Still m) (h' : m.Still n) : l.Still n :=
  ⟨h'.classes.trans h.classes, h'.effects.trans h.effects, h'.output.trans h.output⟩

/-- The operation writes no message and makes no class. -/
def Op.Quiet : Op σ → Prop
  | newClass _ | write .. => False
  | _ => True

theorem Op.Quiet.still {op : Op σ} (hop : op.Quiet) (m : Machine σ) : m.Still (op.apply m) := by
  cases op with
  | newClass cls => exact hop.elim
  | write message ending => exact hop.elim
  | announce name =>
    obtain h | ⟨update, -, h⟩ := Eval.leaves_announce name m
    · rw [Op.apply, h]
      exact .refl m
    · rw [Op.apply, h]
      exact ⟨rfl, rfl, rfl⟩
  | trace words =>
    obtain ⟨errors, h⟩ := Eval.leaves_trace words m
    rw [Op.apply, h]
    exact ⟨rfl, rfl, rfl⟩
  | readLine =>
    obtain h | ⟨line, lines, -, h⟩ := Eval.leaves_readLine m
    · rw [Op.apply, h]
      exact .refl m
    · rw [Op.apply, h]
      exact ⟨rfl, rfl, rfl⟩
  | _ => exact ⟨rfl, rfl, rfl⟩

namespace Eval

/-- The computation writes no message and makes no class. -/
def Quiet (x : Eval σ α) : Prop := ∀ m : Machine σ, m.Still (x.leaves m)

variable {x : Eval σ α} {f : α → Eval σ β}

theorem Does.quiet (hx : x.Does Op.Quiet) : x.Quiet :=
  hx.leaves .refl .trans fun m _ hop => hop.still m

theorem Quiet.ends (hx : x.Quiet) (m : Machine σ) :
    x.Ends m (fun _ n => m.Still n) fun _ n => m.Still n := by
  have hm := hx m
  unfold Ends
  cases h : x m with
  | ok a n => rwa [leaves_of_ok h] at hm
  | error why n => rwa [leaves_of_error h] at hm

theorem Looks.leaves (hx : x.Looks) (m : Machine σ) : x.leaves m = m :=
  ((hx m).mono (fun _ _ h => h) fun _ _ h => ⟨h.2, h.1⟩).leaves

theorem quiet_pure {a : α} : (pure a : Eval σ α).Quiet := made_pure.does.quiet

theorem quiet_halt {why : Halt} : (halt why : Eval σ α).Quiet := made_halt.does.quiet

theorem locate_same {mark : σ.Mark} {token : Token} (m : Machine σ) :
    (locate mark token).Ends m (fun _ n => n = m) fun _ n => n = m :=
  made_locate.does.same m

/-- Reading a variable leaves the machine as it is. -/
theorem readVariable_same {mark : σ.Mark} {token : Token} (m : Machine σ) :
    (readVariable mark token).Ends m (fun _ n => n = m) fun _ n => n = m :=
  made_readVariable.does.same m

end Eval

open Eval

/-! ### Classes -/

/-- The class of a declaration, if it inherits from `parent` and its methods see `inner`. -/
def Class.ofDecl (s : Store σ) (name : Name) (parent : Option (Ref .cls))
    (methods : List (Function σ.Mark)) (inner : σ.Scope) : Class σ :=
  ⟨name.text, (parent.map s.line).getD [],
    .ofList (methods.map fun m => (m.name.text, Closure.ofMethod inner m))⟩

/-- Declaring a class makes one class and writes nothing. -/
theorem declareClass_makes (name : Name) (superclass : Option (Name × σ.Mark))
    (methods : List (Function σ.Mark)) (m : Machine σ) :
    (declareClass name superclass methods).Ends m
      (fun _ n => n.effects = m.effects ∧ n.output = m.output ∧
        ∃ parent inner, superclass? superclass m = .ok parent m ∧
          n.store.classes =
            (m.store.classes.alloc (Class.ofDecl m.store name parent methods inner)).2)
      fun _ n => m.Still n := by
  rw [declareClass_eq]
  have hsame : (superclass? superclass).Ends m (fun _ n => n = m) fun _ n => n = m :=
    made_superclass?.does.same m
  cases hparent : superclass? superclass m with
  | error why n =>
    obtain rfl := hsame.of_error hparent
    exact .of_eq (ends_halt.2 (.refl n)) (bind_of_error hparent _)
  | ok parent n =>
    obtain rfl := hsame.of_ok hparent
    refine .of_eq ?_ (bind_of_ok hparent _)
    have hannounce : (announce name.text : Eval σ σ.Slot).Quiet :=
      (made_announce trivial).does.quiet
    refine ends_bind.2 ((hannounce.ends n).mono (fun slot k hk => ?_) fun _ _ h => h)
    have hscope : (methodScope parent k.scope).Quiet :=
      (made_methodScope fun _ _ => trivial).does.quiet
    refine ends_bind.2 (ends_scope.2 (ends_bind.2 ?_))
    refine (hscope.ends k).mono (fun inner j hj => ?_) fun _ _ h => hk.trans h
    have hstill := hk.trans hj
    have hline : j.store.line = n.store.line := by
      funext c
      rw [Store.line, Store.line, hstill.classes]
    refine ends_bind.2 (ends_store.2 (ends_bind.2 (ends_alloc.2 (ends_put.2 ?_))))
    refine ⟨hstill.effects, hstill.output, parent, inner, rfl, ?_⟩
    simp only [Store.newClass, Class.ofDecl, hline, hstill.classes]

/-! ### Tasks -/

/-- **Tasks are quiet,** but for printing, calls of `input` and the declaration of classes. -/
theorem Task.acts_quiet (rounds depth : Nat) {t : Task σ} (hprint : ∀ e, t ≠ .exec (.print e))
    (hinput : ∀ arguments paren, t ≠ .invoke (.native .input) arguments paren)
    (hclass : ∀ name superclass methods, t ≠ .exec (.classDecl name superclass methods)) :
    (t.body rounds depth).Acts Quiet := by
  refine (t.acts_body rounds depth).mono fun hx => (hx.mono fun op hop => ?_).quiet
  cases op with
  | newClass cls =>
    obtain ⟨name, superclass, methods, ht⟩ := hop
    exact hclass name superclass methods ht
  | write message ending =>
    obtain ⟨e, ht⟩ | ⟨arguments, paren, ht⟩ := hop
    · exact hprint e ht
    · exact hinput arguments paren ht
  | _ => trivial

theorem Program.acts_quiet (program : Program σ.Mark) : (Program.body program).Acts Quiet :=
  (Program.acts_body program).mono fun hx => (hx.mono fun _ h => h.elim).quiet

end LoxLang
