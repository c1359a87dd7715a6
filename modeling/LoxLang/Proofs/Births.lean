import LoxLang.Proofs.Courses
import LoxLang.Proofs.Texts

/-!
# Where classes come from

A class is made where its declaration is executed, and nowhere else, and once it has been made it
does not change. So for every class that there is in the course of a session, the session has come
to a point where it was declared (`Session.Visits.bears`): the class inherits from what its
superclass clause was at that point, and its methods are those of the declaration.
-/

namespace LoxLang

variable {σ : Scoping} {α : Type}

/-- What the first arena has is in the second one, at the same references. -/
def Arena.Le {region : Region} [Inhabited α] (a b : Arena region α) : Prop :=
  ∀ ref, a.Holds ref → b.Holds ref ∧ b.get ref = a.get ref

namespace Arena

variable {region : Region} [Inhabited α] {a b c : Arena region α}

theorem Le.refl (a : Arena region α) : a.Le a := fun _ h => ⟨h, rfl⟩

theorem Le.trans (h : a.Le b) (h' : b.Le c) : a.Le c := by
  intro ref href
  obtain ⟨hb, hget⟩ := h ref href
  obtain ⟨hc, hget'⟩ := h' ref hb
  exact ⟨hc, hget'.trans hget⟩

theorem le_alloc (x : α) : a.Le (a.alloc x).2 :=
  fun _ h => ⟨holds_alloc_of_holds x h, get_alloc_of_holds x h⟩

end Arena

/-- At the point `q` the declaration of the class `c` is executed, and the store `n` has the class
since then: `parent` is what its superclass clause is at this point, and its methods are those of
the declaration and see `scope`. -/
structure Point.Declares (q : Point σ) (n : Store σ) (c : Ref .cls) (parent : Option (Ref .cls))
    (methods : List (Function σ.Mark)) (scope : σ.Scope) : Prop where
  executed : ∃ name superclass, q.task = .exec (.classDecl name superclass methods) ∧
    superclass? superclass q.machine = .ok parent q.machine ∧
    n.classes.get c = Class.ofDecl q.machine.store name parent methods scope
  new : c = (q.machine.store.classes.alloc default).1
  kept : q.machine.store.classes.Le n.classes

/-- The class of the store was declared at a point of which `V` holds. -/
def Store.Made (V : Point σ → Prop) (n : Store σ) (c : Ref .cls) : Prop :=
  ∃ q parent methods scope, V q ∧ q.Declares n c parent methods scope

/-- The second store has the classes of the first, and the others were made at points of which `V`
holds. -/
structure Store.Bears (V : Point σ → Prop) (m n : Store σ) : Prop where
  kept : m.classes.Le n.classes
  made : ∀ c, n.classes.Holds c → m.classes.Holds c ∨ n.Made V c

namespace Store

variable {V V' : Point σ → Prop} {l m n : Store σ}

theorem Made.mono {c : Ref .cls} (h : m.Made V c) (hV : ∀ q, V q → V' q)
    (hmn : m.classes.Le n.classes) (hc : m.classes.Holds c) : n.Made V' c := by
  obtain ⟨q, parent, methods, scope, hq, hdeclares⟩ := h
  obtain ⟨name, superclass, htask, hparent, hget⟩ := hdeclares.executed
  refine ⟨q, parent, methods, scope, hV q hq, ⟨name, superclass, htask, hparent, ?_⟩,
    hdeclares.new, hdeclares.kept.trans hmn⟩
  exact (hmn c hc).2.trans hget

/-- The classes are the same. -/
theorem Bears.of_eq (h : n.classes = m.classes) : m.Bears V n :=
  ⟨h ▸ .refl _, fun _ hc => .inl (h ▸ hc)⟩

theorem Bears.mono (h : m.Bears V n) (hV : ∀ q, V q → V' q) : m.Bears V' n :=
  ⟨h.kept, fun c hc => (h.made c hc).imp_right fun hmade => hmade.mono hV (.refl _) hc⟩

theorem Bears.trans (hlm : l.Bears V m) (hmn : m.Bears V n) : l.Bears V n := by
  refine ⟨hlm.kept.trans hmn.kept, fun c hc => ?_⟩
  obtain hm | hmade := hmn.made c hc
  · obtain hl | hmade := hlm.made c hm
    · exact .inl hl
    · exact .inr (hmade.mono (fun _ h => h) hmn.kept hm)
  · exact .inr hmade

end Store

/-- Only making a class changes what classes there are. -/
theorem Op.classes_apply {op : Op σ} (hop : ∀ cls, op ≠ .newClass cls) (m : Machine σ) :
    (op.apply m).store.classes = m.store.classes := by
  cases op with
  | newClass cls => exact absurd rfl (hop cls)
  | write message ending => rfl
  | _ =>
    refine (Op.Quiet.still ?_ m).classes
    trivial

open Eval Dialogue

/-! ### Runs -/

namespace Task

variable {rounds depth : Nat} {V : Point σ → Prop}

/-- Executing the declaration of a class makes that class. -/
theorem bears_declareClass (name : Name) (superclass : Option (Name × σ.Mark))
    (methods : List (Function σ.Mark)) (m : Machine σ)
    (hV : V ⟨depth, .exec (.classDecl name superclass methods), m⟩) :
    m.store.Bears V ((declareClass name superclass methods).leaves m).store := by
  have hmakes := declareClass_makes name superclass methods m
  cases h : declareClass name superclass methods m with
  | ok a n =>
    obtain ⟨-, -, parent, inner, hparent, hclasses⟩ := hmakes.of_ok h
    have hkept : m.store.classes.Le n.store.classes := hclasses ▸ Arena.le_alloc _
    rw [leaves_of_ok h]
    refine ⟨hkept, fun c hc => ?_⟩
    rw [hclasses, Arena.holds_alloc_iff] at hc
    obtain hc | rfl := hc
    · exact .inl hc
    · refine .inr ⟨_, parent, methods, inner, hV, ⟨name, superclass, rfl, hparent, ?_⟩, rfl, hkept⟩
      rw [hclasses]
      exact Arena.get_alloc_self _ _
  | error why n =>
    rw [leaves_of_error h]
    exact .of_eq (hmakes.of_error h).classes

/-- Only the declaration of a class makes one. -/
theorem acts_bears (rounds depth : Nat) {t : Task σ}
    (hclass : ∀ name superclass methods, t ≠ .exec (.classDecl name superclass methods)) :
    (t.body rounds depth).Acts
      fun {β : Type} (x : Eval σ β) => ∀ m : Machine σ, m.store.Bears V (x.leaves m).store := by
  refine (t.acts_body rounds depth).mono fun hx => ?_
  refine hx.leaves (R := fun m n => m.store.Bears V n.store) (fun _ => .of_eq rfl) .trans ?_
  intro m op hop
  refine .of_eq (Op.classes_apply ?_ m)
  rintro cls rfl
  obtain ⟨name, superclass, methods, ht⟩ := hop
  exact hclass name superclass methods ht

end Task

/-- **Classes are made where they are declared,** throughout the course of a run. -/
theorem Course.bears {rounds : Nat} {V : Point σ → Prop}
    (hclosed : ∀ p q, V p → p.Calls rounds q → V q) :
    Course rounds V fun m n => m.store.Bears V n.store where
  refl _ := .of_eq rfl
  trans := .trans
  enter t m := .of_eq (congrArg Store.classes (t.store_enter m))
  leave t outer m := .of_eq (congrArg Store.classes (t.store_leave outer m))
  closed := hclosed
  moves depth t m hV := by
    by_cases hclass : ∃ name superclass methods, t = .exec (.classDecl name superclass methods)
    · obtain ⟨name, superclass, methods, rfl⟩ := hclass
      exact moves_perform_bind (Task.bears_declareClass name superclass methods m hV)
        fun _ _ _ => moves_pure
    · simp only [not_exists] at hclass
      exact (Task.acts_bears rounds depth hclass).moves _

namespace Program

variable {rounds depth : Nat} {program : Program σ.Mark} {m : Machine σ}

theorem course_bears (rounds depth : Nat) (program : Program σ.Mark) (m : Machine σ) :
    Course rounds (program.Visits rounds depth m)
      fun k n => k.store.Bears (program.Visits rounds depth m) n.store :=
  .bears fun _ _ hp hpq => hp.reaches (.single hpq)

theorem bears_run (rounds depth : Nat) (program : Program σ.Mark) (m : Machine σ) :
    m.store.Bears (program.Visits rounds depth m)
      ((Program.run rounds depth program).leaves m).store :=
  (ordered_body (course_bears rounds depth program m) fun _ h => h).whole

theorem Visits.bears {p : Point σ} (h : program.Visits rounds depth m p) :
    m.store.Bears (program.Visits rounds depth m) p.machine.store :=
  (h.course (course_bears rounds depth program m) fun _ h => h).1

end Program

/-! ### Sessions -/

namespace Session

variable {limits : Limits}

theorem bears_run (limits : Limits) (text : String) (m : Machine .bound) :
    m.store.Bears (Visits limits [text] m) ((run limits text).leaves m).store := by
  rw [(sameState_run limits text m).store]
  unfold ran
  split
  · rename_i haccepts
    have hprogram := Program.bears_run limits.rounds limits.depth (program text)
      ((prepare text).leaves m)
    rw [(sameState_prepare text m).store] at hprogram
    exact hprogram.mono fun q hq => .inl ⟨haccepts, hq⟩
  · exact .of_eq rfl

/-- **Every class has been declared.** The classes that there are at a point of a session were there
at its start, or were declared at points that the session comes to. -/
theorem Visits.bears {texts : List String} {m : Machine .bound} {p : Point .bound}
    (hp : Visits limits texts m p) : m.store.Bears (Visits limits texts m) p.machine.store := by
  induction texts generalizing m with
  | nil => exact hp.elim
  | cons text texts ih =>
    obtain ⟨haccepts, hp⟩ | hp := hp
    · have hprogram := hp.bears
      rw [(sameState_prepare text m).store] at hprogram
      exact hprogram.mono fun q hq => .inl ⟨haccepts, hq⟩
    · have hfirst : m.store.Bears (Visits limits (text :: texts) m)
          ((run limits text).leaves m).store :=
        (bears_run limits text m).mono fun q hq => hq.imp_right fun h => h.elim
      exact hfirst.trans ((ih hp).mono fun q hq => .inr hq)

end Session

end LoxLang
