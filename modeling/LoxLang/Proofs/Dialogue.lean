import LoxLang.Eval.Program
import Mathlib.Logic.Relation

/-!
# Reasoning about dialogues

How a computation ends is told by two predicates, one for its result and one for why it halts:
`Eval.Ends` for what acts on the machine only, and `Dialogue.Meets` for a dialogue, where a
`Contract` tells what may be asked for and what the answers are like. Both come apart at every step
of a computation, so that a statement about a whole body is proved by going through it once.

A contract is *kept* if the body of every task meets it. Then it holds of every task as it is
carried out (`Contract.Kept.run`) and at every point that a run comes to
(`Contract.Kept.before_of_reaches`): these are the two inductions over runs, and everything that is
proved about all runs or all points of them is a contract that is shown to be kept.
-/

namespace LoxLang

variable {σ : Scoping} {α β : Type}

namespace Eval

/-- Carried out on the machine `m`, the computation gives a result for which `Q` holds, or halts so
that `H` holds. -/
def Ends (x : Eval σ α) (m : Machine σ) (Q : α → Machine σ → Prop)
    (H : Halt → Machine σ → Prop) : Prop :=
  match x m with
  | .ok a n => Q a n
  | .error h n => H h n

variable {x : Eval σ α} {f : α → Eval σ β} {m : Machine σ} {Q Q' : α → Machine σ → Prop}
  {H H' : Halt → Machine σ → Prop}

theorem Ends.mono (hx : x.Ends m Q H) (hQ : ∀ a n, Q a n → Q' a n) (hH : ∀ h n, H h n → H' h n) :
    x.Ends m Q' H' := by
  unfold Ends at *
  cases hm : x m with
  | ok a n => rw [hm] at hx; exact hQ a n hx
  | error h n => rw [hm] at hx; exact hH h n hx

theorem Ends.of_ok {a : α} {n : Machine σ} (hx : x.Ends m Q H) (hm : x m = .ok a n) : Q a n := by
  unfold Ends at hx
  rwa [hm] at hx

theorem Ends.of_error {h : Halt} {n : Machine σ} (hx : x.Ends m Q H) (hm : x m = .error h n) :
    H h n := by
  unfold Ends at hx
  rwa [hm] at hx

/-- A computation ends as one that does the same from here on. -/
theorem Ends.of_eq {y : Eval σ α} {n : Machine σ} (hy : y.Ends n Q H) (h : x m = y n) :
    x.Ends m Q H := by
  unfold Ends
  rw [h]
  exact hy

@[simp]
theorem ends_pure {a : α} : (pure a : Eval σ α).Ends m Q H ↔ Q a m := Iff.rfl

@[simp]
theorem ends_bind {Q : β → Machine σ → Prop} :
    (x >>= f).Ends m Q H ↔ x.Ends m (fun a n => (f a).Ends n Q H) H := by
  simp only [Ends, bind, EStateM.bind]
  cases x m <;> rfl

@[simp]
theorem ends_halt {h : Halt} : (halt h : Eval σ α).Ends m Q H ↔ H h m := Iff.rfl

@[simp]
theorem ends_fault {cause : Cause} {place : Token} :
    (fault cause place : Eval σ α).Ends m Q H ↔ H (.fault ⟨cause, some place⟩) m := Iff.rfl

@[simp]
theorem ends_get {Q : Machine σ → Machine σ → Prop} :
    (get : Eval σ (Machine σ)).Ends m Q H ↔ Q m m := Iff.rfl

@[simp]
theorem ends_store {Q : Store σ → Machine σ → Prop} :
    (store : Eval σ (Store σ)).Ends m Q H ↔ Q m.store m := Iff.rfl

@[simp]
theorem ends_scope {Q : σ.Scope → Machine σ → Prop} :
    (scope : Eval σ σ.Scope).Ends m Q H ↔ Q m.scope m := Iff.rfl

@[simp]
theorem ends_modify {g : Machine σ → Machine σ} {Q : PUnit → Machine σ → Prop} :
    (modify g : Eval σ PUnit).Ends m Q H ↔ Q () (g m) := Iff.rfl

@[simp]
theorem ends_modifyGet {g : Machine σ → α × Machine σ} :
    (modifyGet g : Eval σ α).Ends m Q H ↔ Q (g m).1 (g m).2 := Iff.rfl

@[simp]
theorem ends_modifyStore {g : Store σ → Store σ} {Q : Unit → Machine σ → Prop} :
    (modifyStore g).Ends m Q H ↔ Q () { m with store := g m.store } := Iff.rfl

@[simp]
theorem ends_alloc {g : Store σ → α × Store σ} :
    (alloc g).Ends m Q H ↔ Q (g m.store).1 { m with store := (g m.store).2 } := Iff.rfl

@[simp]
theorem ends_put {slot : σ.Slot} {v : Value} {Q : Unit → Machine σ → Prop} :
    (put slot v).Ends m Q H ↔
      Q () { m with store := { m.store with memory := σ.put m.store.memory slot v } } := Iff.rfl

@[simp]
theorem ends_expect_ok {a : α} : (expect (.ok a) : Eval σ α).Ends m Q H ↔ Q a m := Iff.rfl

@[simp]
theorem ends_expect_error {d : Defect} :
    (expect (.error d) : Eval σ α).Ends m Q H ↔ H (.defect d) m := Iff.rfl

/-- A computation goes on from its first result. -/
theorem bind_of_ok {x : Eval σ α} {a : α} {n : Machine σ} (h : x m = .ok a n) (f : α → Eval σ β) :
    (x >>= f) m = f a n := by
  simp only [bind, EStateM.bind, h]

/-- A computation that halts does not go on. -/
theorem bind_of_error {x : Eval σ α} {h : Halt} {n : Machine σ} (hx : x m = .error h n)
    (f : α → Eval σ β) : (x >>= f) m = .error h n := by
  simp only [bind, EStateM.bind, hx]

/-- A computation that comes to its end has a first result. -/
theorem exists_of_bind_ok {x : Eval σ α} {f : α → Eval σ β} {b : β} {n : Machine σ}
    (h : (x >>= f) m = .ok b n) : ∃ a k, x m = .ok a k ∧ f a k = .ok b n := by
  cases hx : x m with
  | ok a k => exact ⟨a, k, rfl, (bind_of_ok hx f).symm.trans h⟩
  | error why k =>
    rw [bind_of_error hx] at h
    cases h

/-- The machine that a computation leaves, whatever comes of it. -/
def leaves (x : Eval σ α) (m : Machine σ) : Machine σ :=
  match x m with
  | .ok _ n => n
  | .error _ n => n

theorem Ends.leaves {x : Eval σ α} {m : Machine σ} {P : Machine σ → Prop}
    {H : Halt → Prop} (h : x.Ends m (fun _ n => P n) fun why n => P n ∧ H why) :
    P (x.leaves m) := by
  unfold Eval.leaves
  cases hx : x m with
  | ok a n => exact h.of_ok hx
  | error why n => exact (h.of_error hx).1

end Eval

/-! ### Declaring a class -/

/-- What the methods of a class see: if the class inherits from another, that other class is `super`
in a scope of their own. -/
def methodScope (parent : Option (Ref .cls)) (outer : σ.Scope) : Eval σ σ.Scope :=
  match parent with
  | none => return outer
  | some parent => Eval.alloc (·.enter outer [(Keyword.superWord.text, .cls parent)])

/-- Nothing but the methods takes notice of it that the scope of `super` is current for a while: it
might as well only be handed to them. -/
theorem declareClass_eq (name : Name) (superclass : Option (Name × σ.Mark))
    (methods : List (Function σ.Mark)) :
    declareClass name superclass methods = (do
      let parent ← superclass? superclass
      let slot ← Eval.announce name.text
      let inner ← methodScope parent (← Eval.scope)
      let closures := methods.map fun m => (m.name.text, Closure.ofMethod inner m)
      let ancestors := (parent.map (← Eval.store).line).getD []
      let cls ← Eval.alloc (·.newClass ⟨name.text, ancestors, .ofList closures⟩)
      Eval.put slot cls) := by
  refine bind_congr fun parent => bind_congr fun slot => ?_
  cases parent with
  | none => rfl
  | some parent => rfl

/-! ### Contracts -/

/-- What may be asked of a task, and what its answers are like. A ghost is what is known of a task
but not part of it. -/
structure Contract (σ : Scoping) where
  Ghost : Type
  /-- The task may be asked for on this machine. -/
  before : Ghost → Task σ → Machine σ → Prop
  /-- The answer, and the machine that the task leaves. -/
  after : Ghost → (t : Task σ) → Machine σ → t.Answer → Machine σ → Prop
  /-- Why the task halts, and the machine that it leaves. -/
  halts : Ghost → Task σ → Machine σ → Halt → Machine σ → Prop

namespace Dialogue

theorem andThen_done (p : Dialogue σ α) : p.andThen done = p := by
  induction p with
  | done a => rfl
  | act x next ih => exact congrArg (act x) (funext ih)
  | ask t next ih => exact congrArg (ask t) (funext ih)

theorem andThen_assoc {γ : Type} (p : Dialogue σ α) (f : α → Dialogue σ β)
    (g : β → Dialogue σ γ) : (p.andThen f).andThen g = p.andThen fun a => (f a).andThen g := by
  induction p with
  | done a => rfl
  | act x next ih => exact congrArg (act x) (funext ih)
  | ask t next ih => exact congrArg (ask t) (funext ih)

instance : LawfulMonad (Dialogue σ) :=
  LawfulMonad.mk' (Dialogue σ) andThen_done (fun _ _ => rfl) andThen_assoc

/-- Carried out on the machine `m`, with answers as in the contract, the dialogue asks only for what
the contract allows; and it gives a result for which `Q` holds, or halts so that `H` holds. -/
def Meets (C : Contract σ) : Dialogue σ α → Machine σ → (α → Machine σ → Prop) →
    (Halt → Machine σ → Prop) → Prop
  | done a, m, Q, _ => Q a m
  | act x next, m, Q, H => x.Ends m (fun b n => (next b).Meets C n Q H) H
  | ask t next, m, Q, H =>
    ∃ g, C.before g t m ∧ (∀ a n, C.after g t m a n → (next a).Meets C n Q H) ∧
      ∀ h n, C.halts g t m h n → H h n

variable {C : Contract σ} {m : Machine σ} {p : Dialogue σ α} {f : α → Dialogue σ β}
  {Q Q' : α → Machine σ → Prop} {H H' : Halt → Machine σ → Prop}

theorem Meets.mono (hp : p.Meets C m Q H) (hQ : ∀ a n, Q a n → Q' a n)
    (hH : ∀ h n, H h n → H' h n) : p.Meets C m Q' H' := by
  induction p generalizing m with
  | done a => exact hQ a m hp
  | act x next ih => exact Eval.Ends.mono hp (fun b n hn => ih b hn) hH
  | ask t next ih =>
    obtain ⟨g, hg, hafter, hhalts⟩ := hp
    exact ⟨g, hg, fun a n hn => ih a (hafter a n hn), fun h n hn => hH h n (hhalts h n hn)⟩

@[simp]
theorem meets_pure {a : α} : (pure a : Dialogue σ α).Meets C m Q H ↔ Q a m := Iff.rfl

@[simp]
theorem meets_perform {x : Eval σ α} : (perform x).Meets C m Q H ↔ x.Ends m Q H := Iff.rfl

theorem meets_bind {Q : β → Machine σ → Prop}
    (hp : p.Meets C m (fun a n => (f a).Meets C n Q H) H) : (p >>= f).Meets C m Q H := by
  induction p generalizing m with
  | done a => exact hp
  | act x next ih => exact Eval.Ends.mono hp (fun b n hn => ih b hn) fun h n hn => hn
  | ask t next ih =>
    obtain ⟨g, hg, hafter, hhalts⟩ := hp
    exact ⟨g, hg, fun a n hn => ih a (hafter a n hn), hhalts⟩

/-- One dialogue for each element of a list, in order. `I` tells what holds while the given elements
are still to come. -/
theorem meets_mapM {γ : Type} {F : γ → Dialogue σ α} {I : List γ → Machine σ → Prop}
    (hstep : ∀ a rest n, I (a :: rest) n → (F a).Meets C n (fun _ n' => I rest n') H)
    {l : List γ} (hm : I l m) : (l.mapM F).Meets C m (fun _ n => I [] n) H := by
  induction l generalizing m with
  | nil => exact hm
  | cons a rest ih =>
    rw [List.mapM_cons]
    refine meets_bind ((hstep a rest m hm).mono (fun _ n hn => meets_bind ?_) fun _ _ h => h)
    exact (ih hn).mono (fun _ _ h => h) fun _ _ h => h

/-- As `meets_mapM`, for dialogues that hand on a value. -/
theorem meets_foldlM {γ : Type} {F : α → γ → Dialogue σ α} {I : List γ → Machine σ → Prop}
    (hstep : ∀ b a rest n, I (a :: rest) n → (F b a).Meets C n (fun _ n' => I rest n') H)
    {l : List γ} {b : α} (hm : I l m) : (l.foldlM F b).Meets C m (fun _ n => I [] n) H := by
  induction l generalizing m b with
  | nil => exact hm
  | cons a rest ih =>
    rw [List.foldlM_cons]
    exact meets_bind ((hstep b a rest m hm).mono (fun _ _ hn => ih hn) fun _ _ h => h)

section Asks

variable {γ : Type} {self : (t : Task σ) → Eval σ t.Answer} {x : Eval σ γ} {next : γ → Dialogue σ α}
  {t u : Task σ} {later : t.Answer → Dialogue σ α} {n k : Machine σ}

theorem asks_act_of_ok {b : γ} (hx : x m = .ok b n) :
    (act x next).Asks self m u k ↔ (next b).Asks self n u k := by
  rw [Asks, hx]

theorem not_asks_act_of_error {why : Halt} (hx : x m = .error why n) :
    ¬ (act x next).Asks self m u k := by
  rw [Asks, hx]
  exact id

/-- A task that is asked for first is asked for, whatever comes of it. -/
theorem asks_ask_self : (ask t later).Asks self m t m := by
  rw [Asks]
  exact .inl ⟨rfl, rfl⟩

theorem asks_ask_of_ok {a : t.Answer} (ht : self t m = .ok a n) :
    (ask t later).Asks self m u k ↔ (u = t ∧ k = m) ∨ (later a).Asks self n u k := by
  rw [Asks, ht]

theorem asks_ask_of_error {why : Halt} (ht : self t m = .error why n) :
    (ask t later).Asks self m u k ↔ u = t ∧ k = m := by
  rw [Asks, ht, or_false]

end Asks

/-- The tasks that a dialogue asks for are allowed by the contract. -/
theorem Meets.before_of_asks {self : (t : Task σ) → Eval σ t.Answer}
    (hself : ∀ g t m, C.before g t m → (self t).Ends m (C.after g t m) (C.halts g t m))
    {u : Task σ} {n : Machine σ} (hp : p.Meets C m Q H) (ha : p.Asks self m u n) :
    ∃ g, C.before g u n := by
  induction p generalizing m with
  | done a => exact ha.elim
  | act x next ih =>
    unfold Asks at ha
    cases hx : x m with
    | ok b m' =>
      rw [hx] at ha
      exact ih b (Eval.Ends.of_ok hp hx) ha
    | error h m' => rw [hx] at ha; exact ha.elim
  | ask t next ih =>
    obtain ⟨g, hg, hafter, -⟩ := hp
    unfold Asks at ha
    obtain ⟨rfl, rfl⟩ | ha := ha
    · exact ⟨g, hg⟩
    · cases hx : self t m with
      | ok a m' =>
        rw [hx] at ha
        exact ih a (hafter a m' ((hself g t m hg).of_ok hx)) ha
      | error h m' => rw [hx] at ha; exact ha.elim

/-- A dialogue ends as it does by the contract, if the tasks do. -/
theorem Meets.run {self : (t : Task σ) → Eval σ t.Answer}
    (hself : ∀ g t m, C.before g t m → (self t).Ends m (C.after g t m) (C.halts g t m))
    (hp : p.Meets C m Q H) : (p.run self).Ends m Q H := by
  induction p generalizing m with
  | done a => exact hp
  | act x next ih =>
    exact Eval.ends_bind.2 (Eval.Ends.mono hp (fun b n hn => ih b hn) fun _ _ h => h)
  | ask t next ih =>
    obtain ⟨g, hg, hafter, hhalts⟩ := hp
    exact Eval.ends_bind.2 ((hself g t m hg).mono (fun a n hn => ih a (hafter a n hn)) hhalts)

end Dialogue

/-! ### Runs and their points -/

/-- A task with the machine it is asked for on and the levels that are left of the stack. -/
structure Point (σ : Scoping) where
  depth : Nat
  task : Task σ
  machine : Machine σ

namespace Point

/-- Carrying out the first task asks for the second one, a level further down. -/
def Calls (rounds : Nat) (p q : Point σ) : Prop :=
  p.depth = q.depth + 1 ∧
    (p.task.body rounds q.depth).Asks (Task.run rounds q.depth) (p.task.enter p.machine) q.task
      q.machine

/-- Carrying out the first task comes to the second one. -/
def Reaches (rounds : Nat) : Point σ → Point σ → Prop := Relation.ReflTransGen (Calls rounds)

end Point

/-- Running the program on the machine `m` comes to the point. -/
def Program.Visits (rounds depth : Nat) (program : Program σ.Mark) (m : Machine σ)
    (p : Point σ) : Prop :=
  ∃ t n, (Program.body program).Asks (Task.run rounds depth) m t n ∧
    Point.Reaches rounds ⟨depth, t, n⟩ p

/-- Running the programs one after the other comes to the point. Each starts on the machine that the
one before it has left. -/
def Program.AnyVisits (rounds depth : Nat) (programs : List (Program σ.Mark)) (m : Machine σ)
    (p : Point σ) : Prop :=
  match programs with
  | [] => False
  | program :: rest =>
    program.Visits rounds depth m p ∨
      AnyVisits rounds depth rest ((program.run rounds depth).leaves m) p

/-- A task ends as its body does, back in the scope that it has come from. -/
theorem Task.ends_run {rounds depth : Nat} {t : Task σ} {m : Machine σ}
    {Q : t.Answer → Machine σ → Prop} {H : Halt → Machine σ → Prop}
    (hbody : ((t.body rounds depth).run (Task.run rounds depth)).Ends (t.enter m)
      (fun a n => Q a (t.leave m.scope n)) fun h n => H (t.blame h) (t.leave m.scope n)) :
    (Task.run rounds (depth + 1) t).Ends m Q H := by
  unfold Eval.Ends at hbody ⊢
  unfold Task.run
  generalize (t.body rounds depth).run (Task.run rounds depth) (t.enter m) = result at hbody ⊢
  cases result with
  | ok a n => exact hbody
  | error h n => exact hbody

namespace Contract

variable {C : Contract σ} {rounds : Nat}

/-- The body of every task meets the contract. -/
structure Kept (C : Contract σ) (rounds : Nat) : Prop where
  body : ∀ depth g t m, C.before g t m →
    (t.body rounds depth).Meets C (t.enter m) (fun a n => C.after g t m a (t.leave m.scope n))
      fun h n => C.halts g t m (t.blame h) (t.leave m.scope n)
  exhausted : ∀ g t m, C.before g t m → C.halts g t m .exhausted m

/-- **Runs**: a contract that is kept holds of every task as it is carried out. -/
theorem Kept.run (hC : C.Kept rounds) (depth : Nat) {g : C.Ghost} {t : Task σ} {m : Machine σ}
    (hg : C.before g t m) : (Task.run rounds depth t).Ends m (C.after g t m) (C.halts g t m) := by
  -- On the levels: what a task asks for is carried out with one less.
  induction depth generalizing g t m with
  | zero => exact hC.exhausted g t m hg
  | succ depth ih =>
    exact Task.ends_run ((hC.body depth g t m hg).run fun g t m hg => ih hg)

/-- **Points**: where a contract that is kept allows the first task, it allows every one that
carrying it out comes to. -/
theorem Kept.before_of_reaches (hC : C.Kept rounds) {p q : Point σ}
    (hp : ∃ g, C.before g p.task p.machine) (hpq : p.Reaches rounds q) :
    ∃ g, C.before g q.task q.machine := by
  induction hpq with
  | refl => exact hp
  | tail _ hcalls ih =>
    obtain ⟨g, hg⟩ := ih
    exact (hC.body _ g _ _ hg).before_of_asks (fun _ _ _ hg => hC.run _ hg) hcalls.2

/-- A program whose body meets a contract that is kept visits only what the contract allows. -/
theorem Kept.before_of_visits (hC : C.Kept rounds) {depth : Nat} {program : Program σ.Mark}
    {m : Machine σ} {p : Point σ} {Q : Value → Machine σ → Prop} {H : Halt → Machine σ → Prop}
    (hbody : (Program.body program).Meets C m Q H) (hp : program.Visits rounds depth m p) :
    ∃ g, C.before g p.task p.machine := by
  obtain ⟨t, n, hasks, hreach⟩ := hp
  exact hC.before_of_reaches (hbody.before_of_asks (fun _ _ _ hg => hC.run depth hg) hasks) hreach

/-- A program whose body meets a contract that is kept ends accordingly. -/
theorem Kept.program_run (hC : C.Kept rounds) (depth : Nat) {program : Program σ.Mark}
    {m : Machine σ} {Q : Value → Machine σ → Prop} {H : Halt → Machine σ → Prop}
    (hbody : (Program.body program).Meets C m Q H) :
    (Program.run rounds depth program).Ends m Q H :=
  hbody.run fun _ _ _ hg => hC.run depth hg

end Contract

end LoxLang
