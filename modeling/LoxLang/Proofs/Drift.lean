import LoxLang.Proofs.Operations
import LoxLang.Proofs.Reports
import LoxLang.Proofs.Streams

/-!
# What every step leaves alone

Whatever a program does and however it ends, some things about the machine stay as they were or
change in one direction only. A `Drift` is such a relation between the machine before and after: it
allows for what the single operations on a machine do, and for entering a scope and coming back from
it. Then it allows for every task (`Task.keeps_run`) and for every text (`Session.keeps_run`).

`Drift.scope` says that the same scope is current again; so a session is outside of all blocks after
every text, also if it has been cut off inside of many of them (`Session.scope_is_restored`).
`Drift.input` says that lines are read off the input and never put there, and `Drift.output` that
standard output stays attached.
-/

namespace LoxLang

variable {σ : Scoping} {α β γ : Type}

/-- How a machine may have changed while something was going on. -/
structure Drift (σ : Scoping) where
  /-- The first machine may have become the second. -/
  Allows : Machine σ → Machine σ → Prop
  refl : ∀ m, Allows m m
  trans : ∀ {l m n}, Allows l m → Allows m n → Allows l n
  store : ∀ m s, Allows m { m with store := s }
  /-- Anything may be written, but standard output is not attached or taken away. -/
  streams : ∀ m s, s.output.isSome = m.output.isSome → Allows m (m.withStreams s)
  calls : ∀ m calls, Allows m { m with calls := calls }
  /-- A line may be read. -/
  line : ∀ m line lines, m.input = line :: lines → Allows m { m with input := lines }
  clock : ∀ m clock, Allows m { m with clock := clock }
  /-- A variable may be declared in the current scope. -/
  announce : ∀ m name update, σ.announce m.scope name = .ok update →
    Allows m { m with scope := (update m.store.memory).1.2 }
  /-- Anything allowed may go on in another scope, as long as there is a way back. -/
  inside : ∀ m n inner, Allows { m with scope := inner } n → Allows m { n with scope := m.scope }

variable (D : Drift σ)

/-- **Every operation** is allowed for. -/
theorem Op.allowed (m : Machine σ) (op : Op σ) : D.Allows m (op.apply m) := by
  cases op with
  | announce name =>
    obtain h | ⟨update, hupdate, h⟩ := Eval.leaves_announce name m
    · rw [Op.apply, h]
      exact D.refl m
    · rw [Op.apply, h]
      exact D.trans (D.announce m name update hupdate) (D.store _ _)
  | write message ending =>
    exact D.streams m (m.streams.write message ending) (by simp [Streams.write, Machine.streams])
  | trace words =>
    obtain ⟨errors, h⟩ := Eval.leaves_trace words m
    rw [Op.apply, h]
    exact D.streams m { m.streams with errors := errors } rfl
  | readLine =>
    obtain h | ⟨line, lines, hinput, h⟩ := Eval.leaves_readLine m
    · rw [Op.apply, h]
      exact D.refl m
    · rw [Op.apply, h]
      exact D.line m line lines hinput
  | readClock => exact D.clock m m.clock.advance
  | pushCall call => exact D.calls m (call :: m.calls)
  | popCall => exact D.calls m m.calls.tail
  | _ => exact D.store m _

/-- The computation changes no machine more than that. -/
def Eval.Keeps (x : Eval σ α) : Prop :=
  ∀ m, x.Ends m (fun _ n => D.Allows m n) fun _ n => D.Allows m n

namespace Eval

variable {D} {x : Eval σ α} {f : α → Eval σ β}

theorem Keeps.leaves (hx : x.Keeps D) (m : Machine σ) : D.Allows m (x.leaves m) := by
  unfold Eval.leaves
  cases h : x m with
  | ok a n => exact (hx m).of_ok h
  | error why n => exact (hx m).of_error h

theorem Keeps.bind (hx : x.Keeps D) (hf : ∀ a, (f a).Keeps D) : (x >>= f).Keeps D := by
  intro m
  refine ends_bind.2 ((hx m).mono (fun a n hn => ?_) fun _ _ hn => hn)
  exact (hf a n).mono (fun _ _ => D.trans hn) fun _ _ => D.trans hn

theorem Does.keeps {P : Op σ → Prop} (hx : x.Does P) : x.Keeps D := by
  intro m
  have hm : D.Allows m (x.leaves m) := hx.leaves D.refl D.trans (fun m op _ => op.allowed D m) m
  unfold Ends
  cases h : x m with
  | ok a n => rwa [leaves_of_ok h] at hm
  | error why n => rwa [leaves_of_error h] at hm

theorem keeps_pure {a : α} : (pure a : Eval σ α).Keeps D := D.refl

theorem keeps_halt {why : Halt} : (halt why : Eval σ α).Keeps D := D.refl

theorem keeps_get : (get : Eval σ (Machine σ)).Keeps D := D.refl

theorem keeps_mapM {f : γ → Eval σ α} (hf : ∀ c, (f c).Keeps D) (l : List γ) :
    (l.mapM f).Keeps D := by
  induction l with
  | nil => exact keeps_pure
  | cons c l ih =>
    rw [List.mapM_cons]
    exact (hf c).bind fun _ => ih.bind fun _ => keeps_pure

theorem keeps_forM {f : γ → Eval σ PUnit} (hf : ∀ c, (f c).Keeps D) (l : List γ) :
    (l.forM f).Keeps D := by
  induction l with
  | nil => exact keeps_pure
  | cons c l ih => exact (hf c).bind fun _ => ih

end Eval

open Eval

variable {D}

/-! ### Runs -/

/-- A dialogue is allowed for if the tasks that it asks for are. -/
theorem Dialogue.keeps_run {P : Op σ → Prop} {self : (t : Task σ) → Eval σ t.Answer}
    (hself : ∀ t, (self t).Keeps D) {p : Dialogue σ α} (hp : p.Acts (Does P)) :
    (p.run self).Keeps D := by
  induction p with
  | done a => exact keeps_pure
  | act x next ih => exact hp.1.keeps.bind fun b => ih b (hp.2 b)
  | ask t next ih => exact (hself t).bind fun a => ih a (hp a)

/-- Only for a block is there another scope, and it is left by way of the former one. -/
theorem Task.allows_leave {t : Task σ} {m n : Machine σ} (h : D.Allows (t.enter m) n) :
    D.Allows m (t.leave m.scope n) := by
  cases t with
  | block inner body => exact D.inside m n inner h
  | _ => exact h

/-- **Every task** is allowed for, whatever comes of it. -/
theorem Task.keeps_run (rounds depth : Nat) (t : Task σ) : (Task.run rounds depth t).Keeps D := by
  induction depth generalizing t with
  | zero => exact keeps_halt
  | succ depth ih =>
    intro m
    have hbody := Dialogue.keeps_run ih (t.acts_body rounds depth) (t.enter m)
    exact Task.ends_run (hbody.mono (fun _ _ h => Task.allows_leave h) fun _ _ h =>
      Task.allows_leave h)

theorem Program.keeps_run (rounds depth : Nat) (program : Program σ.Mark) :
    (Program.run rounds depth program).Keeps D :=
  Dialogue.keeps_run (Task.keeps_run rounds depth) (Program.acts_body program)

namespace Session

theorem keeps_report {outcome : Outcome} : (report outcome : Eval σ Report).Keeps D :=
  keeps_get.bind fun _ => keeps_pure

theorem keeps_noteError {message : String} : (noteError message : Eval σ Unit).Keeps D :=
  fun m => D.streams m { m.streams with effects := .error message :: m.effects } rfl

theorem keeps_reject {diagnostics : List Diagnostic} :
    (reject diagnostics : Eval σ Report).Keeps D :=
  (keeps_forM (fun _ => keeps_noteError) diagnostics).bind fun _ => keeps_report

theorem keeps_reportFault {depth : Nat} {f : Fault} :
    (reportFault depth f : Eval σ Report).Keeps D := by
  refine keeps_noteError.bind fun _ => keeps_get.bind fun m => ?_
  refine (Eval.keeps_mapM (fun call => ?_) m.calls.reverse).bind fun _ => keeps_report
  have htext (v : Value) : (text depth 1 v : Eval σ String).Keeps D :=
    (made_text (P := fun _ => False)).does.keeps
  exact (Eval.keeps_mapM htext call.arguments).bind fun _ => Eval.keeps_pure

theorem keeps_runBound {limits : Limits} {program : Program σ.Mark} :
    (runBound limits program).Keeps D := by
  intro m
  have hthen {x : Eval σ Report} (hx : x.Keeps D) {n : Machine σ} (hn : D.Allows m n) :
      x.Ends n (fun _ k => D.Allows m k) fun _ k => D.Allows m k :=
    (hx n).mono (fun _ _ => D.trans hn) fun _ _ => D.trans hn
  refine ends_runBound limits ((Program.keeps_run limits.rounds limits.depth program m).mono
    (fun _ _ hn => hthen keeps_report hn) fun why _ hn => ?_)
  cases why with
  | fault f => exact hthen keeps_reportFault hn
  | _ => exact hn

/-- **Every text** is allowed for, whatever comes of it. -/
theorem keeps_run {D : Drift .bound} {limits : Limits} {text : String} :
    (run limits text).Keeps D := by
  intro m
  have hcleared (errors : String) : D.Allows m (m.cleared errors) :=
    D.trans (D.streams m { m.streams with effects := [], errors := errors } rfl) (D.calls _ [])
  by_cases haccepts : Accepts text
  · obtain ⟨errors, hrun⟩ := run_of_accepted limits haccepts m
    exact .of_eq ((keeps_runBound (m.cleared errors)).mono (fun _ _ => D.trans (hcleared errors))
      fun _ _ => D.trans (hcleared errors)) hrun
  · obtain ⟨diagnostics, errors, -, hrun⟩ := run_of_not_accepts limits haccepts m
    exact .of_eq ((keeps_reject (m.cleared errors)).mono (fun _ _ => D.trans (hcleared errors))
      fun _ _ => D.trans (hcleared errors)) hrun

theorem allows_leaves (D : Drift .bound) (limits : Limits) (texts : List String)
    (m : Machine .bound) : D.Allows m (leaves (run limits) texts m) := by
  induction texts generalizing m with
  | nil => exact D.refl m
  | cons text texts ih => exact D.trans (keeps_run.leaves m) (ih _)

end Session

/-! ### The current scope -/

/-- The same scope is current. -/
def Drift.scope : Drift .bound where
  Allows m n := n.scope = m.scope
  refl _ := rfl
  trans hlm hmn := hmn.trans hlm
  store _ _ := rfl
  streams _ _ _ := rfl
  calls _ _ := rfl
  line _ _ _ _ := rfl
  clock _ _ := rfl
  announce m name update hupdate := by
    -- A frame that gets another variable is the same frame.
    obtain ⟨frame, rfl⟩ := Frames.exists_of_announce hupdate
    rfl
  inside _ _ _ _ := rfl

/-- **The current scope is restored.** After any texts a session is outside of all blocks, whatever
has come of them: also if the last one has ended in a fault, or has been cut off, while blocks and
calls were going on. And on any machine, whatever there is to be carried out, the scope that was
current before is current after it. -/
theorem Session.scope_is_restored :
    (∀ (limits : Limits) (natives : List Native) (input : List String) (output : Option String)
      (tracing : Bool) (clock : Clock) (texts : List String),
      (leaves (run limits) texts (.start natives input output tracing clock)).scope =
        globalChain) ∧
    ∀ (rounds depth : Nat) (t : Task .bound) (m : Machine .bound),
      ((Task.run rounds depth t).leaves m).scope = m.scope := by
  refine ⟨fun limits natives input output tracing clock texts => ?_, fun rounds depth t m => ?_⟩
  · exact allows_leaves .scope limits texts (.start natives input output tracing clock)
  · exact (Task.keeps_run (D := .scope) rounds depth t).leaves m

/-! ### Standard input and output -/

/-- Lines of the input may have been read. -/
def Drift.input : Drift σ where
  Allows m n := n.input <:+ m.input
  refl m := List.suffix_refl m.input
  trans hlm hmn := hmn.trans hlm
  store m _ := List.suffix_refl m.input
  streams m _ _ := List.suffix_refl m.input
  calls m _ := List.suffix_refl m.input
  line _ line lines h := h ▸ List.suffix_cons line lines
  clock m _ := List.suffix_refl m.input
  announce m _ _ _ := List.suffix_refl m.input
  inside _ _ _ h := h

/-- Standard output is attached if it was. -/
def Drift.output : Drift σ where
  Allows m n := n.output.isSome = m.output.isSome
  refl _ := rfl
  trans hlm hmn := hmn.trans hlm
  store _ _ := rfl
  streams _ _ h := h
  calls _ _ := rfl
  line _ _ _ _ := rfl
  clock _ _ := rfl
  announce _ _ _ _ := rfl
  inside _ _ _ h := h

end LoxLang
