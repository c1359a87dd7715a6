import LoxLang.Proofs.Quiet
import LoxLang.Proofs.Rejection

/-!
# Texts and the points that they come to

Reading a text, binding it and reporting what came of it leave the store and the current scope as
they are (`Machine.SameState`). So what a session does to them is what the programs of its accepted
texts do (`Session.sameState_run`), and an invariant of programs is one of sessions
(`Session.leaves_induction`).
-/

namespace LoxLang

variable {σ : Scoping}

/-- The second machine has the store of the first, and the same scope is current. -/
structure Machine.SameState (m n : Machine σ) : Prop where
  store : n.store = m.store
  scope : n.scope = m.scope

theorem Machine.SameState.refl (m : Machine σ) : m.SameState m := ⟨rfl, rfl⟩

namespace Session

/-- What is done before the program of a text is run. -/
def prepare (text : String) : Eval .bound Unit := do
  modify fun m => { m with effects := [], calls := [] }
  Eval.trace ["ast", Program.form (Source.ofText text).program]
  (Program.resolve (Source.ofText text).program).bindings.forM traceBinding

/-- Preparing a text leaves no message, and does not write to standard output. -/
theorem prepare_eq (text : String) (m : Machine .bound) :
    ∃ errors, prepare text m = .ok () (m.cleared errors) := by
  obtain ⟨first, -, hfirst⟩ := Eval.trace_eq (m.cleared m.errors)
    ["ast", Program.form (Source.ofText text).program]
  obtain ⟨errors, herrors⟩ := forM_traceBinding_eq (m.cleared first)
    (Program.resolve (Source.ofText text).program).bindings
  refine ⟨errors, (Eval.bind_of_ok (n := m.cleared m.errors) rfl _).trans ?_⟩
  exact (Eval.bind_of_ok hfirst _).trans herrors

theorem sameState_prepare (text : String) (m : Machine .bound) :
    m.SameState ((prepare text).leaves m) := by
  obtain ⟨errors, hprepare⟩ := prepare_eq text m
  rw [Eval.leaves_of_ok hprepare]
  exact ⟨rfl, rfl⟩

theorem run_eq_of_accepts (limits : Limits) {text : String} (h : Accepts text)
    (m : Machine .bound) :
    run limits text m = runBound limits (program text) ((prepare text).leaves m) := by
  obtain ⟨errors, hprepare⟩ := prepare_eq text m
  have hrun : run limits text = prepare text >>= fun _ => runBound limits (program text) := by
    simp [run, runWith, prepare, h.1, h.2, program]
  rw [hrun, Eval.bind_of_ok hprepare, Eval.leaves_of_ok hprepare]

/-- The machine that the program of a text leaves, if the text is accepted. -/
def ran (limits : Limits) (text : String) (m : Machine .bound) : Machine .bound :=
  if Accepts text then
    (Program.run (σ := .bound) limits.rounds limits.depth (program text)).leaves
      ((prepare text).leaves m)
  else m

theorem sameState_reportFault (depth : Nat) (f : Fault) (m : Machine σ) :
    m.SameState ((reportFault depth f).leaves m) := by
  let noted : Machine σ := { m with effects := .error f.text :: m.effects }
  have hlooks : (noted.calls.reverse.mapM (callText depth) : Eval σ (List String)).Looks :=
    Eval.looks_mapM fun _ => looks_callText
  have hends : (reportFault depth f).Ends m (fun _ n => m.SameState n)
      fun _ n => m.SameState n ∧ True := by
    refine Eval.ends_bind.2 (Eval.ends_modify.2 (Eval.ends_bind.2 (Eval.ends_get.2
      (Eval.ends_bind.2 ((hlooks noted).mono ?_ ?_)))))
    · rintro calls _ rfl
      exact ⟨rfl, rfl⟩
    · rintro _ _ ⟨-, rfl⟩
      exact ⟨⟨rfl, rfl⟩, trivial⟩
  exact hends.leaves

/-- **A text does to the store and to the scope what its program does.** -/
theorem sameState_run (limits : Limits) (text : String) (m : Machine .bound) :
    (ran limits text m).SameState ((run limits text).leaves m) := by
  by_cases haccepts : Accepts text
  · have hrun := run_eq_of_accepts limits haccepts m
    rw [ran, if_pos haccepts]
    cases h : Program.run (σ := .bound) limits.rounds limits.depth (program text)
        ((prepare text).leaves m) with
    | ok v n =>
      rw [runBound_of_ok limits h] at hrun
      rw [Eval.leaves_of_ok h, Eval.leaves_of_ok hrun]
      exact .refl n
    | error why n =>
      rw [Eval.leaves_of_error h]
      obtain ⟨f, rfl⟩ | hwhy := fault_or_not why
      · rw [runBound_of_fault limits h] at hrun
        have hleaves : (run limits text).leaves m = (reportFault limits.depth f).leaves n := by
          rw [Eval.leaves, hrun, Eval.leaves]
        rw [hleaves]
        exact sameState_reportFault limits.depth f n
      · rw [runBound_of_halt limits h hwhy] at hrun
        rw [Eval.leaves_of_error hrun]
        exact .refl n
  · obtain ⟨diagnostics, errors, -, hrun⟩ := run_of_not_accepts limits haccepts m
    rw [reject_eq] at hrun
    rw [ran, if_neg haccepts, Eval.leaves_of_ok hrun]
    exact ⟨rfl, rfl⟩

/-- What programs keep, and what depends on the store and the scope only, holds between the texts of
a session. -/
theorem leaves_induction (limits : Limits) {P : Machine .bound → Prop}
    (hstate : ∀ m n, m.SameState n → P m → P n)
    (hprogram : ∀ text m, Accepts text → P m →
      P ((Program.run limits.rounds limits.depth (program text)).leaves m))
    (texts : List String) {m : Machine .bound} (hm : P m) :
    P (leaves (run limits) texts m) := by
  induction texts generalizing m with
  | nil => exact hm
  | cons text texts ih =>
    refine ih (hstate _ _ (sameState_run limits text m) ?_)
    unfold ran
    split
    · rename_i haccepts
      exact hprogram text _ haccepts (hstate _ _ (sameState_prepare text m) hm)
    · exact hm

/-- Running the texts one after the other comes to the point. -/
def Visits (limits : Limits) : List String → Machine .bound → Point .bound → Prop
  | [], _, _ => False
  | text :: texts, m, p =>
    (Accepts text ∧
      (program text).Visits limits.rounds limits.depth ((prepare text).leaves m) p) ∨
    Visits limits texts ((run limits text).leaves m) p

end Session

end LoxLang
