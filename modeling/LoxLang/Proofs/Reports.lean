import LoxLang.Proofs.Naming
import LoxLang.Proofs.Sessions
import LoxLang.Proofs.Soundness

/-!
# Reports

Whatever texts a session has run, the next one has a report, unless the stack is used up or a loop
goes on for more rounds than it is given (`Session.run_reports`). Evaluation takes things for
granted, but a program that is run has been bound without anything to report, so they are never
missed.

Where the report is about a fault, the fault has a place, and the last message tells its line.
-/

namespace LoxLang

variable {σ : Scoping} {α β : Type}

namespace Report

/-- A fault that is reported has a place, and the last message is about it, with the line of that
place. -/
def Placed (r : Report) : Prop :=
  ∀ f calls, r.outcome = .faulted f calls → ∃ place, f.place = some place ∧
    r.errors.getLast? = some r.errorText ∧
    r.errorText = f.cause.message ++ "\n[line " ++ toString place.line ++ "]"

/-- A fault that is reported has a place, is not for a jump that nothing has taken, and is what the
last message is about. -/
def Accounted (r : Report) : Prop :=
  ∀ f calls, r.outcome = .faulted f calls →
    f.place.isSome ∧ f.cause.isStray = false ∧ r.errors.getLast? = some f.text

variable {r : Report}

theorem Accounted.of_ne (h : ∀ f calls, r.outcome ≠ .faulted f calls) : r.Accounted :=
  fun f calls hf => (h f calls hf).elim

theorem Accounted.of_faulted {f : Fault} {calls : List String} (hr : r.outcome = .faulted f calls)
    (hf : (Halt.fault f).Accounted False) (hlast : r.errors.getLast? = some f.text) :
    r.Accounted := by
  intro g calls' hg
  obtain ⟨rfl, rfl⟩ : f = g ∧ calls = calls' := by simpa using hr.symm.trans hg
  exact ⟨hf.1, by simpa using hf.2, hlast⟩

theorem Accounted.placed (h : r.Accounted) : r.Placed := by
  intro f calls hf
  obtain ⟨hplace, -, hlast⟩ := h f calls hf
  obtain ⟨place, hplace⟩ := Option.isSome_iff_exists.1 hplace
  have htext : r.errorText = f.text := by rw [Report.errorText, hf]
  refine ⟨place, hplace, hlast.trans (congrArg some htext.symm), htext.trans ?_⟩
  rw [Fault.text, hplace]
  rfl

end Report

namespace Eval

/-- The computation only looks at the machine, and halts for no reason but the stack. -/
def Looks (x : Eval σ α) : Prop :=
  ∀ m, x.Ends m (fun _ n => n = m) fun why n => why = .exhausted ∧ n = m

theorem looks_pure {a : α} : (pure a : Eval σ α).Looks := fun _ => rfl

theorem Looks.bind {x : Eval σ α} {f : α → Eval σ β} (hx : x.Looks) (hf : ∀ a, (f a).Looks) :
    (x >>= f).Looks := by
  intro m
  refine ends_bind.2 ((hx m).mono ?_ fun _ _ h => h)
  rintro a _ rfl
  exact hf a _

theorem looks_mapM {f : α → Eval σ β} {l : List α} (hf : ∀ a, (f a).Looks) : (l.mapM f).Looks := by
  induction l with
  | nil => exact looks_pure
  | cons a l ih =>
    rw [List.mapM_cons]
    exact (hf a).bind fun _ => ih.bind fun _ => looks_pure

theorem looks_text {depth : Nat} {level : Int} {v : Value} :
    (text depth level v : Eval σ String).Looks := by
  intro m
  refine ends_bind.2 (ends_store.2 ?_)
  cases v.text? m.store (depth / levelsPerStep) level with
  | some s => exact rfl
  | none => exact ⟨rfl, rfl⟩

end Eval

namespace Session

theorem looks_callText {depth : Nat} {call : PendingCall} :
    (callText depth call : Eval σ String).Looks :=
  (Eval.looks_mapM fun _ => Eval.looks_text).bind fun _ => Eval.looks_pure

theorem report_ends (outcome : Outcome) (m : Machine σ) :
    (report outcome).Ends m (fun r n => r.outcome = outcome ∧ n = m) fun _ _ => False :=
  ⟨rfl, rfl⟩

/-- The text of a fault is the last message of its report. -/
theorem reportFault_ends (depth : Nat) (f : Fault) (m : Machine σ) :
    (reportFault depth f).Ends m
      (fun r n => (∃ calls, r.outcome = .faulted f calls) ∧ r.errors.getLast? = some f.text ∧
        m.SameCode n)
      fun why n => why = .exhausted ∧ m.SameCode n := by
  let noted : Machine σ := { m with effects := .error f.text :: m.effects }
  have hnoted : m.SameCode noted := ⟨rfl, rfl, rfl, rfl⟩
  have hlooks : (noted.calls.reverse.mapM (callText depth) : Eval σ (List String)).Looks :=
    Eval.looks_mapM fun _ => looks_callText
  have hcalls := hlooks noted
  refine Eval.ends_bind.2 (Eval.ends_modify.2 (Eval.ends_bind.2 (Eval.ends_get.2
    (Eval.ends_bind.2 (hcalls.mono ?_ ?_)))))
  · rintro calls _ rfl
    refine ⟨⟨calls, rfl⟩, ?_, hnoted⟩
    simp [Report.errors, noted]
  · rintro _ _ ⟨rfl, rfl⟩
    exact ⟨rfl, hnoted⟩

/-- What is rejected has a report. -/
theorem reject_ends (diagnostics : List Diagnostic) (m : Machine σ) :
    (reject diagnostics).Ends m (fun r n => r.outcome = .rejected diagnostics ∧ m.SameCode n)
      fun _ _ => False := by
  have hnotes (ds : List Diagnostic) (m : Machine σ) :
      (ds.forM (noteError ·.text)).Ends m (fun _ n => m.SameCode n) fun _ _ => False := by
    induction ds generalizing m with
    | nil => exact .refl m
    | cons d ds ih =>
      have hnoted : m.SameCode { m with effects := .error d.text :: m.effects } :=
        ⟨rfl, rfl, rfl, rfl⟩
      refine Eval.ends_bind.2 (Eval.ends_modify.2 ((ih _).mono ?_ fun _ _ h => h))
      exact fun _ n hn => hnoted.trans hn
  refine Eval.ends_bind.2 ((hnotes diagnostics m).mono ?_ fun _ _ h => h)
  exact fun _ n hn => ((report_ends _ n).mono fun _ _ h => ⟨h.1, h.2 ▸ hn⟩) fun _ _ h => h

end Session

/-! ### Sessions -/

/-- A machine between two texts: outside of all blocks, and all its functions have been bound
without anything to report. -/
def Machine.Ready (m : Machine .bound) : Prop :=
  Machine.At (.plain : Marking Unit) (fun _ => True) (.top ()) m

/-- Not a fault, nor a defect. -/
inductive Halt.Cut : Halt → Prop where
  | exhausted : Cut .exhausted
  | unfinished : Cut .unfinished

theorem Machine.Ready.sameCode {m n : Machine .bound} (hm : m.Ready) (hn : m.SameCode n) :
    n.Ready :=
  hm.grows (.of_sameCode hm.fits hn)

namespace Session

theorem runBound_ends (limits : Limits) {program : Program Hops} {m : Machine .bound}
    (hm : m.Ready)
    (hprogram : Stmt.AllBoundAt (.plain : Marking Unit) (fun _ => True) (.top ()) program) :
    (runBound limits program).Ends m (fun r n => r.Accounted ∧ n.Ready)
      fun why n => n.Ready ∧ why.Cut := by
  have hrun : (Program.run (σ := .bound) limits.rounds limits.depth program).Ends m
      (fun _ n => n.Ready) fun why n => n.Ready ∧ why.Accounted False := by
    refine ((soundness_kept limits.rounds).program_run limits.depth
      (Program.safe_body hm hprogram)).mono (fun _ _ h => hm.grows h) fun why n h => ?_
    refine ⟨hm.grows h.1, ?_⟩
    have hno : (∃ i : Unit, ¬ True) = False := by simp
    exact hno ▸ h.2
  refine ends_runBound limits (hrun.mono ?_ ?_)
  · intro v n hn
    refine (report_ends (.success v) n).mono ?_ fun _ _ h => h.elim
    rintro r _ ⟨hr, rfl⟩
    exact ⟨.of_ne (by simp [hr]), hn⟩
  · rintro why n ⟨hn, hwhy⟩
    cases why with
    | fault f =>
      refine (reportFault_ends limits.depth f n).mono ?_ ?_
      · rintro r k ⟨⟨calls, hr⟩, hlast, hk⟩
        exact ⟨.of_faulted hr hwhy hlast, hn.sameCode hk⟩
      · rintro _ k ⟨rfl, hk⟩
        exact ⟨hn.sameCode hk, .exhausted⟩
    | defect d => exact hwhy.elim
    | exhausted => exact ⟨hn, .exhausted⟩
    | unfinished => exact ⟨hn, .unfinished⟩

/-- A text leaves a machine that is ready for the next one. -/
theorem run_ends (limits : Limits) (text : String) {m : Machine .bound} (hm : m.Ready) :
    (run limits text).Ends m (fun r n => r.Accounted ∧ n.Ready)
      fun why n => n.Ready ∧ why.Cut := by
  have hcleared (errors : String) : (m.cleared errors).Ready := ⟨hm.fits, hm.chain⟩
  by_cases haccepts : Accepts text
  · obtain ⟨errors, hrun⟩ := run_of_accepted limits haccepts m
    refine .of_eq (runBound_ends limits (hcleared errors) ?_) hrun
    exact Program.boundAt_resolveWith (Source.proper_ofText text) fun _ => haccepts.2
  · obtain ⟨diagnostics, errors, -, hrun⟩ := run_of_not_accepts limits haccepts m
    refine .of_eq ((reject_ends diagnostics (m.cleared errors)).mono ?_ fun _ _ h => h.elim) hrun
    rintro r n ⟨hr, hn⟩
    exact ⟨.of_ne (by simp [hr]), (hcleared errors).sameCode hn⟩

/-- The machine that texts leave when they are run one after the other, whatever comes of them. -/
def leaves (run : String → Eval σ Report) (texts : List String) (m : Machine σ) : Machine σ :=
  texts.foldl (fun m text => (run text).leaves m) m

theorem ready_leaves (limits : Limits) (texts : List String) {m : Machine .bound} (hm : m.Ready) :
    (leaves (run limits) texts m).Ready := by
  induction texts generalizing m with
  | nil => exact hm
  | cons text texts ih =>
    exact ih ((run_ends limits text hm).mono (fun _ _ h => h.2) fun _ _ h => h).leaves

theorem ready_start (natives : List Native) (input : List String) (output : Option String)
    (tracing : Bool) (clock : Clock) : (Machine.start natives input output tracing clock).Ready :=
  ⟨Store.fits_ofGlobals () natives, .nil⟩

/-- **Every text has a report.** Texts are run one after the other on one machine. Whatever they are
and whatever has come of them, running the next one ends in a report or uses up the stack, if no
loop goes on for more rounds than it is given; and a fault in the report has a place, with its line
in the last message. -/
theorem run_reports (limits : Limits) (natives : List Native) (input : List String)
    (output : Option String) (tracing : Bool) (clock : Clock) (earlier : List String)
    (text : String) :
    let m := leaves (run limits) earlier (.start natives input output tracing clock)
    (∃ r n, run limits text m = .ok r n ∧ r.Placed) ∨
      (∃ n, run limits text m = .error .exhausted n) ∨
      ∃ n, run limits text m = .error .unfinished n := by
  intro m
  have hm : m.Ready := ready_leaves limits earlier (ready_start natives input output tracing clock)
  have hends := run_ends limits text hm
  cases hrun : run limits text m with
  | ok r n => exact .inl ⟨r, n, rfl, (hends.of_ok hrun).1.placed⟩
  | error why n =>
    cases (hends.of_error hrun).2 with
    | exhausted => exact .inr (.inl ⟨n, rfl⟩)
    | unfinished => exact .inr (.inr ⟨n, rfl⟩)

end Session

end LoxLang
