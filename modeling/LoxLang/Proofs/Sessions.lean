import LoxLang.Proofs.SimulatedRuns
import LoxLang.Session

/-!
# Sessions

What a session makes of a text. Either something is reported about it and it is not run, or its
program is run on the machine that the texts before have left, apart from messages and pending calls
(`Session.runWith_of_accepted`, `Session.runWith_of_rejected`).

Programs that correspond have the same reports (`Session.runBound_pairs`), so that a session looks
the same with another scoping (`Session.views_eq`).
-/

namespace LoxLang

variable {σ τ : Scoping}

/-- The machine as a program finds it, without messages and pending calls. -/
def Machine.cleared (m : Machine σ) (errors : String) : Machine σ :=
  { m with effects := [], calls := [], errors := errors }

variable {S : Simulation σ τ} {w : S.World} {p : S.Place} {o : S.Owner} {m : Machine σ}
  {n : Machine τ}

/-- What works on values only is in lockstep on machines that correspond. -/
theorem Machine.SimAt.pairs_of_onValues {α : Type} {x : Eval σ α} {y : Eval τ α} {H : Halt → Prop}
    (hm : m.SimAt S w p o n) (h : Eval.OnValues Eq H x y) :
    x.Pairs y m n (fun a b m' n' => a = b ∧ ∃ w₁, m'.SimAt S w₁ p o n')
      fun why why' m' n' => why = why' ∧ ∃ w₁, m'.SimAt S w₁ p o n' := by
  have hstay {m' : Machine σ} {n' : Machine τ} (hs : m.Stay n m' n') : m'.SimAt S w p o n' :=
    hm.mono (S.grows_refl w) (hm.sim.stay hs) hs.left.scope hs.right.scope
  refine (h m n hm.sim.alike).mono ?_ ?_
  · exact fun _ _ _ _ ⟨hab, hs⟩ => ⟨hab, w, hstay hs⟩
  · exact fun _ _ _ _ ⟨hwhy, _, hs⟩ => ⟨hwhy.eq fun _ _ => id, w, hstay hs⟩

/-- Messages and pending calls are forgotten on both sides. -/
theorem Machine.SimAt.cleared (hm : m.SimAt S w p o n) (errors errors' : String) :
    (m.cleared errors).SimAt S w p o (n.cleared errors') :=
  ⟨⟨hm.sim.store, rfl, rfl, hm.sim.input, hm.sim.clock⟩, hm.current⟩

namespace Session

/-- Nothing is reported about the text before it is run. -/
def Accepts (text : String) : Prop :=
  (Source.ofText text).diagnostics = [] ∧
    (Program.resolve (Source.ofText text).program).diagnostics = []

instance (text : String) : Decidable (Accepts text) := instDecidableAnd

/-- The program of a text as it is run. -/
def program (text : String) : Program Hops := (Program.resolve (Source.ofText text).program).result

section

variable (bind : Program Unit → Bound (Program σ.Mark)) (limits : Limits) (text : String)
  (m : Machine σ)

theorem forM_traceBinding_eq (bindings : List Binding) :
    ∃ errors, bindings.forM traceBinding m = .ok () { m with errors := errors } := by
  induction bindings generalizing m with
  | nil => exact ⟨m.errors, rfl⟩
  | cons b bindings ih =>
    obtain ⟨first, -, hfirst⟩ := Eval.trace_eq m
      ["resolve", b.name, "line", toString b.line, "distance", toString b.hops]
    obtain ⟨errors, herrors⟩ := ih { m with errors := first }
    exact ⟨errors, (Eval.bind_of_ok hfirst _).trans herrors⟩

/-- Apart from tracing, a text is rejected or its program is run. -/
theorem runWith_eq :
    ∃ errors, runWith bind limits text m =
      (if (Source.ofText text).diagnostics = [] then
        if (bind (Source.ofText text).program).diagnostics = [] then
          runBound limits (bind (Source.ofText text).program).result
        else reject (bind (Source.ofText text).program).diagnostics
      else reject (Source.ofText text).diagnostics) (m.cleared errors) := by
  simp only [runWith, List.isEmpty_iff]
  by_cases hsource : (Source.ofText text).diagnostics = []
  · obtain ⟨first, -, hfirst⟩ := Eval.trace_eq (m.cleared m.errors)
      ["ast", Program.form (Source.ofText text).program]
    obtain ⟨errors, herrors⟩ := forM_traceBinding_eq (m.cleared first)
      (bind (Source.ofText text).program).bindings
    refine ⟨errors, ?_⟩
    simp only [hsource, ↓reduceIte]
    refine (Eval.bind_of_ok (n := m.cleared m.errors) rfl _).trans ?_
    refine (Eval.bind_of_ok hfirst _).trans ?_
    exact Eval.bind_of_ok herrors _
  · refine ⟨m.errors, ?_⟩
    simp only [hsource, ↓reduceIte]
    rfl

/-- A program is run when nothing is reported about its text. -/
theorem runWith_of_accepted (hsource : (Source.ofText text).diagnostics = [])
    (hbound : (bind (Source.ofText text).program).diagnostics = []) :
    ∃ errors, runWith bind limits text m =
      runBound limits (bind (Source.ofText text).program).result (m.cleared errors) := by
  obtain ⟨errors, h⟩ := runWith_eq bind limits text m
  rw [if_pos hsource, if_pos hbound] at h
  exact ⟨errors, h⟩

/-- A text is not run when anything is reported about it. -/
theorem runWith_of_rejected (h : (Source.ofText text).diagnostics ≠ [] ∨
    (bind (Source.ofText text).program).diagnostics ≠ []) :
    ∃ diagnostics errors, diagnostics ≠ [] ∧
      runWith bind limits text m = reject diagnostics (m.cleared errors) := by
  obtain ⟨errors, hrun⟩ := runWith_eq bind limits text m
  by_cases hsource : (Source.ofText text).diagnostics = []
  · have hbound := h.resolve_left fun h => h hsource
    rw [if_pos hsource, if_neg hbound] at hrun
    exact ⟨_, errors, hbound, hrun⟩
  · rw [if_neg hsource] at hrun
    exact ⟨_, errors, hsource, hrun⟩

end

theorem run_of_accepted (limits : Limits) {text : String} (h : Accepts text) (m : Machine .bound) :
    ∃ errors, run limits text m = runBound limits (program text) (m.cleared errors) :=
  runWith_of_accepted (σ := .bound) Program.resolve limits text m h.1 h.2

theorem run_of_not_accepts (limits : Limits) {text : String} (h : ¬Accepts text)
    (m : Machine .bound) :
    ∃ diagnostics errors, diagnostics ≠ [] ∧
      run limits text m = reject diagnostics (m.cleared errors) :=
  runWith_of_rejected (σ := .bound) Program.resolve limits text m (not_and_or.1 h)

/-! ### Reports in lockstep -/

section

variable {L : Token → Token → Prop} {H : Halt → Prop}

theorem onValues_noteError {message : String} :
    Eval.OnValues L H (noteError message : Eval σ Unit) (noteError message : Eval τ Unit) :=
  fun _ _ h => ⟨rfl, ⟨rfl, rfl, rfl, rfl⟩, ⟨rfl, rfl, rfl, rfl⟩, h.store, h.calls,
    congrArg _ h.effects, h.input, h.clock⟩

theorem onValues_report {outcome : Outcome} :
    Eval.OnValues L H (report outcome : Eval σ Report) (report outcome : Eval τ Report) := by
  refine Eval.onValues_get fun m n hmn => ?_
  rw [hmn.effects]
  exact Eval.onValues_pure

theorem onValues_callText {depth : Nat} {call : PendingCall} (hH : H .exhausted) :
    Eval.OnValues L H (callText depth call : Eval σ String) (callText depth call : Eval τ String) :=
  (Eval.onValues_mapM fun _ => Eval.onValues_text hH).bind fun _ => Eval.onValues_pure

/-- A fault is reported with the values that were passed, not with the variables that hold them. -/
theorem onValues_reportFault {depth : Nat} {f : Fault} (hH : H .exhausted) :
    Eval.OnValues L H (reportFault depth f : Eval σ Report)
      (reportFault depth f : Eval τ Report) := by
  refine onValues_noteError.bind fun _ => Eval.onValues_get fun m n hmn => ?_
  rw [hmn.calls]
  exact (Eval.onValues_mapM fun _ => onValues_callText hH).bind fun _ => onValues_report

end

section

variable {program : Program σ.Mark} {n : Machine σ} (limits : Limits)

theorem runBound_of_ok {v : Value}
    (h : Program.run limits.rounds limits.depth program m = .ok v n) :
    runBound limits program m = report (.success v) n := by
  simp only [runBound, h]

/-- What comes of a program that has been stopped: a fault is reported; whatever else it was goes
through. -/
def afterHalt (depth : Nat) : Halt → Eval σ Report
  | .fault f => reportFault depth f
  | why => Eval.halt why

theorem runBound_of_error {why : Halt}
    (h : Program.run limits.rounds limits.depth program m = .error why n) :
    runBound limits program m = afterHalt limits.depth why n := by
  cases why <;> simp only [runBound, h] <;> rfl

theorem runBound_of_fault {f : Fault}
    (h : Program.run limits.rounds limits.depth program m = .error (.fault f) n) :
    runBound limits program m = reportFault limits.depth f n :=
  runBound_of_error limits h

theorem runBound_of_halt {why : Halt}
    (h : Program.run limits.rounds limits.depth program m = .error why n)
    (hwhy : ∀ f, why ≠ .fault f) :
    runBound limits program m = Eval.halt why n := by
  cases why with
  | fault f => exact (hwhy f rfl).elim
  | _ => exact runBound_of_error limits h

/-- A fault is reported; whatever else stops a program goes through. -/
theorem fault_or_not (why : Halt) : (∃ f, why = .fault f) ∨ ∀ f, why ≠ .fault f := by
  cases why with
  | fault f => exact .inl ⟨f, rfl⟩
  | _ => exact .inr (by simp)

theorem ends_runBound {Q : Report → Machine σ → Prop} {H : Halt → Machine σ → Prop}
    (h : (Program.run limits.rounds limits.depth program).Ends m
      (fun v n => (report (.success v)).Ends n Q H)
      fun why n => (afterHalt limits.depth why).Ends n Q H) :
    (runBound limits program).Ends m Q H := by
  cases hrun : Program.run limits.rounds limits.depth program m with
  | ok v n => exact .of_eq (h.of_ok hrun) (runBound_of_ok limits hrun)
  | error why n => exact .of_eq (h.of_error hrun) (runBound_of_error limits hrun)

theorem pairs_runBound {n : Machine τ} {program' : Program τ.Mark}
    {Q : Report → Report → Machine σ → Machine τ → Prop}
    {H : Halt → Halt → Machine σ → Machine τ → Prop}
    (h : (Program.run limits.rounds limits.depth program).Pairs
      (Program.run limits.rounds limits.depth program') m n
      (fun v v' m' n' => (report (.success v)).Pairs (report (.success v')) m' n' Q H)
      fun why why' m' n' =>
        (afterHalt limits.depth why).Pairs (afterHalt limits.depth why') m' n' Q H) :
    (runBound limits program).Pairs (runBound limits program') m n Q H := by
  cases hright : Program.run limits.rounds limits.depth program' n with
  | ok v n' =>
    obtain ⟨_, m', hleft, hpairs⟩ := h.exists_of_ok hright
    exact .of_eq hpairs (runBound_of_ok limits hleft) (runBound_of_ok limits hright)
  | error why n' =>
    obtain ⟨_, m', hleft, hpairs⟩ := h.exists_of_error hright
    exact .of_eq hpairs (runBound_of_error limits hleft) (runBound_of_error limits hright)

end

/-- Runs that correspond have the same reports, if the tokens that correspond are the same. -/
theorem runBound_pairs_of_run (limits : Limits) (hS : ∀ t u, S.AnyTokens t u → t = u)
    {program : Program σ.Mark} {program' : Program τ.Mark}
    (hrun : (Program.run limits.rounds limits.depth program).Pairs
      (Program.run limits.rounds limits.depth program') m n
      (fun v v' m' n' => v = v' ∧ m'.Declared S w p o n') (Machine.StopsAt S w p o)) :
    (runBound limits program).Pairs (runBound limits program') m n
      (fun r r' m' n' => r = r' ∧ ∃ w₁, m'.SimAt S w₁ p o n')
      fun why why' m' n' => why = why' ∧ ∃ w₁, m'.SimAt S w₁ p o n' := by
  refine pairs_runBound limits (hrun.mono ?_ ?_)
  · rintro v _ m₁ n₁ ⟨rfl, w₁, -, hm₁⟩
    exact hm₁.pairs_of_onValues (H := fun _ => True) onValues_report
  · rintro why why' m₁ n₁ ⟨hwhy, w₁, -, hm₁⟩
    rw [hwhy.eq hS]
    cases why' with
    | fault f => exact hm₁.pairs_of_onValues (H := fun _ => True) (onValues_reportFault trivial)
    | _ => exact ⟨rfl, w₁, hm₁⟩

/-- **Programs that correspond have the same reports,** if the tokens that correspond are the
same. -/
theorem runBound_pairs [S.Lockstep] (limits : Limits) (hS : ∀ t u, S.AnyTokens t u → t = u)
    (hp : S.Stays p) {program : Program σ.Mark} {program' : Program τ.Mark} (hm : m.SimAt S w p o n)
    (h : Stmt.AllSim S p program program') :
    (runBound limits program).Pairs (runBound limits program') m n
      (fun r r' m' n' => r = r' ∧ ∃ w₁, m'.SimAt S w₁ p o n')
      fun why why' m' n' => why = why' ∧ ∃ w₁, m'.SimAt S w₁ p o n' :=
  runBound_pairs_of_run limits hS
    ((S.pact_kept limits.rounds).program_run limits.depth (Program.relates_body hp hm h))

/-! ### What can be seen of a session -/

/-- What can be seen of a text that has been run: its report, or why there is none, and as texts the
value of its last statement and the global variables. -/
structure View where
  report : Except Halt Report
  value : Option String
  globals : List (String × Option String)

section

variable (globals : σ.Memory → Frame) (levels : Nat)

/-- Look at a machine that has run a text. Values are shown up to `levels` deep. -/
def view (answer : Except Halt Report) (m : Machine σ) : View where
  report := answer
  value := match answer with
    | .ok ⟨.success v, _⟩ => v.text? m.store levels 0
    | _ => none
  globals := (globals m.store.memory).entries.map fun e => (e.1, e.2.text? m.store levels 1)

/-- Run texts one after the other, and look at the machine after each of them. -/
def views (run : String → Eval σ Report) : List String → Machine σ → List View
  | [], _ => []
  | text :: texts, m =>
    match run text m with
    | .ok r n => view globals levels (.ok r) n :: views run texts n
    | .error why n => view globals levels (.error why) n :: views run texts n

end

variable {globals : σ.Memory → Frame} {globals' : τ.Memory → Frame} {levels : Nat}

theorem view_eq (hglobals : ∀ w mem mem', S.Memories w mem mem' → globals mem = globals' mem')
    (answer : Except Halt Report) (hm : m.Sim S w n) :
    view globals levels answer m = view globals' levels answer n := by
  have htext := Value.text?_eq hm.store.alike levels
  simp only [view, htext, hglobals _ _ _ hm.store.memory]

/-- **Sessions that correspond look the same,** if each text runs in step. -/
theorem views_eq {run : String → Eval σ Report} {run' : String → Eval τ Report}
    {texts : List String}
    (hglobals : ∀ w mem mem', S.Memories w mem mem' → globals mem = globals' mem')
    (hrun : ∀ text ∈ texts, ∀ w m n, m.SimAt S w p o n → (run text).Pairs (run' text) m n
      (fun r r' m' n' => r = r' ∧ ∃ w₁, m'.SimAt S w₁ p o n')
      fun why why' m' n' => why = why' ∧ ∃ w₁, m'.SimAt S w₁ p o n')
    (hm : m.SimAt S w p o n) :
    views globals levels run texts m = views globals' levels run' texts n := by
  induction texts generalizing m n w with
  | nil => rfl
  | cons text texts ih =>
    have ih {w₁ : S.World} {m' : Machine σ} {n' : Machine τ} (hm' : m'.SimAt S w₁ p o n') :
        views globals levels run texts m' = views globals' levels run' texts n' :=
      ih (fun t ht => hrun t (List.mem_cons_of_mem _ ht)) hm'
    have hpairs := hrun text List.mem_cons_self w m n hm
    unfold views
    cases hright : run' text n with
    | ok r n' =>
      obtain ⟨_, m', hleft, rfl, w₁, hm'⟩ := hpairs.exists_of_ok hright
      simp only [hleft, view_eq hglobals _ hm'.sim, ih hm']
    | error why n' =>
      obtain ⟨_, m', hleft, rfl, w₁, hm'⟩ := hpairs.exists_of_error hright
      simp only [hleft, view_eq hglobals _ hm'.sim, ih hm']

end Session

end LoxLang
