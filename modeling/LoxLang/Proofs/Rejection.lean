import LoxLang.Proofs.Reports
import LoxLang.Proofs.Streams

/-!
# Texts that are rejected

A text about which anything is reported before it is run leaves the machine as it was, apart from
the messages of the last run (`Session.run_of_rejected`). Sessions do not look at those, so the
texts that come later are run as if the rejected one had not been there
(`Session.rejected_texts_do_nothing`).
-/

namespace LoxLang

open Streams (Change)

variable {σ : Scoping}

/-- The change leaves the messages alone. -/
def Streams.Change.KeepsEffects (T : Change) : Prop :=
  ∀ s effects, T.apply { s with effects := effects } = { T.apply s with effects := effects }

theorem Streams.Change.keepsEffects_behind (errors : String) : (behind [] errors).KeepsEffects :=
  fun _ _ => by simp [behind]

/-- The machine with other messages. -/
def Machine.withEffects (m : Machine σ) (effects : List Effect) : Machine σ :=
  { m with effects := effects }

namespace Session

/-! ### Sessions do not look at the streams -/

section

variable {T : Change} (hT : T.KeepsEffects)

include hT

theorem withEffects_change (m : Machine σ) (effects : List Effect) :
    (m.change T).withEffects effects = (m.withEffects effects).change T :=
  congrArg m.withStreams (hT m.streams effects).symm

theorem effects_change (m : Machine σ) : (m.change T).effects = m.effects :=
  (congrArg Machine.effects (withEffects_change hT m m.effects)).symm

theorem oblivious_noteError {message : String} : (noteError message : Eval σ Unit).Oblivious T := by
  intro m
  show EStateM.Result.ok () ((m.change T).withEffects (.error message :: (m.change T).effects)) =
    .ok () ((m.withEffects (.error message :: m.effects)).change T)
  rw [effects_change hT, withEffects_change hT]

theorem oblivious_report {outcome : Outcome} : (report outcome : Eval σ Report).Oblivious T := by
  intro m
  show EStateM.Result.ok (Report.mk outcome (m.change T).effects.reverse) (m.change T) =
    .ok ⟨outcome, m.effects.reverse⟩ (m.change T)
  rw [effects_change hT]

theorem oblivious_reject {diagnostics : List Diagnostic} :
    (reject diagnostics : Eval σ Report).Oblivious T := by
  refine Eval.Oblivious.bind ?_ fun _ => oblivious_report hT
  induction diagnostics with
  | nil => exact fun _ => rfl
  | cons d ds ih => exact (oblivious_noteError hT).bind fun _ => ih

theorem oblivious_reportFault {depth : Nat} {f : Fault} :
    (reportFault depth f : Eval σ Report).Oblivious T := by
  refine (oblivious_noteError hT).bind fun _ m => ?_
  have htext (v : Value) : (Eval.text depth 1 v : Eval σ String).Oblivious T :=
    (Eval.made_text (P := fun _ => False)).oblivious T
  have hcalls : (m.calls.reverse.mapM (callText depth) : Eval σ (List String)).Oblivious T :=
    Eval.oblivious_mapM (fun _ => (Eval.oblivious_mapM htext _).bind fun _ =>
      Eval.oblivious_pure) _
  exact (hcalls.bind fun _ => oblivious_report hT) m

theorem oblivious_runBound {limits : Limits} {program : Program σ.Mark} :
    (runBound limits program).Oblivious T := by
  intro m
  have hrun := (Program.discreet_run limits.rounds limits.depth program).oblivious T m
  unfold runBound
  rw [hrun]
  cases Program.run limits.rounds limits.depth program m with
  | ok v n => exact oblivious_report hT n
  | error why n =>
    cases why with
    | fault f => exact oblivious_reportFault hT n
    | defect d => rfl
    | exhausted => rfl
    | unfinished => rfl

/-- Whatever has been written before, a text comes to the same. -/
theorem oblivious_runWith {bind : Program Unit → Bound (Program σ.Mark)} {limits : Limits}
    {text : String} : (runWith bind limits text).Oblivious T := by
  have hclear (m : Machine σ) : { m.change T with effects := [], calls := [] } =
      ({ m with effects := [], calls := [] } : Machine σ).change T :=
    congrArg (fun n : Machine σ => { n with calls := [] }) (withEffects_change hT m [])
  refine Eval.Oblivious.bind (fun m => congrArg (EStateM.Result.ok ()) (hclear m)) fun _ => ?_
  dsimp only
  split
  · refine Eval.oblivious_trace.bind fun _ => Eval.Oblivious.bind ?_ fun _ => ?_
    · induction (bind (Source.ofText text).program).bindings with
      | nil => exact fun _ => rfl
      | cons b bindings ih => exact Eval.oblivious_trace.bind fun _ => ih
    · split
      · exact oblivious_runBound hT
      · exact oblivious_reject hT
  · exact oblivious_reject hT

end

/-! ### Rejected texts -/

/-- What is reported about a text before it is run: about its tokens and its grammar, or else about
what its names and jumps mean. -/
def diagnostics (text : String) : List Diagnostic :=
  let scan := Scan.ofText text
  let source := Source.ofTokens scan.endLine scan.tokens
  let reported := scan.diagnostics ++ source.diagnostics
  if reported = [] then (Program.resolve source.program).diagnostics else reported

/-- The messages of a text that is rejected. -/
def complaints (text : String) : List Effect := (diagnostics text).map fun d => .error d.text

theorem reject_eq (ds : List Diagnostic) (m : Machine σ) :
    reject ds m = .ok ⟨.rejected ds, m.effects.reverse ++ ds.map fun d => .error d.text⟩
      (m.withEffects ((ds.map fun d => .error d.text).reverse ++ m.effects)) := by
  have hnotes (m : Machine σ) : ds.forM (noteError ·.text) m =
      .ok () (m.withEffects ((ds.map fun d => .error d.text).reverse ++ m.effects)) := by
    induction ds generalizing m with
    | nil => rfl
    | cons d ds ih =>
      have hnote : noteError d.text m = .ok () (m.withEffects (.error d.text :: m.effects)) := rfl
      refine (Eval.bind_of_ok hnote _).trans ((ih _).trans ?_)
      simp [Machine.withEffects]
  refine (Eval.bind_of_ok (hnotes m) _).trans ?_
  show EStateM.Result.ok (Report.mk _ (_ ++ m.effects).reverse) _ = _
  simp

/-- The report about a text that is rejected holds what is wrong with it, and the machine is left as
it was but for messages. -/
theorem run_of_rejected (limits : Limits) {text : String} (h : diagnostics text ≠ [])
    (m : Machine .bound) :
    ∃ errors, run limits text m = .ok ⟨.rejected (diagnostics text), complaints text⟩
      ((m.cleared errors).withEffects (complaints text).reverse) := by
  obtain ⟨errors, hrun⟩ := runWith_eq (σ := .bound) Program.resolve limits text m
  refine ⟨errors, hrun.trans ?_⟩
  have hreject : (if (Source.ofText text).diagnostics = [] then
        if (Program.resolve (Source.ofText text).program).diagnostics = [] then
          runBound (σ := .bound) limits (Program.resolve (Source.ofText text).program).result
        else reject (Program.resolve (Source.ofText text).program).diagnostics
      else reject (Source.ofText text).diagnostics) = reject (diagnostics text) := by
    have hsource : diagnostics text = if (Source.ofText text).diagnostics = [] then
        (Program.resolve (Source.ofText text).program).diagnostics
        else (Source.ofText text).diagnostics := rfl
    rw [hsource] at h ⊢
    split
    · rename_i hempty
      rw [if_pos hempty] at h
      rw [if_neg h]
    · rfl
  rw [hreject, reject_eq]
  simp [complaints, Machine.cleared, Machine.withEffects]

/-! ### The texts around them -/

/-- What comes of a text, without what tracing has written. -/
def untraced : EStateM.Result Halt (Machine σ) Report → EStateM.Result Halt (Machine σ) Report
  | .ok r n => .ok r { n with errors := "" }
  | .error why n => .error why { n with errors := "" }

/-- Run texts that have labels, one after the other: what comes of each of them. -/
def steps {ι : Type} (run : String → Eval σ Report) :
    List (ι × String) → Machine σ → List (ι × EStateM.Result Halt (Machine σ) Report)
  | [], _ => []
  | (i, text) :: rest, m => (i, untraced (run text m)) :: steps run rest ((run text).leaves m)

/-- What has been on standard error before does not show. -/
theorem untraced_result_behind (errors : String) (r : EStateM.Result Halt (Machine σ) Report) :
    untraced ((Change.behind [] errors).result r) = untraced r := by
  cases r <;>
    simp [untraced, Change.result, Change.behind, Machine.change, Machine.withStreams,
      Machine.streams]

/-- A text comes to the same on machines that are the same but for what it clears. -/
theorem untraced_run_eq (limits : Limits) (text : String) {m n : Machine .bound}
    (h : m.cleared "" = n.cleared "") :
    untraced (run limits text m) = untraced (run limits text n) := by
  have hbare (m : Machine .bound) :
      untraced (run limits text m) = untraced (run limits text (m.cleared "")) := by
    have hm : m.cleared m.errors = (m.cleared "").change (.behind [] m.errors) := by
      simp [Machine.cleared, Machine.change, Machine.withStreams, Machine.streams, Change.behind]
    calc untraced (run limits text m)
        = untraced (run limits text (m.cleared m.errors)) := rfl
      _ = untraced ((Change.behind [] m.errors).result (run limits text (m.cleared ""))) := by
          rw [hm]
          exact congrArg untraced (oblivious_runWith (Change.keepsEffects_behind _) _)
      _ = untraced (run limits text (m.cleared "")) := untraced_result_behind _ _
  rw [hbare m, hbare n, h]

theorem cleared_leaves_eq {x : Eval σ Report} {m n : Machine σ}
    (h : untraced (x m) = untraced (x n)) : (x.leaves m).cleared "" = (x.leaves n).cleared "" := by
  have huntraced (m : Machine σ) : (x.leaves m).cleared "" =
      (Eval.leaves (fun _ => untraced (x m)) m).cleared "" := by
    unfold Eval.leaves
    cases x m <;> rfl
  rw [huntraced m, huntraced n, h]
  rfl

/-- The texts that are left out being rejected ones, the others come to the same. -/
theorem filter_steps {ι : Type} (limits : Limits) (keep : ι → Bool) {texts : List (ι × String)}
    (htexts : ∀ step ∈ texts, keep step.1 = false → diagnostics step.2 ≠ []) {m n : Machine .bound}
    (hmn : m.cleared "" = n.cleared "") :
    (steps (run limits) texts m).filter (keep ·.1) =
      steps (run limits) (texts.filter (keep ·.1)) n := by
  -- The machines of the two sessions differ in messages and in what has been traced, no more.
  induction texts generalizing m n with
  | nil => rfl
  | cons step texts ih =>
    obtain ⟨i, text⟩ := step
    have ih {m n : Machine .bound} := ih (m := m) (n := n)
      fun step hstep => htexts step (List.mem_cons_of_mem _ hstep)
    cases hkeep : keep i with
    | true =>
      have hrun := untraced_run_eq limits text hmn
      simp only [steps, hkeep, List.filter_cons_of_pos, hrun]
      rw [ih (cleared_leaves_eq hrun)]
    | false =>
      obtain ⟨errors, hrun⟩ := run_of_rejected limits (htexts (i, text) List.mem_cons_self hkeep) m
      have hleaves : ((run limits text).leaves m).cleared "" = m.cleared "" := by
        unfold Eval.leaves
        rw [hrun]
        rfl
      simp only [steps, hkeep, Bool.false_eq_true, not_false_eq_true, List.filter_cons_of_neg]
      exact ih (hleaves.trans hmn)

/-- **A text that is rejected does nothing.** Its report has all that is wrong with it, in order and
also as its messages, and nothing that a later text can see has changed. So leaving out any rejected
texts of a session does not change what comes of the others. -/
theorem rejected_texts_do_nothing (limits : Limits) (m : Machine .bound) :
    (∀ text, diagnostics text ≠ [] → ∃ r n, run limits text m = .ok r n ∧
      r.outcome = .rejected (diagnostics text) ∧ r.exitCode = 65 ∧
      r.errors = (diagnostics text).map Diagnostic.text ∧ r.output = [] ∧
      n.store = m.store ∧ n.scope = m.scope ∧ n.input = m.input ∧ n.output = m.output ∧
      n.clock = m.clock ∧ n.tracing = m.tracing) ∧
    ∀ (ι : Type) (keep : ι → Bool) (texts : List (ι × String)),
      (∀ step ∈ texts, keep step.1 = false → diagnostics step.2 ≠ []) →
      (steps (run limits) texts m).filter (keep ·.1) =
        steps (run limits) (texts.filter (keep ·.1)) m := by
  refine ⟨fun text htext => ?_, fun ι keep texts htexts => filter_steps limits keep htexts rfl⟩
  obtain ⟨errors, hrun⟩ := run_of_rejected limits htext m
  refine ⟨_, _, hrun, rfl, rfl, ?_, ?_, rfl, rfl, rfl, rfl, rfl, rfl⟩
  · simp [Report.errors, complaints, List.filterMap_map]
  · simp [Report.output, complaints, List.filterMap_map]

/-- A text that is broken off does not get between one that declares a variable and one that prints
it. -/
theorem rejected_texts_do_nothing_between :
    diagnostics "var a" ≠ [] ∧ ∀ m : Machine .bound,
      (∃ r n, run ⟨9, 9⟩ "var a" m = .ok r n ∧ r.exitCode = 65 ∧ n.store = m.store) ∧
      (steps (run ⟨9, 9⟩) [(1, "var a = 2;"), (2, "var a"), (3, "print a;")] m).filter (·.1 != 2) =
        steps (run ⟨9, 9⟩) [(1, "var a = 2;"), (3, "print a;")] m := by
  have hrejected : diagnostics "var a" ≠ [] := by decide +kernel
  refine ⟨hrejected, fun m => ⟨?_, ?_⟩⟩
  · obtain ⟨r, n, hrun, -, hexit, -, -, hstore, -⟩ :=
      (rejected_texts_do_nothing ⟨9, 9⟩ m).1 "var a" hrejected
    exact ⟨r, n, hrun, hexit, hstore⟩
  · refine (rejected_texts_do_nothing ⟨9, 9⟩ m).2 Nat (· != 2) _ fun step hstep hkeep => ?_
    simp only [List.mem_cons, List.not_mem_nil, or_false] at hstep
    obtain rfl | rfl | rfl := hstep
    · cases hkeep
    · exact hrejected
    · cases hkeep

end Session

end LoxLang
