import LoxLang.Proofs.Joining
import LoxLang.Proofs.Lexical
import LoxLang.Proofs.Origins
import LoxLang.Proofs.Rejection

/-!
# A text in two parts

To hand a session one text and then another comes to the same as to hand it both together, the
second on the lines after the first, if the first comes to its end
(`Session.splitting_changes_nothing`). All that is different is the line of a fault, if the token
that is blamed for it is from the second text.

Both runs go through the statements of the first text alike. The machine then has messages on it in
the one case and has been cleared of them in the other, which no program can tell; and the second
program is run on different lines, which shows in nothing but faults
(`Session.runBound_pairs_lines`).
-/

namespace LoxLang

open Streams (Change)

variable {σ τ : Scoping}

/-! ### Programs one after the other -/

/-- A program that goes on after another one goes on from where that has ended. -/
theorem Program.run_append (rounds depth : Nat) (first : Program σ.Mark) {later : Program σ.Mark}
    (hlater : later ≠ []) {m n : Machine σ} {v : Value}
    (h : Program.run rounds depth first m = .ok v n) :
    Program.run rounds depth (first ++ later) m = Program.run rounds depth later n := by
  have hbody : Program.body (first ++ later) =
      Program.body first >>= fun v => later.foldlM (fun _ s => s.topBody) v :=
    List.foldlM_append
  -- Each statement drops the value of the one before it, and there is at least one more.
  have hvalue (v : Value) : later.foldlM (fun _ s => s.topBody) v = Program.body later := by
    cases later with
    | nil => exact absurd rfl hlater
    | cons s later => rfl
  unfold Program.run at h ⊢
  rw [hbody, Dialogue.run_bind, Eval.bind_of_ok h, hvalue]

/-- What has been traced before makes no difference to a program. -/
theorem Program.run_cleared (rounds depth : Nat) {program : Program σ.Mark} {m n : Machine σ}
    {v : Value} {errors : String}
    (h : Program.run rounds depth program (m.cleared errors) = .ok v n) (errors' : String) :
    ∃ errors'', Program.run rounds depth program (m.cleared errors') =
      .ok v { n with errors := errors'' } := by
  -- Both machines are the one without a trace, with something put in front of it.
  have hbehind (errors : String) :
      Program.run rounds depth program (m.cleared errors) =
        (Change.behind [] errors).result (Program.run rounds depth program (m.cleared "")) := by
    rw [← (Program.discreet_run rounds depth program).oblivious]
    simp [Machine.cleared, Machine.change, Machine.withStreams, Machine.streams, Change.behind]
  rw [hbehind] at h
  rw [hbehind]
  cases hbare : Program.run rounds depth program (m.cleared "") with
  | ok v' n' =>
    rw [hbare] at h
    cases h
    refine ⟨errors' ++ n'.errors, ?_⟩
    simp [Change.result, Machine.change, Machine.withStreams, Machine.streams, Change.behind]
  | error why n' =>
    rw [hbare] at h
    cases h

/-! ### Reports -/

namespace Eval

/-- A computation that fails for nothing but the stack, on each element of a list. -/
theorem mapM_eq_enough {α β : Type} {f : α → Eval σ β} {g : Store σ → α → Option β}
    (h : ∀ a m, f a m = enough (g m.store a) m) (l : List α) (m : Machine σ) :
    l.mapM f m = enough (l.mapM (g m.store)) m := by
  induction l with
  | nil => rfl
  | cons a l ih =>
    rw [List.mapM_cons, List.mapM_cons]
    cases ha : g m.store a with
    | none =>
      have hfirst : f a m = .error .exhausted m := by rw [h, ha]; rfl
      rw [bind_of_error hfirst]
      rfl
    | some b =>
      have hfirst : f a m = .ok b m := by rw [h, ha]; rfl
      rw [bind_of_ok hfirst]
      cases hl : l.mapM (g m.store) with
      | none =>
        have hrest : l.mapM f m = .error .exhausted m := by rw [ih, hl]; rfl
        rw [bind_of_error hrest]
        rfl
      | some bs =>
        have hrest : l.mapM f m = .ok bs m := by rw [ih, hl]; rfl
        rw [bind_of_ok hrest]
        rfl

end Eval

/-- The outcomes are the same, except that tokens that are blamed correspond. -/
inductive Outcome.Pairs (L : Token → Token → Prop) : Outcome → Outcome → Prop where
  | success {v : Value} : Pairs L (.success v) (.success v)
  | faulted {cause : Cause} {place place' : Option Token} {calls : List String}
    (h : Option.Rel L place place') :
    Pairs L (.faulted ⟨cause, place⟩ calls) (.faulted ⟨cause, place'⟩ calls)

namespace Session

/-- A pending call with its arguments, if the stack is large enough to show them. -/
def callText? (depth : Nat) (s : Store σ) (call : PendingCall) : Option String :=
  (call.arguments.mapM (Value.text? s (depth / Eval.levelsPerStep) 1)).map fun arguments =>
    "(" ++ " ".intercalate (call.name :: arguments) ++ ")"

theorem callText_eq (depth : Nat) (call : PendingCall) (m : Machine σ) :
    callText depth call m = Eval.enough (callText? depth m.store call) m := by
  have harguments := Eval.mapM_eq_enough (σ := σ) (f := Eval.text depth 1)
    (g := fun s => Value.text? s (depth / Eval.levelsPerStep) 1) (fun _ _ => rfl) call.arguments m
  unfold callText callText?
  cases hl : call.arguments.mapM (Value.text? m.store (depth / Eval.levelsPerStep) 1) with
  | none =>
    rw [hl] at harguments
    exact Eval.bind_of_error harguments _
  | some arguments =>
    rw [hl] at harguments
    exact Eval.bind_of_ok harguments _

/-- What comes of a fault. -/
theorem reportFault_eq (depth : Nat) (f : Fault) (m : Machine σ) :
    reportFault depth f m =
      match m.calls.reverse.mapM (callText? depth m.store) with
      | some calls => .ok ⟨.faulted f calls, m.effects.reverse ++ [.error f.text]⟩
          (m.withEffects (.error f.text :: m.effects))
      | none => .error .exhausted (m.withEffects (.error f.text :: m.effects)) := by
  let noted := m.withEffects (.error f.text :: m.effects)
  have hcalls := Eval.mapM_eq_enough (f := callText depth) (callText_eq (σ := σ) depth)
    m.calls.reverse noted
  have hreport : reportFault depth f m =
      (do report (.faulted f (← m.calls.reverse.mapM (callText depth)))) noted := rfl
  rw [hreport]
  have hstore : noted.store = m.store := rfl
  rw [hstore] at hcalls
  cases hl : m.calls.reverse.mapM (callText? depth m.store) with
  | none =>
    rw [hl] at hcalls
    exact Eval.bind_of_error hcalls _
  | some calls =>
    rw [hl] at hcalls
    refine (Eval.bind_of_ok hcalls _).trans ?_
    show EStateM.Result.ok (Report.mk _ (Effect.error f.text :: m.effects).reverse) _ = _
    rw [List.reverse_cons]

/-- Calls are shown in the same way on stores that are alike. -/
theorem callText?_eq {s : Store σ} {t : Store τ} (h : s.Alike t) (depth : Nat) :
    callText? depth s = callText? depth t := by
  funext call
  simp only [callText?, Value.text?_eq h]

theorem output_append (outcome outcome' : Outcome) (effects effects' : List Effect) :
    (Report.mk outcome (effects ++ effects')).output =
      (Report.mk outcome' effects).output ++ (Report.mk outcome' effects').output :=
  List.filterMap_append

section

variable {S : Simulation σ τ} {w : S.World} {p : S.Place} {o : S.Owner} {m : Machine σ}
  {n : Machine τ}

variable (S) in
/-- The reports differ in nothing but lines, and the machines correspond. -/
structure SameButLines (r r' : Report) (m : Machine σ) (n : Machine τ) : Prop where
  outcome : r.outcome.Pairs S.AnyTokens r'.outcome
  output : r.output = r'.output
  store : ∃ w, m.store.Sim S w n.store

theorem reportFault_pairs_lines (depth : Nat) (hm : m.Sim S w n) {cause : Cause}
    {place place' : Option Token} (hplace : Option.Rel S.AnyTokens place place') :
    (reportFault depth ⟨cause, place⟩).Pairs (reportFault depth ⟨cause, place'⟩) m n
      (SameButLines S) fun why why' m' n' => why = why' ∧ ∃ w, m'.store.Sim S w n'.store := by
  have hcalls : m.calls.reverse.mapM (callText? depth m.store) =
      n.calls.reverse.mapM (callText? depth n.store) := by
    rw [hm.calls, callText?_eq hm.store.alike]
  unfold Eval.Pairs
  rw [reportFault_eq, reportFault_eq, hcalls]
  cases n.calls.reverse.mapM (callText? depth n.store) with
  | none => exact ⟨rfl, w, hm.store⟩
  | some calls =>
    refine ⟨.faulted hplace, ?_, w, hm.store⟩
    rw [output_append _ (.success .nil), output_append _ (.success .nil), hm.effects]
    rfl

/-- **Programs that correspond have reports that differ in nothing but lines.** -/
theorem runBound_pairs_lines [S.Lockstep] (limits : Limits) (hp : S.Stays p)
    (hm : m.SimAt S w p o n) {program : Program σ.Mark} {program' : Program τ.Mark}
    (h : Stmt.AllSim S p program program') :
    (runBound limits program).Pairs (runBound limits program') m n
      (SameButLines S) fun why why' m' n' => why = why' ∧ ∃ w, m'.store.Sim S w n'.store := by
  have hrun := (S.pact_kept limits.rounds).program_run limits.depth (Program.relates_body hp hm h)
  refine pairs_runBound limits (hrun.mono ?_ ?_)
  · rintro v _ m₁ n₁ ⟨rfl, w₁, -, hm₁⟩
    refine ⟨.success, ?_, w₁, hm₁.sim.store⟩
    exact congrArg (fun effects => Report.output ⟨.success _, effects.reverse⟩) hm₁.sim.effects
  · rintro why why' m₁ n₁ ⟨hwhy, w₁, -, hm₁⟩
    cases hwhy with
    | placed hplace => exact reportFault_pairs_lines limits.depth hm₁.sim (.some hplace)
    | unplaced => exact reportFault_pairs_lines limits.depth hm₁.sim .none
    | _ => exact ⟨rfl, w₁, hm₁.sim.store⟩

end

/-- Messages that have been there before stand before those of the program. -/
theorem runBound_behind (limits : Limits) (program : Program σ.Mark) (effects : List Effect)
    (m : Machine σ) :
    (runBound limits program).Pairs (runBound limits program) m (m.change (.behind effects ""))
      (fun r r' n n' => r'.outcome = r.outcome ∧ r'.effects = effects.reverse ++ r.effects ∧
        n'.store = n.store)
      fun why why' n n' => why' = why ∧ n'.store = n.store := by
  have hrun := (Program.discreet_run limits.rounds limits.depth program).oblivious
    (.behind effects "") m
  unfold Eval.Pairs
  cases hleft : Program.run limits.rounds limits.depth program m with
  | ok v n =>
    rw [hleft] at hrun
    rw [runBound_of_ok limits hleft, runBound_of_ok limits hrun]
    exact ⟨rfl, List.reverse_append, rfl⟩
  | error why n =>
    rw [hleft] at hrun
    obtain ⟨f, rfl⟩ | hnot := fault_or_not why
    · have hcalls : (n.change (.behind effects "")).calls.reverse.mapM
          (callText? limits.depth (n.change (.behind effects "")).store) =
            n.calls.reverse.mapM (callText? limits.depth n.store) := rfl
      rw [runBound_of_fault limits hleft, runBound_of_fault limits hrun, reportFault_eq,
        reportFault_eq, hcalls]
      cases n.calls.reverse.mapM (callText? limits.depth n.store) with
      | none => exact ⟨rfl, rfl⟩
      | some calls =>
        refine ⟨rfl, ?_, rfl⟩
        show (n.effects ++ effects).reverse ++ _ = _
        rw [List.reverse_append, List.append_assoc]
    · rw [runBound_of_halt limits hleft hnot, runBound_of_halt limits hrun hnot]
      exact ⟨rfl, rfl⟩

/-! ### The two parts together -/

section

variable {limits : Limits} {a b : String} {m n : Machine .bound} {r : Report} {v : Value}

theorem accepts_of_success {text : String} (h : run limits text m = .ok r n)
    (hv : r.outcome = .success v) : Accepts text := by
  by_contra hrejected
  obtain ⟨ds, errors, -, hrun⟩ := run_of_not_accepts limits hrejected m
  have hends := (reject_ends ds (m.cleared errors)).of_ok (hrun.symm.trans h)
  rw [hv] at hends
  cases hends.1

/-- A program that comes to its end without a fault leaves the machine that is reported on. -/
theorem program_run_of_success {program : Program Hops}
    (h : runBound (σ := .bound) limits program m = .ok r n) (hv : r.outcome = .success v) :
    Program.run (σ := .bound) limits.rounds limits.depth program m = .ok v n ∧
      r.effects = n.effects.reverse := by
  cases hrun : Program.run (σ := .bound) limits.rounds limits.depth program m with
  | ok v' n' =>
    rw [runBound_of_ok limits hrun] at h
    cases h
    cases hv
    exact ⟨rfl, rfl⟩
  | error why n' =>
    obtain ⟨f, rfl⟩ | hnot := fault_or_not why
    · rw [runBound_of_fault limits hrun] at h
      obtain ⟨⟨calls, houtcome⟩, -⟩ := (reportFault_ends limits.depth f n').of_ok h
      cases houtcome.symm.trans hv
    · rw [runBound_of_halt limits hrun hnot] at h
      cases h

theorem program_ne_nil (h : (Source.ofText b).program ≠ []) : program b ≠ [] := by
  intro hb
  have hforget : Program.mapMarks (fun _ => ()) (program b) = (Source.ofText b).program :=
    Program.forget_resolveWith _
  refine h (hforget.symm.trans ?_)
  exact congrArg (Program.mapMarks fun _ => ()) hb

/-- Two texts together come to what the second program comes to, further down, on the machine that
the first one has left, with the messages of the first one before its own. -/
theorem run_joined {first : Report} (ha : run limits a m = .ok first n)
    (hv : first.outcome = .success v) (hb : Accepts b) (hne : (Source.ofText b).program ≠ []) :
    ∃ errors, (runBound limits ((program b).mapLines (· + linesOf a))).Pairs
      (run limits (joined a b)) (n.cleared errors) m
      (fun r r' k k' => r'.outcome = r.outcome ∧ r'.effects = first.effects ++ r.effects ∧
        k'.store = k.store)
      fun why why' k k' => why' = why ∧ k'.store = k.store := by
  have haccepts := accepts_of_success ha hv
  obtain ⟨hjoined, hprogram⟩ := accepts_joined haccepts hb
  obtain ⟨errors, hrun⟩ := run_of_accepted limits haccepts m
  obtain ⟨hfirst, heffects⟩ := program_run_of_success (hrun.symm.trans ha) hv
  have hcalls : n.calls = [] := (Program.discreet_run ..).calls _ _ _ hfirst
  -- The trace of the joined text is another one, so the first program has to be run again behind
  -- it.
  obtain ⟨errors', hrun'⟩ := run_of_accepted limits hjoined m
  obtain ⟨errors'', hfirst'⟩ := Program.run_cleared limits.rounds limits.depth hfirst errors'
  have hlater : (program b).mapLines (· + (linesOf a : Int)) ≠ [] := by
    have hb := program_ne_nil hne
    cases hp : program b with
    | nil => exact absurd hp hb
    | cons s ss => exact List.cons_ne_nil _ _
  have hgoesOn : run limits (joined a b) m =
      runBound limits ((program b).mapLines (· + (linesOf a : Int)))
        ({ n with errors := errors'' } : Machine .bound) := by
    rw [hrun', hprogram]
    unfold runBound
    rw [Program.run_append _ _ _ hlater hfirst']
  -- Only messages are left from the first program: it has come to its end, so no call is pending.
  have hmachine : ({ n with errors := errors'' } : Machine .bound) =
      (n.cleared errors'').change (.behind n.effects "") := by
    simp [hcalls, Machine.cleared, Machine.change, Machine.withStreams, Machine.streams,
      Change.behind]
  refine ⟨errors'', .of_eq ?_ rfl (hgoesOn.trans (congrArg _ hmachine))⟩
  rw [heffects]
  exact runBound_behind limits _ n.effects (n.cleared errors'')

/-- A text comes to the same on other lines, but for lines. -/
theorem runBound_pairs_mapLines (limits : Limits) (hb : Accepts b) {old : Token → Prop}
    {f g : Int → Int}
    (hm : m.SelfSim (.relines old (· ∈ (Scan.ofText b).tokens) f g) Origin.earlier ())
    (errors errors' : String) :
    (runBound limits ((program b).mapLines f)).Pairs (runBound limits ((program b).mapLines g))
      (m.cleared errors) (m.cleared errors')
      (SameButLines (.relines old (· ∈ (Scan.ofText b).tokens) f g))
      fun why why' n n' => why = why' ∧
        ∃ w, n.store.Sim (.relines old (· ∈ (Scan.ofText b).tokens) f g) w n'.store := by
  obtain ⟨w, hm⟩ := hm
  have hcleared := hm.cleared errors errors'
  -- The code on the machine is from earlier texts, but the program to be run has moved.
  have hmoved : (m.cleared errors).SimAt (.relines old (· ∈ (Scan.ofText b).tokens) f g) w
      Origin.moved () (m.cleared errors') :=
    ⟨hcleared.sim, hcleared.current⟩
  refine runBound_pairs_lines limits (Simulation.stays_relines _ _ f g _) hmoved ?_
  exact Program.sim_mapLines hb (Simulation.relines_moved _ _ f g) fun _ ht => ht

end

end Session

/-- A token that is blamed moves with the second of two texts or stays. It moves to the line after
if there is one line more in front of the text, and then it moves by any number of lines. -/
theorem Simulation.blames_relines {old new : Token → Prop} {lines : Nat} (hlines : 0 < lines)
    {t t₁ t' : Token} (hblank : (relines old new id (· + 1)).AnyTokens t t₁)
    (hjoined : (relines old new id (· + lines)).AnyTokens t t')
    (hboth : (relines old new (· + 1) (· + lines)).AnyTokens t₁ t') :
    (new t ∧ t₁.line = t.line + 1 ∧ t' = t.mapLine (· + lines)) ∨
      (old t ∧ t₁.line = t.line ∧ t' = t) := by
  -- A token may be in texts of both kinds, so two runs alone do not tell whether it moves by
  -- `lines` for being in the second text. The line that it has in the third run does.
  have hblank : t₁.line = t.line ∨ t₁.line = t.line + 1 := by
    obtain ⟨_ | _, h⟩ := hblank
    · exact .inl (congrArg Token.line h.2)
    · obtain ⟨s, -, rfl, rfl⟩ := h
      exact .inr rfl
  have hboth : t'.line = t₁.line ∨ t'.line + 1 = t₁.line + lines := by
    obtain ⟨_ | _, h⟩ := hboth
    · exact .inl (congrArg Token.line h.2)
    · obtain ⟨s, -, rfl, rfl⟩ := h
      exact .inr (by simp only [Token.mapLine]; omega)
  obtain ⟨_ | _, h⟩ := hjoined
  · obtain ⟨hold, rfl⟩ := h
    exact .inr ⟨hold, by omega, rfl⟩
  · obtain ⟨s, hnew, rfl, rfl⟩ := h
    have hmoved : (s.mapLine (· + (lines : Int))).line = (s.mapLine id).line + lines := rfl
    exact .inl ⟨hnew, by omega, rfl⟩

/-- The outcome without the token that is blamed. -/
def Outcome.unplaced : Outcome → Outcome
  | faulted f calls => faulted ⟨f.cause, none⟩ calls
  | outcome => outcome

theorem Outcome.Pairs.unplaced {L : Token → Token → Prop} {outcome outcome' : Outcome}
    (h : outcome.Pairs L outcome') : outcome'.unplaced = outcome.unplaced := by
  cases h <;> rfl

theorem Outcome.Pairs.of_faulted {L : Token → Token → Prop} {cause : Cause} {t : Token}
    {calls : List String} {outcome : Outcome}
    (h : Pairs L (.faulted ⟨cause, some t⟩ calls) outcome) :
    ∃ t', outcome = .faulted ⟨cause, some t'⟩ calls ∧ L t t' := by
  cases h with
  | faulted hplace =>
    cases hplace with
    | some ht => exact ⟨_, rfl, ht⟩

namespace Session

/-- The line that is blamed for the fault that a text ends in. -/
def faultLine? (limits : Limits) (text : String) (m : Machine .bound) : Option Int :=
  match run limits text m with
  | .ok ⟨.faulted f _, _⟩ _ => f.place.map Token.line
  | _ => none

theorem faultLine?_of_ok {limits : Limits} {text : String} {m n : Machine .bound} {r : Report}
    (h : run limits text m = .ok r n) {cause : Cause} {t : Token} {calls : List String}
    (hr : r.outcome = .faulted ⟨cause, some t⟩ calls) : faultLine? limits text m = some t.line := by
  obtain ⟨outcome, effects⟩ := r
  cases hr
  unfold faultLine?
  rw [h]
  rfl

/-- What is shown of the store is the same. -/
theorem globals_view_eq {S : Simulation .bound .bound}
    (hS : ∀ w mem mem', S.Memories w mem mem' → mem = mem') {w : S.World} {m n : Machine .bound}
    (h : m.store.Sim S w n.store) (levels : Nat) (answer answer' : Except Halt Report) :
    (view Frames.globals levels answer' n).globals =
      (view Frames.globals levels answer m).globals := by
  have htext := Value.text?_eq h.alike levels
  simp only [view, htext, hS _ _ _ h.memory]

theorem value_view_eq {L : Token → Token → Prop} {r r' : Report}
    (h : r.outcome.Pairs L r'.outcome) {m n : Machine .bound} (hmn : m.store.Alike n.store)
    (levels : Nat) :
    (view Frames.globals levels (.ok r') n).value =
      (view Frames.globals levels (.ok r) m).value := by
  obtain ⟨outcome, effects⟩ := r
  obtain ⟨outcome', effects'⟩ := r'
  cases h with
  | success => simp only [view, Value.text?_eq hmn]
  | faulted => rfl

/-- The token that is blamed for a fault when a text is run further down. -/
theorem blamed_in_both {limits : Limits} {b : String} (hb : Accepts b) {old : Token → Prop}
    {m n n' : Machine .bound}
    (hself : ∀ f g, m.SelfSim (.relines old (· ∈ (Scan.ofText b).tokens) f g) Origin.earlier ())
    {lines : Nat} (hlines : 0 < lines) {errors : String} {r r' : Report}
    (hrun : run limits b m = .ok r n)
    (hrun' : runBound limits ((program b).mapLines (· + (lines : Int))) (m.cleared errors) =
      .ok r' n')
    {cause : Cause} {t : Token} {calls : List String}
    (hr : r.outcome = .faulted ⟨cause, some t⟩ calls) :
    ∃ t', r'.outcome = .faulted ⟨cause, some t'⟩ calls ∧
      ((t ∈ (Scan.ofText b).tokens ∧ faultLine? limits (joined "" b) m = some (t.line + 1) ∧
          t' = t.mapLine (· + lines)) ∨
        (old t ∧ faultLine? limits (joined "" b) m = some t.line ∧ t' = t)) := by
  obtain ⟨hblank, hprogram⟩ := accepts_joined (a := "") (by decide +kernel) hb
  have hone : program "" ++ (program b).mapLines (· + linesOf "") =
      (program b).mapLines (· + (1 : Int)) := by
    have hempty : program "" = [] := by with_unfolding_all rfl
    rw [hempty]
    rfl
  -- The text is run where it is, one line down and `lines` down, and each two of the runs
  -- correspond.
  obtain ⟨errors₀, hplain⟩ := run_of_accepted limits hb m
  obtain ⟨errors₁, hdown⟩ := run_of_accepted limits hblank m
  rw [hplain, ← Program.mapLines_id (program b)] at hrun
  rw [hprogram, hone] at hdown
  obtain ⟨r₁, n₁, hrun₁, hsame₁⟩ :=
    (runBound_pairs_mapLines limits hb (hself id (· + 1)) errors₀ errors₁).exists_right_of_ok hrun
  obtain ⟨_, _, hsecond, hsame⟩ := (runBound_pairs_mapLines limits hb (hself id (· + lines)) errors₀
    errors).exists_right_of_ok hrun
  obtain ⟨_, _, hthird, hsame'⟩ := (runBound_pairs_mapLines limits hb (hself (· + 1) (· + lines))
    errors₁ errors).exists_right_of_ok hrun₁
  cases hsecond.symm.trans hrun'
  cases hthird.symm.trans hrun'
  obtain ⟨t₁, ht₁, hblames₁⟩ := (hr ▸ hsame₁.outcome).of_faulted
  obtain ⟨t', ht', hblames⟩ := (hr ▸ hsame.outcome).of_faulted
  obtain ⟨_, ht'', hblames'⟩ := (ht₁ ▸ hsame'.outcome).of_faulted
  cases ht''.symm.trans ht'
  have hline := faultLine?_of_ok (hdown.trans hrun₁) ht₁
  refine ⟨t', ht', ?_⟩
  rw [hline]
  obtain ⟨hnew, h₁, h'⟩ | ⟨hold, h₁, h'⟩ :=
    Simulation.blames_relines hlines hblames₁ hblames hblames'
  · exact .inl ⟨hnew, congrArg some h₁, h'⟩
  · exact .inr ⟨hold, congrArg some h₁, h'⟩

theorem leaves_append (run : String → Eval σ Report) (texts : List String) (text : String)
    (m : Machine σ) : leaves run (texts ++ [text]) m = (run text).leaves (leaves run texts m) :=
  List.foldl_append

/-- **A text may be split.** A text comes to its end in a session, and then another one is run. All
that can be seen of it is as if the session had run the two together, with the second one on the
lines after the first: the messages, the value, the global variables, the cause of a fault and the
calls that were pending. A token of the second text that is blamed for a fault is further down by
the lines of the first; it is one that moves down if a line is put in front of the second text. Any
other token is on the same line, and it is one of the first text or of an earlier one. -/
theorem splitting_changes_nothing (limits : Limits) (levels : Nat) (natives : List Native)
    (input : List String) (output : Option String) (tracing : Bool) (clock : Clock)
    (earlier : List String) {a b : String} {first : Report} {v : Value} {m₁ : Machine .bound}
    (ha : run limits a (leaves (run limits) earlier (.start natives input output tracing clock)) =
      .ok first m₁)
    (hv : first.outcome = .success v) (hb : Accepts b) (hne : (Source.ofText b).program ≠ []) :
    let m := leaves (run limits) earlier (.start natives input output tracing clock)
    Accepts (joined a b) ∧
      (run limits b).Pairs (run limits (joined a b)) m₁ m
        (fun r r' n n' =>
          r'.output = first.output ++ r.output ∧
          r'.outcome.unplaced = r.outcome.unplaced ∧
          (view Frames.globals levels (.ok r') n').value =
            (view Frames.globals levels (.ok r) n).value ∧
          (view Frames.globals levels (.ok r') n').globals =
            (view Frames.globals levels (.ok r) n).globals ∧
          ∀ f calls, r.outcome = .faulted f calls → ∃ t t', f.place = some t ∧
            r'.outcome = .faulted ⟨f.cause, some t'⟩ calls ∧
            ((t ∈ (Scan.ofText b).tokens ∧
                faultLine? limits (joined "" b) m₁ = some (t.line + 1) ∧
                t' = t.mapLine (· + linesOf a)) ∨
              ((∃ text ∈ a :: earlier, t ∈ (Scan.ofText text).tokens) ∧
                faultLine? limits (joined "" b) m₁ = some t.line ∧ t' = t)))
        fun why why' n n' => why' = why ∧
          (view Frames.globals levels (.error why') n').globals =
            (view Frames.globals levels (.error why) n).globals := by
  intro m
  let old (t : Token) : Prop := ∃ text ∈ a :: earlier, t ∈ (Scan.ofText text).tokens
  let new (t : Token) : Prop := t ∈ (Scan.ofText b).tokens
  have haccepts := accepts_of_success ha hv
  have hm₁ : m₁ = leaves (run limits) (earlier ++ [a])
      (.start natives input output tracing clock) := by
    rw [leaves_append]
    unfold Eval.leaves
    rw [ha]
  have hself (f g : Int → Int) : m₁.SelfSim (.relines old new f g) Origin.earlier () := by
    rw [hm₁]
    refine selfSim_relines limits natives input output tracing clock fun text htext t ht => ?_
    exact ⟨text, by simpa [or_comm] using htext, ht⟩
  have hready : m₁.Ready := by
    rw [hm₁]
    exact ready_leaves limits _ (ready_start natives input output tracing clock)
  have hmemories (f g : Int → Int) : ∀ w mem mem',
      (Simulation.relines old new f g).Memories w mem mem' → mem = mem' := fun _ _ _ h => h
  -- From `b` by itself to `b` further down, and from there to `b` behind `a`.
  obtain ⟨errors, hsplit⟩ := run_of_accepted limits hb m₁
  obtain ⟨errors', hjoined⟩ := run_joined ha hv hb hne
  have hlines := runBound_pairs_mapLines limits hb (hself id (· + linesOf a)) errors errors'
  rw [Program.mapLines_id] at hlines
  refine ⟨(accepts_joined haccepts hb).1, ?_⟩
  unfold Eval.Pairs
  cases hrun : run limits b m₁ with
  | ok r n =>
    obtain ⟨r₀, n₀, hmid, hsame⟩ := hlines.exists_right_of_ok (hsplit.symm.trans hrun)
    obtain ⟨r', n', hrun', houtcome, heffects, hstore⟩ := hjoined.exists_right_of_ok hmid
    obtain ⟨w, hw⟩ := hsame.store
    rw [hrun']
    rw [← hstore] at hw
    have hpairs : r.outcome.Pairs _ r'.outcome := houtcome ▸ hsame.outcome
    refine ⟨?_, hpairs.unplaced, value_view_eq hpairs hw.alike levels,
      globals_view_eq (hmemories _ _) hw levels _ _, ?_⟩
    · have houtput : r'.output = first.output ++ r₀.output := by
        unfold Report.output
        rw [heffects, List.filterMap_append]
      rw [houtput, hsame.output]
    · -- A program that has been accepted has a token to blame for each of its faults.
      intro f calls hf
      obtain ⟨hplace, -⟩ := ((run_ends limits b hready).of_ok hrun).1 f calls hf
      obtain ⟨t, ht⟩ := Option.isSome_iff_exists.1 hplace
      obtain ⟨cause, place⟩ := f
      obtain rfl : place = some t := ht
      obtain ⟨t', ht', hmoves⟩ := blamed_in_both hb hself (Nat.succ_pos _) hrun hmid hf
      exact ⟨t, t', rfl, houtcome.trans ht', hmoves⟩
  | error why n =>
    obtain ⟨_, n₀, hmid, rfl, w, hw⟩ := hlines.exists_right_of_error (hsplit.symm.trans hrun)
    obtain ⟨_, n', hrun', rfl, hstore⟩ := hjoined.exists_right_of_error hmid
    rw [hrun']
    rw [← hstore] at hw
    exact ⟨rfl, globals_view_eq (hmemories _ _) hw levels _ _⟩

/-- How the run of a text ended, if there is a report. -/
def outcome? : EStateM.Result Halt (Machine σ) Report → Option Outcome
  | .ok r _ => some r.outcome
  | .error .. => none

theorem exists_of_outcome? {x : EStateM.Result Halt (Machine σ) Report} {outcome : Outcome}
    (h : outcome? x = some outcome) : ∃ r n, x = .ok r n ∧ r.outcome = outcome := by
  cases x with
  | ok r n => exact ⟨r, n, rfl, Option.some.inj h⟩
  | error why n => cases h

/-- A function is declared by one text and called by the next one, which ends in a fault on its
second line. -/
theorem splitting_changes_nothing_function :
    let m := leaves (run ⟨20, 5⟩) ["var x;"] (.start [] [] none false ⟨0, []⟩)
    let a := "fun f() \x7b print nil; \x7d\nf();"
    let b := "f();\nz;"
    ∃ first m₁ r n r' n', run ⟨20, 5⟩ a m = .ok first m₁ ∧ run ⟨20, 5⟩ b m₁ = .ok r n ∧
      run ⟨20, 5⟩ (joined a b) m = .ok r' n' ∧ r'.output = first.output ++ r.output ∧
      r.outcome = .faulted ⟨.undefinedVariable "z", some ⟨.identifier "z", 2⟩⟩ [] ∧
      r'.outcome = .faulted ⟨.undefinedVariable "z", some ⟨.identifier "z", 4⟩⟩ [] := by
  intro m a b
  have hfirst : outcome? (run ⟨20, 5⟩ a m) = some (.success .nil) := by decide +kernel
  have hjoined : outcome? (run ⟨20, 5⟩ (joined a b) m) =
      some (.faulted ⟨.undefinedVariable "z", some ⟨.identifier "z", 4⟩⟩ []) := by decide +kernel
  obtain ⟨first, m₁, ha, hsuccess⟩ := exists_of_outcome? hfirst
  obtain ⟨r', n', hrun', hr'⟩ := exists_of_outcome? hjoined
  obtain ⟨-, hpairs⟩ := splitting_changes_nothing ⟨20, 5⟩ 3 [] [] none false ⟨0, []⟩ ["var x;"] ha
    hsuccess (b := b) (by decide +kernel) (by decide +kernel)
  obtain ⟨r, n, hrun, houtput, houtcome, -, -, hfault⟩ := hpairs.exists_of_ok hrun'
  refine ⟨first, m₁, r, n, r', n', ha, hrun, hrun', houtput, ?_, hr'⟩
  cases hr : r.outcome with
  | faulted f calls =>
    obtain ⟨t, t', ht, heq, hmoves⟩ := hfault f calls hr
    obtain ⟨cause, place⟩ := f
    cases ht
    cases hr'.symm.trans heq
    -- No earlier text has a `z`, so the token is from the second one.
    obtain ⟨-, -, hmoved⟩ | ⟨hold, -, hstays⟩ := hmoves
    · obtain ⟨word, line⟩ := t
      have hlines : linesOf a = 2 := by decide +kernel
      rw [hlines] at hmoved
      obtain ⟨rfl, hline⟩ : .identifier "z" = word ∧ (4 : Int) = line + 2 :=
        Token.mk.inj hmoved
      obtain rfl : line = 2 := by omega
      rfl
    · rw [← hstays] at hold
      exact absurd hold (by decide +kernel)
  | _ =>
    rw [hr, hr'] at houtcome
    cases houtcome

end Session

end LoxLang
