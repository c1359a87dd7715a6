import LoxLang.Proofs.Lexical
import LoxLang.Proofs.Quiet
import LoxLang.Proofs.Rejection
import LoxLang.Proofs.Texts

/-!
# What is written

Programs do not see whether a machine traces and whether standard output is attached, so a session
looks the same either way (`Session.views_muted`). What is written to standard output is told by a
*log*, which has an entry for each message of a run, with the task that wrote it (`Task.log`). Only
`print` statements and calls of `input` write messages, and what is written is the messages in their
order, with an end of line after those of `print` (`Session.wrote_run`). Both are put together in
`Session.output_is_not_seen`.
-/

namespace LoxLang

open Streams (Change)

variable {σ : Scoping} {α β γ : Type}

/-! ### Machines that write nothing -/

/-- Standard output is not attached, and nothing is traced. -/
def Streams.Change.mute : Change where
  apply s := { s with output := none, errors := "", tracing := false }
  apply_write _ _ _ := rfl
  apply_trace s words := by
    cases h : s.tracing with
    | true => simp [trace, h]
    | false => simp [trace, h]

theorem Streams.Change.keepsEffects_mute : mute.KeepsEffects := fun _ _ => rfl

namespace Session

variable {limits : Limits} {globals : Frames → Frame} {levels : Nat}

theorem run_muted (text : String) (m : Machine .bound) :
    run limits text (m.change .mute) = Change.mute.result (run limits text m) :=
  oblivious_runWith Change.keepsEffects_mute m

/-- A session looks the same on a machine that writes nothing. -/
theorem views_muted (texts : List String) (m : Machine .bound) :
    views globals levels (run limits) texts (m.change .mute) =
      views globals levels (run limits) texts m := by
  induction texts generalizing m with
  | nil => rfl
  | cons text texts ih =>
    unfold views
    rw [run_muted]
    cases run limits text m with
    | ok r n => exact congrArg₂ List.cons rfl (ih n)
    | error why n => exact congrArg₂ List.cons rfl (ih n)

theorem leaves_muted (texts : List String) (m : Machine .bound) :
    leaves (run limits) texts (m.change .mute) = (leaves (run limits) texts m).change .mute := by
  induction texts generalizing m with
  | nil => rfl
  | cons text texts ih =>
    have hleaves : (run limits text).leaves (m.change .mute) =
        ((run limits text).leaves m).change .mute := by
      unfold Eval.leaves
      rw [run_muted]
      cases run limits text m <;> rfl
    exact (congrArg (leaves (run limits) texts) hleaves).trans (ih _)

end Session

/-! ### Logs -/

/-- A message and the task that wrote it. -/
structure Entry (σ : Scoping) where
  writer : Task σ
  effect : Effect

/-- What comes after a message on standard output, by the task that writes it: an end of line after
what is printed, and nothing after the prompt of an input. Other tasks write nothing. -/
def Task.ending? : Task σ → Option String
  | .exec (.print _) => some "\n"
  | .invoke (.native .input) _ _ => some ""
  | _ => none

theorem Task.eq_of_isSome_ending? {t : Task σ} (h : t.ending?.isSome) :
    (∃ value, t = .exec (.print value)) ∨
      ∃ arguments paren, t = .invoke (.native .input) arguments paren := by
  unfold ending? at h
  split at h
  · exact .inl ⟨_, rfl⟩
  · exact .inr ⟨_, _, rfl⟩
  · simp at h

/-- The text of a message on standard output. -/
def Entry.text (e : Entry σ) : String :=
  match e.effect with
  | .output message => message ++ e.writer.ending?.getD ""
  | .error _ => ""

/-- The messages that a computation adds on a machine, earliest first. -/
def Eval.adds (x : Eval σ α) (m : Machine σ) : List Effect :=
  ((x.leaves m).effects.take ((x.leaves m).effects.length - m.effects.length)).reverse

/-- What a dialogue logs: what it does itself is written by the task `writer`, and `logs` tells what
is logged by the tasks that it asks for. -/
def Dialogue.log (writer : Task σ) (self : (t : Task σ) → Eval σ t.Answer)
    (logs : Task σ → Machine σ → List (Entry σ)) : Dialogue σ α → Machine σ → List (Entry σ)
  | done _, _ => []
  | act x next, m =>
    (x.adds m).map (Entry.mk writer) ++
      match x m with
      | .ok b n => (next b).log writer self logs n
      | .error _ _ => []
  | ask t next, m =>
    logs t m ++
      match self t m with
      | .ok a n => (next a).log writer self logs n
      | .error _ _ => []

/-- What a task logs. -/
def Task.log (rounds : Nat) : (depth : Nat) → Task σ → Machine σ → List (Entry σ)
  | 0, _, _ => []
  | depth + 1, t, m =>
    (t.body rounds depth).log t (Task.run rounds depth) (Task.log rounds depth) (t.enter m)

/-- The log accounts for what has been written while the first machine became the second: it has the
messages, all of them by tasks that write, and standard output has got their texts. -/
structure Machine.Wrote (m n : Machine σ) (log : List (Entry σ)) : Prop where
  effects : n.effects = (log.map Entry.effect).reverse ++ m.effects
  output : n.output = m.output.map (· ++ String.join (log.map Entry.text))
  writers : ∀ e ∈ log, e.writer.ending?.isSome ∧ ∃ message, e.effect = .output message

namespace Machine.Wrote

variable {l m n : Machine σ} {log log' : List (Entry σ)}

/-- Nothing has been written. -/
theorem nil (heffects : n.effects = m.effects) (houtput : n.output = m.output) : m.Wrote n [] where
  effects := heffects
  output := by
    rw [houtput]
    cases m.output <;> simp
  writers := by simp

theorem refl (m : Machine σ) : m.Wrote m [] := .nil rfl rfl

/-- One message has been written. -/
theorem one {t : Task σ} {message ending : String} (ht : t.ending? = some ending)
    (heffects : n.effects = .output message :: m.effects)
    (houtput : n.output = m.output.map (· ++ (message ++ ending))) :
    m.Wrote n [⟨t, .output message⟩] where
  effects := heffects
  output := by simp [houtput, Entry.text, ht]
  writers := by simp [ht]

theorem trans (h : l.Wrote m log) (h' : m.Wrote n log') : l.Wrote n (log ++ log') where
  effects := by rw [h'.effects, h.effects]; simp
  output := by
    rw [h'.output, h.output, Option.map_map]
    congr 1
    funext s
    simp [String.append_assoc]
  writers := by
    intro e he
    obtain he | he := List.mem_append.1 he
    · exact h.writers e he
    · exact h'.writers e he

end Machine.Wrote

/-! ### Computations that write -/

namespace Eval

/-- What the computation writes is accounted for as written by the task. -/
def WritesAs (t : Task σ) (x : Eval σ α) : Prop :=
  ∀ m : Machine σ, m.Wrote (x.leaves m) ((x.adds m).map (Entry.mk t))

variable {x : Eval σ α} {t : Task σ}

theorem adds_eq (added : List Effect) {m : Machine σ}
    (h : (x.leaves m).effects = added.reverse ++ m.effects) : x.adds m = added := by
  simp [adds, h]

theorem Quiet.writesAs (hx : x.Quiet) : x.WritesAs t := by
  intro m
  rw [adds_eq [] (hx m).effects]
  exact .nil (hx m).effects (hx m).output

/-- One message is written, unless the computation halts before. -/
theorem writesAs_of_write {message : Eval σ String} (hmessage : message.Looks) {ending : String}
    (ht : t.ending? = some ending) {y : Eval σ α} (hy : y.Quiet) :
    (message >>= fun s => write s ending >>= fun _ => y).WritesAs t := by
  intro m
  have hm := hmessage.leaves m
  cases h : message m with
  | error why n =>
    rw [leaves_of_error h] at hm
    subst hm
    have hleaves := leaves_bind_of_error h fun s => write s ending >>= fun _ => y
    rw [adds_eq [] (congrArg Machine.effects hleaves), hleaves]
    exact .refl n
  | ok s n =>
    rw [leaves_of_ok h] at hm
    subst hm
    have hleaves := leaves_bind_of_ok h fun s => write s ending >>= fun _ => y
    obtain ⟨-, heffects, houtput⟩ := hy _
    rw [adds_eq [.output s], hleaves]
    · exact .one ht heffects houtput
    · rw [hleaves]
      exact heffects

theorem writesAs_printValue {depth : Nat} {v : Value} {e : Expr σ.Mark} :
    (printValue depth v).WritesAs (.exec (.print e)) :=
  writesAs_of_write looks_text rfl quiet_pure

/-- Nothing is written by the declaration of a class. -/
theorem writesAs_declareClass {name : Name} {superclass : Option (Name × σ.Mark)}
    {methods : List (Function σ.Mark)} : (declareClass name superclass methods).WritesAs t := by
  intro m
  have hmakes : (declareClass name superclass methods).Ends m
      (fun _ n => n.effects = m.effects ∧ n.output = m.output)
      fun _ n => (n.effects = m.effects ∧ n.output = m.output) ∧ True :=
    (declareClass_makes name superclass methods m).mono (fun _ _ h => ⟨h.1, h.2.1⟩)
      fun _ _ h => ⟨⟨h.effects, h.output⟩, trivial⟩
  have hsame := hmakes.leaves
  rw [adds_eq [] hsame.1]
  exact .nil hsame.1 hsame.2

theorem quiet_readLine : (readLine : Eval σ Value).Quiet := (made_readLine trivial).does.quiet

end Eval

open Eval

theorem Native.writesAs_input {depth : Nat} {arguments arguments' : List Value} {paren : Token} :
    (input.call depth arguments : Eval σ Value).WritesAs
      (.invoke (.native .input) arguments' paren) := by
  cases arguments with
  | nil => exact quiet_halt.writesAs
  | cons prompt rest =>
    cases rest with
    | nil => exact writesAs_of_write looks_text rfl quiet_readLine
    | cons _ _ => exact quiet_halt.writesAs

/-! ### Dialogues -/

namespace Dialogue

variable {self : (t : Task σ) → Eval σ t.Answer} {logs : Task σ → Machine σ → List (Entry σ)}
  {writer : Task σ}

/-- The log of a dialogue accounts for what is written, if the logs of the tasks do. -/
theorem wrote_run (hself : ∀ t (m : Machine σ), m.Wrote ((self t).leaves m) (logs t m))
    {p : Dialogue σ α} (hp : p.Acts (Eval.WritesAs writer)) (m : Machine σ) :
    m.Wrote ((p.run self).leaves m) (p.log writer self logs m) := by
  induction p generalizing m with
  | done a => exact .refl m
  | act x next ih =>
    have hx := hp.1 m
    unfold run log
    cases h : x m with
    | ok b n =>
      rw [leaves_bind_of_ok h]
      rw [leaves_of_ok h] at hx
      exact hx.trans (ih b (hp.2 b) n)
    | error why n =>
      rw [leaves_bind_of_error h]
      rw [leaves_of_error h] at hx
      exact hx.trans (.refl n)
  | ask t next ih =>
    have ht := hself t m
    unfold run log
    cases h : self t m with
    | ok a n =>
      rw [leaves_bind_of_ok h]
      rw [leaves_of_ok h] at ht
      exact ht.trans (ih a (hp a) n)
    | error why n =>
      rw [leaves_bind_of_error h]
      rw [leaves_of_error h] at ht
      exact ht.trans (.refl n)

end Dialogue

open Dialogue

/-! ### Runs -/

/-- What a task writes is accounted for as written by it. -/
theorem Task.acts_writesAs (rounds depth : Nat) (t : Task σ) :
    (t.body rounds depth).Acts (WritesAs t) := by
  by_cases hprint : ∃ e, t = .exec (.print e)
  · obtain ⟨e, rfl⟩ := hprint
    exact acts_ask.bind fun _ => (acts_perform writesAs_printValue).bind fun _ => acts_pure
  by_cases hinput : ∃ arguments paren, t = .invoke (.native .input) arguments paren
  · obtain ⟨arguments, paren, rfl⟩ := hinput
    exact acts_perform Native.writesAs_input
  by_cases hclass : ∃ name superclass methods, t = .exec (.classDecl name superclass methods)
  · obtain ⟨name, superclass, methods, rfl⟩ := hclass
    exact (acts_perform writesAs_declareClass).bind fun _ => acts_pure
  simp only [not_exists] at hprint hinput hclass
  exact (Task.acts_quiet rounds depth hprint hinput hclass).mono Quiet.writesAs

/-- **The log of a task accounts for what it writes,** however it ends. -/
theorem Task.wrote_run (rounds depth : Nat) (t : Task σ) (m : Machine σ) :
    m.Wrote ((Task.run rounds depth t).leaves m) (t.log rounds depth m) := by
  induction depth generalizing t m with
  | zero => exact .refl m
  | succ depth ih =>
    have hbody := Dialogue.wrote_run ih (t.acts_writesAs rounds depth) (t.enter m)
    have hleaves : (Task.run rounds (depth + 1) t).leaves m = t.leave m.scope
        (((t.body rounds depth).run (Task.run rounds depth)).leaves (t.enter m)) := by
      unfold Eval.leaves Task.run
      cases (t.body rounds depth).run (Task.run rounds depth) (t.enter m) <;> rfl
    -- Entering and leaving a block sets the scope and nothing else.
    have henter : m.Wrote (t.enter m) [] := by
      cases t <;> exact .nil rfl rfl
    have hleave (outer : σ.Scope) (n : Machine σ) : n.Wrote (t.leave outer n) [] := by
      cases t <;> exact .nil rfl rfl
    rw [hleaves]
    simpa [Task.log] using (henter.trans hbody).trans (hleave m.scope _)

/-- What a program logs. What it does itself is as if done by the block of its statements. -/
def Program.log (rounds depth : Nat) (program : Program σ.Mark) (m : Machine σ) : List (Entry σ) :=
  (Program.body program).log (.block σ.top program) (Task.run rounds depth)
    (Task.log rounds depth) m

theorem Program.wrote_run (rounds depth : Nat) (program : Program σ.Mark) (m : Machine σ) :
    m.Wrote ((Program.run rounds depth program).leaves m) (program.log rounds depth m) := by
  exact Dialogue.wrote_run (Task.wrote_run rounds depth)
    ((Program.acts_quiet program).mono Quiet.writesAs) m

/-! ### Sessions -/

namespace Session

/-- What a text logs: what its program does, if it is run. -/
def log (limits : Limits) (text : String) (m : Machine .bound) : List (Entry .bound) :=
  if Accepts text then
    Program.log limits.rounds limits.depth (program text) ((prepare text).leaves m)
  else []

/-- What texts log that are run one after the other. -/
def logs (limits : Limits) : List String → Machine .bound → List (Entry .bound)
  | [], _ => []
  | text :: texts, m => log limits text m ++ logs limits texts ((run limits text).leaves m)

/-- Messages about what is wrong are not written to standard output. -/
theorem reportFault_written (depth : Nat) (f : Fault) (m : Machine σ) :
    (reportFault depth f).Ends m
      (fun r n => r.effects = m.effects.reverse ++ [.error f.text] ∧ n.output = m.output)
      fun _ n => n.output = m.output := by
  let noted : Machine σ := { m with effects := .error f.text :: m.effects }
  have hlooks : (noted.calls.reverse.mapM (callText depth) : Eval σ (List String)).Looks :=
    Eval.looks_mapM fun _ => looks_callText
  refine Eval.ends_bind.2 (Eval.ends_modify.2 (Eval.ends_bind.2 (Eval.ends_get.2
    (Eval.ends_bind.2 ((hlooks noted).mono ?_ ?_)))))
  · rintro calls _ rfl
    exact ⟨by simp [noted], rfl⟩
  · rintro _ _ ⟨-, rfl⟩
    rfl

theorem output_of_effects (messages errors : List String) {r : Report}
    (h : r.effects = messages.map .output ++ errors.map .error) : r.output = messages := by
  simp [Report.output, h]

/-- A report with the messages of a run, and with messages about what is wrong after them. -/
theorem output_of_wrote {log : List (Entry σ)} {m n : Machine σ} (h : m.Wrote n log)
    (hm : m.effects = []) (errors : List String) {r : Report}
    (hr : r.effects = n.effects.reverse ++ errors.map .error) :
    r.output.map .output = log.map Entry.effect := by
  have hmessages : ∃ messages : List String, log.map Entry.effect = messages.map .output := by
    have hwriters := h.writers
    clear h
    induction log with
    | nil => exact ⟨[], rfl⟩
    | cons e log ih =>
      obtain ⟨⟨-, message, hmessage⟩, hrest⟩ := List.forall_mem_cons.1 hwriters
      obtain ⟨messages, hmessages⟩ := ih hrest
      exact ⟨message :: messages, by simp [hmessage, hmessages]⟩
  obtain ⟨messages, hmessages⟩ := hmessages
  have heffects : r.effects = messages.map .output ++ errors.map .error := by
    simp [hr, h.effects, hm, hmessages]
  rw [output_of_effects messages errors heffects, hmessages]

/-- What running a text comes to: the report has the messages of the log, and standard output has
got their texts. -/
theorem wrote_run (limits : Limits) (text : String) (m : Machine .bound) :
    (run limits text).Ends m
      (fun r n => r.output.map .output = (log limits text m).map Entry.effect ∧
        n.output = m.output.map (· ++ String.join ((log limits text m).map Entry.text)))
      fun _ n =>
        n.output = m.output.map (· ++ String.join ((log limits text m).map Entry.text)) := by
  by_cases haccepts : Accepts text
  · obtain ⟨errors, hprepare⟩ := prepare_eq text m
    have hleaves := Eval.leaves_of_ok hprepare
    have hwrote := Program.wrote_run limits.rounds limits.depth (program text)
      ((prepare text).leaves m)
    have hlog : log limits text m = Program.log limits.rounds limits.depth (program text)
      ((prepare text).leaves m) := if_pos haccepts
    rw [← hlog, hleaves] at hwrote
    have hrun := run_eq_of_accepts limits haccepts m
    rw [hleaves] at hrun
    cases h : Program.run limits.rounds limits.depth (program text) (m.cleared errors) with
    | ok v n =>
      rw [Eval.leaves_of_ok h] at hwrote
      refine .of_eq (Eval.Ends.of_eq ?_ (runBound_of_ok limits h)) hrun
      exact ⟨output_of_wrote hwrote rfl [] (by simp), hwrote.output⟩
    | error why n =>
      rw [Eval.leaves_of_error h] at hwrote
      obtain ⟨f, rfl⟩ | hwhy := fault_or_not why
      · refine .of_eq (Eval.Ends.of_eq ?_ (runBound_of_fault limits h)) hrun
        refine (reportFault_written limits.depth f n).mono ?_ fun _ _ hn => hn.trans hwrote.output
        exact fun r n' ⟨hr, hn'⟩ =>
          ⟨output_of_wrote hwrote rfl [f.text] hr, hn'.trans hwrote.output⟩
      · refine .of_eq (Eval.Ends.of_eq ?_ (runBound_of_halt limits h hwhy)) hrun
        exact Eval.ends_halt.2 hwrote.output
  · obtain ⟨diagnostics, errors, -, hrun⟩ := run_of_not_accepts limits haccepts m
    have hlog : log limits text m = [] := if_neg haccepts
    rw [reject_eq] at hrun
    rw [hlog]
    have houtput : Report.output ⟨.rejected diagnostics, (m.cleared errors).effects.reverse ++
        diagnostics.map fun d => .error d.text⟩ = [] :=
      output_of_effects [] (diagnostics.map Diagnostic.text) (by simp [Machine.cleared])
    refine .of_eq (Eval.ends_pure.2 ⟨?_, ?_⟩) hrun
    · rw [houtput]
      rfl
    · exact (Machine.Wrote.refl m).output

/-- Only `print` statements and calls of `input` are in the log. -/
theorem writer_of_mem_log (limits : Limits) (text : String) (m : Machine .bound)
    {e : Entry .bound} (he : e ∈ log limits text m) :
    (∃ value message, e = ⟨.exec (.print value), .output message⟩ ∧ e.text = message ++ "\n") ∨
      ∃ arguments paren message,
        e = ⟨.invoke (.native .input) arguments paren, .output message⟩ ∧ e.text = message := by
  unfold log at he
  split at he
  · obtain ⟨hwriter, message, hmessage⟩ := (Program.wrote_run limits.rounds limits.depth
      (program text) ((prepare text).leaves m)).writers e he
    obtain ⟨writer, effect⟩ := e
    subst hmessage
    obtain ⟨value, rfl⟩ | ⟨arguments, paren, rfl⟩ := Task.eq_of_isSome_ending? hwriter
    · exact .inl ⟨value, message, rfl, rfl⟩
    · exact .inr ⟨arguments, paren, message, rfl, String.append_empty⟩
  · exact absurd he List.not_mem_nil

theorem logs_append (limits : Limits) (texts : List String) (text : String) (m : Machine .bound) :
    logs limits (texts ++ [text]) m =
      logs limits texts m ++ log limits text (leaves (run limits) texts m) := by
  induction texts generalizing m with
  | nil => exact List.append_nil _
  | cons first texts ih =>
    exact (congrArg (log limits first m ++ ·) (ih _)).trans (List.append_assoc ..).symm

/-- What a session writes is what is logged, from one text to the next. -/
theorem output_leaves (limits : Limits) (texts : List String) (m : Machine .bound) :
    (leaves (run limits) texts m).output =
      m.output.map (· ++ String.join ((logs limits texts m).map Entry.text)) := by
  induction texts generalizing m with
  | nil => exact (Machine.Wrote.refl m).output
  | cons text texts ih =>
    have hrun : ((run limits text).leaves m).output =
        m.output.map (· ++ String.join ((log limits text m).map Entry.text)) :=
      ((wrote_run limits text m).mono (fun _ _ h => h.2) fun _ _ h => ⟨h, trivial⟩).leaves
    refine (ih _).trans ?_
    rw [hrun, Option.map_map]
    congr 1
    funext s
    simp [logs, String.append_assoc]

/-- **Whether a machine traces and whether standard output is attached makes no difference** to what
can be seen of a session and to what is read from the input. What is written to standard output is
the messages of the session in their order, and those of each text are in its report. They come from
`print` statements, and have an end of line after them then, and from calls of `input`, and have
nothing after them. -/
theorem output_is_not_seen (limits : Limits) (natives : List Native) (input : List String)
    (clock : Clock) (levels : Nat) (texts : List String) (output output' : Option String)
    (tracing tracing' : Bool) :
    let start := Machine.start natives input output tracing clock
    let start' := Machine.start natives input output' tracing' clock
    let m := leaves (run limits) texts start
    views Frames.globals levels (run limits) texts start =
        views Frames.globals levels (run limits) texts start' ∧
      m.input = (leaves (run limits) texts start').input ∧
      m.output = output.map (· ++ String.join ((logs limits texts start).map Entry.text)) ∧
      ∀ text,
        logs limits (texts ++ [text]) start = logs limits texts start ++ log limits text m ∧
        (∀ r n, run limits text m = .ok r n →
          r.output.map .output = (log limits text m).map Entry.effect) ∧
        ∀ e ∈ log limits text m,
          (∃ value message, e = ⟨.exec (.print value), .output message⟩ ∧
            e.text = message ++ "\n") ∨
          ∃ arguments paren message,
            e = ⟨.invoke (.native .input) arguments paren, .output message⟩ ∧ e.text = message := by
  intro start start' m
  have hmuted : start.change .mute = start'.change .mute := rfl
  refine ⟨?_, ?_, output_leaves limits texts start, fun text => ⟨?_, ?_, ?_⟩⟩
  · rw [← views_muted texts start, hmuted, views_muted texts start']
  · have hleaves : m.change .mute = (leaves (run limits) texts start').change .mute := by
      rw [← leaves_muted, ← leaves_muted, hmuted]
    have hinput := congrArg Machine.input hleaves
    exact hinput
  · exact logs_append limits texts text start
  · exact fun r n hrun => ((wrote_run limits text m).of_ok hrun).1
  · exact fun e he => writer_of_mem_log limits text m he

end Session

end LoxLang
