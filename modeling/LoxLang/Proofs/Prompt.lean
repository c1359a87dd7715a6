import LoxLang.CommandLine
import LoxLang.Proofs.Drift
import LoxLang.Proofs.Nesting
import LoxLang.Proofs.Rejection

/-!
# The prompt

At the prompt, lines are run one after the other in one session, and each of them comes to what it
comes to in a session that is handed the lines by itself (`CommandLine.Conversation`). The prompt
goes on after every line: after one that is rejected, after a fault, and after one that has used up
the stack. It shows the value of a line, though, where nothing catches a stack that is used up. So
it ends with exit code 0 at a line `exit` or at the end of the input, except if a line has a value
that is too deep to be shown, and then it breaks down (`CommandLine.prompt_answers_every_line`).

A value is too deep if lists and maps in it are inside of each other more often than the stack has
room for (`Value.text?_eq_none_iff`); one that contains itself always is (`Value.nested_of_cycle`).
-/

namespace LoxLang

open Streams (Change)

/-! ### Values that are too deep to be shown -/

namespace Value

variable {σ : Scoping} {s : Store σ}

theorem mapM_eq_none_iff {α β : Type} {f : α → Option β} {l : List α} :
    l.mapM f = none ↔ ∃ a ∈ l, f a = none := by
  induction l with
  | nil => simp
  | cons a l ih =>
    rw [List.mapM_cons]
    cases hf : f a with
    | none => simp [hf]
    | some b =>
      cases hl : l.mapM f with
      | none => simp [hf, hl, ← ih]
      | some bs => simpa [hf, hl] using ih

theorem text?_list_eq_none_iff {depth : Nat} {level : Int} {ref : Ref .list} :
    text? s (depth + 1) level (.list ref) = none ↔
      ∃ v ∈ (s.lists.get ref).toList, text? s depth (level + 1) v = none := by
  rw [← mapM_eq_none_iff, text?]
  cases (s.lists.get ref).toList.mapM (text? s depth (level + 1)) <;> simp

theorem text?_map_eq_none_iff {depth : Nat} {level : Int} {ref : Ref .map} :
    text? s (depth + 1) level (.map ref) = none ↔ ∃ entry ∈ (s.maps.get ref).entries,
      text? s depth (level + 1) entry.2.1 = none ∨ text? s depth (level + 1) entry.2.2 = none := by
  have hentry (entry : Key × Value × Value) :
      (do
        let shownKey ← text? s depth (level + 1) entry.2.1
        let shownValue ← text? s depth (level + 1) entry.2.2
        return shownKey ++ ": " ++ shownValue : Option String) = none ↔
        text? s depth (level + 1) entry.2.1 = none ∨
          text? s depth (level + 1) entry.2.2 = none := by
    cases text? s depth (level + 1) entry.2.1 <;> cases text? s depth (level + 1) entry.2.2 <;> simp
  simp only [← hentry]
  rw [← mapM_eq_none_iff, text?]
  dsimp only
  generalize (s.maps.get ref).entries.mapM (_ : Key × Value × Value → Option String) = shown
  cases shown <;> simp

/-- A value has no text if it is nested too deep. -/
theorem text?_eq_none_iff {depth : Nat} {level : Int} {v : Value} :
    text? s depth level v = none ↔ Nested s depth v := by
  induction depth generalizing level v with
  | zero => simp [text?, Nested]
  | succ depth ih =>
    cases v with
    | list ref =>
      rw [text?_list_eq_none_iff]
      constructor
      · rintro ⟨v, hv, hnone⟩
        exact ⟨v, .element hv, ih.1 hnone⟩
      · rintro ⟨v, hv, hnested⟩
        cases hv with
        | element hv => exact ⟨v, hv, ih.2 hnested⟩
    | map ref =>
      rw [text?_map_eq_none_iff]
      constructor
      · rintro ⟨entry, hentry, hnone | hnone⟩
        · exact ⟨entry.2.1, .key hentry, ih.1 hnone⟩
        · exact ⟨entry.2.2, .value hentry, ih.1 hnone⟩
      · rintro ⟨v, hv, hnested⟩
        cases hv with
        | key hentry => exact ⟨_, hentry, .inl (ih.2 hnested)⟩
        | value hentry => exact ⟨_, hentry, .inr (ih.2 hnested)⟩
    | _ =>
      -- Nothing is in any other value, and its text is there.
      refine ⟨fun h => by simp [text?] at h, ?_⟩
      rintro ⟨_, hv, -⟩
      cases hv

end Value

/-! ### Lines in a session -/

/-- The machine with nothing written to its streams yet. -/
def Machine.unwritten {σ : Scoping} (m : Machine σ) : Machine σ :=
  { m with output := some "", errors := "" }

namespace CommandLine

/-- What becomes of a line that has been typed. -/
inductive Turn where
  /-- There is nothing to be run. -/
  | blank
  /-- The text is run, with the given result. -/
  | ran (text : String) (result : EStateM.Result Halt (Machine .bound) Report)

/-- Why no more lines are read. -/
inductive Close where
  | exit
  | endOfInput

/-- A session on the machine `m` that runs the lines of standard input without the blanks around
them, up to a line `exit`: what becomes of the lines, why it is closed and the machine it leaves.
The streams are empty again for each turn. -/
inductive Conversation (limits : Limits) :
    Machine .bound → List Turn → Close → Machine .bound → Prop where
  | endOfInput {m : Machine .bound} (h : m.input = []) : Conversation limits m [] .endOfInput m
  | exit {m : Machine .bound} {line : String} {lines : List String} (h : m.input = line :: lines)
    (hline : Text.strip line = "exit") : Conversation limits m [] .exit { m with input := lines }
  | blank {m n : Machine .bound} {line : String} {lines : List String} {turns : List Turn}
    {close : Close} (h : m.input = line :: lines) (hline : Text.strip line = "")
    (hrest : Conversation limits { m with input := lines } turns close n) :
    Conversation limits m (.blank :: turns) close n
  | ran {m n : Machine .bound} {line text : String} {lines : List String} {turns : List Turn}
    {close : Close} (h : m.input = line :: lines) (hline : Text.strip line = text)
    (hblank : text ≠ "") (hexit : text ≠ "exit")
    (hrest : Conversation limits
      ((Session.run limits text).leaves { m with input := lines }).unwritten turns close n) :
    Conversation limits m (.ran text (Session.run limits text { m with input := lines }) :: turns)
      close n

namespace Turn

/-- The line has a report or has been cut off; in particular, nothing that is taken for granted was
missing. -/
def Settled : Turn → Prop
  | ran _ (.error why _) => why.Cut
  | _ => True

/-- The line has a value that is too deep to be shown. -/
def Stuck (limits : Limits) : Turn → Prop
  | ran _ (.ok ⟨.success v, _⟩ n) => v ≠ .nil ∧ v.Nested n.store (limits.depth / Eval.levelsPerStep)
  | _ => False

/-- A value as it is shown, on a line of its own. -/
def shown (limits : Limits) (v : Value) (n : Machine .bound) : String :=
  if v = .nil then ""
  else (v.text? n.store (limits.depth / Eval.levelsPerStep) 0).getD "" ++ "\n"

/-- What is on standard output after the turn: what the program has written, and its value. -/
def output (limits : Limits) : Turn → String
  | ran _ (.ok ⟨.success v, _⟩ n) => n.output.getD "" ++ shown limits v n
  | ran _ (.ok _ n) | ran _ (.error _ n) => n.output.getD ""
  | blank => ""

/-- What is wrong, and the pending calls if tracing. -/
def complaint (tracing : Bool) (r : Report) : String :=
  match r.outcome with
  | .success _ => ""
  | .rejected _ => r.errorText ++ "\n"
  | .faulted _ calls => r.errorText ++ "\n" ++
      if tracing && !calls.isEmpty then "Lox stacktrace: " ++ " ".intercalate calls ++ "\n" else ""

/-- What is on standard error after the turn. -/
def errors : Turn → String
  | ran _ (.ok r n) => n.errors ++ complaint n.tracing r
  | ran _ (.error _ n) => n.errors ++ (overflowMessage ++ "\n")
  | blank => ""

end Turn

/-- The last words. -/
def Close.text : Close → String
  | exit => "Exiting.\n"
  | endOfInput => "\nExiting.\n"

/-! ### Lines at the prompt -/

/-- Something is on standard output and on standard error already. -/
def ahead (output errors : String) : Change where
  apply s := { s with output := s.output.map (output ++ ·), errors := errors ++ s.errors }
  apply_write s message ending := by
    simp [Streams.write, Function.comp_def, String.append_assoc]
  apply_trace s words := by
    cases h : s.tracing with
    | true => simp [Streams.trace, h, String.append_assoc]
    | false => simp [Streams.trace, h]

/-- The machine with what has been written before. -/
def rewritten (output errors : String) (m : Machine .bound) : Machine .bound :=
  { m with output := some output, errors := errors }

/-- What has been written before does not matter for a text, and stays there. -/
theorem run_eq_ahead (limits : Limits) (text : String) {m : Machine .bound} {output : String}
    (h : m.output = some output) :
    Session.run limits text m =
      (ahead output m.errors).result (Session.run limits text m.unwritten) := by
  have hm : m = m.unwritten.change (ahead output m.errors) := by
    simp [Machine.change, Machine.unwritten, Machine.streams, Machine.withStreams, ahead, ← h]
  have hrun : (Session.run limits text).Oblivious (ahead output m.errors) :=
    Session.oblivious_runWith fun _ _ => rfl
  conv_lhs => rw [hm]
  exact hrun m.unwritten

theorem change_ahead {n : Machine .bound} {written : String} (h : n.output = some written)
    (output errors : String) :
    n.change (ahead output errors) = rewritten (output ++ written) (errors ++ n.errors) n := by
  simp [Machine.change, Machine.streams, Machine.withStreams, ahead, rewritten, h]

/-- Standard output is still attached after a text. -/
theorem exists_output (limits : Limits) (text : String) (m : Machine .bound) :
    ∃ written, ((Session.run limits text).leaves m.unwritten).output = some written := by
  have hrun : (Session.run limits text).Keeps .output := Session.keeps_run
  exact Option.isSome_iff_exists.1 (hrun.leaves m.unwritten)

theorem showError_rewritten {r : Report} (hr : ∀ v, r.outcome ≠ .success v) (output errors : String)
    (n : Machine .bound) :
    showError r (rewritten output errors n) =
      rewritten output (errors ++ Turn.complaint n.tracing r) n := by
  obtain ⟨outcome, effects⟩ := r
  cases outcome with
  | success v => exact absurd rfl (hr v)
  | rejected diagnostics => simp [showError, printError, rewritten, Turn.complaint]
  | faulted f calls =>
    cases htold : n.tracing && !calls.isEmpty <;>
      simp only [showError, printError, rewritten, Turn.complaint, htold] <;>
      simp [String.append_assoc]

/-- A value that is not too deep is shown. -/
theorem echo_rewritten {limits : Limits} {v : Value} {n : Machine .bound}
    (h : ¬ (v ≠ .nil ∧ v.Nested n.store (limits.depth / Eval.levelsPerStep)))
    (output errors : String) :
    echo limits v (rewritten output errors n) =
      (none, rewritten (output ++ Turn.shown limits v n) errors n) := by
  by_cases hv : v = .nil
  · simp [echo, Turn.shown, hv, rewritten]
  · have hnested : v.text? n.store (limits.depth / Eval.levelsPerStep) 0 ≠ none :=
      mt Value.text?_eq_none_iff.1 (not_and.1 h hv)
    obtain ⟨shown, hshown⟩ := Option.ne_none_iff_exists'.1 hnested
    simp [echo, Turn.shown, hv, rewritten, print, hshown]

/-- What becomes of a text that is run on the machine. -/
def Turn.of (limits : Limits) (text : String) (m : Machine .bound) : Turn :=
  .ran text (Session.run limits text m.unwritten)

/-- The machine that is left at the prompt by a text that has been run on the machine `m`. -/
def Turn.left (limits : Limits) (text output : String) (m : Machine .bound) : Machine .bound :=
  rewritten (output ++ (Turn.of limits text m).output limits)
    (m.errors ++ (Turn.of limits text m).errors) ((Session.run limits text).leaves m.unwritten)

section

variable {limits : Limits} {text output : String} {m : Machine .bound}

/-- A line that is not stuck is run as in a session by itself. -/
theorem runLine_of_not_stuck (hm : m.output = some output)
    (h : ¬ (Turn.of limits text m).Stuck limits) :
    runLine limits text m = (none, Turn.left limits text output m) := by
  unfold Turn.left
  unfold Turn.of at h ⊢
  obtain ⟨written, hwritten⟩ := exists_output limits text m
  unfold runLine
  rw [run_eq_ahead limits text hm]
  unfold Eval.leaves at hwritten ⊢
  cases hrun : Session.run limits text m.unwritten with
  | ok r n =>
    rw [hrun] at h hwritten
    obtain ⟨outcome, effects⟩ := r
    simp only [Change.result, change_ahead hwritten]
    cases outcome with
    | success v =>
      dsimp only
      rw [echo_rewritten h]
      simp [Turn.output, Turn.errors, Turn.complaint, hwritten, String.append_assoc]
    | _ =>
      dsimp only
      rw [showError_rewritten (by simp)]
      simp [Turn.output, Turn.errors, hwritten, String.append_assoc]
  | error why n =>
    rw [hrun] at hwritten
    simp [Change.result, change_ahead hwritten, printError, rewritten, Turn.output, Turn.errors,
      hwritten, String.append_assoc]

theorem runLine_of_stuck (hm : m.output = some output)
    (h : (Turn.of limits text m).Stuck limits) :
    ∃ n, runLine limits text m = (some .exhausted, n) := by
  unfold runLine
  rw [run_eq_ahead limits text hm]
  unfold Turn.of at h
  cases hrun : Session.run limits text m.unwritten with
  | error why n =>
    rw [hrun] at h
    exact h.elim
  | ok r n =>
    rw [hrun] at h
    obtain ⟨outcome, effects⟩ := r
    cases outcome with
    | success v =>
      obtain ⟨hv, hnested⟩ := h
      have hstore : (n.change (ahead output m.errors)).store = n.store := rfl
      have hshown : v.text? n.store (limits.depth / Eval.levelsPerStep) 0 = none :=
        Value.text?_eq_none_iff.2 hnested
      simp [Change.result, echo, hv, hstore, hshown]
    | _ => exact h.elim

variable {line : String}

theorem answer_of_blank (h : Text.strip line = "") : answer limits line m = (none, ask m) := by
  simp [answer, h]

theorem answer_of_exit (h : Text.strip line = "exit") :
    answer limits line m = (some (.exit 0), print "Exiting.\n" m) := by
  simp [answer, h]

theorem answer_of_shown {n : Machine .bound} (hblank : Text.strip line ≠ "")
    (hexit : Text.strip line ≠ "exit") (h : runLine limits (Text.strip line) m = (none, n)) :
    answer limits line m = (none, ask n) := by
  simp [answer, hblank, hexit, h]

theorem answer_of_breakdown {n : Machine .bound} {why : Breakdown} (hblank : Text.strip line ≠ "")
    (hexit : Text.strip line ≠ "exit") (h : runLine limits (Text.strip line) m = (some why, n)) :
    answer limits line m = (some (.breakdown why), n) := by
  simp [answer, hblank, hexit, h]

end

/-- How the program ends after the last answer. -/
def conclude : Option Ending × Machine .bound → Ending × Machine .bound
  | (some ending, m) => (ending, m)
  | (none, m) => endOfInput m

theorem prompt_eq_conclude (limits : Limits) (m : Machine .bound) :
    prompt limits m = conclude (answerInput limits (greet m)) := by
  unfold prompt conclude
  rfl

/-- What is on standard output after the turns, with a new prompt after each of them. -/
def Turn.outputs (limits : Limits) (turns : List Turn) : String :=
  .join (turns.map fun turn => turn.output limits ++ "> ")

/-- The turns and the end of a session tell how the prompt goes on from the machine `m`. -/
structure Told (limits : Limits) (count : Nat) (m : Machine .bound) (output : String)
    (turns : List Turn) (close : Close) (n : Machine .bound) : Prop where
  conversation : Conversation limits m.unwritten turns close n
  settled : ∀ turn ∈ turns, turn.Settled
  exits : (∀ turn ∈ turns, ¬ turn.Stuck limits) → conclude (answerLines limits count m) =
    (.exit 0, rewritten (output ++ Turn.outputs limits turns ++ close.text)
      (m.errors ++ .join (turns.map Turn.errors)) n)
  breaks : (∃ turn ∈ turns, turn.Stuck limits) →
    (conclude (answerLines limits count m)).1 = .breakdown .exhausted

section

variable {limits : Limits} {count : Nat} {m n : Machine .bound} {output line : String}
  {lines : List String} {turns : List Turn} {close : Close}

theorem told_of_nil (hm : m.output = some output) (hinput : m.input = []) :
    Told limits count m output [] .endOfInput m.unwritten where
  conversation := .endOfInput hinput
  settled := by simp
  exits _ := by
    have hanswers : answerLines limits count m = (none, m) := by
      cases count <;> simp [answerLines, hinput]
    simp [hanswers, conclude, endOfInput, print, hm, rewritten, Machine.unwritten, Turn.outputs,
      Close.text]
  breaks := by simp

theorem told_of_exit (hm : m.output = some output) (hinput : m.input = line :: lines)
    (hline : Text.strip line = "exit") :
    Told limits (count + 1) m output [] .exit { m.unwritten with input := lines } where
  conversation := .exit hinput hline
  settled := by simp
  exits _ := by
    simp [answerLines, hinput, answer_of_exit hline, conclude, print, hm, rewritten,
      Machine.unwritten, Turn.outputs, Close.text]
  breaks := by simp

theorem told_of_blank (hinput : m.input = line :: lines)
    (hline : Text.strip line = "")
    (h : Told limits count (ask { m with input := lines }) (output ++ "> ") turns close n) :
    Told limits (count + 1) m output (.blank :: turns) close n := by
  have hanswers : answerLines limits (count + 1) m =
      answerLines limits count (ask { m with input := lines }) := by
    simp [answerLines, hinput, answer_of_blank hline]
  refine ⟨.blank hinput hline h.conversation, ?_, fun hnot => ?_, fun hstuck => ?_⟩
  · exact List.forall_mem_cons.2 ⟨trivial, h.settled⟩
  · rw [hanswers, h.exits fun turn hturn => hnot turn (List.mem_cons_of_mem _ hturn)]
    simp [ask, print, Turn.outputs, Turn.output, Turn.errors, String.append_assoc]
  · rw [hanswers]
    exact h.breaks (by simpa [Turn.Stuck] using hstuck)

/-- The line is taken off the input and answered. -/
theorem answerLines_cons (limits : Limits) (count : Nat) (hinput : m.input = line :: lines)
    {k : Machine .bound} (hk : k = { m with input := lines }) :
    (∀ n, answer limits line k = (none, n) →
      answerLines limits (count + 1) m = answerLines limits count n) ∧
    ∀ ending n, answer limits line k = (some ending, n) →
      answerLines limits (count + 1) m = (some ending, n) := by
  subst hk
  constructor
  · intro n hanswer
    simp [answerLines, hinput, hanswer]
  · intro ending n hanswer
    simp [answerLines, hinput, hanswer]

theorem told_of_ran (hinput : m.input = line :: lines) (hblank : Text.strip line ≠ "")
    (hexit : Text.strip line ≠ "exit") {k : Machine .bound} (hk : k = { m with input := lines })
    (hm : m.output = some output) (hsettled : (Turn.of limits (Text.strip line) k).Settled)
    (h : Told limits count (ask (Turn.left limits (Text.strip line) output k))
      (output ++ (Turn.of limits (Text.strip line) k).output limits ++ "> ") turns close n) :
    Told limits (count + 1) m output (Turn.of limits (Text.strip line) k :: turns) close n := by
  have hoff : k.output = some output := hk ▸ hm
  have hconversation : Conversation limits m.unwritten (Turn.of limits (Text.strip line) k :: turns)
      close n := by
    subst hk
    exact .ran hinput rfl hblank hexit h.conversation
  have hall := List.forall_mem_cons.2 ⟨hsettled, h.settled⟩
  by_cases hstuck : (Turn.of limits (Text.strip line) k).Stuck limits
  · -- No other line is answered.
    refine ⟨hconversation, hall, fun hnot => absurd hstuck (hnot _ List.mem_cons_self), fun _ => ?_⟩
    obtain ⟨n, hbreaks⟩ := runLine_of_stuck hoff hstuck
    have hanswer := answer_of_breakdown hblank hexit hbreaks
    rw [(answerLines_cons limits count hinput hk).2 _ _ hanswer]
    rfl
  · have hanswer := answer_of_shown hblank hexit (runLine_of_not_stuck hoff hstuck)
    have hanswers := (answerLines_cons limits count hinput hk).1 _ hanswer
    refine ⟨hconversation, hall, fun hnot => ?_, fun hsome => ?_⟩
    · rw [hanswers, h.exits fun turn hturn => hnot turn (List.mem_cons_of_mem _ hturn)]
      subst hk
      simp [ask, print, Turn.left, rewritten, Turn.outputs, String.append_assoc]
    · rw [hanswers]
      exact h.breaks (by simpa [hstuck] using hsome)

end

/-- **Turns**: the lines that are left are answered as they are in a session. -/
theorem exists_told (limits : Limits) (count : Nat) {m : Machine .bound} {output : String}
    (hm : m.output = some output) (hcount : m.input.length ≤ count) (hready : m.Ready) :
    ∃ turns close n, Told limits count m output turns close n := by
  induction count generalizing m output with
  | zero =>
    have hinput : m.input = [] := List.length_eq_zero_iff.1 (Nat.le_zero.1 hcount)
    exact ⟨_, _, _, told_of_nil hm hinput⟩
  | succ count ih =>
    cases hinput : m.input with
    | nil => exact ⟨_, _, _, told_of_nil hm hinput⟩
    | cons line lines =>
      have hlines : lines.length ≤ count := by simpa [hinput] using hcount
      by_cases hexit : Text.strip line = "exit"
      · exact ⟨_, _, _, told_of_exit hm hinput hexit⟩
      by_cases hblank : Text.strip line = ""
      · have hasked : (ask { m with input := lines }).output = some (output ++ "> ") := by
          simp [ask, print, hm]
        obtain ⟨turns, close, n, h⟩ := ih hasked hlines ⟨hready.fits, hready.chain⟩
        exact ⟨_, _, _, told_of_blank hinput hblank h⟩
      let k : Machine .bound := { m with input := lines }
      have hk : k.unwritten.Ready := ⟨hready.fits, hready.chain⟩
      have hends := Session.run_ends limits (Text.strip line) hk
      have hleft := (hends.mono (fun _ _ h => h.2) fun _ _ h => h).leaves
      have hsettled : (Turn.of limits (Text.strip line) k).Settled := by
        unfold Turn.of
        cases hrun : Session.run limits (Text.strip line) k.unwritten with
        | ok r n => trivial
        | error why n => exact (hends.of_error hrun).2
      have hrun : (Session.run limits (Text.strip line)).Keeps .input := Session.keeps_run
      have hread : (Turn.left limits (Text.strip line) output k).input.length ≤ count :=
        Nat.le_trans (hrun.leaves k.unwritten).length_le hlines
      obtain ⟨turns, close, n, h⟩ :=
        ih (m := ask (Turn.left limits (Text.strip line) output k)) rfl hread
          ⟨hleft.fits, hleft.chain⟩
      exact ⟨_, _, _, told_of_ran hinput hblank hexit rfl hm hsettled h⟩

/-- The value of the line is a list that is an element of itself. -/
def Turn.holdsItself : Turn → Bool
  | ran _ (.ok ⟨.success (.list ref), _⟩ n) => (n.store.lists.get ref).toList.contains (.list ref)
  | _ => false

theorem Turn.stuck_of_holdsItself {turn : Turn} (h : turn.holdsItself = true) (limits : Limits) :
    turn.Stuck limits := by
  unfold holdsItself at h
  split at h
  · have hself : Value.Holds _ _ _ := .element (List.contains_iff_mem.1 h)
    exact ⟨by simp, Value.nested_of_cycle (.single hself) _⟩
  · cases h

/-- **The prompt answers every line.** Unless a line has a value that is too deep to be shown, the
prompt ends with exit code 0, at a line `exit` or at the end of the input. By then the lines before
have come to what they come to in a session that runs them one after the other. That goes for the
machine, and for what has been written to the streams, where each line has its part. If a line has a
value that is too deep, the prompt breaks down. -/
theorem prompt_answers_every_line (limits : Limits) (input : String) (tracing : Bool)
    (clock : Clock) :
    (∀ read m, run [] "" read m = prompt (.ofStack Limits.defaultStack) m) ∧
    ∃ turns close n, Conversation limits (machine input tracing clock) turns close n ∧
      (∀ turn ∈ turns, turn.Settled) ∧
      ((∀ turn ∈ turns, ¬ turn.Stuck limits) →
        prompt limits (machine input tracing clock) = (.exit 0,
          { n with
            output := some ("Lox REPL\nType 'exit' or press Ctrl+D to quit.\n> " ++
              .join (turns.map fun turn => turn.output limits ++ "> ") ++ close.text)
            errors := .join (turns.map Turn.errors) })) ∧
      ((∃ turn ∈ turns, turn.Stuck limits) →
        (prompt limits (machine input tracing clock)).1 = .breakdown .exhausted) := by
  refine ⟨fun _ _ => rfl, ?_⟩
  have hready : (greet (machine input tracing clock)).Ready :=
    ⟨(Session.ready_start _ _ _ tracing clock).fits,
      (Session.ready_start _ _ _ tracing clock).chain⟩
  obtain ⟨turns, close, n, h⟩ := exists_told limits
    (greet (machine input tracing clock)).input.length rfl (Nat.le_refl _) hready
  refine ⟨turns, close, n, h.conversation, h.settled, fun hnot => ?_, fun hstuck => ?_⟩
  · rw [prompt_eq_conclude, answerInput, h.exits hnot]
    simp [rewritten, Turn.outputs, greet, ask, print, machine, Machine.start, Machine.ofMemory]
  · rw [prompt_eq_conclude]
    exact h.breaks hstuck

/-- A list that contains itself is the value of a line, and the prompt does not survive it. -/
theorem prompt_breaks_down_on_list_in_itself :
    (run [] "" (fun _ => none) (machine "var l = []; push(l, l); l;\n" false ⟨0, []⟩)).1 =
      .breakdown .exhausted := by
  let m := greet (machine "var l = []; push(l, l); l;\n" false ⟨0, []⟩)
  have hline : Text.strip "var l = []; push(l, l); l;\n" = "var l = []; push(l, l); l;" := by
    decide +kernel
  have hinput : m.input = ["var l = []; push(l, l); l;\n"] := by decide +kernel
  have hself : (Turn.of (.ofStack Limits.defaultStack) "var l = []; push(l, l); l;"
      { m with input := [] }).holdsItself = true := by
    decide +kernel
  obtain ⟨n, hbreaks⟩ := runLine_of_stuck (m := { m with input := [] }) rfl
    (Turn.stuck_of_holdsItself hself _)
  rw [← hline] at hbreaks
  have hanswer := answer_of_breakdown (by rw [hline]; decide) (by rw [hline]; decide) hbreaks
  have hanswers := (answerLines_cons _ 0 hinput rfl).2 _ _ hanswer
  have hlength : m.input.length = 0 + 1 := by rw [hinput]; rfl
  show (prompt _ _).1 = _
  rw [prompt_eq_conclude, answerInput, hlength, hanswers]
  rfl

end CommandLine

end LoxLang
