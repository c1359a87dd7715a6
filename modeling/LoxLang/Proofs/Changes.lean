import LoxLang.Proofs.Dialogue

/-!
# Changes of the streams

A program writes messages, and a machine that traces writes about its steps. A `Streams.Change` is a
change of what has been written that goes along with all that is written later. A computation that
does not look at the streams goes along with every change of them (`Eval.Oblivious`): it does on the
changed machine what it does on the other one.
-/

namespace LoxLang

variable {σ : Scoping} {α β : Type}

/-- What a machine writes to, and whether it traces. -/
structure Streams where
  effects : List Effect
  output : Option String
  errors : String
  tracing : Bool

namespace Streams

/-- Write a message, and `ending` after it, to standard output. -/
def write (s : Streams) (message ending : String) : Streams :=
  { s with
    effects := .output message :: s.effects
    output := s.output.map (· ++ (message ++ ending)) }

/-- Write a line to standard error if tracing. -/
def trace (s : Streams) (words : List String) : Streams :=
  if s.tracing then { s with errors := s.errors ++ ("[DBG] " ++ " ".intercalate words ++ "\n") }
  else s

/-- A change of the streams that goes along with all that is written to them. -/
structure Change where
  apply : Streams → Streams
  apply_write : ∀ s message ending, apply (s.write message ending) = (apply s).write message ending
  apply_trace : ∀ s words, apply (s.trace words) = (apply s).trace words

/-- Some messages, and some text on standard error, have been there before. -/
def Change.behind (effects : List Effect) (errors : String) : Change where
  apply s := { s with effects := s.effects ++ effects, errors := errors ++ s.errors }
  apply_write _ _ _ := rfl
  apply_trace s words := by
    cases h : s.tracing with
    | true => simp [trace, h, String.append_assoc]
    | false => simp [trace, h]

end Streams

open Streams (Change)

namespace Machine

/-- The streams of a machine. -/
def streams (m : Machine σ) : Streams := ⟨m.effects, m.output, m.errors, m.tracing⟩

/-- The machine with other streams. -/
def withStreams (m : Machine σ) (s : Streams) : Machine σ :=
  { m with effects := s.effects, output := s.output, errors := s.errors, tracing := s.tracing }

/-- The machine with its streams changed. -/
def change (T : Change) (m : Machine σ) : Machine σ := m.withStreams (T.apply m.streams)

end Machine

/-- What comes of a computation, with the streams changed on the machine that it leaves. -/
def Streams.Change.result (T : Change) :
    EStateM.Result Halt (Machine σ) α → EStateM.Result Halt (Machine σ) α
  | .ok a n => .ok a (n.change T)
  | .error why n => .error why (n.change T)

/-! ### Computations -/

namespace Eval

/-- The computation goes along with the change of the streams. -/
def Oblivious (T : Change) (x : Eval σ α) : Prop := ∀ m : Machine σ, x (m.change T) = T.result (x m)

variable {x : Eval σ α} {f : α → Eval σ β} {T : Change}

/-- What goes on only has to be known for the results that there can be. -/
theorem Oblivious.bind_of_ok (hx : x.Oblivious T)
    (hf : ∀ a m n, x m = .ok a n → (f a).Oblivious T) : (x >>= f).Oblivious T := by
  intro m
  simp only [Bind.bind, EStateM.bind, hx m]
  cases h : x m with
  | ok a n => exact hf a m n h n
  | error why n => rfl

theorem Oblivious.bind (hx : x.Oblivious T) (hf : ∀ a, (f a).Oblivious T) :
    (x >>= f).Oblivious T :=
  hx.bind_of_ok fun a _ _ _ => hf a

theorem oblivious_pure {a : α} : (pure a : Eval σ α).Oblivious T := fun _ => rfl

theorem oblivious_halt {why : Halt} : (halt why : Eval σ α).Oblivious T := fun _ => rfl

theorem oblivious_mapM {γ : Type} {f : γ → Eval σ α} (hf : ∀ c, (f c).Oblivious T) (l : List γ) :
    (l.mapM f).Oblivious T := by
  induction l with
  | nil => exact oblivious_pure
  | cons c l ih =>
    rw [List.mapM_cons]
    exact (hf c).bind fun _ => ih.bind fun _ => oblivious_pure

/-- What is looked up on a machine is not in the streams. -/
theorem oblivious_get {f : Machine σ → Eval σ β} (hf : ∀ m, (f m).Oblivious T)
    (hstreams : ∀ m, f (m.change T) = f m) : (get >>= f).Oblivious T := by
  intro m
  show f (m.change T) (m.change T) = T.result (f m m)
  rw [hstreams m]
  exact hf m m

/-- What is done to a machine is not done to the streams. -/
theorem oblivious_modifyGet {g : Machine σ → α × Machine σ}
    (hstreams : ∀ m, g (m.change T) = ((g m).1, (g m).2.change T)) :
    (modifyGet g : Eval σ α).Oblivious T := by
  intro m
  show EStateM.Result.ok (g (m.change T)).1 (g (m.change T)).2 = _
  rw [hstreams m]
  rfl

theorem oblivious_modifyStore {g : Store σ → Store σ} : (modifyStore g).Oblivious T :=
  oblivious_modifyGet fun _ => rfl

theorem oblivious_alloc {g : Store σ → α × Store σ} : (alloc g).Oblivious T :=
  oblivious_modifyGet fun _ => rfl

theorem oblivious_announce {name : String} : (announce name : Eval σ σ.Slot).Oblivious T := by
  refine oblivious_get (fun m => Oblivious.bind (x := expect _) ?_ fun _ => ?_) fun _ => rfl
  · cases σ.announce m.scope name <;> exact fun _ => rfl
  · exact oblivious_modifyGet fun _ => rfl

/-- What is written goes along with changes. -/
theorem oblivious_of_streams {x : Eval σ Unit} {g : Streams → Streams}
    (hx : ∀ m, x m = .ok () (m.withStreams (g m.streams)))
    (hg : ∀ s, T.apply (g s) = g (T.apply s)) : x.Oblivious T := by
  intro m
  rw [hx, hx]
  exact congrArg (fun s => EStateM.Result.ok () (m.withStreams s)) (hg m.streams).symm

theorem oblivious_write {message ending : String} :
    (write message ending : Eval σ Unit).Oblivious T :=
  oblivious_of_streams (fun _ => rfl) fun s => T.apply_write s message ending

theorem oblivious_trace {words : List String} : (trace words : Eval σ Unit).Oblivious T := by
  refine oblivious_of_streams (fun m => ?_) fun s => T.apply_trace s words
  have htracing : m.streams.tracing = m.tracing := rfl
  show EStateM.Result.ok () (if m.tracing then _ else m) = _
  rw [Streams.trace, htracing]
  split <;> rfl

theorem oblivious_readLine : (readLine : Eval σ Value).Oblivious T := by
  refine oblivious_modifyGet fun m => ?_
  have hinput : (m.change T).input = m.input := rfl
  rw [hinput]
  cases m.input <;> rfl

theorem oblivious_readClock : (readClock : Eval σ Value).Oblivious T :=
  oblivious_modifyGet fun _ => rfl

end Eval

end LoxLang
