import LoxLang.Proofs.Operations
import LoxLang.Proofs.Values

/-!
# What programs do not see

Nothing that runs looks at what has been written, so it makes no difference what is in the streams
when a program starts: every program runs on a machine whose streams have been changed as on the
other one (`Program.discreet_run`). Nor does a program that comes to its end leave a call noted.
-/

namespace LoxLang

open Streams (Change)

variable {σ : Scoping} {α β : Type}

/-- The computation does not look at the streams, and leaves no call noted if it gives a result. -/
structure Eval.Discreet (x : Eval σ α) : Prop where
  oblivious : ∀ T : Change, x.Oblivious T
  calls : ∀ m a n, x m = .ok a n → n.calls = m.calls

/-! ### What touches the calls -/

/-- The computation notes no call and strikes none out. -/
def Eval.KeepsCalls (x : Eval σ α) : Prop := ∀ m : Machine σ, (x.leaves m).calls = m.calls

/-- Only two operations change the calls. -/
theorem Op.calls_apply {op : Op σ} (hpush : ∀ call, op ≠ .pushCall call) (hpop : op ≠ .popCall)
    (m : Machine σ) : (op.apply m).calls = m.calls := by
  cases op with
  | pushCall call => exact absurd rfl (hpush call)
  | popCall => exact absurd rfl hpop
  | announce name =>
    rcases Eval.leaves_announce name m with h | ⟨update, -, h⟩
    · rw [Op.apply, h]
    · rw [Op.apply, h]
  | trace words =>
    obtain ⟨errors, h⟩ := Eval.leaves_trace words m
    rw [Op.apply, h]
  | readLine =>
    rcases Eval.leaves_readLine m with h | ⟨line, lines, -, h⟩
    · rw [Op.apply, h]
    · rw [Op.apply, h]
  | _ => rfl

theorem Eval.Does.keepsCalls {P : Op σ → Prop} {x : Eval σ α} (hx : x.Does P)
    (hpush : ∀ call, ¬ P (.pushCall call)) (hpop : ¬ P .popCall) : x.KeepsCalls := by
  refine hx.leaves (R := fun m n => n.calls = m.calls) (fun _ => rfl) (fun h h' => h'.trans h) ?_
  intro m op hop
  refine Op.calls_apply ?_ ?_ m
  · rintro call rfl
    exact hpush call hop
  · rintro rfl
    exact hpop hop

/-- Of all tasks only calls touch the calls. -/
theorem Task.acts_keepsCalls (rounds depth : Nat) {t : Task σ}
    (hcall : ∀ callee arguments paren, t ≠ .call callee arguments paren) :
    (t.body rounds depth).Acts Eval.KeepsCalls := by
  have hnot : ¬ ∃ callee arguments paren, t = .call callee arguments paren := by
    rintro ⟨callee, arguments, paren, ht⟩
    exact hcall callee arguments paren ht
  exact (t.acts_body rounds depth).mono fun hx => hx.keepsCalls (fun _ => hnot) hnot

/-- A call that has been noted is the latest one. -/
theorem calls_noteCall {callee : Value} {arguments : List Value} {paren : Token} {m n : Machine σ}
    (h : noteCall callee arguments paren m = .ok () n) : n.calls.tail = m.calls := by
  rcases noteCall_eq callee arguments paren m with ⟨-, errors, -, hnote⟩ | ⟨-, cause, hnote⟩
  · rw [hnote] at h
    cases h
    rfl
  · rw [hnote] at h
    cases h

/-! ### Dialogues -/

namespace Dialogue

variable {self : (t : Task σ) → Eval σ t.Answer} {p : Dialogue σ α}

theorem run_bind (self : (t : Task σ) → Eval σ t.Answer) (p : Dialogue σ α)
    (f : α → Dialogue σ β) : (p >>= f).run self = p.run self >>= fun a => (f a).run self := by
  induction p with
  | done a => rfl
  | act x next ih =>
    show x >>= _ = (x >>= _) >>= _
    rw [bind_assoc]
    exact congrArg (x >>= ·) (funext ih)
  | ask t next ih =>
    show self t >>= _ = (self t >>= _) >>= _
    rw [bind_assoc]
    exact congrArg (self t >>= ·) (funext ih)

/-- A dialogue goes along with a change if its acts and the tasks that it asks for do. -/
theorem Acts.oblivious {T : Change} (hp : p.Acts fun x => x.Oblivious T)
    (hself : ∀ t, (self t).Oblivious T) : (p.run self).Oblivious T := by
  induction p with
  | done a => exact Eval.oblivious_pure
  | act x next ih => exact hp.1.bind fun b => ih b (hp.2 b)
  | ask t next ih => exact (hself t).bind fun a => ih a (hp a)

theorem Acts.calls (hp : p.Acts Eval.KeepsCalls)
    (hself : ∀ t m a n, self t m = .ok a n → n.calls = m.calls) {m n : Machine σ} {a : α}
    (h : p.run self m = .ok a n) : n.calls = m.calls := by
  induction p generalizing m with
  | done a' =>
    cases h
    rfl
  | act x next ih =>
    obtain ⟨b, k, hx, hnext⟩ := Eval.exists_of_bind_ok h
    have hcalls := hp.1 m
    rw [Eval.leaves_of_ok hx] at hcalls
    exact (ih b (hp.2 b) hnext).trans hcalls
  | ask t next ih =>
    obtain ⟨b, k, ht, hnext⟩ := Eval.exists_of_bind_ok h
    exact (ih b (hp b) hnext).trans (hself t m b k ht)

end Dialogue

open Dialogue

/-- What is noted of a call is struck out when the call returns. -/
theorem calls_callBody {self : (t : Task σ) → Eval σ t.Answer}
    (hself : ∀ t m a n, self t m = .ok a n → n.calls = m.calls) {callee v : Value}
    {arguments : List Value} {paren : Token} {m n : Machine σ}
    (h : (callBody callee arguments paren).run self m = .ok v n) : n.calls = m.calls := by
  replace h : (noteCall callee arguments paren >>= fun _ =>
      self (.invoke callee arguments paren) >>= fun v => Eval.popCall >>= fun _ =>
      (pure v : Eval σ Value)) m = .ok v n := h
  obtain ⟨_, k, hnote, h⟩ := Eval.exists_of_bind_ok h
  obtain ⟨v', j, hvalue, h⟩ := Eval.exists_of_bind_ok h
  cases h
  show j.calls.tail = m.calls
  rw [hself (.invoke callee arguments paren) k v j hvalue]
  exact calls_noteCall hnote

/-! ### Runs -/

namespace Task

theorem calls_enter (t : Task σ) (m : Machine σ) : (t.enter m).calls = m.calls := by
  cases t <;> rfl

theorem calls_leave (t : Task σ) (outer : σ.Scope) (m : Machine σ) :
    (t.leave outer m).calls = m.calls := by
  cases t <;> rfl

theorem oblivious_run (T : Change) (rounds depth : Nat) (t : Task σ) :
    (Task.run rounds depth t).Oblivious T := by
  induction depth generalizing t with
  | zero => exact Eval.oblivious_halt
  | succ depth ih =>
    intro m
    -- Before and after its body, a task sets the scope and nothing else.
    have henter : t.enter (m.change T) = (t.enter m).change T := by
      cases t <;> rfl
    have hleave (n : Machine σ) : t.leave m.scope (n.change T) = (t.leave m.scope n).change T := by
      cases t <;> rfl
    have h := ((t.acts_made rounds depth).mono fun hx => hx.oblivious T).oblivious ih (t.enter m)
    rw [← henter] at h
    simp only [Task.run, h]
    cases (t.body rounds depth).run (Task.run rounds depth) (t.enter m) with
    | ok a n => exact congrArg _ (hleave n)
    | error why n => exact congrArg _ (hleave n)

theorem calls_run {rounds depth : Nat} {t : Task σ} {m n : Machine σ} {a : t.Answer}
    (h : Task.run rounds depth t m = .ok a n) : n.calls = m.calls := by
  induction depth generalizing t m n with
  | zero => cases h
  | succ depth ih =>
    unfold Task.run at h
    cases hrun : (t.body rounds depth).run (Task.run rounds depth) (t.enter m) with
    | error why k =>
      simp only [hrun] at h
      cases h
    | ok a' k =>
      simp only [hrun] at h
      cases h
      rw [calls_leave, ← calls_enter t m]
      by_cases hcall : ∃ callee arguments paren, t = .call callee arguments paren
      · obtain ⟨callee, arguments, paren, rfl⟩ := hcall
        exact calls_callBody (fun _ _ _ _ => ih) hrun
      · refine (acts_keepsCalls rounds depth ?_).calls (fun _ _ _ _ => ih) hrun
        exact fun callee arguments paren ht => hcall ⟨callee, arguments, paren, ht⟩

end Task

/-- **Programs do not look at the streams,** and have no call noted when they come to their end. -/
theorem Program.discreet_run (rounds depth : Nat) (program : Program σ.Mark) :
    (Program.run rounds depth program).Discreet where
  oblivious T := ((Program.acts_made program).mono fun hx => hx.oblivious T).oblivious
    fun t => t.oblivious_run T rounds depth
  calls _ _ _ := ((Program.acts_body program).mono fun hx => hx.keepsCalls (fun _ => id) id).calls
    fun _ _ _ _ => Task.calls_run

end LoxLang
