import LoxLang.Proofs.Jumps
import LoxLang.Proofs.Splitting
import LoxLang.Proofs.Texts

/-!
# Pending calls

A machine keeps a list of calls. A call is put there when its arguments have been evaluated and it
has been accepted, and it is struck out when it returns. Nothing else touches the list, but a call
that does not return leaves its entry behind. So when something comes to an end, the calls are those
from before; and when it halts, they are followed by one entry for each call that a halt has gone
through, outermost first (`Pending`). What a run comes to is told by its points, and a point is
*pending* at a halt if carrying it out has halted.

From this it follows what the report of a fault lists (`Session.calls_are_pending`).
-/

namespace LoxLang

variable {σ : Scoping} {α : Type} {rounds depth : Nat} {p q : Point σ} {m n : Machine σ}

/-! ### Points that halt -/

/-- The entry of the call that the point carries out, if it is accepted: the value can be called
with this number of arguments. With no level of the stack left nothing is carried out. -/
def Point.accepted? : Point σ → Option PendingCall
  | ⟨_ + 1, .call callee arguments _, m⟩ =>
    if m.store.arity? callee = some arguments.length then
      some ⟨m.store.calleeName callee, arguments⟩
    else none
  | _ => none

theorem Point.accepted?_call {callee : Value} {arguments : List Value} {paren : Token} :
    Point.accepted? ⟨depth + 1, .call callee arguments paren, m⟩ =
      if m.store.arity? callee = some arguments.length then
        some ⟨m.store.calleeName callee, arguments⟩
      else none :=
  rfl

/-- Carrying out the point does not come to an end. -/
def Point.Halts (rounds : Nat) (p : Point σ) : Prop :=
  ∃ why n, Task.run rounds p.depth p.task p.machine = .error why n

/-- A dialogue halts where a task halts that it asks for. -/
theorem Dialogue.run_of_asks {self : (t : Task σ) → Eval σ t.Answer} {d : Dialogue σ α}
    {u : Task σ} {k : Machine σ} {why : Halt} (hasks : d.Asks self m u n)
    (hu : self u n = .error why k) : d.run self m = .error why k := by
  induction d generalizing m with
  | done a => exact hasks.elim
  | act x next ih =>
    cases hx : x m with
    | ok b m' => exact (Eval.bind_of_ok hx _).trans (ih b ((asks_act_of_ok hx).1 hasks))
    | error why' m' => exact absurd hasks (not_asks_act_of_error hx)
  | ask t next ih =>
    cases ht : self t m with
    | ok a m' =>
      rcases (asks_ask_of_ok ht).1 hasks with ⟨rfl, rfl⟩ | hlater
      · rw [hu] at ht
        cases ht
      · exact (Eval.bind_of_ok ht _).trans (ih a hlater)
    | error why' m' =>
      obtain ⟨rfl, rfl⟩ := (asks_ask_of_error ht).1 hasks
      exact Eval.bind_of_error hu _

theorem Point.Calls.halts (h : p.Calls rounds q) (hq : q.Halts rounds) : p.Halts rounds := by
  obtain ⟨hdepth, hasks⟩ := h
  obtain ⟨why, n, hrun⟩ := hq
  have hp := Task.run_of_error (Dialogue.run_of_asks hasks hrun)
  rw [← hdepth] at hp
  exact ⟨_, _, hp⟩

/-- A halt goes through all the points around the one where it happens. -/
theorem Point.Reaches.halts (h : p.Reaches rounds q) (hq : q.Halts rounds) : p.Halts rounds := by
  induction h using Relation.ReflTransGen.head_induction_on with
  | refl => exact hq
  | head hcalls _ ih => exact hcalls.halts ih

/-- What comes to an end comes to nothing that halts. -/
theorem Point.not_halts_of_ok {t : Task σ} {a : t.Answer} (h : Task.run rounds depth t m = .ok a n)
    (hq : Point.Reaches rounds ⟨depth, t, m⟩ q) : ¬ q.Halts rounds := by
  intro hhalts
  obtain ⟨why, k, hrun⟩ := hq.halts hhalts
  rw [h] at hrun
  cases hrun

/-! ### Chains of pending calls -/

/-- The chain has the points of accepted calls that halt, of those that a run comes to, each inside
of the ones before it. -/
structure Pending (rounds : Nat) (Comes : Point σ → Prop) (chain : List (Point σ)) : Prop where
  mem_iff : ∀ q, q ∈ chain ↔ Comes q ∧ q.accepted?.isSome = true ∧ q.Halts rounds
  nested : chain.Pairwise (Relation.TransGen (Point.Calls rounds))

/-- The calls that the second machine has are those of the first, followed by the pending ones of
what a run comes to. -/
def Machine.Leaves (rounds : Nat) (Comes : Point σ → Prop) (m n : Machine σ) : Prop :=
  ∃ chain, Pending rounds Comes chain ∧
    n.calls.reverse = m.calls.reverse ++ chain.filterMap Point.accepted?

namespace Pending

variable {Comes Comes' : Point σ → Prop} {chain : List (Point σ)}

/-- Nothing is pending where no accepted call has halted. -/
theorem nil (h : ∀ q, Comes q → q.accepted?.isSome = true → ¬ q.Halts rounds) :
    Pending rounds Comes [] where
  mem_iff q := by
    refine ⟨fun hq => absurd hq List.not_mem_nil, ?_⟩
    rintro ⟨hcomes, haccepted, hhalts⟩
    exact absurd hhalts (h q hcomes haccepted)
  nested := .nil

/-- Points that are not calls, or have come to an end, do not count. -/
theorem congr (h : Pending rounds Comes chain)
    (hcomes : ∀ q, q.accepted?.isSome = true → q.Halts rounds → (Comes q ↔ Comes' q)) :
    Pending rounds Comes' chain where
  mem_iff q := by
    rw [h.mem_iff]
    constructor
    · rintro ⟨hq, haccepted, hhalts⟩
      exact ⟨(hcomes q haccepted hhalts).1 hq, haccepted, hhalts⟩
    · rintro ⟨hq, haccepted, hhalts⟩
      exact ⟨(hcomes q haccepted hhalts).2 hq, haccepted, hhalts⟩
  nested := h.nested

/-- A call is around the ones that are pending inside of it. -/
theorem cons (h : Pending rounds (Point.Reaches rounds q) chain) (hcalls : p.Calls rounds q)
    (haccepted : p.accepted?.isSome = true) (hhalts : p.Halts rounds) :
    Pending rounds (fun k => k = p ∨ Point.Reaches rounds q k) (p :: chain) where
  mem_iff k := by
    rw [List.mem_cons, h.mem_iff]
    constructor
    · rintro (rfl | ⟨hk, hpending⟩)
      · exact ⟨.inl rfl, haccepted, hhalts⟩
      · exact ⟨.inr hk, hpending⟩
    · rintro ⟨rfl | hk, hpending⟩
      · exact .inl rfl
      · exact .inr ⟨hk, hpending⟩
  nested := by
    refine List.pairwise_cons.2 ⟨fun k hk => ?_, h.nested⟩
    exact .head' hcalls ((h.mem_iff k).1 hk).1

end Pending

/-! ### Dialogues -/

namespace Dialogue

/-- Carrying out the dialogue on the machine `m` comes to the point. -/
def Visits (rounds depth : Nat) (d : Dialogue σ α) (m : Machine σ) (q : Point σ) : Prop :=
  ∃ t n, d.Asks (Task.run rounds depth) m t n ∧ Point.Reaches rounds ⟨depth, t, n⟩ q

theorem visits_ask {t : Task σ} {next : t.Answer → Dialogue σ α} {a : t.Answer}
    (h : Task.run rounds depth t m = .ok a n) {q : Point σ}
    (hq : (next a).Visits rounds depth n q) : (ask t next).Visits rounds depth m q := by
  obtain ⟨u, k, hasks, hreaches⟩ := hq
  exact ⟨u, k, (asks_ask_of_ok h).2 (.inr hasks), hreaches⟩

/-- Tasks end as told: the calls are those from before, or they are followed by the pending ones. -/
def Accounted (rounds depth : Nat) : Prop :=
  ∀ (t : Task σ) (m : Machine σ), (Task.run rounds depth t).Ends m (fun _ n => n.calls = m.calls)
    fun _ n => m.Leaves rounds (Point.Reaches rounds ⟨depth, t, m⟩) n

/-- A dialogue that does not touch the calls itself leaves what the last of its tasks leaves. -/
theorem leaves_run (hself : Accounted (σ := σ) rounds depth) {d : Dialogue σ α}
    (hd : d.Acts Eval.KeepsCalls) (m : Machine σ) :
    (d.run (Task.run rounds depth)).Ends m (fun _ n => n.calls = m.calls)
      fun _ n => m.Leaves rounds (d.Visits rounds depth m) n := by
  induction d generalizing m with
  | done a => exact Eval.ends_pure.2 rfl
  | act x next ih =>
    have hcalls := hd.1 m
    cases hx : x m with
    | ok b k =>
      rw [Eval.leaves_of_ok hx] at hcalls
      refine .of_eq ((ih b (hd.2 b) k).mono (fun _ n hn => hn.trans hcalls) ?_)
        (Eval.bind_of_ok hx _)
      rintro why n ⟨chain, hchain, hn⟩
      refine ⟨chain, hchain.congr fun q _ _ => ?_, by rw [hn, hcalls]⟩
      exact exists₂_congr fun t j => and_congr_left fun _ => (asks_act_of_ok hx).symm
    | error why k =>
      rw [Eval.leaves_of_error hx] at hcalls
      refine .of_eq (Eval.ends_halt.2 ⟨[], .nil ?_, by simp [hcalls]⟩) (Eval.bind_of_error hx _)
      rintro q ⟨t, j, hasks, -⟩
      exact absurd hasks (not_asks_act_of_error hx)
  | ask t next ih =>
    have hends := hself t m
    cases ht : Task.run rounds depth t m with
    | ok a k =>
      have hcalls : k.calls = m.calls := hends.of_ok ht
      refine .of_eq ((ih a (hd a) k).mono (fun _ n hn => hn.trans hcalls) ?_)
        (Eval.bind_of_ok ht _)
      rintro why n ⟨chain, hchain, hn⟩
      refine ⟨chain, hchain.congr fun q _ hhalts => ?_, by rw [hn, hcalls]⟩
      -- The task has come to an end, so nothing that it came to has halted.
      constructor
      · exact visits_ask ht
      · rintro ⟨u, j, hasks, hreaches⟩
        rcases (asks_ask_of_ok ht).1 hasks with ⟨rfl, rfl⟩ | hlater
        · exact absurd hhalts (Point.not_halts_of_ok ht hreaches)
        · exact ⟨u, j, hlater, hreaches⟩
    | error why k =>
      obtain ⟨chain, hchain, hk⟩ := hends.of_error ht
      refine .of_eq (Eval.ends_halt.2 ⟨chain, hchain.congr fun q _ _ => ?_, hk⟩)
        (Eval.bind_of_error ht _)
      constructor
      · intro hreaches
        exact ⟨t, m, asks_ask_self, hreaches⟩
      · rintro ⟨u, j, hasks, hreaches⟩
        obtain ⟨rfl, rfl⟩ := (asks_ask_of_error ht).1 hasks
        exact hreaches

end Dialogue

/-! ### Tasks -/

namespace Task

/-- What a task comes to is itself and what its body comes to. -/
theorem reaches_succ_iff {t : Task σ} :
    Point.Reaches rounds ⟨depth + 1, t, m⟩ q ↔
      q = ⟨depth + 1, t, m⟩ ∨ (t.body rounds depth).Visits rounds depth (t.enter m) q := by
  constructor
  · intro h
    rcases Relation.ReflTransGen.cases_head h with rfl | ⟨⟨depth', u, k⟩, ⟨hdepth, hasks⟩, hq⟩
    · exact .inl rfl
    · cases hdepth
      exact .inr ⟨u, k, hasks, hq⟩
  · rintro (rfl | h)
    · exact .refl
    · obtain ⟨u, k, hasks, hq⟩ := h
      exact Relation.ReflTransGen.head ⟨rfl, hasks⟩ hq

/-- A call is struck out when it returns, and stays noted when it does not. -/
theorem leaves_call (hself : Dialogue.Accounted (σ := σ) rounds depth) (callee : Value)
    (arguments : List Value) (paren : Token) (m : Machine σ) :
    (Task.run rounds (depth + 1) (.call callee arguments paren)).Ends m
      (fun _ n => n.calls = m.calls) fun _ n =>
        m.Leaves rounds (Point.Reaches rounds ⟨depth + 1, .call callee arguments paren, m⟩) n := by
  have hbody : (callBody (σ := σ) callee arguments paren).run (Task.run rounds depth) =
      noteCall callee arguments paren >>= fun _ =>
        Task.run rounds depth (.invoke callee arguments paren) >>= fun v =>
          Eval.popCall >>= fun _ => pure v := rfl
  rcases noteCall_eq callee arguments paren m with ⟨harity, errors, -, hx⟩ | ⟨harity, cause, hx⟩
  · generalize hk : { m with
      errors := errors, calls := ⟨m.store.calleeName callee, arguments⟩ :: m.calls } = k at hx
    have hcalls : k.calls = ⟨m.store.calleeName callee, arguments⟩ :: m.calls := by rw [← hk]
    have haccepted : Point.accepted? ⟨depth + 1, .call callee arguments paren, m⟩ =
        some ⟨m.store.calleeName callee, arguments⟩ := by
      rw [Point.accepted?_call, if_pos harity]
    have hinvoke := hself (.invoke callee arguments paren) k
    have hcallsPoint : Point.Calls rounds ⟨depth + 1, .call callee arguments paren, m⟩
        ⟨depth, .invoke callee arguments paren, k⟩ :=
      ⟨rfl, (Dialogue.asks_act_of_ok hx).2 Dialogue.asks_ask_self⟩
    cases hrun : Task.run rounds depth (.invoke callee arguments paren) k with
    | ok v j =>
      have hsame : j.calls = k.calls := hinvoke.of_ok hrun
      have hall : (callBody callee arguments paren).run (Task.run rounds depth) m =
          .ok v { j with calls := j.calls.tail } := by
        rw [hbody, Eval.bind_of_ok hx, Eval.bind_of_ok hrun]
        rfl
      refine .of_eq (y := pure v) (Eval.ends_pure.2 ?_)
        (Task.run_of_ok (t := .call callee arguments paren) hall)
      show j.calls.tail = m.calls
      rw [hsame, hcalls, List.tail_cons]
    | error why j =>
      obtain ⟨chain, hchain, hj⟩ := hinvoke.of_error hrun
      have hall : (callBody callee arguments paren).run (Task.run rounds depth) m =
          .error why j := by
        rw [hbody, Eval.bind_of_ok hx]
        exact Eval.bind_of_error hrun _
      have hhalts := Task.run_of_error (t := .call callee arguments paren) hall
      refine .of_eq (Eval.ends_halt.2 ?_) hhalts
      refine ⟨⟨depth + 1, .call callee arguments paren, m⟩ :: chain, ?_, ?_⟩
      · refine (hchain.cons hcallsPoint (by rw [haccepted]; rfl) ⟨_, _, hhalts⟩).congr
          fun q _ _ => ?_
        rw [reaches_succ_iff]
        refine or_congr_right ⟨fun hq => ⟨_, k, hcallsPoint.2, hq⟩, ?_⟩
        rintro ⟨t, i, hasks, hreaches⟩
        obtain ⟨rfl, rfl⟩ :=
          (Dialogue.asks_ask_of_error hrun).1 ((Dialogue.asks_act_of_ok hx).1 hasks)
        exact hreaches
      · show j.calls.reverse = _
        rw [hj, hcalls, List.reverse_cons, List.filterMap_cons_some haccepted, List.append_assoc]
        rfl
  · -- The call is not accepted, and nothing is asked for.
    have hrun : (callBody callee arguments paren).run (Task.run rounds depth) m =
        .error (.fault ⟨cause, some paren⟩) m := by
      rw [hbody]
      exact Eval.bind_of_error hx _
    refine .of_eq (Eval.ends_halt.2 ⟨[], .nil fun q hq hsome => ?_, by simp [calls_leave]⟩)
      (Task.run_of_error (t := .call callee arguments paren) hrun)
    rcases reaches_succ_iff.1 hq with rfl | ⟨t, j, hasks, -⟩
    · rw [Point.accepted?_call, if_neg harity] at hsome
      cases hsome
    · exact absurd hasks (Dialogue.not_asks_act_of_error hx)

/-- **The calls that are noted are those that are pending.** -/
theorem accounted_run (rounds depth : Nat) : Dialogue.Accounted (σ := σ) rounds depth := by
  induction depth with
  | zero =>
    intro t m
    refine Eval.ends_halt.2 ⟨[], .nil fun q hq hsome => ?_, by simp⟩
    -- No level of the stack is left: the task is the only point, and it is not carried out.
    rcases Relation.ReflTransGen.cases_head hq with rfl | ⟨k, hk, -⟩
    · cases hsome
    · exact absurd hk.1 (Nat.succ_ne_zero _).symm
  | succ depth ih =>
    intro t m
    by_cases hcall : ∃ callee arguments paren, t = .call callee arguments paren
    · obtain ⟨callee, arguments, paren, rfl⟩ := hcall
      exact leaves_call ih callee arguments paren m
    · simp only [not_exists] at hcall
      have hbody := Dialogue.leaves_run ih (acts_keepsCalls rounds depth hcall) (t.enter m)
      have hnone : Point.accepted? ⟨depth + 1, t, m⟩ = none := by
        cases t with
        | call callee arguments paren => exact absurd rfl (hcall callee arguments paren)
        | _ => rfl
      cases hrun : (t.body rounds depth).run (Task.run rounds depth) (t.enter m) with
      | ok a n =>
        refine .of_eq (y := pure a) (Eval.ends_pure.2 ?_) (Task.run_of_ok hrun)
        rw [calls_leave, hbody.of_ok hrun, calls_enter]
      | error why n =>
        obtain ⟨chain, hchain, hn⟩ := hbody.of_error hrun
        refine .of_eq (Eval.ends_halt.2 ⟨chain, hchain.congr fun q hsome _ => ?_, ?_⟩)
          (Task.run_of_error hrun)
        · rw [reaches_succ_iff]
          refine ⟨.inr, fun hq => hq.resolve_left ?_⟩
          rintro rfl
          rw [hnone] at hsome
          cases hsome
        · rw [calls_leave, hn, calls_enter]

end Task

/-- A program leaves no call when it comes to its end, and the pending ones when it halts. -/
theorem Program.leaves_run (rounds depth : Nat) (program : Program σ.Mark) (m : Machine σ) :
    (Program.run rounds depth program).Ends m (fun _ n => n.calls = m.calls)
      fun _ n => m.Leaves rounds (program.Visits rounds depth m) n :=
  Dialogue.leaves_run (Task.accounted_run rounds depth)
    ((Program.acts_body program).mono fun hx => hx.keepsCalls (fun _ => id) id) m

/-! ### Sessions -/

namespace Session

theorem calls_prepare (text : String) (m : Machine .bound) :
    ((prepare text).leaves m).calls = [] := by
  obtain ⟨errors, h⟩ := prepare_eq text m
  rw [Eval.leaves_of_ok h]
  rfl

/-- **Calls are noted exactly while they are pending.** Whatever there is to be carried out, on any
machine: if it comes to an end, the calls are those from before. If it halts, they are followed by
one entry for each call that it has come to, that was accepted, and that has halted, outermost
first. So the calls of a session are empty after a text that has come to its end or was rejected;
and the report of a fault lists the pending calls of the run of the program, and no others. -/
theorem calls_are_pending :
    (∀ (σ : Scoping) (rounds depth : Nat) (t : Task σ) (m : Machine σ),
      (Task.run rounds depth t).Ends m (fun _ n => n.calls = m.calls) fun _ n =>
        ∃ chain, Pending rounds (Point.Reaches rounds ⟨depth, t, m⟩) chain ∧
          n.calls.reverse = m.calls.reverse ++ chain.filterMap Point.accepted?) ∧
    ∀ (limits : Limits) (text : String) (m n : Machine .bound) (r : Report),
      run limits text m = .ok r n →
        ((∀ f calls, r.outcome ≠ .faulted f calls) → n.calls = []) ∧
        ∀ f calls, r.outcome = .faulted f calls → ∃ chain,
          Pending limits.rounds ((program text).Visits limits.rounds limits.depth
            ((prepare text).leaves m)) chain ∧
          n.calls.reverse = chain.filterMap Point.accepted? ∧
          (chain.filterMap Point.accepted?).mapM (callText? limits.depth n.store) = some calls := by
  refine ⟨fun σ rounds depth => Task.accounted_run rounds depth, fun limits text m n r hr => ?_⟩
  by_cases haccepts : Accepts text
  · rw [run_eq_of_accepts limits haccepts] at hr
    have hprogram := Program.leaves_run limits.rounds limits.depth (program text)
      ((prepare text).leaves m)
    cases hrun : Program.run (σ := .bound) limits.rounds limits.depth (program text)
        ((prepare text).leaves m) with
    | ok v k =>
      rw [runBound_of_ok limits hrun] at hr
      cases hr
      refine ⟨fun _ => ?_, fun f calls hf => by cases hf⟩
      exact (hprogram.of_ok hrun).trans (calls_prepare text m)
    | error why k =>
      obtain ⟨chain, hchain, hk⟩ := hprogram.of_error hrun
      rw [calls_prepare, List.reverse_nil, List.nil_append] at hk
      rcases fault_or_not why with ⟨f, rfl⟩ | hnot
      · rw [runBound_of_fault limits hrun, reportFault_eq] at hr
        cases hcalls : k.calls.reverse.mapM (callText? limits.depth k.store) with
        | none =>
          rw [hcalls] at hr
          cases hr
        | some calls =>
          rw [hcalls] at hr
          cases hr
          refine ⟨fun hnone => absurd rfl (hnone f calls), fun g calls' hg => ?_⟩
          cases hg
          exact ⟨chain, hchain, hk, hk ▸ hcalls⟩
      · rw [runBound_of_halt limits hrun hnot] at hr
        cases hr
  · obtain ⟨diagnostics, errors, -, hrun⟩ := run_of_not_accepts limits haccepts m
    rw [reject_eq] at hrun
    rw [hrun] at hr
    cases hr
    exact ⟨fun _ => rfl, fun f calls hf => by cases hf⟩

/-- A call inside of a call, with one that returns and one that is not accepted. -/
def nested : String :=
  "fun g(x) \x7b len(x); return x(1); \x7d fun f(x) \x7b return g(x); \x7d f(\"ab\");"

/-- Neither the call of `len` nor that of the string is pending. -/
theorem calls_are_pending_nested :
    let start : Machine .bound := .start Native.all [] none false ⟨0, []⟩
    ∃ r n f chain, run ⟨20, 2⟩ nested start = .ok r n ∧
      r.outcome = .faulted f ["(f \"ab\")", "(g \"ab\")"] ∧
      Pending 2 ((program nested).Visits 2 20 ((prepare nested).leaves start)) chain ∧
      n.calls.reverse = chain.filterMap Point.accepted? ∧
      (chain.filterMap Point.accepted?).mapM (callText? 20 n.store) =
        some ["(f \"ab\")", "(g \"ab\")"] := by
  intro start
  have houtcome : outcome? (run ⟨20, 2⟩ nested start) =
      some (.faulted ⟨.notCallable, some (.ofSymbol .rightParen 1)⟩
        ["(f \"ab\")", "(g \"ab\")"]) := by
    decide +kernel
  obtain ⟨r, n, hrun, hr⟩ := exists_of_outcome? houtcome
  obtain ⟨-, hfaulted⟩ := calls_are_pending.2 ⟨20, 2⟩ nested start n r hrun
  obtain ⟨chain, hchain, hcalls, htexts⟩ := hfaulted _ _ hr
  exact ⟨r, n, _, chain, hrun, hr, hchain, hcalls, htexts⟩

end Session

end LoxLang
