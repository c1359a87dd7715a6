import LoxLang.Proofs.Dialogue

/-!
# Contracts that know what a run comes to

A contract may have to say of a task that the run comes to it, or has come to another one before.
This cannot be seen from a dialogue, since what is asked for depends on the answers. But if `V` is
known to hold of everything that a run comes to, then it may be taken for granted while going
through a body: `Contract.along` asks nothing of the other tasks, and lets nothing come of them. A
contract that is kept in this sense (`Contract.KeptAlong`) holds of the run and of its points, as it
does for `Contract.Kept`.

What a run comes to can also be listed (`Program.mem_points_iff`).
-/

namespace LoxLang

variable {σ : Scoping} {α : Type} {C : Contract σ} {V : Task σ → Machine σ → Prop} {rounds : Nat}

/-- The contract, for runs that come only to tasks of which `V` holds. -/
def Contract.along (C : Contract σ) (V : Task σ → Machine σ → Prop) : Contract σ where
  Ghost := Option C.Ghost
  before g t m := V t m → ∃ known, g = some known ∧ C.before known t m
  after g t m a n := ∃ known, g = some known ∧ C.after known t m a n
  halts g t m h n := ∃ known, g = some known ∧ C.halts known t m h n

namespace Dialogue

variable {m : Machine σ} {Q : α → Machine σ → Prop} {H : Halt → Machine σ → Prop}

/-- Where a task is asked for, the run comes to it. -/
theorem meets_ask_along {t : Task σ} {next : t.Answer → Dialogue σ α}
    (h : V t m → ∃ g, C.before g t m ∧
      (∀ a n, C.after g t m a n → (next a).Meets (C.along V) n Q H) ∧
      ∀ why n, C.halts g t m why n → H why n) :
    (ask t next).Meets (C.along V) m Q H := by
  by_cases hV : V t m
  · obtain ⟨g, hg, hafter, hhalts⟩ := h hV
    refine ⟨some g, fun _ => ⟨g, rfl, hg⟩, ?_, ?_⟩
    · rintro a n ⟨known, hknown, hn⟩
      cases hknown
      exact hafter a n hn
    · rintro why n ⟨known, hknown, hn⟩
      cases hknown
      exact hhalts why n hn
  · refine ⟨none, fun hV' => absurd hV' hV, ?_, ?_⟩
    · rintro a n ⟨known, hknown, -⟩
      cases hknown
    · rintro why n ⟨known, hknown, -⟩
      cases hknown

/-- A dialogue ends as it does by the contract, and asks only for what the contract allows, if the
tasks that it asks for are carried out according to it. -/
theorem Meets.run_along {self : (t : Task σ) → Eval σ t.Answer} {p : Dialogue σ α}
    (hp : p.Meets (C.along V) m Q H) (hV : ∀ t n, p.Asks self m t n → V t n)
    (hself : ∀ g t n, p.Asks self m t n → C.before g t n →
      (self t).Ends n (C.after g t n) (C.halts g t n)) :
    (p.run self).Ends m Q H ∧ ∀ t n, p.Asks self m t n → ∃ g, C.before g t n := by
  induction p generalizing m with
  | done a => exact ⟨hp, fun _ _ h => h.elim⟩
  | act x next ih =>
    cases hx : x m with
    | ok b n =>
      obtain ⟨hrun, hbefore⟩ := ih b (Eval.Ends.of_ok hp hx)
        (fun t k h => hV t k ((asks_act_of_ok hx).2 h))
        fun g t k h => hself g t k ((asks_act_of_ok hx).2 h)
      refine ⟨.of_eq hrun (Eval.bind_of_ok hx _), fun t k h => ?_⟩
      exact hbefore t k ((asks_act_of_ok hx).1 h)
    | error why n =>
      have hhalts : H why n := Eval.Ends.of_error hp hx
      refine ⟨.of_eq (Eval.ends_halt.2 hhalts) (Eval.bind_of_error hx _), fun t k h => ?_⟩
      exact absurd h (not_asks_act_of_error hx)
  | ask t next ih =>
    obtain ⟨g, hg, hafter, hhalts⟩ := hp
    -- The ghost is known, since the run does come to the task that is asked for first.
    obtain ⟨known, rfl, hknown⟩ := hg (hV t m asks_ask_self)
    have hends := hself known t m asks_ask_self hknown
    cases hx : self t m with
    | ok a n =>
      have hasks {u : Task σ} {k : Machine σ} (h : (next a).Asks self n u k) :
          (ask t next).Asks self m u k :=
        (asks_ask_of_ok hx).2 (.inr h)
      obtain ⟨hrun, hbefore⟩ := ih a (hafter a n ⟨known, rfl, hends.of_ok hx⟩)
        (fun u k h => hV u k (hasks h)) fun g u k h => hself g u k (hasks h)
      refine ⟨.of_eq hrun (Eval.bind_of_ok hx _), fun u k h => ?_⟩
      obtain ⟨rfl, rfl⟩ | h := (asks_ask_of_ok hx).1 h
      · exact ⟨known, hknown⟩
      · exact hbefore u k h
    | error why n =>
      have hwhy : H why n := hhalts why n ⟨known, rfl, hends.of_error hx⟩
      refine ⟨.of_eq (Eval.ends_halt.2 hwhy) (Eval.bind_of_error hx _), fun u k h => ?_⟩
      obtain ⟨rfl, rfl⟩ := (asks_ask_of_error hx).1 h
      exact ⟨known, hknown⟩

end Dialogue

namespace Contract

/-- The body of every task of which `V` holds meets the contract. -/
structure KeptAlong (C : Contract σ) (V : Task σ → Machine σ → Prop) (rounds : Nat) : Prop where
  body : ∀ depth g t m, V t m → C.before g t m →
    (t.body rounds depth).Meets (C.along V) (t.enter m)
      (fun a n => C.after g t m a (t.leave m.scope n))
      fun h n => C.halts g t m (t.blame h) (t.leave m.scope n)
  exhausted : ∀ g t m, C.before g t m → C.halts g t m .exhausted m

namespace KeptAlong

variable {depth : Nat} {m : Machine σ}

/-- **Runs**: the contract holds of a task as it is carried out, if `V` holds of all that this comes
to. -/
theorem run (hC : C.KeptAlong V rounds) (depth : Nat) {g : C.Ghost} {t : Task σ} {m : Machine σ}
    (hV : ∀ q, Point.Reaches rounds ⟨depth, t, m⟩ q → V q.task q.machine)
    (hg : C.before g t m) : (Task.run rounds depth t).Ends m (C.after g t m) (C.halts g t m) := by
  induction depth generalizing g t m with
  | zero => exact hC.exhausted g t m hg
  | succ depth ih =>
    have hasked {u : Task σ} {n : Machine σ} {q : Point σ}
        (h : (t.body rounds depth).Asks (Task.run rounds depth) (t.enter m) u n)
        (hq : Point.Reaches rounds ⟨depth, u, n⟩ q) : V q.task q.machine :=
      hV q (Relation.ReflTransGen.head ⟨rfl, h⟩ hq)
    have hbody := ((hC.body depth g t m (hV _ .refl) hg).run_along
      (fun u n h => hasked h .refl) fun g u n h hg => ih (fun q hq => hasked h hq) hg).1
    exact Task.ends_run hbody

/-- **Points**: where the contract allows a task, it allows every one that carrying it out comes
to. -/
theorem before_of_reaches (hC : C.KeptAlong V rounds) {p q : Point σ}
    (hV : ∀ k, p.Reaches rounds k → V k.task k.machine)
    (hp : ∃ g, C.before g p.task p.machine) (hpq : p.Reaches rounds q) :
    ∃ g, C.before g q.task q.machine := by
  induction hpq with
  | refl => exact hp
  | @tail q r hpq hqr ih =>
    obtain ⟨g, hg⟩ := ih
    obtain ⟨hdepth, hasks⟩ := hqr
    have hasked {u : Task σ} {n : Machine σ} {k : Point σ}
        (h : (q.task.body rounds r.depth).Asks (Task.run rounds r.depth)
          (q.task.enter q.machine) u n)
        (hk : Point.Reaches rounds ⟨r.depth, u, n⟩ k) : V k.task k.machine := by
      have hcalls : q.Calls rounds ⟨r.depth, u, n⟩ := ⟨hdepth, h⟩
      exact hV k (hpq.trans (Relation.ReflTransGen.head hcalls hk))
    exact ((hC.body r.depth g q.task q.machine (hV q hpq) hg).run_along
      (fun u n h => hasked h .refl)
      fun g u n h hg => hC.run r.depth (fun k hk => hasked h hk) hg).2 _ _ hasks

/-- A program whose body meets the contract ends accordingly, and comes only to what the contract
allows. -/
theorem program_run (hC : C.KeptAlong V rounds) {program : Program σ.Mark}
    {Q : Value → Machine σ → Prop} {H : Halt → Machine σ → Prop}
    (hV : ∀ q, program.Visits rounds depth m q → V q.task q.machine)
    (hbody : (Program.body program).Meets (C.along V) m Q H) :
    (Program.run rounds depth program).Ends m Q H ∧
      ∀ p, program.Visits rounds depth m p → ∃ g, C.before g p.task p.machine := by
  obtain ⟨hrun, hbefore⟩ := hbody.run_along (fun t n h => hV _ ⟨t, n, h, .refl⟩)
    fun g t n h hg => hC.run depth (fun q hq => hV q ⟨t, n, h, hq⟩) hg
  refine ⟨hrun, ?_⟩
  rintro p ⟨t, n, hasks, hreaches⟩
  exact hC.before_of_reaches (fun k hk => hV k ⟨t, n, hasks, hk⟩) (hbefore t n hasks) hreaches

end KeptAlong

end Contract

/-! ### Listing what a run comes to -/

namespace Dialogue

/-- The tasks that a dialogue asks for, each with the machine at that time. -/
def asked (self : (t : Task σ) → Eval σ t.Answer) :
    Dialogue σ α → Machine σ → List (Task σ × Machine σ)
  | done _, _ => []
  | act x next, m =>
    match x m with
    | .ok b n => (next b).asked self n
    | .error _ _ => []
  | ask t next, m =>
    (t, m) ::
      match self t m with
      | .ok a n => (next a).asked self n
      | .error _ _ => []

theorem mem_asked_iff {self : (t : Task σ) → Eval σ t.Answer} {p : Dialogue σ α} {m n : Machine σ}
    {u : Task σ} : (u, n) ∈ p.asked self m ↔ p.Asks self m u n := by
  induction p generalizing m with
  | done a => simp [asked, Asks]
  | act x next ih =>
    rw [asked, Asks]
    cases x m with
    | ok b k => exact ih b
    | error why k => simp
  | ask t next ih =>
    rw [asked, Asks, List.mem_cons, Prod.mk.injEq]
    cases self t m with
    | ok a k => exact or_congr_right (ih a)
    | error why k => simp

end Dialogue

/-- The points that a task comes to, itself first. -/
def Task.points (rounds : Nat) : Nat → Task σ → Machine σ → List (Point σ)
  | 0, t, m => [⟨0, t, m⟩]
  | depth + 1, t, m =>
    ⟨depth + 1, t, m⟩ :: ((t.body rounds depth).asked (Task.run rounds depth) (t.enter m)).flatMap
      fun next => points rounds depth next.1 next.2

theorem Task.mem_points_iff {depth : Nat} {t : Task σ} {m : Machine σ} {q : Point σ} :
    q ∈ Task.points rounds depth t m ↔ Point.Reaches rounds ⟨depth, t, m⟩ q := by
  induction depth generalizing t m with
  | zero =>
    rw [points, List.mem_singleton]
    constructor
    · rintro rfl
      exact .refl
    · intro h
      -- No level of the stack is left to ask for anything.
      obtain rfl | ⟨k, hk, -⟩ := Relation.ReflTransGen.cases_head h
      · rfl
      · exact absurd hk.1 (Nat.succ_ne_zero _).symm
  | succ depth ih =>
    rw [points, List.mem_cons, List.mem_flatMap]
    constructor
    · rintro (rfl | ⟨⟨u, n⟩, hasked, hq⟩)
      · exact .refl
      · exact Relation.ReflTransGen.head ⟨rfl, Dialogue.mem_asked_iff.1 hasked⟩ (ih.1 hq)
    · intro h
      obtain rfl | ⟨k, hk, hq⟩ := Relation.ReflTransGen.cases_head h
      · exact .inl rfl
      · obtain ⟨depth', u, n⟩ := k
        obtain ⟨hdepth, hasks⟩ := hk
        cases hdepth
        exact .inr ⟨(u, n), Dialogue.mem_asked_iff.2 hasks, ih.2 hq⟩

/-- The points that a program comes to. -/
def Program.points (rounds depth : Nat) (program : Program σ.Mark) (m : Machine σ) :
    List (Point σ) :=
  ((Program.body program).asked (Task.run rounds depth) m).flatMap
    fun next => Task.points rounds depth next.1 next.2

theorem Program.mem_points_iff {depth : Nat} {program : Program σ.Mark} {m : Machine σ}
    {q : Point σ} :
    q ∈ program.points rounds depth m ↔ program.Visits rounds depth m q := by
  rw [points, List.mem_flatMap]
  constructor
  · rintro ⟨⟨t, n⟩, hasked, hq⟩
    exact ⟨t, n, Dialogue.mem_asked_iff.1 hasked, Task.mem_points_iff.1 hq⟩
  · rintro ⟨t, n, hasks, hq⟩
    exact ⟨(t, n), Dialogue.mem_asked_iff.2 hasks, Task.mem_points_iff.2 hq⟩

end LoxLang
