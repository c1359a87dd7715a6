import LoxLang.Proofs.Operations

/-!
# The course of a run

A relation between machines that allows each act of a task allows everything that happens in
between: from a point to those inside of it, from there to the end of the point, and from the end of
one point to a later one. The acts of a task need only be looked at where a run comes to, on the
machine of that time and with the answers that there are (`Dialogue.Moves`). A relation of this kind
is a `Course`.

Of two points of a run, one is inside of the other, or one comes to its end before the other is come
to (`Course.order`). So whether something was there before or after something else can be read off
the machines.
-/

namespace LoxLang

variable {σ : Scoping} {α β : Type} {R : Machine σ → Machine σ → Prop} {rounds depth : Nat}
  {m : Machine σ}

/-! ### Dialogues -/

namespace Dialogue

variable {answers : (t : Task σ) → Eval σ t.Answer}

/-- Carried out on the machine `m`, with these answers, the dialogue acts only as the relation
allows. -/
def Moves (answers : (t : Task σ) → Eval σ t.Answer) (R : Machine σ → Machine σ → Prop) :
    Dialogue σ α → Machine σ → Prop
  | done _, _ => True
  | act x next, m => R m (x.leaves m) ∧ ∀ b n, x m = .ok b n → (next b).Moves answers R n
  | ask t next, m => ∀ a n, answers t m = .ok a n → (next a).Moves answers R n

theorem moves_pure {a : α} : (pure a : Dialogue σ α).Moves answers R m := trivial

theorem moves_perform {x : Eval σ α} (hx : R m (x.leaves m)) : (perform x).Moves answers R m :=
  ⟨hx, fun _ _ _ => trivial⟩

theorem moves_perform_bind {x : Eval σ α} {f : α → Dialogue σ β} (hx : R m (x.leaves m))
    (hf : ∀ a n, x m = .ok a n → (f a).Moves answers R n) : (perform x >>= f).Moves answers R m :=
  ⟨hx, hf⟩

theorem moves_store_bind {f : Store σ → Dialogue σ β} (hrefl : R m m)
    (hf : (f m.store).Moves answers R m) : (perform Eval.store >>= f).Moves answers R m := by
  refine moves_perform_bind hrefl fun s n hs => ?_
  cases hs
  exact hf

theorem moves_alloc_bind {g : Store σ → α × Store σ} {f : α → Dialogue σ β}
    (hstep : R m { m with store := (g m.store).2 })
    (hf : (f (g m.store).1).Moves answers R { m with store := (g m.store).2 }) :
    (perform (Eval.alloc g) >>= f).Moves answers R m := by
  refine moves_perform_bind hstep fun a n ha => ?_
  cases ha
  exact hf

theorem Moves.bind {d : Dialogue σ α} {f : α → Dialogue σ β} (hd : d.Moves answers R m)
    (hf : ∀ a n, (f a).Moves answers R n) : (d >>= f).Moves answers R m := by
  induction d generalizing m with
  | done a => exact hf a m
  | act x next ih => exact ⟨hd.1, fun b n hb => ih b (hd.2 b n hb)⟩
  | ask t next ih => exact fun a n ha => ih a (hd a n ha)

theorem moves_ask_bind {t : Task σ} {f : t.Answer → Dialogue σ β}
    (hf : ∀ a n, answers t m = .ok a n → (f a).Moves answers R n) :
    (ask t done >>= f).Moves answers R m := hf

/-- Acts that the relation allows on every machine. -/
theorem Acts.moves {d : Dialogue σ α}
    (hd : d.Acts fun {β : Type} (x : Eval σ β) => ∀ m, R m (x.leaves m)) (m : Machine σ) :
    d.Moves answers R m := by
  induction d generalizing m with
  | done a => trivial
  | act x next ih => exact ⟨hd.1 m, fun b n _ => ih b (hd.2 b) n⟩
  | ask t next ih => exact fun a n _ => ih a (hd a) n

/-- What a dialogue comes to, from its beginning to its end: the tasks that it asks for are come to
one after the other. -/
structure Ordered (answers : (t : Task σ) → Eval σ t.Answer) (R : Machine σ → Machine σ → Prop)
    (d : Dialogue σ α) (m : Machine σ) : Prop where
  whole : R m ((d.run answers).leaves m)
  before : ∀ u k, d.Asks answers m u k → R m k
  after : ∀ u k, d.Asks answers m u k → R ((answers u).leaves k) ((d.run answers).leaves m)
  order : ∀ u k u' k', d.Asks answers m u k → d.Asks answers m u' k' →
    (u = u' ∧ k = k') ∨ R ((answers u).leaves k) k' ∨ R ((answers u').leaves k') k

/-- A dialogue that acts as the relation allows is ordered, if the tasks are allowed. -/
theorem Moves.ordered (hrefl : ∀ m, R m m) (htrans : ∀ {l m n}, R l m → R m n → R l n)
    {d : Dialogue σ α} (hd : d.Moves answers R m)
    (hself : ∀ u k, d.Asks answers m u k → R k ((answers u).leaves k)) : d.Ordered answers R m := by
  induction d generalizing m with
  | done a => exact ⟨hrefl m, fun _ _ h => h.elim, fun _ _ h => h.elim, fun _ _ _ _ h => h.elim⟩
  | act x next ih =>
    obtain ⟨hx, hnext⟩ := hd
    cases h : x m with
    | error why n =>
      rw [Eval.leaves_of_error h] at hx
      refine ⟨?_, fun _ _ ha => ?_, fun _ _ ha => ?_, fun _ _ _ _ ha => ?_⟩
      · rwa [run, Eval.leaves_bind_of_error h]
      · exact absurd ha (not_asks_act_of_error h)
      · exact absurd ha (not_asks_act_of_error h)
      · exact absurd ha (not_asks_act_of_error h)
    | ok b n =>
      rw [Eval.leaves_of_ok h] at hx
      have hlater := ih b (hnext b n h) fun u k ha => hself u k ((asks_act_of_ok h).2 ha)
      have hleaves : ((act x next).run answers).leaves m = ((next b).run answers).leaves n := by
        rw [run, Eval.leaves_bind_of_ok h]
      refine ⟨?_, fun u k ha => ?_, fun u k ha => ?_, fun u k u' k' ha ha' => ?_⟩
      · rw [hleaves]
        exact htrans hx hlater.whole
      · exact htrans hx (hlater.before u k ((asks_act_of_ok h).1 ha))
      · rw [hleaves]
        exact hlater.after u k ((asks_act_of_ok h).1 ha)
      · exact hlater.order u k u' k' ((asks_act_of_ok h).1 ha) ((asks_act_of_ok h).1 ha')
  | ask t next ih =>
    have ht := hself t m asks_ask_self
    cases h : answers t m with
    | error why n =>
      have hleaves : ((ask t next).run answers).leaves m = (answers t).leaves m := by
        rw [run, Eval.leaves_bind_of_error h, Eval.leaves_of_error h]
      refine ⟨?_, fun u k ha => ?_, fun u k ha => ?_, fun u k u' k' ha ha' => ?_⟩
      · rwa [hleaves]
      · obtain ⟨rfl, rfl⟩ := (asks_ask_of_error h).1 ha
        exact hrefl k
      · obtain ⟨rfl, rfl⟩ := (asks_ask_of_error h).1 ha
        rw [hleaves]
        exact hrefl _
      · obtain ⟨rfl, rfl⟩ := (asks_ask_of_error h).1 ha
        obtain ⟨rfl, rfl⟩ := (asks_ask_of_error h).1 ha'
        exact .inl ⟨rfl, rfl⟩
    | ok a n =>
      have hlater := ih a (hd a n h) fun u k ha => hself u k ((asks_ask_of_ok h).2 (.inr ha))
      have hn : (answers t).leaves m = n := Eval.leaves_of_ok h
      have hleaves : ((ask t next).run answers).leaves m = ((next a).run answers).leaves n := by
        rw [run, Eval.leaves_bind_of_ok h]
      rw [hn] at ht
      refine ⟨?_, fun u k ha => ?_, fun u k ha => ?_, fun u k u' k' ha ha' => ?_⟩
      · rw [hleaves]
        exact htrans ht hlater.whole
      · rcases (asks_ask_of_ok h).1 ha with ⟨rfl, rfl⟩ | ha
        · exact hrefl k
        · exact htrans ht (hlater.before u k ha)
      · rw [hleaves]
        rcases (asks_ask_of_ok h).1 ha with ⟨rfl, rfl⟩ | ha
        · rw [hn]
          exact hlater.whole
        · exact hlater.after u k ha
      · -- The first task that is asked for comes to its end before any other is asked for.
        rcases (asks_ask_of_ok h).1 ha with ⟨rfl, rfl⟩ | hu
        · rcases (asks_ask_of_ok h).1 ha' with ⟨rfl, rfl⟩ | hu'
          · exact .inl ⟨rfl, rfl⟩
          · rw [hn]
            exact .inr (.inl (hlater.before u' k' hu'))
        · rcases (asks_ask_of_ok h).1 ha' with ⟨rfl, rfl⟩ | hu'
          · rw [hn]
            exact .inr (.inr (hlater.before u k hu))
          · exact hlater.order u k u' k' hu hu'

end Dialogue

/-! ### Points -/

namespace Task

theorem leaves_run_succ (t : Task σ) (m : Machine σ) :
    (Task.run rounds (depth + 1) t).leaves m =
      t.leave m.scope (((t.body rounds depth).run (Task.run rounds depth)).leaves (t.enter m)) := by
  unfold Eval.leaves Task.run
  cases (t.body rounds depth).run (Task.run rounds depth) (t.enter m) <;> rfl

theorem store_enter (t : Task σ) (m : Machine σ) : (t.enter m).store = m.store := by
  cases t <;> rfl

theorem store_leave (t : Task σ) (outer : σ.Scope) (m : Machine σ) :
    (t.leave outer m).store = m.store := by
  cases t <;> rfl

end Task

/-- The machine that carrying out the point leaves. -/
def Point.left (rounds : Nat) (p : Point σ) : Machine σ :=
  (Task.run rounds p.depth p.task).leaves p.machine

/-- The relation allows all that tasks of which `V` holds do themselves. It is a preorder that does
not depend on the scope, and `V` holds of all that these tasks come to. -/
structure Course (rounds : Nat) (V : Point σ → Prop) (R : Machine σ → Machine σ → Prop) : Prop where
  refl : ∀ m, R m m
  trans : ∀ {l m n}, R l m → R m n → R l n
  enter : ∀ (t : Task σ) m, R m (t.enter m)
  leave : ∀ (t : Task σ) outer m, R m (t.leave outer m)
  closed : ∀ p q, V p → p.Calls rounds q → V q
  moves : ∀ depth t m, V ⟨depth + 1, t, m⟩ →
    (t.body rounds depth).Moves (Task.run rounds depth) R (t.enter m)

namespace Course

variable {V : Point σ → Prop} {p q q' : Point σ}

theorem of_reaches (hC : Course rounds V R) (hp : V p) (hpq : p.Reaches rounds q) : V q := by
  induction hpq with
  | refl => exact hp
  | tail _ hcalls ih => exact hC.closed _ _ ih hcalls

/-- **Runs**: what comes of a task is allowed. -/
theorem run (hC : Course rounds V R) (hp : V p) : R p.machine (p.left rounds) := by
  obtain ⟨depth, t, m⟩ := p
  induction depth generalizing t m with
  | zero => exact hC.refl m
  | succ depth ih =>
    have hbody := (hC.moves depth t m hp).ordered hC.refl hC.trans fun u k hasks =>
      ih u k (hC.closed _ _ hp ⟨rfl, hasks⟩)
    show R m ((Task.run rounds (depth + 1) t).leaves m)
    rw [Task.leaves_run_succ]
    exact hC.trans (hC.enter t m) (hC.trans hbody.whole (hC.leave t _ _))

/-- What the body of a task comes to. -/
theorem ordered (hC : Course rounds V R) {t : Task σ} (hp : V ⟨depth + 1, t, m⟩) :
    (t.body rounds depth).Ordered (Task.run rounds depth) R (t.enter m) :=
  (hC.moves depth t m hp).ordered hC.refl hC.trans fun u k hasks =>
    hC.run (p := ⟨depth, u, k⟩) (hC.closed _ _ hp ⟨rfl, hasks⟩)

theorem calls (hC : Course rounds V R) (hp : V p) (hpq : p.Calls rounds q) :
    R p.machine q.machine ∧ R (q.left rounds) (p.left rounds) := by
  obtain ⟨depth, t, m⟩ := p
  obtain ⟨depth', u, k⟩ := q
  obtain ⟨hdepth, hasks⟩ := hpq
  cases hdepth
  have hbody := hC.ordered hp
  refine ⟨hC.trans (hC.enter t m) (hbody.before u k hasks), ?_⟩
  show R _ ((Task.run rounds (depth' + 1) t).leaves m)
  rw [Task.leaves_run_succ]
  exact hC.trans (hbody.after u k hasks) (hC.leave t _ _)

/-- What is inside of a point happens from its beginning to its end. -/
theorem reaches (hC : Course rounds V R) (hp : V p) (hpq : p.Reaches rounds q) :
    R p.machine q.machine ∧ R (q.left rounds) (p.left rounds) := by
  induction hpq with
  | refl => exact ⟨hC.refl _, hC.refl _⟩
  | @tail k q hpk hkq ih =>
    have hstep := hC.calls (hC.of_reaches hp hpk) hkq
    exact ⟨hC.trans ih.1 hstep.1, hC.trans hstep.2 ih.2⟩

/-- **Order**: of two points inside of a third one, one is inside of the other, or one comes to its
end before the other is come to. -/
theorem order (hC : Course rounds V R) (hp : V p) (hq : p.Reaches rounds q)
    (hq' : p.Reaches rounds q') :
    q.Reaches rounds q' ∨ q'.Reaches rounds q ∨
      R (q.left rounds) q'.machine ∨ R (q'.left rounds) q.machine := by
  induction hq using Relation.ReflTransGen.head_induction_on with
  | refl => exact .inl hq'
  | @head p k hpk hkq ih =>
    rcases Relation.ReflTransGen.cases_head hq' with rfl | ⟨k', hpk', hkq'⟩
    · exact .inr (.inl (Relation.ReflTransGen.head hpk hkq))
    · have hk := hC.closed _ _ hp hpk
      have hk' := hC.closed _ _ hp hpk'
      obtain ⟨depth, t, m⟩ := p
      obtain ⟨depth₁, u, n⟩ := k
      obtain ⟨depth₂, u', n'⟩ := k'
      obtain ⟨hdepth, hasks⟩ := hpk
      obtain ⟨hdepth', hasks'⟩ := hpk'
      cases hdepth
      cases hdepth'
      rcases (hC.ordered hp).order u n u' n' hasks hasks' with ⟨rfl, rfl⟩ | hfirst | hfirst
      · exact ih hk hkq'
      · exact .inr (.inr (.inl (hC.trans (hC.reaches hk hkq).2
          (hC.trans hfirst (hC.reaches hk' hkq').1))))
      · exact .inr (.inr (.inr (hC.trans (hC.reaches hk' hkq').2
          (hC.trans hfirst (hC.reaches hk hkq).1))))

end Course

/-! ### Programs -/

namespace Program

variable {program : Program σ.Mark} {programs : List (Program σ.Mark)} {p q : Point σ}
  {V : Point σ → Prop}

theorem Visits.reaches (hp : program.Visits rounds depth m p) (hpq : p.Reaches rounds q) :
    program.Visits rounds depth m q := by
  obtain ⟨t, n, hasks, htp⟩ := hp
  exact ⟨t, n, hasks, htp.trans hpq⟩

theorem AnyVisits.reaches (hp : Program.AnyVisits rounds depth programs m p)
    (hpq : p.Reaches rounds q) : Program.AnyVisits rounds depth programs m q := by
  induction programs generalizing m with
  | nil => exact hp
  | cons program programs ih =>
    rcases hp with hp | hp
    · exact .inl (hp.reaches hpq)
    · exact .inr (ih hp)

/-- A program does nothing to the machine but ask for its statements. -/
theorem ordered_body (hC : Course rounds V R)
    (hV : ∀ q, program.Visits rounds depth m q → V q) :
    (Program.body program).Ordered (Task.run rounds depth) R m := by
  have hacts : (Program.body program).Acts
      fun {β : Type} (x : Eval σ β) => ∀ m, R m (x.leaves m) :=
    (Program.acts_body program).mono fun hx => hx.leaves hC.refl hC.trans fun _ _ h => h.elim
  exact (hacts.moves m).ordered hC.refl hC.trans fun u k hasks =>
    hC.run (p := ⟨depth, u, k⟩) (hV _ ⟨u, k, hasks, .refl⟩)

theorem Visits.course (hC : Course rounds V R)
    (hV : ∀ q, program.Visits rounds depth m q → V q) (hp : program.Visits rounds depth m p) :
    R m p.machine ∧ R (p.left rounds) ((program.run rounds depth).leaves m) := by
  have hbody := ordered_body hC hV
  obtain ⟨t, n, hasks, htp⟩ := hp
  have hinside := hC.reaches (p := ⟨depth, t, n⟩) (hV _ ⟨t, n, hasks, .refl⟩) htp
  exact ⟨hC.trans (hbody.before t n hasks) hinside.1, hC.trans hinside.2 (hbody.after t n hasks)⟩

/-- The start of a run comes before everything that the run comes to. -/
theorem AnyVisits.course (hC : Course rounds V R)
    (hV : ∀ q, Program.AnyVisits rounds depth programs m q → V q)
    (hp : Program.AnyVisits rounds depth programs m p) : R m p.machine := by
  induction programs generalizing m with
  | nil => exact hp.elim
  | cons program programs ih =>
    have hfirst (q : Point σ) (hq : program.Visits rounds depth m q) : V q := hV q (.inl hq)
    rcases hp with hp | hp
    · exact (hp.course hC hfirst).1
    · exact hC.trans (ordered_body hC hfirst).whole (ih (fun q hq => hV q (.inr hq)) hp)

/-- **Order**: of two points that programs come to, one is inside of the other, or one comes to its
end before the other is come to. -/
theorem AnyVisits.order (hC : Course rounds V R)
    (hV : ∀ q, Program.AnyVisits rounds depth programs m q → V q)
    (hp : Program.AnyVisits rounds depth programs m p)
    (hq : Program.AnyVisits rounds depth programs m q) :
    p.Reaches rounds q ∨ q.Reaches rounds p ∨
      R (p.left rounds) q.machine ∨ R (q.left rounds) p.machine := by
  induction programs generalizing m with
  | nil => exact hp.elim
  | cons program programs ih =>
    have hfirst (q : Point σ) (hq : program.Visits rounds depth m q) : V q := hV q (.inl hq)
    have hlater (q : Point σ) (hq : Program.AnyVisits rounds depth programs
        ((program.run rounds depth).leaves m) q) : V q := hV q (.inr hq)
    rcases hp with hp | hp
    · rcases hq with hq | hq
      · obtain ⟨t, n, hasks, htp⟩ := hp
        obtain ⟨u, k, hasks', huq⟩ := hq
        have ht := hfirst ⟨depth, t, n⟩ ⟨t, n, hasks, .refl⟩
        have hu := hfirst ⟨depth, u, k⟩ ⟨u, k, hasks', .refl⟩
        rcases (ordered_body hC hfirst).order t n u k hasks hasks' with ⟨rfl, rfl⟩ | h | h
        · exact hC.order ht htp huq
        · exact .inr (.inr (.inl (hC.trans (hC.reaches ht htp).2
            (hC.trans h (hC.reaches hu huq).1))))
        · exact .inr (.inr (.inr (hC.trans (hC.reaches hu huq).2
            (hC.trans h (hC.reaches ht htp).1))))
      · exact .inr (.inr (.inl (hC.trans (hp.course hC hfirst).2 (hq.course hC hlater))))
    · rcases hq with hq | hq
      · exact .inr (.inr (.inr (hC.trans (hq.course hC hfirst).2 (hp.course hC hlater))))
      · exact ih hlater hp hq

end Program

end LoxLang
