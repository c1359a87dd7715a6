import LoxLang.Proofs.Dialogue
import Mathlib.Data.List.Forall2

/-!
# Two runs in lockstep

Two computations, on machines of two scopings, that are carried out side by side: `Eval.Pairs` says
that both give results that stand in a relation, or both halt for reasons that do.
`Dialogue.Relates` says so of two dialogues, which ask for the answers of tasks at the same time; a
`Pact` tells which two tasks may be asked for together, and what their answers have in common.

As a contract, a pact is *kept* if the bodies of all tasks keep to it. Then it holds of the tasks as
they are carried out (`Pact.Kept.run`), and where the one run comes to a point, the other comes to
one that belongs to it (`Pact.Kept.exists_of_reaches`).
-/

namespace LoxLang

variable {σ τ : Scoping} {α β γ δ : Type}

namespace Eval

/-- Carried out on the machines `m` and `n`, both computations give results for which `Q` holds, or
both halt so that `H` holds. -/
def Pairs (x : Eval σ α) (y : Eval τ β) (m : Machine σ) (n : Machine τ)
    (Q : α → β → Machine σ → Machine τ → Prop) (H : Halt → Halt → Machine σ → Machine τ → Prop) :
    Prop :=
  match x m, y n with
  | .ok a m, .ok b n => Q a b m n
  | .error h m, .error k n => H h k m n
  | _, _ => False

variable {x : Eval σ α} {y : Eval τ β} {f : α → Eval σ γ} {g : β → Eval τ δ} {m : Machine σ}
  {n : Machine τ} {Q Q' : α → β → Machine σ → Machine τ → Prop}
  {H H' : Halt → Halt → Machine σ → Machine τ → Prop}

theorem Pairs.mono (h : x.Pairs y m n Q H) (hQ : ∀ a b m n, Q a b m n → Q' a b m n)
    (hH : ∀ h k m n, H h k m n → H' h k m n) : x.Pairs y m n Q' H' := by
  unfold Pairs at *
  cases hx : x m with
  | ok a m' => cases hy : y n with
    | ok b n' => rw [hx, hy] at h; exact hQ a b m' n' h
    | error k n' => rw [hx, hy] at h; exact h
  | error why m' => cases hy : y n with
    | ok b n' => rw [hx, hy] at h; exact h
    | error k n' => rw [hx, hy] at h; exact hH why k m' n' h

/-- Computations are in lockstep as those that do the same from here on. -/
theorem Pairs.of_eq {x' : Eval σ α} {y' : Eval τ β} {m' : Machine σ} {n' : Machine τ}
    (h : x'.Pairs y' m' n' Q H) (hx : x m = x' m') (hy : y n = y' n') : x.Pairs y m n Q H := by
  unfold Pairs
  rw [hx, hy]
  exact h

/-- The second computation follows the first one to a result, -/
theorem Pairs.exists_right_of_ok (h : x.Pairs y m n Q H) {a : α} {m' : Machine σ}
    (hx : x m = .ok a m') : ∃ b n', y n = .ok b n' ∧ Q a b m' n' := by
  unfold Pairs at h
  rw [hx] at h
  cases hy : y n with
  | ok b n' => rw [hy] at h; exact ⟨b, n', rfl, h⟩
  | error k n' => rw [hy] at h; exact h.elim

/-- and to a halt. -/
theorem Pairs.exists_right_of_error (h : x.Pairs y m n Q H) {why : Halt} {m' : Machine σ}
    (hx : x m = .error why m') : ∃ k n', y n = .error k n' ∧ H why k m' n' := by
  unfold Pairs at h
  rw [hx] at h
  cases hy : y n with
  | ok b n' => rw [hy] at h; exact h.elim
  | error k n' => rw [hy] at h; exact ⟨k, n', rfl, h⟩

/-- Where it comes to a result it has followed the first one, -/
theorem Pairs.exists_of_ok (h : x.Pairs y m n Q H) {b : β} {n' : Machine τ}
    (hy : y n = .ok b n') : ∃ a m', x m = .ok a m' ∧ Q a b m' n' := by
  unfold Pairs at h
  rw [hy] at h
  cases hx : x m with
  | ok a m' => rw [hx] at h; exact ⟨a, m', rfl, h⟩
  | error why m' => rw [hx] at h; exact h.elim

/-- and where it comes to a halt. -/
theorem Pairs.exists_of_error (h : x.Pairs y m n Q H) {k : Halt} {n' : Machine τ}
    (hy : y n = .error k n') : ∃ why m', x m = .error why m' ∧ H why k m' n' := by
  unfold Pairs at h
  rw [hy] at h
  cases hx : x m with
  | ok a m' => rw [hx] at h; exact h.elim
  | error why m' => rw [hx] at h; exact ⟨why, m', rfl, h⟩

/-- Whatever comes of them, the computations leave machines that stand in a relation. -/
theorem Pairs.leaves {P : Machine σ → Machine τ → Prop} {H : Halt → Halt → Prop}
    (h : x.Pairs y m n (fun _ _ m n => P m n) fun why k m n => H why k ∧ P m n) :
    P (x.leaves m) (y.leaves n) := by
  unfold Eval.leaves
  cases hy : y n with
  | ok b n' =>
    obtain ⟨a, m', hx, hP⟩ := h.exists_of_ok hy
    rw [hx]
    exact hP
  | error k n' =>
    obtain ⟨why, m', hx, hP⟩ := h.exists_of_error hy
    rw [hx]
    exact hP.2

theorem pairs_modifyGet {f : Machine σ → α × Machine σ} {g : Machine τ → β × Machine τ} :
    (modifyGet f : Eval σ α).Pairs (modifyGet g : Eval τ β) m n Q H ↔
      Q (f m).1 (g n).1 (f m).2 (g n).2 := Iff.rfl

theorem pairs_bind {Q : γ → δ → Machine σ → Machine τ → Prop}
    (h : x.Pairs y m n (fun a b m n => (f a).Pairs (g b) m n Q H) H) :
    (x >>= f).Pairs (y >>= g) m n Q H := by
  unfold Pairs at h
  simp only [Pairs, bind, EStateM.bind]
  cases hx : x m with
  | ok a m' => cases hy : y n with
    | ok b n' => rw [hx, hy] at h; exact h
    | error k n' => rw [hx, hy] at h; exact h.elim
  | error why m' => cases hy : y n with
    | ok b n' => rw [hx, hy] at h; exact h.elim
    | error k n' => rw [hx, hy] at h; exact h

@[simp]
theorem pairs_get {Q : Machine σ → Machine τ → Machine σ → Machine τ → Prop} :
    (get : Eval σ (Machine σ)).Pairs (get : Eval τ (Machine τ)) m n Q H ↔ Q m n m n := Iff.rfl

@[simp]
theorem pairs_store {Q : Store σ → Store τ → Machine σ → Machine τ → Prop} :
    (store : Eval σ (Store σ)).Pairs (store : Eval τ (Store τ)) m n Q H ↔ Q m.store n.store m n :=
  Iff.rfl

@[simp]
theorem pairs_scope {Q : σ.Scope → τ.Scope → Machine σ → Machine τ → Prop} :
    (scope : Eval σ σ.Scope).Pairs (scope : Eval τ τ.Scope) m n Q H ↔ Q m.scope n.scope m n :=
  Iff.rfl

@[simp]
theorem pairs_alloc {f : Store σ → α × Store σ} {g : Store τ → β × Store τ} :
    (alloc f).Pairs (alloc g) m n Q H ↔ Q (f m.store).1 (g n.store).1
      { m with store := (f m.store).2 } { n with store := (g n.store).2 } := Iff.rfl

@[simp]
theorem pairs_put {slot : σ.Slot} {slot' : τ.Slot} {v w : Value}
    {Q : Unit → Unit → Machine σ → Machine τ → Prop} :
    (put slot v).Pairs (put slot' w) m n Q H ↔ Q () ()
      { m with store := { m.store with memory := σ.put m.store.memory slot v } }
      { n with store := { n.store with memory := τ.put n.store.memory slot' w } } := Iff.rfl

@[simp]
theorem pairs_expect_ok {a : α} {b : β} :
    (expect (.ok a) : Eval σ α).Pairs (expect (.ok b) : Eval τ β) m n Q H ↔ Q a b m n := Iff.rfl

/-- A computation by itself is in lockstep with itself. -/
theorem Pairs.ends {x : Eval σ α} {m : Machine σ} {Q : α → α → Machine σ → Machine σ → Prop}
    {H : Halt → Halt → Machine σ → Machine σ → Prop} (h : x.Pairs x m m Q H) :
    x.Ends m (fun a n => Q a a n n) fun why n => H why why n n := by
  unfold Pairs at h
  unfold Ends
  cases hx : x m with
  | ok a n => rw [hx] at h; exact h
  | error why n => rw [hx] at h; exact h

end Eval

/-- Which two tasks may be asked for together, and what their answers have in common. -/
structure Pact (σ τ : Scoping) where
  Ghost : Type
  /-- The tasks may be asked for on these machines. -/
  before : Ghost → Task σ → Task τ → Machine σ → Machine τ → Prop
  /-- The answers, and the machines that the tasks leave. -/
  after : Ghost → (t : Task σ) → (u : Task τ) → Machine σ → Machine τ → t.Answer → u.Answer →
    Machine σ → Machine τ → Prop
  /-- Why the tasks halt, and the machines that they leave. -/
  halts : Ghost → Task σ → Task τ → Machine σ → Machine τ → Halt → Halt → Machine σ →
    Machine τ → Prop

namespace Dialogue

/-- Carried out on the machines `m` and `n`, with answers as in the pact, the dialogues ask for what
the pact allows, and at the same time; and they give results for which `Q` holds, or halt so that
`H` holds. -/
def Relates (P : Pact σ τ) : Dialogue σ α → Dialogue τ β → Machine σ → Machine τ →
    (α → β → Machine σ → Machine τ → Prop) → (Halt → Halt → Machine σ → Machine τ → Prop) → Prop
  | done a, done b, m, n, Q, _ => Q a b m n
  | act x next, act y next', m, n, Q, H =>
    x.Pairs y m n (fun a b m n => (next a).Relates P (next' b) m n Q H) H
  | ask t next, ask u next', m, n, Q, H =>
    ∃ g, P.before g t u m n ∧
      (∀ a b m' n', P.after g t u m n a b m' n' → (next a).Relates P (next' b) m' n' Q H) ∧
      ∀ h k m' n', P.halts g t u m n h k m' n' → H h k m' n'
  | _, _, _, _, _, _ => False

variable {P : Pact σ τ} {m : Machine σ} {n : Machine τ} {p : Dialogue σ α} {q : Dialogue τ β}
  {f : α → Dialogue σ γ} {g : β → Dialogue τ δ} {Q Q' : α → β → Machine σ → Machine τ → Prop}
  {H H' : Halt → Halt → Machine σ → Machine τ → Prop}

/-- Induction on two dialogues at once: they go on in the same way, and end at the same time. -/
@[elab_as_elim]
theorem Relates.byStep {motive : Dialogue σ α → Dialogue τ β → Machine σ → Machine τ → Prop}
    (done : ∀ a b m n, Q a b m n → motive (.done a) (.done b) m n)
    (act : ∀ {γ δ : Type} (x : Eval σ γ) (y : Eval τ δ) next next' m n,
      x.Pairs y m n (fun a b m n => motive (next a) (next' b) m n) H →
        motive (.act x next) (.act y next') m n)
    (ask : ∀ g t u next next' m n, P.before g t u m n →
      (∀ a b m' n', P.after g t u m n a b m' n' → motive (next a) (next' b) m' n') →
      (∀ h k m' n', P.halts g t u m n h k m' n' → H h k m' n') →
        motive (.ask t next) (.ask u next') m n)
    (h : p.Relates P q m n Q H) : motive p q m n := by
  -- Dialogues that differ in what comes first are not related, which leaves three of nine cases.
  induction p generalizing q m n with
  | done a => cases q with
    | done b => exact done a b m n h
    | _ => exact h.elim
  | act x next ih => cases q with
    | act y next' =>
      exact act x y next next' m n (Eval.Pairs.mono h (fun a _ _ _ => ih a) fun _ _ _ _ h => h)
    | _ => exact h.elim
  | ask t next ih => cases q with
    | ask u next' =>
      obtain ⟨g, hg, hafter, hhalts⟩ := h
      exact ask g t u next next' m n hg (fun a b m' n' hn => ih a (hafter a b m' n' hn)) hhalts
    | _ => exact h.elim

theorem Relates.mono (h : p.Relates P q m n Q H) (hQ : ∀ a b m n, Q a b m n → Q' a b m n)
    (hH : ∀ h k m n, H h k m n → H' h k m n) : p.Relates P q m n Q' H' := by
  refine Relates.byStep hQ (fun x y next next' m n h => h.mono (fun _ _ _ _ h => h) hH) ?_ h
  intro g t u next next' m n hg hafter hhalts
  exact ⟨g, hg, hafter, fun h k m' n' hn => hH h k m' n' (hhalts h k m' n' hn)⟩

theorem relates_bind {Q : γ → δ → Machine σ → Machine τ → Prop}
    (h : p.Relates P q m n (fun a b m n => (f a).Relates P (g b) m n Q H) H) :
    (p >>= f).Relates P (q >>= g) m n Q H := by
  refine Relates.byStep (fun _ _ _ _ h => h) (fun _ _ _ _ _ _ h => h) ?_ h
  exact fun g t u next next' m n hg hafter hhalts => ⟨g, hg, hafter, hhalts⟩

@[simp]
theorem relates_pure {a : α} {b : β} :
    (pure a : Dialogue σ α).Relates P (pure b : Dialogue τ β) m n Q H ↔ Q a b m n := by
  simp only [pure, Relates]

@[simp]
theorem relates_perform {x : Eval σ α} {y : Eval τ β} :
    (perform x).Relates P (perform y) m n Q H ↔ x.Pairs y m n Q H := by
  simp only [perform, Relates]

/-- Dialogues for the elements of two lists, in order. `I` holds all the time. -/
theorem relates_mapM {F : γ → Dialogue σ α} {G : δ → Dialogue τ α} {R : γ → δ → Prop}
    {I : Machine σ → Machine τ → Prop}
    (hstep : ∀ a b m n, R a b → I m n →
      (F a).Relates P (G b) m n (fun v w m n => v = w ∧ I m n) H)
    {l : List γ} {l' : List δ} (hl : List.Forall₂ R l l') (hI : I m n) :
    (l.mapM F).Relates P (l'.mapM G) m n (fun vs ws m n => vs = ws ∧ I m n) H := by
  induction hl generalizing m n with
  | nil => exact ⟨rfl, hI⟩
  | @cons a b l l' hab _ ih =>
    rw [List.mapM_cons, List.mapM_cons]
    refine relates_bind ((hstep a b m n hab hI).mono ?_ fun _ _ _ _ h => h)
    rintro v _ m n ⟨rfl, hI⟩
    refine relates_bind ((ih hI).mono ?_ fun _ _ _ _ h => h)
    rintro vs _ m n ⟨rfl, hI⟩
    exact relates_pure.2 ⟨rfl, hI⟩

/-- As `relates_mapM`, for dialogues that hand on a value. -/
theorem relates_foldlM {F : α → γ → Dialogue σ α} {G : α → δ → Dialogue τ α} {R : γ → δ → Prop}
    {I : Machine σ → Machine τ → Prop}
    (hstep : ∀ v a b m n, R a b → I m n →
      (F v a).Relates P (G v b) m n (fun v w m n => v = w ∧ I m n) H)
    {l : List γ} {l' : List δ} (hl : List.Forall₂ R l l') {v : α} (hI : I m n) :
    (l.foldlM F v).Relates P (l'.foldlM G v) m n (fun v w m n => v = w ∧ I m n) H := by
  induction hl generalizing m n v with
  | nil => exact ⟨rfl, hI⟩
  | @cons a b l l' hab _ ih =>
    rw [List.foldlM_cons, List.foldlM_cons]
    refine relates_bind ((hstep v a b m n hab hI).mono ?_ fun _ _ _ _ h => h)
    rintro w _ m n ⟨rfl, hI⟩
    exact ih hI

/-- Dialogues end as they do by the pact, if the tasks do. -/
theorem Relates.run {self : (t : Task σ) → Eval σ t.Answer}
    {self' : (u : Task τ) → Eval τ u.Answer}
    (hself : ∀ g t u m n, P.before g t u m n →
      (self t).Pairs (self' u) m n (P.after g t u m n) (P.halts g t u m n))
    (h : p.Relates P q m n Q H) : (p.run self).Pairs (q.run self') m n Q H := by
  refine Relates.byStep (fun _ _ _ _ h => h) (fun _ _ _ _ _ _ h => Eval.pairs_bind h) ?_ h
  exact fun g t u next next' m n hg hafter hhalts =>
    Eval.pairs_bind ((hself g t u m n hg).mono hafter hhalts)

/-- What the second dialogue asks for, the first one asks for too. -/
theorem Relates.exists_of_asks {self : (t : Task σ) → Eval σ t.Answer}
    {self' : (u : Task τ) → Eval τ u.Answer}
    (hself : ∀ g t u m n, P.before g t u m n →
      (self t).Pairs (self' u) m n (P.after g t u m n) (P.halts g t u m n))
    {u : Task τ} {n' : Machine τ} (h : p.Relates P q m n Q H) (ha : q.Asks self' n u n') :
    ∃ g t m', p.Asks self m t m' ∧ P.before g t u m' n' := by
  revert ha
  refine Relates.byStep (fun _ _ _ _ _ ha => ha.elim) ?_ ?_ h
  · intro γ δ x y next next' m n h ha
    unfold Asks at ha ⊢
    cases hy : y n with
    | ok b n₁ =>
      rw [hy] at ha
      obtain ⟨a, m₁, hx, hrest⟩ := h.exists_of_ok hy
      rw [hx]
      exact hrest ha
    | error k n₁ => rw [hy] at ha; exact ha.elim
  · intro g t v next next' m n hg hafter _ ha
    unfold Asks at ha ⊢
    obtain ⟨rfl, rfl⟩ | ha := ha
    · exact ⟨g, t, m, .inl ⟨rfl, rfl⟩, hg⟩
    · cases hv : self' v n with
      | ok b n₁ =>
        rw [hv] at ha
        obtain ⟨a, m₁, ht, hrest⟩ := (hself g t v m n hg).exists_of_ok hv
        obtain ⟨g', t', m', hasks, hbefore⟩ := hafter a b m₁ n₁ hrest ha
        refine ⟨g', t', m', .inr ?_, hbefore⟩
        rw [ht]
        exact hasks
      | error k n₁ => rw [hv] at ha; exact ha.elim

end Dialogue

/-! ### Runs and their points -/

/-- Tasks are in lockstep if their bodies are. -/
theorem Task.run_pairs {rounds depth : Nat} {t : Task σ} {u : Task τ} {m : Machine σ}
    {n : Machine τ} {Q : t.Answer → u.Answer → Machine σ → Machine τ → Prop}
    {H : Halt → Halt → Machine σ → Machine τ → Prop}
    (hbody : ((t.body rounds depth).run (Task.run rounds depth)).Pairs
      ((u.body rounds depth).run (Task.run rounds depth)) (t.enter m) (u.enter n)
      (fun a b m' n' => Q a b (t.leave m.scope m') (u.leave n.scope n'))
      fun h k m' n' => H (t.blame h) (u.blame k) (t.leave m.scope m') (u.leave n.scope n')) :
    (Task.run rounds (depth + 1) t).Pairs (Task.run rounds (depth + 1) u) m n Q H := by
  unfold Eval.Pairs at hbody ⊢
  unfold Task.run
  generalize (t.body rounds depth).run (Task.run rounds depth) (t.enter m) = result at hbody ⊢
  generalize (u.body rounds depth).run (Task.run rounds depth) (u.enter n) = result' at hbody ⊢
  cases result <;> cases result' <;> exact hbody

namespace Pact

variable {P : Pact σ τ} {rounds : Nat}

/-- The bodies of all tasks keep to the pact. -/
structure Kept (P : Pact σ τ) (rounds : Nat) : Prop where
  body : ∀ depth g t u m n, P.before g t u m n →
    (t.body rounds depth).Relates P (u.body rounds depth) (t.enter m) (u.enter n)
      (fun a b m' n' => P.after g t u m n a b (t.leave m.scope m') (u.leave n.scope n'))
      fun h k m' n' => P.halts g t u m n (t.blame h) (u.blame k) (t.leave m.scope m')
        (u.leave n.scope n')
  exhausted : ∀ g t u m n, P.before g t u m n → P.halts g t u m n .exhausted .exhausted m n

/-- **Runs**: a pact that is kept holds of the tasks as they are carried out. -/
theorem Kept.run (hP : P.Kept rounds) (depth : Nat) {g : P.Ghost} {t : Task σ} {u : Task τ}
    {m : Machine σ} {n : Machine τ} (hg : P.before g t u m n) :
    (Task.run rounds depth t).Pairs (Task.run rounds depth u) m n (P.after g t u m n)
      (P.halts g t u m n) := by
  induction depth generalizing g t u m n with
  | zero => exact hP.exhausted g t u m n hg
  | succ depth ih =>
    exact Task.run_pairs ((hP.body depth g t u m n hg).run fun g t u m n hg => ih hg)

/-- **Points**: where the one run comes to a point, the other comes to one that belongs to it. -/
theorem Kept.exists_of_reaches (hP : P.Kept rounds) {p : Point σ} {q q' : Point τ}
    (hdepth : p.depth = q.depth) (hp : ∃ g, P.before g p.task q.task p.machine q.machine)
    (hq : q.Reaches rounds q') :
    ∃ p' : Point σ, p.Reaches rounds p' ∧ p'.depth = q'.depth ∧
      ∃ g, P.before g p'.task q'.task p'.machine q'.machine := by
  induction hq with
  | refl => exact ⟨p, .refl, hdepth, hp⟩
  | @tail q₁ q₂ _ hcalls ih =>
    obtain ⟨p₁, hreach, hdepth, g, hg⟩ := ih
    obtain ⟨hdown, hasks⟩ := hcalls
    obtain ⟨g', t, m, hasks', hbefore⟩ := (hP.body q₂.depth g _ _ _ _ hg).exists_of_asks
      (fun _ _ _ _ _ hg => hP.run q₂.depth hg) hasks
    exact ⟨⟨q₂.depth, t, m⟩, hreach.tail ⟨hdepth.trans hdown, hasks'⟩, rfl, g', hbefore⟩

/-- Two programs whose bodies keep to a pact end accordingly. -/
theorem Kept.program_run (hP : P.Kept rounds) (depth : Nat) {program : Program σ.Mark}
    {program' : Program τ.Mark} {m : Machine σ} {n : Machine τ}
    {Q : Value → Value → Machine σ → Machine τ → Prop}
    {H : Halt → Halt → Machine σ → Machine τ → Prop}
    (hbody : (Program.body program).Relates P (Program.body program') m n Q H) :
    (Program.run rounds depth program).Pairs (Program.run rounds depth program') m n Q H :=
  hbody.run fun _ _ _ _ _ hg => hP.run depth hg

/-- Where a run of the one program comes to a point, a run of the other comes to one that belongs to
it. -/
theorem Kept.exists_of_visits (hP : P.Kept rounds) {depth : Nat} {program : Program σ.Mark}
    {program' : Program τ.Mark} {m : Machine σ} {n : Machine τ} {q : Point τ}
    {Q : Value → Value → Machine σ → Machine τ → Prop}
    {H : Halt → Halt → Machine σ → Machine τ → Prop}
    (hbody : (Program.body program).Relates P (Program.body program') m n Q H)
    (hq : program'.Visits rounds depth n q) :
    ∃ p : Point σ, program.Visits rounds depth m p ∧ p.depth = q.depth ∧
      ∃ g, P.before g p.task q.task p.machine q.machine := by
  obtain ⟨u, n₁, hasks, hreach⟩ := hq
  obtain ⟨g, t, m₁, hasks', hg⟩ :=
    hbody.exists_of_asks (fun _ _ _ _ _ hg => hP.run depth hg) hasks
  obtain ⟨p, hp, hrest⟩ := hP.exists_of_reaches (p := ⟨depth, t, m₁⟩) rfl ⟨g, hg⟩ hreach
  exact ⟨p, ⟨t, m₁, hasks', hp⟩, hrest⟩

end Pact

end LoxLang
