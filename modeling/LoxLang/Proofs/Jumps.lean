import LoxLang.Proofs.Reports
import LoxLang.Proofs.Resuming

/-!
# Jumps are taken

A statement that is left with a jump hands it to the one it is a part of, and so on outward, until
something takes it: the innermost loop around takes `break` and `continue`, and the call of the
function takes `return`. A `Program.Trail` is the way from a program in to a point of its run, and
`Jump.Taken` says which point of the trail takes a jump.

In a program about which nothing was reported no jump gets past that (`Session.jumps_are_taken`): a
jump that nothing takes would be a fault, and there is none by the contract of bound programs.
-/

namespace LoxLang

variable {σ : Scoping}

/-- The machine with another scope current. -/
def Machine.inScope (m : Machine σ) (scope : σ.Scope) : Machine σ := { m with scope := scope }

/-- The second task is to execute statements that are a part of the first one, with nothing in
between. -/
inductive Task.Part : Task σ → Task σ → Prop where
  | block {inner : σ.Scope} {body : List (Stmt σ.Mark)} :
    Part (.exec (.block body)) (.block inner body)
  | statement {inner : σ.Scope} {body : List (Stmt σ.Mark)} {s : Stmt σ.Mark} (hs : s ∈ body) :
    Part (.block inner body) (.exec s)
  | yes {condition : Expr σ.Mark} {yes : Stmt σ.Mark} {no : Option (Stmt σ.Mark)} :
    Part (.exec (.branch condition yes no)) (.exec yes)
  | no {condition : Expr σ.Mark} {yes no : Stmt σ.Mark} :
    Part (.exec (.branch condition yes (some no))) (.exec no)
  | loop {loop body : Stmt σ.Mark} (hbody : loop.loopBody? = some body) :
    Part (.exec loop) (.exec body)

/-- The second task is to execute the body of the function that is called by the first one on the
machine `m`. -/
inductive Task.Body (m : Machine σ) : Task σ → Task σ → Prop where
  | function {ref : Ref .function} {arguments : List Value} {paren : Token} {inner : σ.Scope} :
    Body m (.invoke (.function ref) arguments paren)
      (.block inner (m.store.functions.get ref).decl.body)
  | initializer {cls : Ref .cls} {arguments : List Value} {paren : Token} {inner : σ.Scope}
    {method : Closure σ} (hmethod : m.store.method? cls initializerName = some method) :
    Body m (.invoke (.cls cls) arguments paren) (.block inner method.decl.body)

namespace Point

variable (rounds : Nat)

/-- The statements come to their end, or are left with a jump, and leave the machine `n`. -/
def Leaves (p : Point σ) (jump : Option Jump) (n : Machine σ) : Prop :=
  match p.task with
  | .exec s => Task.run rounds p.depth (.exec s) p.machine = .ok jump n
  | .block inner body => Task.run rounds p.depth (.block inner body) p.machine = .ok jump n
  | _ => False

/-- The call gives a value and leaves the machine `n`. -/
def Gives (p : Point σ) (v : Value) (n : Machine σ) : Prop :=
  match p.task with
  | .invoke callee arguments paren =>
    Task.run rounds p.depth (.invoke callee arguments paren) p.machine = .ok v n
  | _ => False

/-- At the point a loop is executed. -/
def IsLoop (p : Point σ) : Prop := ∃ s body, p.task = .exec s ∧ s.loopBody? = some body

/-- At the point a call is carried out. -/
def IsCall (p : Point σ) : Prop := ∃ callee arguments paren, p.task = .invoke callee arguments paren

/-- Going outward from a point, there is a loop before there is a call. -/
def InLoop : List (Point σ) → Prop
  | [] => False
  | q :: outer => q.IsLoop ∨ (¬ q.IsCall ∧ InLoop outer)

/-- Going outward from a point, there is a call. -/
def InFunction (outer : List (Point σ)) : Prop := ∃ q ∈ outer, q.IsCall

/-- The point `q` takes the jump that its part `p` has been left with, on the machine `n`. A loop
ends by `break`, and has its next round by `continue`. A call gives the value of `return`, or, if it
is a call of an initializer, the object that is set up. -/
inductive Takes (q p : Point σ) (n : Machine σ) : Jump → Prop where
  | breakLoop {line : Int} {loop body : Stmt σ.Mark} {scope : σ.Scope} (hq : q.task = .exec loop)
    (hbody : loop.loopBody? = some body) (hp : p.task = .exec body)
    (hends : q.Leaves rounds none (n.inScope scope)) : Takes q p n (.breakLoop line)
  | continueLoop {line : Int} {loop body : Stmt σ.Mark} {scope : σ.Scope} {r : Nat}
    (hq : q.task = .exec loop) (hbody : loop.loopBody? = some body) (hp : p.task = .exec body)
    (hr : r < rounds) (hnext : Task.run rounds q.depth (.exec loop) q.machine =
      (loop.nextRound r).run (Task.run rounds p.depth) (n.inScope scope)) :
    Takes q p n (.continueLoop line)
  | returnValue {line : Int} {v : Value} {ref : Ref .function} {arguments : List Value}
    {paren : Token} {f : Closure σ} {inner scope : σ.Scope}
    (hq : q.task = .invoke (.function ref) arguments paren)
    (hf : f = q.machine.store.functions.get ref) (hp : p.task = .block inner f.decl.body)
    (hinit : f.isInitializer = false) (hgives : q.Gives rounds v (n.inScope scope)) :
    Takes q p n (.returnValue line v)
  | initializer {line : Int} {v object : Value} {ref : Ref .function} {arguments : List Value}
    {paren : Token} {f : Closure σ} {inner scope : σ.Scope}
    (hq : q.task = .invoke (.function ref) arguments paren)
    (hf : f = q.machine.store.functions.get ref) (hp : p.task = .block inner f.decl.body)
    (hinit : f.isInitializer = true) (hobject : σ.receiver n.store.memory f.scope = .ok object)
    (hgives : q.Gives rounds object (n.inScope scope)) : Takes q p n (.returnValue line v)
  | instantiate {line : Int} {v : Value} {cls : Ref .cls} {object : Ref .object}
    {arguments : List Value} {paren : Token} {method : Closure σ} {inner scope : σ.Scope}
    (hq : q.task = .invoke (.cls cls) arguments paren)
    (hmethod : q.machine.store.method? cls initializerName = some method)
    (hp : p.task = .block inner method.decl.body)
    (hgives : q.Gives rounds (.object object) (n.inScope scope)) :
    Takes q p n (.returnValue line v)

end Point

/-- Going outward from the point `p`, which has been left with the jump on the machine `n`, each
point is a part of the next one and hands the jump on, until one takes it. Loops hand on only
`return`. -/
inductive Jump.Taken (rounds : Nat) (jump : Jump) (n : Machine σ) :
    Point σ → List (Point σ) → Prop where
  | here {p q : Point σ} {outer : List (Point σ)} (h : q.Takes rounds p n jump) :
    Taken rounds jump n p (q :: outer)
  | further {p q : Point σ} {outer : List (Point σ)} {scope : σ.Scope}
    (hpart : q.task.Part p.task) (hloop : q.IsLoop → ∃ line v, jump = .returnValue line v)
    (hleaves : q.Leaves rounds (some jump) (n.inScope scope))
    (h : Taken rounds jump n q outer) : Taken rounds jump n p (q :: outer)

/-- The way from a program that is run on the machine `m` in to a point: the point and those that it
is carried out for, innermost first. -/
inductive Program.Trail (rounds depth : Nat) (program : Program σ.Mark) (m : Machine σ) :
    List (Point σ) → Prop where
  | start {t : Task σ} {n : Machine σ}
    (h : (Program.body program).Asks (Task.run rounds depth) m t n) :
    Trail rounds depth program m [⟨depth, t, n⟩]
  | step {p q : Point σ} {outer : List (Point σ)} (h : Trail rounds depth program m (q :: outer))
    (hp : q.Calls rounds p) : Trail rounds depth program m (p :: q :: outer)

/-! ### One step outward -/

section

variable {rounds depth : Nat} {m n k : Machine σ} {jump : Jump}

theorem Task.run_of_ok {t : Task σ} {a : t.Answer}
    (h : (t.body rounds depth).run (Task.run rounds depth) (t.enter m) = .ok a n) :
    Task.run rounds (depth + 1) t m = .ok a (t.leave m.scope n) := by
  simp only [Task.run, h]

theorem Task.run_of_error {t : Task σ} {why : Halt}
    (h : (t.body rounds depth).run (Task.run rounds depth) (t.enter m) = .error why n) :
    Task.run rounds (depth + 1) t m = .error (t.blame why) (t.leave m.scope n) := by
  simp only [Task.run, h]

/-- A task that comes to its end has a level of the stack, and its body comes to its end. -/
theorem Task.exists_of_run_ok {t : Task σ} {a : t.Answer}
    (h : Task.run rounds depth t m = .ok a n) :
    ∃ d k, depth = d + 1 ∧ (t.body rounds d).run (Task.run rounds d) (t.enter m) = .ok a k ∧
      n = t.leave m.scope k := by
  cases depth with
  | zero => cases h
  | succ d =>
    cases hbody : (t.body rounds d).run (Task.run rounds d) (t.enter m) with
    | ok a' k =>
      rw [Task.run_of_ok hbody] at h
      cases h
      exact ⟨d, k, rfl, hbody, rfl⟩
    | error why k =>
      rw [Task.run_of_error hbody] at h
      cases h

theorem Task.run_exec {s : Stmt σ.Mark} :
    Task.run rounds (depth + 1) (.exec s) m =
      (s.body rounds depth).run (Task.run rounds depth) m := by
  cases h : (s.body rounds depth).run (Task.run rounds depth) m with
  | ok jump n => exact Task.run_of_ok (t := .exec s) h
  | error why n => exact Task.run_of_error (t := .exec s) h

theorem Dialogue.run_perform {α : Type} {self : (t : Task σ) → Eval σ t.Answer} (x : Eval σ α) :
    (perform x).run self = x :=
  bind_pure x

theorem Dialogue.run_perform_bind {α β : Type} {self : (t : Task σ) → Eval σ t.Answer}
    (x : Eval σ α) (f : α → Dialogue σ β) :
    (perform x >>= f).run self = x >>= fun a => (f a).run self :=
  rfl

variable (rounds) in
/-- The point does not halt for a defect, nor for a jump that nothing takes. -/
def Point.Sound (p : Point σ) : Prop :=
  ∀ why n, Task.run rounds p.depth p.task p.machine = .error why n → why.Accounted False

/-- What a call does with the jump that the body of the function has been left with. -/
theorem Closure.result_of_accounted {f : Closure σ} {paren : Token}
    (h : ∀ why n, f.result (some jump) k = .error why n →
      (Eval.blame paren why).Accounted False) :
    ∃ line v, jump = .returnValue line v ∧
      ((f.isInitializer = false ∧ f.result (some jump) k = .ok v k) ∨
        f.isInitializer = true ∧ ∃ object, σ.receiver k.store.memory f.scope = .ok object ∧
          f.result (some jump) k = .ok object k) := by
  -- Any other jump would halt the call, for a cause that soundness rules out.
  cases jump with
  | breakLoop line => exact ((h _ k rfl).2 rfl).elim
  | continueLoop line => exact ((h _ k rfl).2 rfl).elim
  | returnValue line v =>
    refine ⟨line, v, rfl, ?_⟩
    cases hinit : f.isInitializer with
    | false =>
      refine .inl ⟨rfl, ?_⟩
      simp only [Closure.result, hinit]
      rfl
    | true =>
      have hresult : f.result (some (.returnValue line v)) k =
          Eval.expect (σ.receiver k.store.memory f.scope) k := by
        simp only [Closure.result, hinit]
        rfl
      rw [hresult] at h ⊢
      cases hobject : σ.receiver k.store.memory f.scope with
      | ok object => exact .inr ⟨rfl, object, rfl, rfl⟩
      | error d =>
        rw [hobject] at h
        exact (h _ k rfl).elim

theorem Point.isStmt_of_leaves {p : Point σ} {left : Option Jump} (h : p.Leaves rounds left n) :
    p.task.isStmt = true := by
  unfold Leaves at h
  split at h
  · simp only [*, Task.isStmt]
  · simp only [*, Task.isStmt]
  · exact h.elim

theorem Point.not_isLoop_exec {s : Stmt σ.Mark} (hs : s.loopBody? = none) :
    ¬ IsLoop ⟨depth, .exec s, m⟩ := by
  rintro ⟨_, body, htask, hbody⟩
  cases htask
  rw [hs] at hbody
  cases hbody

theorem Point.not_isLoop_block {inner : σ.Scope} {body : List (Stmt σ.Mark)} :
    ¬ IsLoop ⟨depth, .block inner body, m⟩ := by
  rintro ⟨_, _, htask, -⟩
  cases htask

/-- **One step outward:** a point takes the jump that a part of it has been left with, or is left
with it too. -/
theorem Point.Calls.takes_or_leaves {p q : Point σ} (h : q.Calls rounds p)
    (hp : p.Leaves rounds (some jump) n) (hq : q.Sound rounds) :
    q.Takes rounds p n jump ∨
      (q.task.Part p.task ∧ (q.IsLoop → ∃ line v, jump = .returnValue line v) ∧
        ∃ scope, q.Leaves rounds (some jump) (n.inScope scope)) := by
  have ht := isStmt_of_leaves hp
  obtain ⟨depth, t, k⟩ := p
  obtain ⟨depth', u, m⟩ := q
  obtain ⟨rfl, hasks⟩ : depth' = depth + 1 ∧ _ := h
  obtain ⟨next, hnext⟩ := hasks.exists_resumes
  have hgoes : Task.GoesOn rounds (u.enter m) u t next := Task.resumes_body ht hnext
  -- Blocks and branches pass on what they get. Loops and calls are where jumps are taken.
  cases hgoes with
  | block =>
    exact .inr ⟨.block, fun h => (not_isLoop_exec rfl h).elim, n.scope,
      Task.run_of_ok (hnext.run hp)⟩
  | yes =>
    exact .inr ⟨.yes, fun h => (not_isLoop_exec rfl h).elim, n.scope,
      Task.run_of_ok (hnext.run hp)⟩
  | no =>
    exact .inr ⟨.no, fun h => (not_isLoop_exec rfl h).elim, n.scope,
      Task.run_of_ok (hnext.run hp)⟩
  | statement hs hhands =>
    have hrun := hnext.run hp
    rw [hhands] at hrun
    exact .inr ⟨.statement hs, fun h => (not_isLoop_block h).elim, m.scope, Task.run_of_ok hrun⟩
  | loop hbody hr hrepeats =>
    have hrun := hnext.run hp
    cases jump with
    | breakLoop line =>
      rw [hrepeats.breakLoop] at hrun
      have hends : Leaves rounds ⟨depth + 1, .exec _, m⟩ none (n.inScope n.scope) :=
        Task.run_of_ok hrun
      exact .inl (.breakLoop rfl hbody rfl hends)
    | continueLoop line =>
      rw [hrepeats.continueLoop] at hrun
      exact .inl (.continueLoop rfl hbody rfl hr (Task.run_exec.trans hrun))
    | returnValue line v =>
      rw [hrepeats.returnValue] at hrun
      exact .inr ⟨.loop hbody, fun _ => ⟨line, v, rfl⟩, n.scope, Task.run_of_ok hrun⟩
  | @function ref arguments paren inner f hf =>
    have hrun := hnext.run hp
    rw [Dialogue.run_perform] at hrun
    have hsound (why : Halt) (k : Machine σ) (hwhy : f.result (some jump) n = .error why k) :
        (Eval.blame paren why).Accounted False :=
      hq _ _ (Task.run_of_error (hrun.trans hwhy))
    obtain ⟨line, v, rfl, ⟨hinit, hv⟩ | ⟨hinit, object, hobject, hv⟩⟩ :=
      Closure.result_of_accounted hsound
    · have hgives : Gives rounds ⟨depth + 1, .invoke (.function ref) arguments paren, m⟩ v
          (n.inScope n.scope) := Task.run_of_ok (hrun.trans hv)
      exact .inl (.returnValue rfl hf rfl hinit hgives)
    · have hgives : Gives rounds ⟨depth + 1, .invoke (.function ref) arguments paren, m⟩ object
          (n.inScope n.scope) := Task.run_of_ok (hrun.trans hv)
      exact .inl (.initializer rfl hf rfl hinit hobject hgives)
  | @initializer cls object arguments paren inner f method hmethod hf =>
    have hrun := hnext.run hp
    rw [Dialogue.run_perform_bind] at hrun
    have hsound (why : Halt) (k : Machine σ) (hwhy : f.result (some jump) n = .error why k) :
        (Eval.blame paren why).Accounted False :=
      hq _ _ (Task.run_of_error (hrun.trans (Eval.bind_of_error hwhy _)))
    have hgives {v : Value} (hv : f.result (some jump) n = .ok v n) :
        Gives rounds ⟨depth + 1, .invoke (.cls cls) arguments paren, m⟩ (.object object)
          (n.inScope n.scope) :=
      Task.run_of_ok (hrun.trans (Eval.bind_of_ok hv _))
    have hbody : Task.block (σ := σ) inner f.decl.body = .block inner method.decl.body := by rw [hf]
    -- Whatever the initializer returns, the object is what the class gives.
    obtain ⟨line, v, rfl, ⟨-, hv⟩ | ⟨-, object', -, hv⟩⟩ := Closure.result_of_accounted hsound
    · exact .inl (.instantiate rfl hmethod hbody (hgives hv))
    · exact .inl (.instantiate rfl hmethod hbody (hgives hv))

/-- What is executed at a point is a part of what is executed at the one around it, or the body of
the function that is called there. -/
theorem Point.Calls.part_or_body {p q : Point σ} (h : q.Calls rounds p)
    (hp : p.task.isStmt = true) : q.task.Part p.task ∨ q.task.Body q.machine p.task := by
  obtain ⟨depth, t, k⟩ := p
  obtain ⟨depth', u, m⟩ := q
  obtain ⟨next, hnext⟩ := h.2.exists_resumes
  have hgoes : Task.GoesOn rounds (u.enter m) u t next := Task.resumes_body hp hnext
  cases hgoes with
  | block => exact .inl .block
  | yes => exact .inl .yes
  | no => exact .inl .no
  | loop hbody => exact .inl (.loop hbody)
  | statement hs => exact .inl (.statement hs)
  | function hf => exact .inr (hf ▸ .function)
  | initializer hmethod hf => exact .inr (hf ▸ .initializer hmethod)

/-! ### All the way -/

theorem Task.Part.not_isCall {p q : Point σ} (h : q.task.Part p.task) : ¬ q.IsCall := by
  rintro ⟨callee, arguments, paren, hq⟩
  rw [hq] at h
  cases h

namespace Jump.Taken

variable {p : Point σ} {outer : List (Point σ)}

/-- Which scope is current does not matter. -/
theorem of_inScope {scope : σ.Scope} (h : jump.Taken rounds (n.inScope scope) p outer) :
    jump.Taken rounds n p outer := by
  induction h with
  | here h =>
    refine .here ?_
    cases h with
    | breakLoop hq hbody hp hends => exact .breakLoop hq hbody hp hends
    | continueLoop hq hbody hp hr hnext => exact .continueLoop hq hbody hp hr hnext
    | returnValue hq hf hp hinit hgives => exact .returnValue hq hf hp hinit hgives
    | initializer hq hf hp hinit hobject hgives =>
      exact .initializer hq hf hp hinit hobject hgives
    | instantiate hq hmethod hp hgives => exact .instantiate hq hmethod hp hgives
  | further hpart hloop hleaves _ ih => exact .further hpart hloop hleaves ih

/-- What takes `break` or `continue` is a loop of the same function. -/
theorem inLoop (h : jump.Taken rounds n p outer) (hjump : ∀ line v, jump ≠ .returnValue line v) :
    Point.InLoop outer := by
  induction h with
  | here h =>
    cases h with
    | breakLoop hq hbody => exact .inl ⟨_, _, hq, hbody⟩
    | continueLoop hq hbody => exact .inl ⟨_, _, hq, hbody⟩
    | returnValue | initializer | instantiate => exact (hjump _ _ rfl).elim
  | further hpart _ _ _ ih => exact .inr ⟨hpart.not_isCall, ih⟩

/-- What takes `return` is a call. -/
theorem inFunction {line : Int} {v : Value} (h : (returnValue line v).Taken rounds n p outer) :
    Point.InFunction outer := by
  generalize hjump : returnValue line v = jump at h
  induction h with
  | here h =>
    refine ⟨_, List.mem_cons_self, ?_⟩
    cases h with
    | breakLoop | continueLoop => cases hjump
    | returnValue hq => exact ⟨_, _, _, hq⟩
    | initializer hq => exact ⟨_, _, _, hq⟩
    | instantiate hq => exact ⟨_, _, _, hq⟩
  | further _ _ _ _ ih =>
    obtain ⟨q, hq, hcall⟩ := ih
    exact ⟨q, List.mem_cons_of_mem _ hq, hcall⟩

end Jump.Taken

end

/-! ### Programs about which nothing was reported -/

namespace Program

variable {rounds depth : Nat} {program : Program Hops} {m n : Machine .bound} {p : Point .bound}
  {outer : List (Point .bound)} {jump : Jump}

theorem Trail.visits {program : Program σ.Mark} {m : Machine σ} {p : Point σ}
    {outer : List (Point σ)} (h : Trail rounds depth program m (p :: outer)) :
    program.Visits rounds depth m p := by
  induction outer generalizing p with
  | nil =>
    cases h with
    | start hasks => exact ⟨_, _, hasks, .refl⟩
  | cons q outer ih =>
    cases h with
    | step h hp =>
      obtain ⟨t, n, hasks, hreaches⟩ := ih h
      exact ⟨t, n, hasks, hreaches.tail hp⟩

/-- What a run of the program comes to is accounted for. -/
theorem sound_of_visits (hm : m.Ready)
    (hprogram : Stmt.AllBoundAt (.plain : Marking Unit) (fun _ => True) (.top ()) program)
    (hp : program.Visits rounds depth m p) : p.Sound rounds := by
  obtain ⟨site, hbefore⟩ :=
    (soundness_kept rounds).before_of_visits (Program.safe_body hm hprogram) hp
  intro why n hwhy
  have hhalts := (((soundness_kept rounds).run p.depth hbefore).of_error hwhy).2
  have hno : (∃ i : Unit, ¬ True) = False := by simp
  exact hno ▸ hhalts

/-- No jump leaves the program. -/
theorem not_leaves_of_asks (hm : m.Ready)
    (hprogram : Stmt.AllBoundAt (.plain : Marking Unit) (fun _ => True) (.top ()) program)
    (hasks : (Program.body program).Asks (Task.run rounds depth) m p.task p.machine)
    (hdepth : p.depth = depth) : ¬ p.Leaves rounds (some jump) n := by
  intro hp
  have ht := Point.isStmt_of_leaves hp
  obtain ⟨_, t, k⟩ := p
  subst hdepth
  obtain ⟨next, hnext⟩ := hasks.exists_resumes
  cases Program.resumes_body ht hnext with
  | statement hfault =>
    obtain ⟨rest, hrest⟩ := hfault jump
    have hrun := hnext.run hp
    rw [hrest] at hrun
    have haccounted := (((soundness_kept rounds).program_run _
      (Program.safe_body hm hprogram)).of_error hrun).2
    have hno : (∃ i : Unit, ¬ True) = False := by simp
    rw [hno] at haccounted
    cases jump <;> exact haccounted.2 rfl

/-- **Jumps are taken:** by induction on the trail, since each point takes the jump or is left with
it, and no jump leaves the program. -/
theorem Trail.taken (hm : m.Ready)
    (hprogram : Stmt.AllBoundAt (.plain : Marking Unit) (fun _ => True) (.top ()) program)
    (h : Trail rounds depth program m (p :: outer)) (hp : p.Leaves rounds (some jump) n) :
    jump.Taken rounds n p outer := by
  induction outer generalizing p n with
  | nil =>
    cases h with
    | start hasks => exact (not_leaves_of_asks hm hprogram hasks rfl hp).elim
  | cons q outer ih =>
    cases h with
    | step h hcalls =>
      have hsound := sound_of_visits hm hprogram h.visits
      obtain htakes | ⟨hpart, hloop, scope, hleaves⟩ := hcalls.takes_or_leaves hp hsound
      · exact .here htakes
      · exact .further hpart hloop hleaves (ih h hleaves).of_inScope

end Program

/-! ### Sessions -/

/-- Whatever is executed at the point, inside of the others, jumps do not get out of where they
belong. -/
structure Point.Confines (rounds : Nat) (p : Point σ) (outer : List (Point σ)) : Prop where
  /-- Around statements are those that they are a part of, out to the body of the function. -/
  within : p.task.isStmt = true → ∀ q, outer.head? = some q →
    q.task.Part p.task ∨ q.task.Body q.machine p.task
  /-- Without a loop around in the same function, there is no `break` and no `continue`. -/
  loop : ∀ jump n, p.Leaves rounds (some jump) n → ¬ InLoop outer → ∃ line v,
    jump = .returnValue line v
  /-- Outside of all functions, there is no `return`. -/
  function : ∀ jump n, p.Leaves rounds (some jump) n → ¬ InFunction outer → ∀ line v,
    jump ≠ .returnValue line v
  taken : ∀ jump n, p.Leaves rounds (some jump) n → jump.Taken rounds n p outer

theorem Program.Trail.confines {rounds depth : Nat} {program : Program Hops} {m : Machine .bound}
    {p : Point .bound} {outer : List (Point .bound)} (hm : m.Ready)
    (hprogram : Stmt.AllBoundAt (.plain : Marking Unit) (fun _ => True) (.top ()) program)
    (h : Trail rounds depth program m (p :: outer)) : p.Confines rounds outer where
  within hp q hq := by
    cases h with
    | start => cases hq
    | step h hcalls =>
      cases hq
      exact hcalls.part_or_body hp
  loop jump n hp hout := by
    by_contra hjump
    exact hout ((h.taken hm hprogram hp).inLoop fun line v hj => hjump ⟨line, v, hj⟩)
  function jump n hp hout line v hjump :=
    hout (hjump ▸ h.taken hm hprogram hp).inFunction
  taken jump n hp := h.taken hm hprogram hp

/-- **Jumps stay where they belong.** A text about which nothing is reported is run after any
others. Wherever its run comes to, a jump that statements have been left with is taken by the
innermost loop around, or, if it is `return`, by the call of the function, which has its value. So
none of the faults for a jump that nothing takes is reported. -/
theorem Session.jumps_are_taken (limits : Limits) (natives : List Native) (input : List String)
    (output : Option String) (tracing : Bool) (clock : Clock) (earlier : List String)
    {text : String} (htext : Accepts text) :
    let m := leaves (run limits) earlier (.start natives input output tracing clock)
    let program := (Program.resolve (Source.ofText text).program).result
    ∃ errors, run limits text m = runBound limits program (m.cleared errors) ∧
      (∀ p outer, Program.Trail limits.rounds limits.depth program (m.cleared errors) (p :: outer) →
        p.Confines limits.rounds outer) ∧
      ∀ r n, run limits text m = .ok r n → ∀ f calls, r.outcome = .faulted f calls →
        f.cause ≠ .returnAtTopLevel ∧ ∀ jump, f.cause ≠ .outsideLoop jump := by
  intro m program
  have hm : m.Ready := ready_leaves limits earlier (ready_start natives input output tracing clock)
  have hprogram : Stmt.AllBoundAt (.plain : Marking Unit) (fun _ => True) (.top ()) program :=
    Program.boundAt_resolveWith (Source.proper_ofText text) fun _ => htext.2
  obtain ⟨errors, hrun⟩ := run_of_accepted limits htext m
  have hcleared : (m.cleared errors).Ready := ⟨hm.fits, hm.chain⟩
  refine ⟨errors, hrun, fun p outer h => h.confines hcleared hprogram, ?_⟩
  intro r n hr f calls hf
  obtain ⟨-, hstray, -⟩ := ((run_ends limits text hm).of_ok hr).1 f calls hf
  exact ⟨fun h => by simp [h, Cause.isStray] at hstray,
    fun jump h => by simp [h, Cause.isStray] at hstray⟩

/-- A loop takes the `break` in its body. -/
theorem Session.jumps_are_taken_break :
    Accepts "while (true) break;" ∧ ∃ (p q : Point .bound) (m n : Machine .bound),
      Program.Trail 1 3 (Program.resolve (Source.ofText "while (true) break;").program).result m
        [p, q] ∧
      p.Leaves 1 (some (.breakLoop 1)) n ∧ (Jump.breakLoop 1).Taken 1 n p [q] := by
  have haccepts : Accepts "while (true) break;" := by decide +kernel
  obtain ⟨errors, -, hconfines, -⟩ := jumps_are_taken ⟨3, 1⟩ [] [] none false ⟨0, []⟩ [] haccepts
  refine ⟨haccepts, ?_⟩
  let m : Machine .bound := (Machine.start [] [] none false ⟨0, []⟩).cleared errors
  let loop : Stmt Hops := .whileLoop (.constant (.bool true)) (.breakLoop 1)
  have hprogram : (Program.resolve (Source.ofText "while (true) break;").program).result =
      [loop] := by
    with_unfolding_all rfl
  let q : Point .bound := ⟨3, .exec loop, m⟩
  let p : Point .bound := ⟨2, .exec (.breakLoop 1), m⟩
  have hstart : Program.Trail 1 3
      (Program.resolve (Source.ofText "while (true) break;").program).result m [q] := by
    rw [hprogram]
    exact .start (.inl ⟨rfl, rfl⟩)
  have htrail := hstart.step (p := p) ⟨rfl, .inr (.inl ⟨rfl, rfl⟩)⟩
  have hleaves : p.Leaves 1 (some (.breakLoop 1)) m := rfl
  exact ⟨p, q, m, m, htrail, hleaves, (hconfines p [q] htrail).taken _ _ hleaves⟩

end LoxLang
