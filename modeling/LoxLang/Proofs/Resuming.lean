import LoxLang.Proofs.Dialogue

/-!
# How dialogues go on

A dialogue that has asked for a task goes on by the answer (`Dialogue.Resumes`). Here it is told for
the dialogues of a run how they go on after a statement or a block, and in particular what they do
when it has been left with a jump (`Task.resumes_body`). Expressions do not ask for statements;
statements hand jumps on if they are not loops; a call looks at the jump that the body of the
function has been left with; and for a program any jump is a fault (`Program.resumes_body`).
-/

namespace LoxLang

variable {σ : Scoping} {α β γ : Type}

/-- The task is to execute statements. -/
def Task.isStmt : Task σ → Bool
  | block .. | exec _ => true
  | _ => false

namespace Dialogue

variable (self : (t : Task σ) → Eval σ t.Answer)

/-- Carried out on the machine `m`, the dialogue asks for the task `t` when the machine is `n`, and
goes on with `next`. -/
inductive Resumes : Dialogue σ α → Machine σ → (t : Task σ) → (t.Answer → Dialogue σ α) →
    Machine σ → Prop where
  | here {t : Task σ} {next : t.Answer → Dialogue σ α} {m : Machine σ} :
    Resumes (ask t next) m t next m
  | act {β : Type} {x : Eval σ β} {f : β → Dialogue σ α} {m m' n : Machine σ} {b : β} {t : Task σ}
    {next : t.Answer → Dialogue σ α} (hx : x m = .ok b m') (h : Resumes (f b) m' t next n) :
    Resumes (act x f) m t next n
  | ask {u : Task σ} {f : u.Answer → Dialogue σ α} {m m' n : Machine σ} {a : u.Answer}
    {t : Task σ} {next : t.Answer → Dialogue σ α} (hu : self u m = .ok a m')
    (h : Resumes (f a) m' t next n) : Resumes (ask u f) m t next n

/-- The dialogue does not ask for statements. -/
def ValuesOnly (p : Dialogue σ α) : Prop :=
  ∀ m t next n, p.Resumes self m t next n → t.isStmt = false

variable {self} {p : Dialogue σ α} {f : α → Dialogue σ β} {m n : Machine σ} {t : Task σ}

/-- What is asked for is followed by something. -/
theorem Asks.exists_resumes (h : p.Asks self m t n) : ∃ next, p.Resumes self m t next n := by
  induction p generalizing m with
  | done a => exact h.elim
  | act x f ih =>
    unfold Asks at h
    cases hx : x m with
    | ok b m' =>
      rw [hx] at h
      obtain ⟨next, hnext⟩ := ih b h
      exact ⟨next, .act hx hnext⟩
    | error why m' =>
      rw [hx] at h
      exact h.elim
  | ask u f ih =>
    unfold Asks at h
    obtain ⟨rfl, rfl⟩ | h := h
    · exact ⟨f, .here⟩
    · cases hu : self u m with
      | ok a m' =>
        rw [hu] at h
        obtain ⟨next, hnext⟩ := ih a h
        exact ⟨next, .ask hu hnext⟩
      | error why m' =>
        rw [hu] at h
        exact h.elim

/-- The rest of a dialogue is what it does after an answer. -/
theorem Resumes.run {next : t.Answer → Dialogue σ α} (h : p.Resumes self m t next n)
    {a : t.Answer} {k : Machine σ} (ha : self t n = .ok a k) :
    p.run self m = (next a).run self k := by
  induction h with
  | here => exact Eval.bind_of_ok ha _
  | act hx _ ih => exact (Eval.bind_of_ok hx _).trans (ih ha)
  | ask hu _ ih => exact (Eval.bind_of_ok hu _).trans (ih ha)

theorem resumes_bind {next : t.Answer → Dialogue σ β} (h : (p >>= f).Resumes self m t next n) :
    (∃ first, p.Resumes self m t first n ∧ next = fun a => first a >>= f) ∨
      ∃ a m', p.run self m = .ok a m' ∧ (f a).Resumes self m' t next n := by
  induction p generalizing m with
  | done a => exact .inr ⟨a, m, rfl, h⟩
  | act x g ih =>
    cases h with
    | act hx h =>
      obtain ⟨first, hfirst, hnext⟩ | ⟨a, m', ha, h⟩ := ih _ h
      · exact .inl ⟨first, .act hx hfirst, hnext⟩
      · exact .inr ⟨a, m', (Eval.bind_of_ok hx _).trans ha, h⟩
  | ask u g ih =>
    cases h with
    | here => exact .inl ⟨g, .here, rfl⟩
    | ask hu h =>
      obtain ⟨first, hfirst, hnext⟩ | ⟨a, m', ha, h⟩ := ih _ h
      · exact .inl ⟨first, .ask hu hfirst, hnext⟩
      · exact .inr ⟨a, m', (Eval.bind_of_ok hu _).trans ha, h⟩

/-! ### Dialogues about values -/

theorem ValuesOnly.bind (hp : p.ValuesOnly self) (hf : ∀ a, (f a).ValuesOnly self) :
    (p >>= f).ValuesOnly self := by
  intro m t next n h
  obtain ⟨first, hfirst, -⟩ | ⟨a, m', -, h⟩ := resumes_bind h
  · exact hp m t first n hfirst
  · exact hf a m' t next n h

/-- Statements are asked for only after what is about values. -/
theorem ValuesOnly.exists_resumes (hp : p.ValuesOnly self) (ht : t.isStmt = true)
    {next : t.Answer → Dialogue σ β} (h : (p >>= f).Resumes self m t next n) :
    ∃ a m', p.run self m = .ok a m' ∧ (f a).Resumes self m' t next n := by
  obtain ⟨first, hfirst, -⟩ | h := resumes_bind h
  · have hvalue := hp m t first n hfirst
    rw [ht] at hvalue
    cases hvalue
  · exact h

theorem valuesOnly_pure {a : α} : (pure a : Dialogue σ α).ValuesOnly self := by
  intro m t next n h
  cases h

theorem valuesOnly_perform {x : Eval σ α} : (perform x).ValuesOnly self := by
  intro m t next n h
  cases h with
  | act _ h => cases h

theorem valuesOnly_ask (ht : t.isStmt = false) : (ask t done).ValuesOnly self := by
  intro m t' next n h
  cases h with
  | here => exact ht
  | ask _ h => cases h

theorem valuesOnly_eval {e : Expr σ.Mark} : (eval e).ValuesOnly self := valuesOnly_ask rfl

theorem valuesOnly_mapM {l : List γ} {g : γ → Dialogue σ α} (hg : ∀ c, (g c).ValuesOnly self) :
    (l.mapM g).ValuesOnly self := by
  induction l with
  | nil => exact valuesOnly_pure
  | cons c l ih =>
    rw [List.mapM_cons]
    exact (hg c).bind fun _ => ih.bind fun _ => valuesOnly_pure

theorem valuesOnly_foldlM {l : List γ} {g : α → γ → Dialogue σ α}
    (hg : ∀ a c, (g a c).ValuesOnly self) (a : α) : (l.foldlM g a).ValuesOnly self := by
  induction l generalizing a with
  | nil => exact valuesOnly_pure
  | cons c l ih =>
    rw [List.foldlM_cons]
    exact (hg a c).bind ih

end Dialogue

open Dialogue

variable {self : (t : Task σ) → Eval σ t.Answer} {m n : Machine σ}

theorem valuesOnly_evalOption {e : Option (Expr σ.Mark)} : (evalOption e).ValuesOnly self := by
  cases e with
  | none => exact valuesOnly_pure
  | some e => exact valuesOnly_eval

/-- Expressions are evaluated without executing statements of their own. -/
theorem Expr.valuesOnly_body (depth : Nat) (e : Expr σ.Mark) : (e.body depth).ValuesOnly self := by
  cases e with
  | constant value => exact valuesOnly_pure
  | group inner => exact valuesOnly_eval
  | unary op line operand => exact valuesOnly_eval.bind fun _ => valuesOnly_perform
  | binary left op line right =>
    exact valuesOnly_eval.bind fun _ => valuesOnly_eval.bind fun _ => valuesOnly_perform
  | logical left op line right =>
    refine valuesOnly_eval.bind fun v => ?_
    split
    · exact valuesOnly_pure
    · exact valuesOnly_eval
  | var name mark => exact valuesOnly_perform
  | assign name value mark =>
    exact valuesOnly_eval.bind fun _ => valuesOnly_perform.bind fun _ => valuesOnly_pure
  | call callee arguments line =>
    refine valuesOnly_eval.bind fun _ => (valuesOnly_mapM fun _ => valuesOnly_eval).bind fun _ => ?_
    exact valuesOnly_ask rfl
  | list elements line =>
    exact (valuesOnly_mapM fun _ => valuesOnly_eval).bind fun _ => valuesOnly_perform
  | map entries line =>
    refine (valuesOnly_foldlM (fun written (key, value) => ?_) _).bind fun _ => valuesOnly_perform
    exact valuesOnly_eval.bind fun _ => valuesOnly_eval.bind fun _ => valuesOnly_perform
  | index container position line =>
    exact valuesOnly_eval.bind fun _ => valuesOnly_eval.bind fun _ => valuesOnly_perform
  | setIndex container position value line =>
    refine valuesOnly_eval.bind fun _ => valuesOnly_eval.bind fun _ => valuesOnly_eval.bind ?_
    exact fun _ => valuesOnly_perform.bind fun _ => valuesOnly_pure
  | get object name =>
    refine valuesOnly_eval.bind fun v => ?_
    split <;> exact valuesOnly_perform
  | set object name value =>
    refine valuesOnly_eval.bind fun v => ?_
    split
    · exact valuesOnly_eval.bind fun _ => valuesOnly_perform.bind fun _ => valuesOnly_pure
    · exact valuesOnly_perform
  | thisRef line mark => exact valuesOnly_perform
  | superRef line method mark => exact valuesOnly_perform

theorem valuesOnly_callBody {callee : Value} {arguments : List Value} {paren : Token} :
    (callBody callee arguments paren).ValuesOnly self := by
  refine valuesOnly_perform.bind fun _ => (valuesOnly_ask rfl).bind fun _ => ?_
  exact valuesOnly_perform.bind fun _ => valuesOnly_pure

/-! ### Statements -/

/-- The body of a loop. -/
def Stmt.loopBody? : Stmt σ.Mark → Option (Stmt σ.Mark)
  | .whileLoop _ body => some body
  | .doWhile body _ => some body
  | _ => none

/-- What a loop does when its body has been left by `continue`, with so many rounds to go. -/
def Stmt.nextRound (rounds : Nat) : Stmt σ.Mark → Dialogue σ (Option Jump)
  | .whileLoop condition body => whileRounds condition body rounds
  | .doWhile body condition => do
    if (← Dialogue.eval condition).isTruthy then doWhileRounds body condition rounds
    else return none
  | _ => return none

/-- How a loop goes on after its body, with so many rounds to go. -/
structure Stmt.Repeats (loop : Stmt σ.Mark) (rounds : Nat)
    (next : Option Jump → Dialogue σ (Option Jump)) : Prop where
  breakLoop : ∀ line, next (some (.breakLoop line)) = done none
  continueLoop : ∀ line, next (some (.continueLoop line)) = loop.nextRound rounds
  returnValue : ∀ line v, next (some (.returnValue line v)) = done (some (.returnValue line v))

/-- How the task `u`, which is carried out on the machine `m`, goes on after the statements `t` that
it asks for. -/
inductive Task.GoesOn (rounds : Nat) (m : Machine σ) :
    (u t : Task σ) → (t.Answer → Dialogue σ u.Answer) → Prop where
  | block {inner : σ.Scope} {body : List (Stmt σ.Mark)} :
    GoesOn rounds m (.exec (.block body)) (.block inner body) done
  | yes {condition : Expr σ.Mark} {yes : Stmt σ.Mark} {no : Option (Stmt σ.Mark)} :
    GoesOn rounds m (.exec (.branch condition yes no)) (.exec yes) done
  | no {condition : Expr σ.Mark} {yes no : Stmt σ.Mark} :
    GoesOn rounds m (.exec (.branch condition yes (some no))) (.exec no) done
  | loop {loop body : Stmt σ.Mark} {r : Nat} {next : Option Jump → Dialogue σ (Option Jump)}
    (hbody : loop.loopBody? = some body) (hr : r < rounds) (hnext : loop.Repeats r next) :
    GoesOn rounds m (.exec loop) (.exec body) next
  | statement {inner : σ.Scope} {body : List (Stmt σ.Mark)} {s : Stmt σ.Mark}
    {next : Option Jump → Dialogue σ (Option Jump)} (hs : s ∈ body)
    (hnext : ∀ jump, next (some jump) = done (some jump)) :
    GoesOn rounds m (.block inner body) (.exec s) next
  | function {ref : Ref .function} {arguments : List Value} {paren : Token} {inner : σ.Scope}
    {f : Closure σ} (hf : f = m.store.functions.get ref) :
    GoesOn rounds m (.invoke (.function ref) arguments paren) (.block inner f.decl.body)
      fun jump => perform (f.result jump)
  | initializer {cls : Ref .cls} {object : Ref .object} {arguments : List Value} {paren : Token}
    {inner : σ.Scope} {f method : Closure σ}
    (hmethod : m.store.method? cls initializerName = some method) (hf : f.decl = method.decl) :
    GoesOn rounds m (.invoke (.cls cls) arguments paren) (.block inner f.decl.body)
      fun jump => do
        let _ ← perform (f.result jump)
        return .object object

section

variable {t : Task σ}

theorem resumes_whileRounds {condition : Expr σ.Mark} {body : Stmt σ.Mark} {rounds limit : Nat}
    {next : t.Answer → Dialogue σ (Option Jump)} (ht : t.isStmt = true)
    (h : (whileRounds condition body rounds).Resumes self m t next n) (hle : rounds ≤ limit)
    (k : Machine σ) : Task.GoesOn limit k (.exec (.whileLoop condition body)) t next := by
  induction rounds generalizing m with
  | zero => exact absurd (valuesOnly_perform _ _ _ _ h) (by simp [ht])
  | succ rounds ih =>
    obtain ⟨v, m', -, h⟩ := valuesOnly_eval.exists_resumes ht h
    split at h
    · obtain ⟨first, hfirst, rfl⟩ | ⟨jump, m'', -, h⟩ := resumes_bind h
      · cases hfirst with
        | here => exact .loop rfl hle ⟨fun _ => rfl, fun _ => rfl, fun _ _ => rfl⟩
        | ask _ h => cases h
      · split at h
        · cases h
        · cases h
        · exact ih h (Nat.le_of_succ_le hle)
    · cases h

theorem resumes_doWhileRounds {condition : Expr σ.Mark} {body : Stmt σ.Mark} {rounds limit : Nat}
    {next : t.Answer → Dialogue σ (Option Jump)} (ht : t.isStmt = true)
    (h : (doWhileRounds body condition rounds).Resumes self m t next n) (hle : rounds ≤ limit)
    (k : Machine σ) : Task.GoesOn limit k (.exec (.doWhile body condition)) t next := by
  induction rounds generalizing m with
  | zero => exact absurd (valuesOnly_perform _ _ _ _ h) (by simp [ht])
  | succ rounds ih =>
    obtain ⟨first, hfirst, rfl⟩ | ⟨jump, m', -, h⟩ := resumes_bind h
    · cases hfirst with
      | here => exact .loop rfl hle ⟨fun _ => rfl, fun _ => rfl, fun _ _ => rfl⟩
      | ask _ h => cases h
    · split at h
      · cases h
      · cases h
      · obtain ⟨v, m'', -, h⟩ := valuesOnly_eval.exists_resumes ht h
        split at h
        · exact ih h (Nat.le_of_succ_le hle)
        · cases h

theorem Stmt.resumes_body {rounds depth : Nat} {s : Stmt σ.Mark}
    {next : t.Answer → Dialogue σ (Option Jump)} (ht : t.isStmt = true)
    (h : (s.body rounds depth).Resumes self m t next n) (k : Machine σ) :
    Task.GoesOn rounds k (.exec s) t next := by
  -- Of the statements that are about values, none asks for a statement.
  have hvalues (hs : (s.body rounds depth).ValuesOnly self) :
      Task.GoesOn rounds k (.exec s) t next :=
    absurd (hs _ _ _ _ h) (by simp [ht])
  cases s with
  | expression value => exact hvalues (valuesOnly_eval.bind fun _ => valuesOnly_pure)
  | print value =>
    refine hvalues (valuesOnly_eval.bind fun _ => valuesOnly_perform.bind fun _ => ?_)
    exact valuesOnly_pure
  | var name initializer =>
    refine hvalues (valuesOnly_evalOption.bind fun _ => valuesOnly_perform.bind fun _ => ?_)
    exact valuesOnly_pure
  | block body =>
    obtain ⟨inner, m', -, h⟩ := valuesOnly_perform.exists_resumes ht h
    -- After the one statement that is asked for there is only the answer left.
    cases h with
    | here => exact .block
    | ask _ h => cases h
  | branch condition yes no =>
    obtain ⟨v, m', -, h⟩ := valuesOnly_eval.exists_resumes ht h
    split at h
    · cases h with
      | here => exact .yes
      | ask _ h => cases h
    · cases no with
      | none => cases h
      | some no => cases h with
        | here => exact .no
        | ask _ h => cases h
  | whileLoop condition body => exact resumes_whileRounds ht h (Nat.le_refl _) k
  | doWhile body condition => exact resumes_doWhileRounds ht h (Nat.le_refl _) k
  | breakLoop line => exact hvalues valuesOnly_pure
  | continueLoop line => exact hvalues valuesOnly_pure
  | returnValue line value => exact hvalues (valuesOnly_evalOption.bind fun _ => valuesOnly_pure)
  | function decl => exact hvalues (valuesOnly_perform.bind fun _ => valuesOnly_pure)
  | classDecl name superclass methods =>
    exact hvalues (valuesOnly_perform.bind fun _ => valuesOnly_pure)
  | marker line marker => exact hvalues (valuesOnly_perform.bind fun _ => valuesOnly_pure)

theorem Stmt.resumes_untilJump {rounds : Nat} {inner : σ.Scope} {body : List (Stmt σ.Mark)}
    {rest : List (Stmt σ.Mark)} (hrest : ∀ s ∈ rest, s ∈ body)
    {next : t.Answer → Dialogue σ (Option Jump)}
    (h : (Stmt.untilJump rest).Resumes self m t next n) (k : Machine σ) :
    Task.GoesOn rounds k (.block inner body) t next := by
  induction rest generalizing m with
  | nil => cases h
  | cons s rest ih =>
    obtain ⟨first, hfirst, rfl⟩ | ⟨jump, m', -, h⟩ := resumes_bind h
    · cases hfirst with
      | here => exact .statement (hrest s List.mem_cons_self) fun _ => rfl
      | ask _ h => cases h
    · split at h
      · cases h
      · exact ih (fun s hs => hrest s (List.mem_cons_of_mem _ hs)) h

/-! ### Calls -/

/-- How a call of a function goes on after the body. -/
inductive Closure.GoesOn (f : Closure σ) : (t : Task σ) → (t.Answer → Dialogue σ Value) → Prop where
  | body {inner : σ.Scope} :
    GoesOn f (.block inner f.decl.body) fun jump => perform (f.result jump)

theorem Closure.resumes_apply {f : Closure σ} {arguments : List Value}
    {next : t.Answer → Dialogue σ Value} (ht : t.isStmt = true)
    (h : (f.apply arguments).Resumes self m t next n) : f.GoesOn t next := by
  obtain ⟨inner, m', -, h⟩ := valuesOnly_perform.exists_resumes ht h
  obtain ⟨first, hfirst, rfl⟩ | ⟨jump, m'', -, h⟩ := resumes_bind h
  · cases hfirst with
    | here => exact .body
    | ask _ h => cases h
  · exact absurd (valuesOnly_perform _ _ _ _ h) (by simp [ht])

theorem resumes_invokeBody {rounds depth : Nat} {callee : Value} {arguments : List Value}
    {paren : Token} {next : t.Answer → Dialogue σ Value} (ht : t.isStmt = true)
    (h : (invokeBody depth callee arguments).Resumes self m t next n) :
    Task.GoesOn rounds m (.invoke callee arguments paren) t next := by
  have hvalues {x : Eval σ Value} (h : (perform x).Resumes self m t next n) :
      Task.GoesOn rounds m (.invoke callee arguments paren) t next :=
    absurd (valuesOnly_perform _ _ _ _ h) (by simp [ht])
  cases callee with
  | function ref =>
    obtain ⟨store, m', hstore, h⟩ := valuesOnly_perform.exists_resumes ht h
    cases hstore
    cases Closure.resumes_apply ht h with
    | body => exact .function rfl
  | cls cls =>
    obtain ⟨object, m', hobject, h⟩ := valuesOnly_perform.exists_resumes ht h
    cases hobject
    obtain ⟨store, m', hstore, h⟩ := valuesOnly_perform.exists_resumes ht h
    cases hstore
    split at h
    · cases h
    · rename_i method hmethod
      obtain ⟨f, m', hf, h⟩ := valuesOnly_perform.exists_resumes ht h
      cases hf
      obtain ⟨first, hfirst, rfl⟩ | ⟨v, m', -, h⟩ := resumes_bind h
      · cases Closure.resumes_apply ht hfirst with
        | body => exact .initializer hmethod rfl
      · cases h
  | _ => exact hvalues h

/-- **What a task does with a jump:** how it goes on after the statements that it asks for. -/
theorem Task.resumes_body {rounds depth : Nat} {u : Task σ} {next : t.Answer → Dialogue σ u.Answer}
    (ht : t.isStmt = true) (h : (u.body rounds depth).Resumes self m t next n) :
    GoesOn rounds m u t next := by
  cases u with
  | eval e => exact absurd (e.valuesOnly_body depth _ _ _ _ h) (by simp [ht])
  | call callee arguments paren => exact absurd (valuesOnly_callBody _ _ _ _ h) (by simp [ht])
  | invoke callee arguments paren => exact resumes_invokeBody ht h
  | block inner body => exact Stmt.resumes_untilJump (fun _ hs => hs) h m
  | exec s => exact Stmt.resumes_body ht h m

/-! ### Programs -/

/-- A program goes on after a statement of its own so that a jump is a fault. -/
inductive Program.GoesOn : (t : Task σ) → (t.Answer → Dialogue σ Value) → Prop where
  | statement {s : Stmt σ.Mark} {next : Option Jump → Dialogue σ Value}
    (hnext : ∀ jump, ∃ rest : Value → Dialogue σ Value,
      next (some jump) = act (Eval.halt (.fault jump.escaped)) rest) :
    GoesOn (.exec s) next

theorem Stmt.resumes_topBody {s : Stmt σ.Mark} {next : t.Answer → Dialogue σ Value}
    (ht : t.isStmt = true) (h : s.topBody.Resumes self m t next n) : Program.GoesOn t next := by
  unfold Stmt.topBody at h
  split at h
  · exact absurd (valuesOnly_eval _ _ _ _ h) (by simp [ht])
  · obtain ⟨first, hfirst, rfl⟩ | ⟨jump, m', -, h⟩ := resumes_bind h
    · cases hfirst with
      | here => exact .statement fun _ => ⟨_, rfl⟩
      | ask _ h => cases h
    · split at h
      · cases h
      · exact absurd (valuesOnly_perform _ _ _ _ h) (by simp [ht])

theorem Program.resumes_foldlM {statements : List (Stmt σ.Mark)} {v : Value}
    {next : t.Answer → Dialogue σ Value} (ht : t.isStmt = true)
    (h : Resumes self (statements.foldlM (fun _ (s : Stmt σ.Mark) => s.topBody) v) m t next n) :
    Program.GoesOn t next := by
  induction statements generalizing m v with
  | nil => cases h
  | cons s statements ih =>
    rw [List.foldlM_cons] at h
    obtain ⟨first, hfirst, rfl⟩ | ⟨v, m', -, h⟩ := resumes_bind h
    · cases Stmt.resumes_topBody ht hfirst with
      | statement hnext =>
        refine .statement fun jump => ?_
        obtain ⟨rest, hrest⟩ := hnext jump
        exact ⟨_, by rw [hrest]; rfl⟩
    · exact ih h

theorem Program.resumes_body {program : Program σ.Mark} {next : t.Answer → Dialogue σ Value}
    (ht : t.isStmt = true) (h : (Program.body program).Resumes self m t next n) :
    Program.GoesOn t next :=
  Program.resumes_foldlM ht h

end

end LoxLang
