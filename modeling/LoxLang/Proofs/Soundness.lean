import LoxLang.Proofs.Fitting
import LoxLang.Session

/-!
# Bound programs find their variables

Running bound programs keeps the store fitting, whatever else happens, and wherever a run comes to
an expression or a statement, the current chain corresponds to the scopes it was bound amid. This is
the contract `soundness`, and `soundness_kept` says that it is kept.

The contract tells also how statements are left, and how a run can halt: jumps leave only what is in
a loop or in a function, a fault has a place, and there is a defect, or a fault for a jump that
nothing takes, only if something was reported about one of the programs.
-/

namespace LoxLang

variable {ι : Type} {M : Marking ι} {clean : ι → Prop} {l m n : Machine M.scoping} {site : Site ι}

/-! ### The contract -/

variable (M clean) in
/-- The task is bound at a place that the chain corresponds to, or is a call with as many arguments
as it takes. -/
def Task.Fits (site : Site ι) (t : Task M.scoping) (m : Machine M.scoping) : Prop :=
  match t with
  | .eval e => e.Uses (site.Binds M clean) ∧ Chain.Fits m.store.memory site.scopes m.scope
  | .call .. => True
  | .invoke callee arguments _ => m.store.arity? callee = some arguments.length
  | .block inner body =>
    Stmt.AllBoundAt M clean site body ∧ Chain.Fits m.store.memory site.scopes inner
  | .exec s => s.BoundAt M clean site ∧ Chain.Fits m.store.memory site.scopes m.scope

variable (clean) in
/-- After a statement, the chain corresponds to the scopes that it leaves, and the place lets the
jump that it has been left with. -/
def Task.FitsAfter (site : Site ι) (t : Task M.scoping) (a : t.Answer) (n : Machine M.scoping) :
    Prop :=
  match t, a with
  | .exec s, jump =>
    Chain.Fits n.store.memory (site.after s).scopes n.scope ∧ site.Lets clean jump
  | .block .., jump => site.Lets clean jump
  | .eval .., _ | .call .., _ | .invoke .., _ => True

variable (M clean) in
/-- **The contract of bound programs.** Tasks fit, what they leave fits, and every halt is accounted
for if nothing was reported about any program. -/
def soundness : Contract M.scoping where
  Ghost := Site ι
  before site t m := m.store.Fits M clean ∧ t.Fits M clean site m
  after site t m a n := m.Grows M clean n ∧ t.FitsAfter clean site a n
  halts _ _ m h n := m.Grows M clean n ∧ h.Accounted (∃ i, ¬ clean i)

namespace Dialogue

variable {α β : Type} {p : Dialogue M.scoping α} {f : α → Dialogue M.scoping β}

variable (M clean) in
/-- By the contract, the dialogue goes from the machine `m` only to what has grown from it. -/
def Safe (p : Dialogue M.scoping α) (m : Machine M.scoping) : Prop :=
  p.Meets (soundness M clean) m (fun _ n => m.Grows M clean n)
    fun h n => m.Grows M clean n ∧ h.Accounted (∃ i, ¬ clean i)

variable (M clean) in
/-- As `Dialogue.Safe`, and only with jumps that the place lets. -/
def SafeAt (site : Site ι) (p : Dialogue M.scoping (Option Jump)) (m : Machine M.scoping) : Prop :=
  p.Meets (soundness M clean) m (fun jump n => m.Grows M clean n ∧ site.Lets clean jump)
    fun h n => m.Grows M clean n ∧ h.Accounted (∃ i, ¬ clean i)

/-- What is safe later is safe as seen from before. -/
theorem Safe.of_grows (hmn : m.Grows M clean n) (hp : p.Safe M clean n) :
    p.Meets (soundness M clean) n (fun _ k => m.Grows M clean k)
      fun h k => m.Grows M clean k ∧ h.Accounted (∃ i, ¬ clean i) :=
  hp.mono (fun _ _ h => hmn.trans h) fun _ _ h => ⟨hmn.trans h.1, h.2⟩

theorem Safe.bind (hp : p.Safe M clean m)
    (hf : ∀ a n, m.Grows M clean n → (f a).Safe M clean n) : (p >>= f).Safe M clean m :=
  meets_bind (hp.mono (fun a n hmn => (hf a n hmn).of_grows hmn) fun _ _ h => h)

theorem SafeAt.of_grows {p : Dialogue M.scoping (Option Jump)} (hmn : m.Grows M clean n)
    (hp : p.SafeAt M clean site n) :
    p.Meets (soundness M clean) n (fun jump k => m.Grows M clean k ∧ site.Lets clean jump)
      fun h k => m.Grows M clean k ∧ h.Accounted (∃ i, ¬ clean i) :=
  hp.mono (fun _ _ h => ⟨hmn.trans h.1, h.2⟩) fun _ _ h => ⟨hmn.trans h.1, h.2⟩

theorem Safe.bindAt {f : α → Dialogue M.scoping (Option Jump)} (hp : p.Safe M clean m)
    (hf : ∀ a n, m.Grows M clean n → (f a).SafeAt M clean site n) :
    (p >>= f).SafeAt M clean site m :=
  meets_bind (hp.mono (fun a n hmn => (hf a n hmn).of_grows hmn) fun _ _ h => h)

theorem safeAt_pure {jump : Option Jump} (hm : m.store.Fits M clean)
    (hjump : site.Lets clean jump) : (pure jump : Dialogue _ _).SafeAt M clean site m :=
  ⟨.refl hm, hjump⟩

theorem safe_pure {a : α} (hm : m.store.Fits M clean) : (pure a : Dialogue _ α).Safe M clean m :=
  Machine.Grows.refl hm

theorem safe_halt {h : Halt} (hm : m.store.Fits M clean) (hh : h.Accounted (∃ i, ¬ clean i)) :
    (perform (Eval.halt h) : Dialogue _ α).Safe M clean m :=
  ⟨.refl hm, hh⟩

theorem safe_onValues {x : Eval M.scoping α} (hm : m.store.Fits M clean)
    (hx : Eval.OnValues Eq Halt.Placed x x) : (perform x).Safe M clean m := by
  refine meets_perform.2 ((hx.ends m).mono (fun _ n hn => ?_) fun h n hn => ?_)
  · exact .of_sameCode hm hn
  · exact ⟨.of_sameCode hm hn.1, hn.2.accounted _⟩

/-- A step that leaves the machine alone if it halts. -/
theorem safe_perform {x : Eval M.scoping α} (hm : m.store.Fits M clean)
    (hx : x.Ends m (fun _ n => m.Grows M clean n)
      fun h n => n = m ∧ h.Accounted (∃ i, ¬ clean i)) : (perform x).Safe M clean m := by
  refine meets_perform.2 (hx.mono (fun _ _ h => h) ?_)
  rintro h n ⟨rfl, hh⟩
  exact ⟨.refl hm, hh⟩

theorem safe_eval {e : Expr M.Mark} (hm : m.At M clean site)
    (he : e.Uses (site.Binds M clean)) : (eval (σ := M.scoping) e).Safe M clean m :=
  ⟨site, ⟨hm.fits, he, hm.chain⟩, fun _ _ h => h.1, fun _ _ h => h⟩

theorem safe_readVariable {use : Use} {token : Token} {mark : M.Mark} (hm : m.At M clean site)
    (hb : site.Binds M clean use token.lexeme mark) :
    (perform (Eval.readVariable (σ := M.scoping) mark token)).Safe M clean m := by
  refine safe_perform hm.fits
    ((Eval.readVariable_ends (.inl fun d hd => ?_)).mono ?_ fun _ _ h => h)
  · obtain ⟨r, hr, -, hhas⟩ := hb.exists_frame hm.chain hd
    exact ⟨r, hr, hhas⟩
  · rintro - n rfl
    exact .refl hm.fits

theorem safe_evalOption {e : Option (Expr M.Mark)} (hm : m.At M clean site)
    (he : Expr.OptionUses (site.Binds M clean) e) :
    (evalOption (σ := M.scoping) e).Safe M clean m := by
  cases e with
  | none => exact safe_pure hm.fits
  | some e => exact safe_eval hm he

theorem safeAt_exec {s : Stmt M.Mark} (hm : m.At M clean site) (hs : s.BoundAt M clean site) :
    (exec (σ := M.scoping) s).SafeAt M clean site m :=
  ⟨site, ⟨hm.fits, hs, hm.chain⟩, fun _ _ h => ⟨h.1, h.2.2⟩, fun _ _ h => h⟩

theorem safeAt_block {inner : Chain} {body : List (Stmt M.Mark)} (hm : m.store.Fits M clean)
    (hbody : Stmt.AllBoundAt M clean site body)
    (hinner : Chain.Fits m.store.memory site.scopes inner) :
    (block (σ := M.scoping) inner body).SafeAt M clean site m :=
  ⟨site, ⟨hm, hbody, hinner⟩, fun _ _ h => h, fun _ _ h => h⟩

theorem safe_call (site : Site ι) {callee : Value} {arguments : List Value} {paren : Token}
    (hm : m.store.Fits M clean) : (call (σ := M.scoping) callee arguments paren).Safe M clean m :=
  ⟨site, ⟨hm, trivial⟩, fun _ _ h => h.1, fun _ _ h => h⟩

theorem safe_invoke (site : Site ι) {callee : Value} {arguments : List Value} {paren : Token}
    (hm : m.store.Fits M clean) (harity : m.store.arity? callee = some arguments.length) :
    (invoke (σ := M.scoping) callee arguments paren).Safe M clean m :=
  ⟨site, ⟨hm, harity⟩, fun _ _ h => h.1, fun _ _ h => h⟩

theorem safe_evalAll {es : List (Expr M.Mark)} (hm : m.At M clean site)
    (he : Expr.AllUses (site.Binds M clean) es) :
    (es.mapM (eval (σ := M.scoping))).Safe M clean m := by
  refine (meets_mapM (I := fun es n => Expr.AllUses (site.Binds M clean) es ∧ m.Grows M clean n)
    ?_ ⟨he, .refl hm.fits⟩).mono (fun _ _ h => h.2) fun _ _ h => h
  rintro e rest n ⟨⟨he, hrest⟩, hmn⟩
  refine (safe_eval (hm.grows hmn) he).mono (fun _ k hk => ⟨hrest, hmn.trans hk⟩) ?_
  exact fun _ _ hk => ⟨hmn.trans hk.1, hk.2⟩

theorem safe_evalEntries {brace : Token} {entries : List (Expr M.Mark × Expr M.Mark)}
    (hm : m.At M clean site) (he : Expr.EntryUses (site.Binds M clean) entries) :
    Safe M clean (entries.foldlM (fun (written : Entries) (key, value) => do
      let key ← eval (σ := M.scoping) key
      let value ← eval value
      perform (writeEntry brace written key value)) .empty) m := by
  refine (meets_foldlM
    (I := fun es n => Expr.EntryUses (site.Binds M clean) es ∧ m.Grows M clean n)
    ?_ ⟨he, .refl hm.fits⟩).mono (fun _ _ h => h.2) fun _ _ h => h
  rintro written ⟨key, value⟩ rest n ⟨⟨hkey, hvalue, hrest⟩, hmn⟩
  have hstep : Safe M clean (do
      let key ← eval (σ := M.scoping) key
      let value ← eval value
      perform (writeEntry brace written key value)) n := by
    refine (safe_eval (hm.grows hmn) hkey).bind fun _ k hnk => ?_
    refine (safe_eval ((hm.grows hmn).grows hnk) hvalue).bind fun _ j hkj => ?_
    exact safe_onValues hkj.store.fits (Eval.onValues_writeEntry rfl)
  exact hstep.mono (fun _ k hk => ⟨hrest, hmn.trans hk⟩) fun _ _ hk => ⟨hmn.trans hk.1, hk.2⟩

end Dialogue

open Dialogue

/-! ### Expressions -/

theorem Expr.safe_body (depth : Nat) {e : Expr M.Mark} (hm : m.At M clean site)
    (he : e.Uses (site.Binds M clean)) : (e.body (σ := M.scoping) depth).Safe M clean m := by
  cases e with
  | constant value => exact safe_pure hm.fits
  | group inner => exact safe_eval hm he
  | unary op line operand =>
    exact (safe_eval hm he).bind fun _ n hn => safe_onValues hn.store.fits (Eval.onValues_unary rfl)
  | binary left op line right =>
    refine (safe_eval hm he.1).bind fun _ n hn => ?_
    refine (safe_eval (hm.grows hn) he.2).bind fun _ k hk => ?_
    exact safe_onValues hk.store.fits (Eval.onValues_binary rfl)
  | logical left op line right =>
    refine (safe_eval hm he.1).bind fun v n hn => ?_
    by_cases hv : op.decides v
    · simp only [hv, if_true]
      exact safe_pure hn.store.fits
    · simp only [hv]
      exact safe_eval (hm.grows hn) he.2
  | var name mark => exact safe_readVariable hm he
  | assign name value mark =>
    refine (safe_eval hm he.2).bind fun v n hn => ?_
    have hn := hm.grows hn
    refine (safe_perform hn.fits (Eval.assign_ends hn he.1)).bind fun _ k hk => ?_
    exact safe_pure hk.store.fits
  | call callee arguments line =>
    refine (safe_eval hm he.1).bind fun v n hn => ?_
    refine (safe_evalAll (hm.grows hn) he.2).bind fun vs k hk => ?_
    exact safe_call site hk.store.fits
  | list elements line =>
    refine (safe_evalAll hm he).bind fun vs n hn => ?_
    exact safe_onValues hn.store.fits Eval.onValues_newList
  | map entries line =>
    refine (safe_evalEntries hm he).bind fun vs n hn => ?_
    exact safe_onValues hn.store.fits Eval.onValues_newMap
  | index container position line =>
    refine (safe_eval hm he.1).bind fun _ n hn => ?_
    refine (safe_eval (hm.grows hn) he.2).bind fun _ k hk => ?_
    exact safe_onValues hk.store.fits (Eval.onValues_element rfl)
  | setIndex container position value line =>
    refine (safe_eval hm he.1).bind fun _ n hn => ?_
    have hn := hm.grows hn
    refine (safe_eval hn he.2.1).bind fun _ k hk => ?_
    have hk := hn.grows hk
    refine (safe_eval hk he.2.2).bind fun _ j hj => ?_
    refine (safe_onValues hj.store.fits (Eval.onValues_setElement rfl)).bind fun _ i hi => ?_
    exact safe_pure hi.store.fits
  | get object name =>
    refine (safe_eval hm he).bind fun v n hn => ?_
    split
    · exact safe_perform hn.store.fits (Eval.property_ends hn.store.fits)
    · exact safe_onValues hn.store.fits (Eval.onValues_fault rfl rfl)
  | set object name value =>
    refine (safe_eval hm he.1).bind fun v n hn => ?_
    split
    · refine (safe_eval (hm.grows hn) he.2).bind fun _ k hk => ?_
      refine (safe_onValues hk.store.fits Eval.onValues_setField).bind fun _ j hj => ?_
      exact safe_pure hj.store.fits
    · exact safe_onValues hn.store.fits (Eval.onValues_fault rfl rfl)
  | thisRef line mark => exact safe_readVariable hm he
  | superRef line method mark => exact safe_perform hm.fits (Eval.superMethod_ends hm he)

/-! ### Calls -/

theorem safe_callBody (site : Site ι) {callee : Value} {arguments : List Value} {paren : Token}
    (hm : m.store.Fits M clean) :
    (callBody (σ := M.scoping) callee arguments paren).Safe M clean m := by
  refine meets_bind (meets_perform.2 ((noteCall_ends m).mono ?_ fun h n hn => ?_))
  · rintro - n ⟨hmn, harity⟩
    have hmn := Machine.Grows.of_sameCode hm hmn
    refine Safe.of_grows hmn ((safe_invoke site hmn.store.fits harity).bind fun v k hk => ?_)
    refine (safe_onValues hk.store.fits Eval.onValues_popCall).bind fun _ j hj => ?_
    exact safe_pure hj.store.fits
  · exact ⟨.of_sameCode hm hn.1, hn.2.accounted _⟩

theorem Closure.safe_apply {f : Closure M.scoping} {arguments : List Value}
    (hm : m.store.Fits M clean) (hf : f.Fits M clean m.store.memory)
    (harity : arguments.length = f.decl.params.length) :
    (f.apply arguments).Safe M clean m := by
  obtain ⟨site, hloop, hbody, hgrows, hinner⟩ := hf.enter hm harity
  refine meets_bind (meets_perform.2 (Eval.ends_alloc.2 ?_))
  refine Safe.of_grows (.withStore hgrows) (meets_bind ((safeAt_block hgrows.fits hbody hinner).mono
    ?_ fun _ _ h => h))
  rintro jump n ⟨hn, hjump⟩
  have hle := hgrows.frames.trans hn.store.frames
  refine Safe.of_grows hn (safe_perform hn.store.fits
    ((Closure.result_ends (hf.mono hle) hloop hjump).mono ?_ fun _ _ h => h))
  rintro - k rfl
  exact .refl hn.store.fits

theorem Class.safe_instantiate {c : Ref .cls} {arguments : List Value}
    (hm : m.store.Fits M clean) (harity : m.store.arity? (.cls c) = some arguments.length) :
    (Class.instantiate (σ := M.scoping) c arguments).Safe M clean m := by
  refine meets_bind (meets_perform.2 (Eval.ends_alloc.2 ?_))
  refine meets_bind (meets_perform.2 (Eval.ends_store.2 ?_))
  have hnew : m.Grows M clean { m with store := (m.store.newObject c).2 } :=
    .of_sameCode hm ⟨rfl, rfl, rfl, rfl⟩
  refine Safe.of_grows hnew ?_
  have hmethod : (m.store.newObject c).2.method? c initializerName =
      m.store.method? c initializerName := rfl
  simp only [hmethod]
  cases hf : m.store.method? c initializerName with
  | none => exact safe_pure hnew.store.fits
  | some f =>
    obtain ⟨hgrows, hfits⟩ := hnew.store.fits.bindMethod (hm.method? hf)
      (.object (m.store.newObject c).1)
    refine meets_bind (meets_perform.2 (Eval.ends_alloc.2 ?_))
    refine Safe.of_grows (.withStore hgrows) ((Closure.safe_apply hgrows.fits hfits ?_).bind ?_)
    · have hlength : f.decl.params.length = arguments.length := by
        simpa [Store.arity?, hf] using harity
      exact hlength.symm
    · exact fun _ n hn => safe_pure hn.store.fits

theorem Halt.Accounted.blame {h : Halt} {excuse : Prop} (hh : h.Accounted excuse) (place : Token) :
    (Eval.blame place h).Accounted excuse := by
  cases h with
  | fault f =>
    obtain ⟨cause, place'⟩ := f
    cases place' <;> exact ⟨rfl, hh.2⟩
  | _ => exact hh

theorem meets_invokeBody (depth : Nat) {callee : Value} {arguments : List Value} {paren : Token}
    (hm : m.store.Fits M clean) (harity : m.store.arity? callee = some arguments.length) :
    (invokeBody (σ := M.scoping) depth callee arguments).Meets (soundness M clean) m
      (fun _ n => m.Grows M clean n)
      fun h n => m.Grows M clean n ∧ (Eval.blame paren h).Accounted (∃ i, ¬ clean i) := by
  have hblame {p : Dialogue M.scoping Value} (hp : p.Safe M clean m) :
      p.Meets (soundness M clean) m (fun _ n => m.Grows M clean n)
        fun h n => m.Grows M clean n ∧ (Eval.blame paren h).Accounted (∃ i, ¬ clean i) :=
    hp.mono (fun _ _ h => h) fun h n hn => ⟨hn.1, hn.2.blame paren⟩
  cases callee with
  | function ref =>
    refine hblame (meets_bind (meets_perform.2 (Eval.ends_store.2 ?_)))
    exact Closure.safe_apply hm (hm.functions ref) (Option.some.inj harity).symm
  | cls ref => exact hblame (Class.safe_instantiate hm harity)
  | native f =>
    -- A native function does not know the place it is called from.
    have hcall := (Native.onValues_call depth (Option.some.inj harity).symm).ends m
    refine meets_perform.2 (hcall.mono (fun _ n hn => .of_sameCode hm hn) fun h n hn => ?_)
    exact ⟨.of_sameCode hm hn.1, (hn.2.placed_blame paren).accounted _⟩
  | _ => cases harity

/-! ### Statements -/

theorem safeAt_whileRounds {condition : Expr M.Mark} {body : Stmt M.Mark} (rounds : Nat)
    (hm : m.At M clean site) (hcondition : condition.Uses (site.Binds M clean))
    (hbody : body.BoundAt M clean site.loop) :
    (whileRounds (σ := M.scoping) condition body rounds).SafeAt M clean site m := by
  induction rounds generalizing m with
  | zero => exact ⟨.refl hm.fits, trivial⟩
  | succ rounds ih =>
    refine (safe_eval hm hcondition).bindAt fun v n hn => ?_
    have hn := hm.grows hn
    split
    · have hloop : n.At M clean site.loop := ⟨hn.fits, hn.chain⟩
      refine meets_bind ((safeAt_exec hloop hbody).mono ?_ fun _ _ h => h)
      rintro jump k ⟨hk, hjump⟩
      refine SafeAt.of_grows hk ?_
      split
      · exact safeAt_pure hk.store.fits trivial
      · exact safeAt_pure hk.store.fits hjump
      · exact ih (hn.grows hk)
    · exact safeAt_pure hn.fits trivial

theorem safeAt_doWhileRounds {condition : Expr M.Mark} {body : Stmt M.Mark} (rounds : Nat)
    (hm : m.At M clean site) (hcondition : condition.Uses (site.Binds M clean))
    (hbody : body.BoundAt M clean site.loop) :
    (doWhileRounds (σ := M.scoping) body condition rounds).SafeAt M clean site m := by
  induction rounds generalizing m with
  | zero => exact ⟨.refl hm.fits, trivial⟩
  | succ rounds ih =>
    have hloop : m.At M clean site.loop := ⟨hm.fits, hm.chain⟩
    refine meets_bind ((safeAt_exec hloop hbody).mono ?_ fun _ _ h => h)
    rintro jump n ⟨hmn, hjump⟩
    have hn := hm.grows hmn
    refine SafeAt.of_grows hmn ?_
    split
    · exact safeAt_pure hn.fits trivial
    · exact safeAt_pure hn.fits hjump
    · refine (safe_eval hn hcondition).bindAt fun v k hk => ?_
      have hk := hn.grows hk
      split
      · exact ih hk
      · exact safeAt_pure hk.fits trivial

theorem safeAt_openBlock (hm : m.At M clean site) {body : List (Stmt M.Mark)}
    (hbody : Stmt.AllBoundAt M clean (site.enter []) body) :
    SafeAt M clean site (do
      let inner ← perform (openBlock (σ := M.scoping))
      block inner body) m := by
  have hgrows : m.store.Grows M clean (m.store.enter m.scope []).2 := hm.fits.enter _ (by simp)
  refine meets_bind (meets_perform.2 (Eval.ends_bind.2 (Eval.ends_scope.2 (Eval.ends_alloc.2 ?_))))
  refine SafeAt.of_grows (.withStore hgrows) ?_
  show (block _ body).SafeAt M clean (site.enter []) _
  exact safeAt_block hgrows.fits hbody (hm.chain.enter hm.fits.globals (by simp))

/-- Statements that declare nothing. -/
theorem Stmt.safeAt_body (rounds depth : Nat) {s : Stmt M.Mark} (hm : m.At M clean site)
    (hs : s.BoundAt M clean site) (hnothing : s.declared? = none) :
    (s.body (σ := M.scoping) rounds depth).SafeAt M clean site m := by
  match s with
  | .expression value =>
    exact (safe_eval hm hs).bindAt fun _ n hn => safeAt_pure hn.store.fits trivial
  | .print value =>
    refine (safe_eval hm hs).bindAt fun v n hn => ?_
    refine (safe_onValues hn.store.fits Eval.onValues_printValue).bindAt fun _ k hk => ?_
    exact safeAt_pure hk.store.fits trivial
  | .block body => exact safeAt_openBlock hm hs
  | .branch condition yes none =>
    refine (safe_eval hm hs.1).bindAt fun v n hn => ?_
    have hn := hm.grows hn
    split
    · exact safeAt_exec hn hs.2.1
    · exact safeAt_pure hn.fits trivial
  | .branch condition yes (some no) =>
    refine (safe_eval hm hs.1).bindAt fun v n hn => ?_
    have hn := hm.grows hn
    split
    · exact safeAt_exec hn hs.2.1
    · exact safeAt_exec hn hs.2.2.2.1
  | .whileLoop condition body => exact safeAt_whileRounds rounds hm hs.1 hs.2.1
  | .doWhile body condition => exact safeAt_doWhileRounds rounds hm hs.1 hs.2.1
  | .breakLoop line => exact safeAt_pure hm.fits hs
  | .continueLoop line => exact safeAt_pure hm.fits hs
  | .returnValue line value =>
    exact (safe_evalOption hm hs.2).bindAt fun v n hn => safeAt_pure hn.store.fits hs.1
  | .marker line m =>
    refine (safe_onValues hm.fits Eval.onValues_trace).bindAt fun _ n hn => ?_
    exact safeAt_pure hn.store.fits trivial

/-- A statement leaves the place after it. -/
theorem Stmt.meets_body (rounds depth : Nat) {s : Stmt M.Mark} (hm : m.At M clean site)
    (hs : s.BoundAt M clean site) :
    (s.body (σ := M.scoping) rounds depth).Meets (soundness M clean) m
      (fun jump n => m.Grows M clean n ∧ n.At M clean (site.after s) ∧ site.Lets clean jump)
      fun h n => m.Grows M clean n ∧ h.Accounted (∃ i, ¬ clean i) := by
  cases hnothing : s.declared? with
  | none =>
    have hafter : site.after s = site := by
      rw [Site.after, Scopes.after_of_declares_nothing _ hnothing]
    rw [hafter]
    exact (s.safeAt_body rounds depth hm hs hnothing).mono
      (fun _ n hn => ⟨hn.1, hm.grows hn.1, hn.2⟩) fun _ _ h => h
  | some declared =>
    match s with
    | .var name initializer =>
      obtain ⟨hname, -, hvalue⟩ := hs
      have hset : m.At M clean (site.set name.text false) := ⟨hm.fits, hm.chain.set_false⟩
      refine meets_bind ((safe_evalOption hset hvalue).mono (fun v n hn => ?_) fun _ _ h => h)
      refine meets_bind (meets_perform.2
        ((declareVariable_ends (hm.grows hn) hname).mono (fun _ k hk => ?_) fun _ _ h => h))
      exact ⟨hn.trans hk.1, hk.2, trivial⟩
    | .function decl =>
      obtain ⟨hname, -, hdecl⟩ := hs
      refine meets_bind (meets_perform.2 ((declareFunction_ends hm hname hdecl).mono ?_
        fun _ _ h => h))
      exact fun _ n hn => ⟨hn.1, hn.2, trivial⟩
    | .classDecl name superclass methods =>
      refine meets_bind (meets_perform.2 ((declareClass_ends hm hs).mono ?_ ?_))
      · exact fun _ n hn => ⟨hn.1, hn.2, trivial⟩
      · rintro h n ⟨rfl, hh⟩
        exact ⟨.refl hm.fits, hh⟩

theorem safeAt_untilJump {body : List (Stmt M.Mark)} (hm : m.At M clean site)
    (hbody : Stmt.AllBoundAt M clean site body) :
    (Stmt.untilJump (σ := M.scoping) body).SafeAt M clean site m := by
  induction body generalizing m site with
  | nil => exact safeAt_pure hm.fits trivial
  | cons s body ih =>
    refine meets_bind ⟨site, ⟨hm.fits, hbody.1, hm.chain⟩, ?_, fun _ _ h => h⟩
    rintro jump n ⟨hmn, hchain, hjump⟩
    cases jump with
    | some jump => exact ⟨hmn, hjump⟩
    | none =>
      have hn : n.At M clean (site.after s) := ⟨hmn.store.fits, hchain⟩
      have hrest := ih hn hbody.2
      exact SafeAt.of_grows hmn hrest

/-! ### Runs -/

/-- **Bound programs keep the contract.** -/
theorem soundness_kept (rounds : Nat) : (soundness M clean).Kept rounds where
  body depth site t m ht := by
    obtain ⟨hm, ht⟩ := ht
    cases t with
    | eval e =>
      exact (e.safe_body depth ⟨hm, ht.2⟩ ht.1).mono (fun _ _ h => ⟨h, trivial⟩) fun _ _ h => h
    | call callee arguments paren =>
      exact (safe_callBody site hm).mono (fun _ _ h => ⟨h, trivial⟩) fun _ _ h => h
    | invoke callee arguments paren =>
      exact (meets_invokeBody depth hm ht).mono (fun _ _ h => ⟨h, trivial⟩) fun _ _ h => h
    | block inner body =>
      -- The block ends in a scope of its own, and the former one is current again.
      have hinner : Machine.At M clean site { m with scope := inner } := ⟨hm, ht.2⟩
      refine (safeAt_untilJump hinner ht.1).mono (fun _ n hn => ?_) fun _ n hn => ?_
      · exact ⟨⟨hn.1.store, rfl⟩, hn.2⟩
      · exact ⟨⟨hn.1.store, rfl⟩, hn.2⟩
    | exec s =>
      exact (s.meets_body rounds depth ⟨hm, ht.2⟩ ht.1).mono
        (fun _ _ h => ⟨h.1, h.2.1.chain, h.2.2⟩) fun _ _ h => h
  exhausted _ _ _ ht := ⟨.refl ht.1, trivial⟩

/-- No jump leaves a program about which nothing was reported. -/
theorem Site.Lets.escaped {source : ι} {jump : Jump}
    (h : (Site.top source).Lets clean (some jump)) :
    (Halt.fault jump.escaped).Accounted (∃ i, ¬ clean i) := by
  have hnot : ¬ clean source := by
    intro hclean
    cases jump <;> cases h hclean
  cases jump <;> exact ⟨rfl, fun _ => ⟨source, hnot⟩⟩

theorem Stmt.safe_topBody {source : ι} {s : Stmt M.Mark} (hm : m.At M clean (.top source))
    (hs : s.BoundAt M clean (.top source)) : (s.topBody (σ := M.scoping)).Safe M clean m := by
  unfold Stmt.topBody
  split
  · exact safe_eval hm hs
  · refine meets_bind ((safeAt_exec hm hs).mono ?_ fun _ _ h => h)
    rintro jump n ⟨hn, hjump⟩
    cases jump with
    | none => exact hn
    | some jump => exact Safe.of_grows hn (safe_halt hn.store.fits hjump.escaped)

/-- A bound program keeps the contract outside of all blocks. -/
theorem Program.safe_body {source : ι} {program : Program M.Mark}
    (hm : m.At M clean (.top source)) (hprogram : Stmt.AllBoundAt M clean (.top source) program) :
    (Program.body (σ := M.scoping) program).Safe M clean m := by
  refine (meets_foldlM (I := fun ss n => Stmt.AllBoundAt M clean (.top source) ss ∧
    m.Grows M clean n) ?_ ⟨hprogram, .refl hm.fits⟩).mono (fun _ _ h => h.2) fun _ _ h => h
  rintro - s rest n ⟨⟨hs, hrest⟩, hmn⟩
  have hafter : (Site.top source).after s = .top source := by
    simp only [Site.after, Scopes.after]
    split <;> rfl
  rw [hafter] at hrest
  exact (Stmt.safe_topBody (hm.grows hmn) hs).mono (fun _ k hk => ⟨hrest, hmn.trans hk⟩)
    fun _ _ hk => ⟨hmn.trans hk.1, hk.2⟩

/-! ### Machines that have not run anything -/

/-- No native function is called like a keyword. -/
theorem Native.get?_globals_keyword (natives : List Native) (k : Keyword) :
    (Native.globals natives).get? k.text = none := by
  have hname (f : Native) : Keyword.ofText? f.name = none := by cases f <;> decide
  have hnone : (Native.globals natives).contains k.text = false := by
    rw [Native.globals, Table.contains_ofList, decide_eq_false_iff_not, List.map_map]
    intro hmem
    obtain ⟨f, -, hf⟩ := List.mem_map.1 hmem
    exact Keyword.text_ne_of_ofText? (hname f) k hf.symm
  simpa [Table.contains_eq_isSome] using hnone

/-- Before anything has run, there are only the globals. -/
theorem Store.fits_ofGlobals (source : ι) (natives : List Native) :
    (Store.ofMemory (Frames.ofGlobals (Native.globals natives)) :
      Store M.scoping).Fits M clean where
  globals := Nat.zero_lt_one
  supers r v hv := by
    have hv : (Arena.get (Frames.ofGlobals (Native.globals natives)) r).get?
        Keyword.superWord.text = some v := hv
    rw [Frames.get_ofGlobals] at hv
    split at hv
    · rw [Native.get?_globals_keyword] at hv
      cases hv
    · cases hv
  functions r := by
    have hbound : (default : Function M.Mark).BoundAt M clean (.top source) :=
      ⟨List.forall_mem_nil _, fun _ => List.nodup_nil, trivial⟩
    exact ⟨⟨.top source, hbound, .nil⟩, fun h => absurd h Bool.false_ne_true⟩
  methods c x f hf := by cases hf

end LoxLang
