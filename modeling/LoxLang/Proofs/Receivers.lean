import LoxLang.Proofs.Activations

/-!
# Running methods on their receivers

Running bound programs keeps the store situated, whatever else happens, and wherever a run comes to
an expression or a statement, the current chain is in the activation of the method around it, if
there is one. This is the contract `receivers`, and `receivers_kept` says that it is kept in runs
that come only to what `V` holds of. The contract tells nothing of values: what is found in an
activation does not depend on them.
-/

namespace LoxLang

variable {ι : Type} {M : Marking ι} {V : Task M.scoping → Machine M.scoping → Prop}
  {m n : Machine M.scoping} {site : Site ι} {refs : List (Expr M.Mark)}

/-! ### The contract -/

/-- The task is bound at a place, and its chain is in the activation that is around the place, or it
is a call with as many arguments as it takes. -/
def Task.InActivation (V : Task M.scoping → Machine M.scoping → Prop) (site : Site ι)
    (t : Task M.scoping) (m : Machine M.scoping) : Prop :=
  match t with
  | .eval e => e.Uses (site.Binds M fun _ => True) ∧
    site.InActivation V m.store m.scope e.selfRefs
  | .call .. => True
  | .invoke callee arguments _ => m.store.arity? callee = some arguments.length
  | .block inner body => Stmt.AllBoundAt M (fun _ => True) site body ∧
    site.InActivation V m.store inner (Stmt.allSelfRefs body)
  | .exec s => s.BoundAt M (fun _ => True) site ∧
    site.InActivation V m.store m.scope s.selfRefs

/-- **The contract of activations.** Machines are situated and settle. -/
def receivers (V : Task M.scoping → Machine M.scoping → Prop) : Contract M.scoping where
  Ghost := Site ι
  before site t m := m.store.Situated V ∧ t.InActivation V site m
  after _ _ m _ n := m.Settles V n
  halts _ _ m _ n := m.Settles V n

namespace Dialogue

variable {α β : Type} {p : Dialogue M.scoping α} {f : α → Dialogue M.scoping β}

/-- By the contract, the dialogue leaves the machine settled. -/
def Settles (V : Task M.scoping → Machine M.scoping → Prop) (p : Dialogue M.scoping α)
    (m : Machine M.scoping) : Prop :=
  p.Meets ((receivers V).along V) m (fun _ n => m.Settles V n) fun _ n => m.Settles V n

/-- What settles later settles as seen from before. -/
theorem Settles.of_settles (hmn : m.Settles V n) (hp : p.Settles V n) :
    p.Meets ((receivers V).along V) n (fun _ k => m.Settles V k) fun _ k => m.Settles V k :=
  hp.mono (fun _ _ h => hmn.trans h) fun _ _ h => hmn.trans h

theorem Settles.bind (hp : p.Settles V m) (hf : ∀ a n, m.Settles V n → (f a).Settles V n) :
    (p >>= f).Settles V m :=
  meets_bind (hp.mono (fun a n hmn => (hf a n hmn).of_settles hmn) fun _ _ h => h)

theorem settles_pure {a : α} (hm : m.store.Situated V) : (pure a : Dialogue _ α).Settles V m :=
  Machine.Settles.refl hm

theorem settles_perform {x : Eval M.scoping α} (hx : x.Settles V m) : (perform x).Settles V m :=
  meets_perform.2 hx

theorem settles_onValues {H : Halt → Prop} {x : Eval M.scoping α} (hm : m.store.Situated V)
    (hx : Eval.OnValues Eq H x x) : (perform x).Settles V m := by
  refine settles_perform ((hx.ends m).mono (fun _ n hn => ?_) fun _ n hn => ?_)
  · exact .of_sameCode hm hn
  · exact .of_sameCode hm hn.1

theorem settles_ask (site : Site ι) {t : Task M.scoping} (hm : m.store.Situated V)
    (ht : V t m → t.InActivation V site m) : (ask t done).Settles V m :=
  meets_ask_along fun hV => ⟨site, ⟨hm, ht hV⟩, fun _ _ h => h, fun _ _ h => h⟩

theorem settles_eval {e : Expr M.Mark} (hm : m.In V site e.selfRefs)
    (he : e.Uses (site.Binds M fun _ => True)) : (eval (σ := M.scoping) e).Settles V m :=
  settles_ask site hm.situated fun _ => ⟨he, hm.place⟩

theorem settles_exec {s : Stmt M.Mark} (hm : m.In V site s.selfRefs)
    (hs : s.BoundAt M (fun _ => True) site) : (exec (σ := M.scoping) s).Settles V m :=
  settles_ask site hm.situated fun _ => ⟨hs, hm.place⟩

theorem settles_readVariable {token : Token} {mark : M.Mark} (hm : m.store.Situated V) :
    (perform (Eval.readVariable (σ := M.scoping) mark token)).Settles V m :=
  settles_perform (Eval.settles_of_same hm (Eval.readVariable_same m))

theorem settles_evalOption {e : Option (Expr M.Mark)} (hm : m.In V site (Expr.optionSelfRefs e))
    (he : Expr.OptionUses (site.Binds M fun _ => True) e) :
    (evalOption (σ := M.scoping) e).Settles V m := by
  cases e with
  | none => exact settles_pure hm.situated
  | some e => exact settles_eval hm he

theorem settles_evalAll {es : List (Expr M.Mark)} (hm : m.In V site (Expr.allSelfRefs es))
    (he : Expr.AllUses (site.Binds M fun _ => True) es) :
    (es.mapM (eval (σ := M.scoping))).Settles V m := by
  refine (meets_mapM (I := fun es n => Expr.AllUses (site.Binds M fun _ => True) es ∧
    m.In V site (Expr.allSelfRefs es) ∧ m.Settles V n) ?_ ⟨he, hm, .refl hm.situated⟩).mono
    (fun _ _ h => h.2.2) fun _ _ h => h
  rintro e rest n ⟨⟨he, hrest⟩, hm, hmn⟩
  have hn := (hm.sub (List.subset_append_left _ _)).settles hmn
  refine (settles_eval hn he).mono (fun _ k hk => ⟨hrest, ?_, hmn.trans hk⟩) ?_
  · exact hm.sub (List.subset_append_right _ _)
  · exact fun _ _ hk => hmn.trans hk

theorem settles_evalEntries {brace : Token} {entries : List (Expr M.Mark × Expr M.Mark)}
    (hm : m.In V site (Expr.entrySelfRefs entries))
    (he : Expr.EntryUses (site.Binds M fun _ => True) entries) :
    Settles V (entries.foldlM (fun (written : Entries) (key, value) => do
      let key ← eval (σ := M.scoping) key
      let value ← eval value
      perform (writeEntry brace written key value)) .empty) m := by
  refine (meets_foldlM (I := fun es n => Expr.EntryUses (site.Binds M fun _ => True) es ∧
    m.In V site (Expr.entrySelfRefs es) ∧ m.Settles V n) ?_ ⟨he, hm, .refl hm.situated⟩).mono
    (fun _ _ h => h.2.2) fun _ _ h => h
  rintro written ⟨key, value⟩ rest n ⟨⟨hkey, hvalue, hrest⟩, hm, hmn⟩
  have hn := hm.settles hmn
  have hlater := hm.sub (List.subset_append_right _ _)
  have hstep : Settles V (do
      let key ← eval (σ := M.scoping) key
      let value ← eval value
      perform (writeEntry brace written key value)) n := by
    refine (settles_eval (hn.sub (List.subset_append_left _ _)) hkey).bind fun _ k hnk => ?_
    have hk := (hlater.sub (List.subset_append_left _ _)).settles (hmn.trans hnk)
    refine (settles_eval hk hvalue).bind fun _ j hkj => ?_
    exact settles_onValues hkj.situated (Eval.onValues_writeEntry rfl)
  refine hstep.mono (fun _ k hk => ⟨hrest, ?_, hmn.trans hk⟩) fun _ _ hk => hmn.trans hk
  exact hlater.sub (List.subset_append_right _ _)

end Dialogue

open Dialogue

/-! ### Expressions -/

theorem Expr.settles_body (depth : Nat) {e : Expr M.Mark} (hm : m.In V site e.selfRefs)
    (he : e.Uses (site.Binds M fun _ => True)) :
    (e.body (σ := M.scoping) depth).Settles V m := by
  cases e with
  | constant value => exact settles_pure hm.situated
  | group inner => exact settles_eval hm he
  | unary op line operand =>
    exact (settles_eval (e := operand) hm he).bind fun _ n hn =>
      settles_onValues hn.situated (Eval.onValues_unary rfl)
  | binary left op line right =>
    refine (settles_eval (hm.sub (List.subset_append_left _ _)) he.1).bind fun _ n hn => ?_
    have hright := (hm.sub (List.subset_append_right _ _)).settles hn
    refine (settles_eval hright he.2).bind fun _ k hk => ?_
    exact settles_onValues hk.situated (Eval.onValues_binary rfl)
  | logical left op line right =>
    refine (settles_eval (hm.sub (List.subset_append_left _ _)) he.1).bind fun v n hn => ?_
    by_cases hv : op.decides v
    · simp only [hv, if_true]
      exact settles_pure hn.situated
    · simp only [hv]
      exact settles_eval ((hm.sub (List.subset_append_right _ _)).settles hn) he.2
  | var name mark => exact settles_readVariable hm.situated
  | assign name value mark =>
    refine (settles_eval (e := value) hm he.2).bind fun v n hn => ?_
    refine (settles_perform (Eval.settles_assign hn.situated he.1.2)).bind fun _ k hk => ?_
    exact settles_pure hk.situated
  | call callee arguments line =>
    refine (settles_eval (hm.sub (List.subset_append_left _ _)) he.1).bind fun v n hn => ?_
    have harguments := (hm.sub (List.subset_append_right _ _)).settles hn
    refine (settles_evalAll harguments he.2).bind fun vs k hk => ?_
    exact settles_ask site hk.situated fun _ => trivial
  | list elements line =>
    refine (settles_evalAll hm he).bind fun vs n hn => ?_
    exact settles_onValues (H := Halt.Placed) hn.situated Eval.onValues_newList
  | map entries line =>
    refine (settles_evalEntries hm he).bind fun vs n hn => ?_
    exact settles_onValues (H := Halt.Placed) hn.situated Eval.onValues_newMap
  | index container position line =>
    refine (settles_eval (hm.sub (List.subset_append_left _ _)) he.1).bind fun _ n hn => ?_
    have hposition := (hm.sub (List.subset_append_right _ _)).settles hn
    refine (settles_eval hposition he.2).bind fun _ k hk => ?_
    exact settles_onValues hk.situated (Eval.onValues_element rfl)
  | setIndex container position value line =>
    refine (settles_eval (hm.sub (List.subset_append_left _ _)) he.1).bind fun _ n hn => ?_
    have hlater := hm.sub (List.subset_append_right _ _)
    have hposition := (hlater.sub (List.subset_append_left _ _)).settles hn
    refine (settles_eval hposition he.2.1).bind fun _ k hk => ?_
    have hvalue := (hlater.sub (List.subset_append_right _ _)).settles (hn.trans hk)
    refine (settles_eval hvalue he.2.2).bind fun _ j hj => ?_
    refine (settles_onValues hj.situated (Eval.onValues_setElement rfl)).bind fun _ i hi => ?_
    exact settles_pure hi.situated
  | get object name =>
    refine (settles_eval (e := object) hm he).bind fun v n hn => ?_
    split
    · exact settles_perform (Eval.settles_property hn.situated)
    · exact settles_onValues (H := Halt.Placed) hn.situated (Eval.onValues_fault rfl rfl)
  | set object name value =>
    refine (settles_eval (hm.sub (List.subset_append_left _ _)) he.1).bind fun v n hn => ?_
    split
    · have hvalue := (hm.sub (List.subset_append_right _ _)).settles hn
      refine (settles_eval hvalue he.2).bind fun _ k hk => ?_
      refine (settles_onValues (H := Halt.Placed) hk.situated Eval.onValues_setField).bind
        fun _ j hj => ?_
      exact settles_pure hj.situated
    · exact settles_onValues (H := Halt.Placed) hn.situated (Eval.onValues_fault rfl rfl)
  | thisRef line mark => exact settles_readVariable hm.situated
  | superRef line method mark => exact settles_perform (Eval.settles_superMethod hm he)

/-! ### Calls -/

theorem settles_callBody (site : Site ι) {callee : Value} {arguments : List Value} {paren : Token}
    (hm : m.store.Situated V) :
    (callBody (σ := M.scoping) callee arguments paren).Settles V m := by
  refine meets_bind (meets_perform.2 ((noteCall_ends m).mono ?_ fun h n hn => ?_))
  · rintro - n ⟨hmn, harity⟩
    have hmn := Machine.Settles.of_sameCode hm hmn
    have hinvoke : (invoke (σ := M.scoping) callee arguments paren).Settles V n :=
      settles_ask site hmn.situated fun _ => harity
    refine Settles.of_settles hmn (hinvoke.bind fun v k hk => ?_)
    refine (settles_onValues (H := Halt.Placed) hk.situated Eval.onValues_popCall).bind
      fun _ j hj => ?_
    exact settles_pure hj.situated
  · exact .of_sameCode hm hn.1

/-- A call begins an activation, if it is of a method. -/
theorem Closure.settles_apply {g : Closure M.scoping} {arguments : List Value}
    (hm : m.store.Situated V) (hg : g.Situated V m.store) :
    (g.apply arguments).Settles V m := by
  obtain ⟨site, hbody, hplace⟩ := hg.enter hm arguments rfl
  have henter := Machine.Settles.enter hm g.scope ((g.decl.params.map Name.text).zip arguments)
  refine meets_bind (meets_perform.2 (Eval.ends_alloc.2 ?_))
  refine Settles.of_settles henter (Settles.bind ?_ fun jump n hn => ?_)
  · exact settles_ask site henter.situated fun hV => ⟨hbody, hplace hV⟩
  · exact settles_perform (Eval.settles_of_same hn.situated Closure.result_same)

theorem Class.settles_instantiate {c : Ref .cls} {arguments : List Value}
    (hm : m.store.Situated V) :
    (Class.instantiate (σ := M.scoping) c arguments).Settles V m := by
  refine meets_bind (meets_perform.2 (Eval.ends_alloc.2 ?_))
  refine meets_bind (meets_perform.2 (Eval.ends_store.2 ?_))
  have hnew : m.Settles V { m with store := (m.store.newObject c).2 } :=
    .of_sameCode hm ⟨rfl, rfl, rfl, rfl⟩
  refine Settles.of_settles hnew ?_
  cases hf : (m.store.newObject c).2.method? c initializerName with
  | none => exact settles_pure hnew.situated
  | some f =>
    obtain ⟨hst, hs, hg⟩ := hnew.situated.bindMethod hf (m.store.newObject c).1
    refine meets_bind (meets_perform.2 (Eval.ends_alloc.2 ?_))
    refine Settles.of_settles ⟨hs, hst, rfl⟩ ((Closure.settles_apply hs hg).bind ?_)
    exact fun _ n hn => settles_pure hn.situated

theorem settles_invokeBody (depth : Nat) {callee : Value} {arguments : List Value}
    (hm : m.store.Situated V) (harity : m.store.arity? callee = some arguments.length) :
    (invokeBody (σ := M.scoping) depth callee arguments).Settles V m := by
  cases callee with
  | function ref =>
    refine meets_bind (meets_perform.2 (Eval.ends_store.2 ?_))
    exact Closure.settles_apply hm (hm.functions ref)
  | cls ref => exact Class.settles_instantiate hm
  | native f =>
    exact settles_onValues hm (Native.onValues_call depth (Option.some.inj harity).symm)
  | _ => cases harity

/-! ### Statements -/

theorem settles_whileRounds {condition : Expr M.Mark} {body : Stmt M.Mark} (rounds : Nat)
    (hm : m.In V site (condition.selfRefs ++ body.selfRefs))
    (hcondition : condition.Uses (site.Binds M fun _ => True))
    (hbody : body.BoundAt M (fun _ => True) site.loop) :
    (whileRounds (σ := M.scoping) condition body rounds).Settles V m := by
  induction rounds generalizing m with
  | zero => exact Machine.Settles.refl hm.situated
  | succ rounds ih =>
    refine (settles_eval (hm.sub (List.subset_append_left _ _)) hcondition).bind fun v n hn => ?_
    split
    · have hloop : n.In V site.loop body.selfRefs :=
        ⟨hn.situated, ((hm.sub (List.subset_append_right _ _)).settles hn).place.congr fun _ => rfl⟩
      refine (settles_exec hloop hbody).bind fun jump k hk => ?_
      split
      · exact settles_pure hk.situated
      · exact settles_pure hk.situated
      · exact ih (hm.settles (hn.trans hk))
    · exact settles_pure hn.situated

theorem settles_doWhileRounds {condition : Expr M.Mark} {body : Stmt M.Mark} (rounds : Nat)
    (hm : m.In V site (body.selfRefs ++ condition.selfRefs))
    (hcondition : condition.Uses (site.Binds M fun _ => True))
    (hbody : body.BoundAt M (fun _ => True) site.loop) :
    (doWhileRounds (σ := M.scoping) body condition rounds).Settles V m := by
  induction rounds generalizing m with
  | zero => exact Machine.Settles.refl hm.situated
  | succ rounds ih =>
    have hloop : m.In V site.loop body.selfRefs :=
      ⟨hm.situated, (hm.sub (List.subset_append_left _ _)).place.congr fun _ => rfl⟩
    refine (settles_exec hloop hbody).bind fun jump n hn => ?_
    split
    · exact settles_pure hn.situated
    · exact settles_pure hn.situated
    · have hlater := (hm.sub (List.subset_append_right _ _)).settles hn
      refine (settles_eval hlater hcondition).bind fun v k hk => ?_
      split
      · exact ih (hm.settles (hn.trans hk))
      · exact settles_pure hk.situated

theorem settles_openBlock {body : List (Stmt M.Mark)} (hm : m.In V site (Stmt.allSelfRefs body))
    (hbody : Stmt.AllBoundAt M (fun _ => True) (site.enter []) body) :
    Settles V (do
      let inner ← perform (openBlock (σ := M.scoping))
      block inner body) m := by
  have henter := Machine.Settles.enter hm.situated m.scope []
  refine meets_bind (meets_perform.2 (Eval.ends_bind.2 (Eval.ends_scope.2 (Eval.ends_alloc.2 ?_))))
  refine Settles.of_settles henter
    (settles_ask (site.enter []) henter.situated fun _ => ⟨hbody, ?_⟩)
  exact hm.place.enter rfl (fun _ => List.not_mem_nil) fun _ => List.not_mem_nil

theorem Stmt.settles_body (rounds depth : Nat) {s : Stmt M.Mark} (hm : m.In V site s.selfRefs)
    (hs : s.BoundAt M (fun _ => True) site) :
    (s.body (σ := M.scoping) rounds depth).Settles V m := by
  match s with
  | .expression value =>
    exact (settles_eval hm hs).bind fun _ n hn => settles_pure hn.situated
  | .print value =>
    refine (settles_eval hm hs).bind fun v n hn => ?_
    refine (settles_onValues hn.situated Eval.onValues_printValue).bind fun _ k hk => ?_
    exact settles_pure hk.situated
  | .var name initializer =>
    obtain ⟨hname, -, hvalue⟩ := hs
    refine (settles_evalOption (hm.set hname false) hvalue).bind fun v n hn => ?_
    refine (settles_perform (settles_declareVariable hn.situated hname)).bind fun _ k hk => ?_
    exact settles_pure hk.situated
  | .block body => exact settles_openBlock hm hs
  | .branch condition yes none =>
    refine (settles_eval (hm.sub (List.subset_append_left _ _)) hs.1).bind fun v n hn => ?_
    split
    · exact settles_exec ((hm.sub (List.subset_append_right _ _)).settles hn) hs.2.1
    · exact settles_pure hn.situated
  | .branch condition yes (some no) =>
    refine (settles_eval (hm.sub (List.subset_append_left _ _)) hs.1).bind fun v n hn => ?_
    have hlater := (hm.sub (List.subset_append_right _ _)).settles hn
    split
    · exact settles_exec (hlater.sub (List.subset_append_left _ _)) hs.2.1
    · exact settles_exec (hlater.sub (List.subset_append_right _ _)) hs.2.2.2.1
  | .whileLoop condition body => exact settles_whileRounds rounds hm hs.1 hs.2.1
  | .doWhile body condition => exact settles_doWhileRounds rounds hm hs.1 hs.2.1
  | .breakLoop line => exact settles_pure hm.situated
  | .continueLoop line => exact settles_pure hm.situated
  | .returnValue line value =>
    exact (settles_evalOption hm hs.2).bind fun v n hn => settles_pure hn.situated
  | .function decl =>
    obtain ⟨hname, -, hdecl⟩ := hs
    refine (settles_perform (settles_declareFunction hm hname hdecl)).bind fun _ n hn => ?_
    exact settles_pure hn.situated
  | .classDecl name superclass methods =>
    refine (settles_perform (settles_declareClass hm hs)).bind fun _ n hn => ?_
    exact settles_pure hn.situated
  | .marker line _ =>
    refine (settles_onValues (H := Halt.Placed) hm.situated Eval.onValues_trace).bind
      fun _ n hn => ?_
    exact settles_pure hn.situated

/-- A statement declares no keyword. -/
theorem Stmt.BoundAt.proper {clean : ι → Prop} {s : Stmt M.Mark} {name : Name}
    (hs : s.BoundAt M clean site) (hname : s.declared? = some name) : name.Proper := by
  cases s with
  | var _ _ =>
    cases hname
    exact hs.1
  | function _ =>
    cases hname
    exact hs.1
  | classDecl _ superclass _ =>
    cases hname
    cases superclass <;> exact hs.1
  | _ => cases hname

theorem Machine.In.after (hm : m.In V site refs) {s : Stmt M.Mark}
    (hs : s.BoundAt M (fun _ => True) site) : m.In V (site.after s) refs := by
  cases hname : s.declared? with
  | none =>
    rw [Site.after, Scopes.after_of_declares_nothing _ hname]
    exact hm
  | some name =>
    rw [Site.after, Scopes.after, hname]
    exact hm.set (hs.proper hname) true

theorem settles_untilJump {body : List (Stmt M.Mark)} (hm : m.In V site (Stmt.allSelfRefs body))
    (hbody : Stmt.AllBoundAt M (fun _ => True) site body) :
    (Stmt.untilJump (σ := M.scoping) body).Settles V m := by
  induction body generalizing m site with
  | nil => exact settles_pure hm.situated
  | cons s body ih =>
    refine (settles_exec (hm.sub (List.subset_append_left _ _)) hbody.1).bind fun jump n hn => ?_
    cases jump with
    | some jump => exact settles_pure hn.situated
    | none =>
      have hlater := (hm.sub (List.subset_append_right _ _)).after hbody.1
      exact ih (hlater.settles hn) hbody.2

/-! ### Runs -/

/-- **Bound programs keep the contract.** -/
theorem receivers_kept (V : Task M.scoping → Machine M.scoping → Prop) (rounds : Nat) :
    (receivers V).KeptAlong V rounds where
  body depth site t m _ ht := by
    obtain ⟨hm, ht⟩ := ht
    cases t with
    | eval e => exact e.settles_body depth ⟨hm, ht.2⟩ ht.1
    | call callee arguments paren => exact settles_callBody site hm
    | invoke callee arguments paren => exact settles_invokeBody depth hm ht
    | block inner body =>
      -- The block ends in a scope of its own, and the former one is current again.
      have hinner : Machine.In V site (Stmt.allSelfRefs body) { m with scope := inner } :=
        ⟨hm, ht.2⟩
      refine (settles_untilJump hinner ht.1).mono (fun _ n hn => ?_) fun _ n hn => ?_
      · exact ⟨hn.situated, hn.store, rfl⟩
      · exact ⟨hn.situated, hn.store, rfl⟩
    | exec s => exact s.settles_body rounds depth ⟨hm, ht.2⟩ ht.1
  exhausted _ _ _ ht := .refl ht.1

theorem Stmt.settles_topBody {source : ι} {s : Stmt M.Mark} (hm : m.store.Situated V)
    (hs : s.BoundAt M (fun _ => True) (.top source)) :
    (s.topBody (σ := M.scoping)).Settles V m := by
  unfold Stmt.topBody
  split
  · exact settles_eval ⟨hm, .top source⟩ hs
  · refine (settles_exec ⟨hm, .top source⟩ hs).bind fun jump n hn => ?_
    cases jump with
    | none => exact settles_pure hn.situated
    | some jump => exact Machine.Settles.refl hn.situated

/-- A bound program keeps the contract outside of all methods. -/
theorem Program.settles_body {source : ι} {program : Program M.Mark} (hm : m.store.Situated V)
    (hprogram : Stmt.AllBoundAt M (fun _ => True) (.top source) program) :
    (Program.body (σ := M.scoping) program).Settles V m := by
  refine (meets_foldlM (I := fun ss n => Stmt.AllBoundAt M (fun _ => True) (.top source) ss ∧
    m.Settles V n) ?_ ⟨hprogram, .refl hm⟩).mono (fun _ _ h => h.2) fun _ _ h => h
  rintro - s rest n ⟨⟨hs, hrest⟩, hmn⟩
  have hafter : (Site.top source).after s = .top source := by
    simp only [Site.after, Scopes.after]
    split <;> rfl
  rw [hafter] at hrest
  exact (Stmt.settles_topBody hmn.situated hs).mono (fun _ k hk => ⟨hrest, hmn.trans hk⟩)
    fun _ _ hk => hmn.trans hk

/-- Before anything has run, there are no functions and no classes. -/
theorem Store.situated_ofMemory (source : ι) (memory : Frames) :
    (Store.ofMemory memory : Store M.scoping).Situated V where
  functions r := by
    have hbound : (default : Function M.Mark).BoundAt M (fun _ => True) (.top source) :=
      ⟨List.forall_mem_nil _, fun _ => List.nodup_nil, trivial⟩
    exact .declared (g := default) hbound (.top source)
  methods c x f hf := by cases hf

end LoxLang
