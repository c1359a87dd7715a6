import LoxLang.Proofs.Jumps
import LoxLang.Proofs.Upkeep

/-!
# The links of every machine come to an end

The contract `upkeep` says that machines stay within a world: wherever a run comes to, the store is
sound in a world that has the current chain and those that will be current again, and all values
that are handed on refer to something that is there. It is kept by all programs (`upkeep_kept`), so
every machine that a session comes to is founded (`Session.links_come_to_an_end`).
-/

namespace LoxLang

variable {β : Type} {hops : β → Hops} {pending world : List Chain}

/-- What a task is given is there. -/
def Task.In (world : List Chain) (s : Store (.frames hops)) : Task (.frames hops) → Prop
  | .call callee arguments _ | .invoke callee arguments _ =>
    callee.In s ∧ ∀ v ∈ arguments, v.In s
  | .block inner _ => inner ∈ world
  | .eval _ | .exec _ => True

/-- What comes of a task is there. -/
def Task.AnswerIn (s : Store (.frames hops)) : (t : Task (.frames hops)) → t.Answer → Prop
  | .eval _, v | .call .., v | .invoke .., v => v.In s
  | .block .., jump | .exec _, jump => Jump.In s jump

/-- The store is sound in the world, which has the current chain and those that are pending. -/
structure Machine.Within (pending world : List Chain) (m : Machine (.frames hops)) : Prop where
  sound : m.store.Sound world
  scope : m.scope ∈ world
  pending : ∀ chain ∈ pending, chain ∈ world

theorem Machine.Within.evolves {m n : Machine (.frames hops)} {later : List Chain}
    (hm : m.Within pending world) (hn : m.Evolves world n later) : n.Within pending later where
  sound := hn.sound
  scope := by
    rw [hn.scope]
    exact hn.world.subset hm.scope
  pending chain hchain := hn.world.subset (hm.pending chain hchain)

/-- **The contract of sound stores.** Machines stay within a world that goes on from the one
before. -/
def upkeep (hops : β → Hops) (pending : List Chain) : Contract (.frames hops) where
  Ghost := List Chain
  before world t m := m.Within pending world ∧ t.In world m.store
  after world t m a n := ∃ later, m.Evolves world n later ∧ t.AnswerIn n.store a
  halts world _ m _ n := ∃ later, m.Evolves world n later

namespace Dialogue

variable {α γ : Type} {p : Dialogue (.frames hops) α} {f : α → Dialogue (.frames hops) γ}
  {m : Machine (.frames hops)}

/-- By the contract, the dialogue leaves the machine evolved, with a result for which `R` holds. -/
def Tends (pending : List Chain) (R : α → Store (.frames hops) → List Chain → Prop)
    (p : Dialogue (.frames hops) α) (world : List Chain) (m : Machine (.frames hops)) : Prop :=
  p.Meets (upkeep hops pending) m
    (fun a n => ∃ later, m.Evolves world n later ∧ R a n.store later)
    fun _ n => ∃ later, m.Evolves world n later

/-- As `Dialogue.Tends`, with a value that refers to something in the store. -/
abbrev TendsValue (pending : List Chain) (p : Dialogue (.frames hops) Value) (world : List Chain)
    (m : Machine (.frames hops)) : Prop :=
  p.Tends pending (fun v s _ => v.In s) world m

/-- As `Dialogue.Tends`, with a jump whose value refers to something in the store. -/
abbrev TendsJump (pending : List Chain) (p : Dialogue (.frames hops) (Option Jump))
    (world : List Chain) (m : Machine (.frames hops)) : Prop :=
  p.Tends pending (fun jump s _ => Jump.In s jump) world m

variable {R : α → Store (.frames hops) → List Chain → Prop}
  {R' : γ → Store (.frames hops) → List Chain → Prop}

theorem Tends.bind (hp : p.Tends pending R world m)
    (hf : ∀ a n later, m.Evolves world n later → R a n.store later →
      (f a).Tends pending R' later n) : (p >>= f).Tends pending R' world m := by
  refine meets_bind (hp.mono ?_ fun _ _ h => h)
  rintro a n ⟨later, hn, ha⟩
  refine (hf a n later hn ha).mono ?_ ?_
  · rintro b k ⟨last, hk, hb⟩
    exact ⟨last, hn.trans hk, hb⟩
  · rintro h k ⟨last, hk⟩
    exact ⟨last, hn.trans hk⟩

theorem tends_pure (hm : m.store.Sound world) {a : α} (ha : R a m.store world) :
    (pure a : Dialogue (.frames hops) α).Tends pending R world m := ⟨world, .refl hm, ha⟩

theorem tends_perform {x : Eval (.frames hops) α} (hx : x.Tends R world m) :
    (perform x).Tends pending R world m := hx

theorem tends_eval (hm : m.Within pending world) (e : Expr β) :
    (eval (σ := .frames hops) e).TendsValue pending world m :=
  ⟨world, ⟨hm, trivial⟩, fun _ _ h => h, fun _ _ h => h⟩

theorem tends_exec (hm : m.Within pending world) (s : Stmt β) :
    (exec (σ := .frames hops) s).TendsJump pending world m :=
  ⟨world, ⟨hm, trivial⟩, fun _ _ h => h, fun _ _ h => h⟩

theorem tends_block (hm : m.Within pending world) {inner : Chain} (hinner : inner ∈ world)
    (body : List (Stmt β)) :
    (block (σ := .frames hops) inner body).TendsJump pending world m :=
  ⟨world, ⟨hm, hinner⟩, fun _ _ h => h, fun _ _ h => h⟩

theorem tends_evalOption (hm : m.Within pending world) (e : Option (Expr β)) :
    (evalOption (σ := .frames hops) e).TendsValue pending world m := by
  cases e with
  | none => exact tends_pure hm.sound trivial
  | some e => exact tends_eval hm e

theorem tends_evalAll (hm : m.Within pending world) (es : List (Expr β)) :
    (es.mapM (eval (σ := .frames hops))).Tends pending (fun vs s _ => ∀ v ∈ vs, v.In s) world
      m := by
  induction es generalizing m world with
  | nil => exact tends_pure hm.sound (by simp)
  | cons e es ih =>
    rw [List.mapM_cons]
    refine (tends_eval hm e).bind fun v n later hn hv => ?_
    refine (ih (hm.evolves hn)).bind fun vs k last hk hvs => ?_
    exact tends_pure hk.sound (List.forall_mem_cons.2 ⟨hk.store v hv, hvs⟩)

theorem tends_evalEntries (hm : m.Within pending world) (brace : Token)
    (entries : List (Expr β × Expr β)) {written : Entries} (hwritten : written.In m.store) :
    Tends pending (fun (t : Entries) s _ => t.In s)
      (entries.foldlM (fun (written : Entries) (key, value) => do
        let key ← eval (σ := .frames hops) key
        let value ← eval value
        perform (writeEntry brace written key value)) written) world m := by
  induction entries generalizing m world written with
  | nil => exact tends_pure hm.sound hwritten
  | cons entry entries ih =>
    rw [List.foldlM_cons]
    refine Tends.bind (R := fun (t : Entries) s _ => t.In s) ?_
      fun t n later hn ht => ih (hm.evolves hn) ht
    refine (tends_eval hm entry.1).bind fun key n later hn hkey => ?_
    have hn' := hm.evolves hn
    refine (tends_eval hn' entry.2).bind fun value k last hk hvalue => ?_
    refine tends_perform (tends_writeEntry hk.sound (fun j e he => ?_) (hk.store key hkey) hvalue)
    have hle (v : Value) (hv : v.In m.store) : v.In k.store := hk.store v (hn.store v hv)
    exact (hwritten j e he).imp (hle _) (hle _)

end Dialogue

open Dialogue

variable {m : Machine (.frames hops)}

/-! ### Expressions -/

theorem Constant.in_value (c : Constant) (s : Store (.frames hops)) : c.value.In s := by
  cases c <;> trivial

theorem Expr.tends_body (depth : Nat) (e : Expr β) (hm : m.Within pending world) :
    (e.body (σ := .frames hops) depth).TendsValue pending world m := by
  cases e with
  | constant value => exact tends_pure hm.sound (value.in_value _)
  | group inner => exact tends_eval hm inner
  | unary op line operand =>
    refine (tends_eval hm operand).bind fun _ n later hn _ => ?_
    exact tends_perform (UnaryOp.tends_apply hn.sound)
  | binary left op line right =>
    refine (tends_eval hm left).bind fun _ n later hn _ => ?_
    refine (tends_eval (hm.evolves hn) right).bind fun _ k last hk _ => ?_
    exact tends_perform (BinaryOp.tends_apply hk.sound)
  | logical left op line right =>
    refine (tends_eval hm left).bind fun v n later hn hv => ?_
    split
    · exact tends_pure hn.sound hv
    · exact tends_eval (hm.evolves hn) right
  | var name mark => exact tends_perform (Eval.tends_readVariable hm.sound)
  | assign name value mark =>
    refine (tends_eval hm value).bind fun v n later hn hv => ?_
    refine (tends_perform (Eval.tends_assign hn.sound hv)).bind fun _ k last hk _ => ?_
    exact tends_pure hk.sound (hk.store v hv)
  | call callee arguments line =>
    refine (tends_eval hm callee).bind fun v n later hn hv => ?_
    have hn' := hm.evolves hn
    refine (tends_evalAll hn' arguments).bind fun vs k last hk hvs => ?_
    exact ⟨last, ⟨hn'.evolves hk, hk.store v hv, hvs⟩, fun _ _ h => h, fun _ _ h => h⟩
  | list elements line =>
    refine (tends_evalAll hm elements).bind fun vs n later hn hvs => ?_
    refine tends_perform (Eval.tends_alloc (hn.sound.newList ?_) (Store.le_newList _)
      (Arena.holds_alloc_self _ _))
    simpa using hvs
  | map entries line =>
    have hempty : Entries.In m.store .empty := by
      intro k e he
      cases he
    refine (tends_evalEntries hm _ entries hempty).bind fun t n later hn ht => ?_
    exact tends_perform (Eval.tends_alloc (hn.sound.newMap ht) (Store.le_newMap _)
      (Arena.holds_alloc_self _ _))
  | index container position line =>
    refine (tends_eval hm container).bind fun _ n later hn _ => ?_
    refine (tends_eval (hm.evolves hn) position).bind fun _ k last hk _ => ?_
    exact tends_perform (Eval.tends_element hk.sound)
  | setIndex container position value line =>
    refine (tends_eval hm container).bind fun _ n later hn _ => ?_
    have hn' := hm.evolves hn
    refine (tends_eval hn' position).bind fun i k last hk hi => ?_
    have hk' := hn'.evolves hk
    refine (tends_eval hk' value).bind fun v j world' hj hv => ?_
    refine (tends_perform (Eval.tends_setElement hj.sound (hj.store i hi) hv)).bind
      fun _ l world'' hl _ => ?_
    exact tends_pure hl.sound (hl.store v hv)
  | get object name =>
    refine (tends_eval hm object).bind fun v n later hn hv => ?_
    split
    · exact tends_perform (Eval.tends_property hn.sound hv)
    · exact tends_perform (Eval.tends_fault hn.sound)
  | set object name value =>
    refine (tends_eval hm object).bind fun v n later hn hv => ?_
    split
    · refine (tends_eval (hm.evolves hn) value).bind fun w k last hk hw => ?_
      refine (tends_perform (Eval.tends_modifyStore (hk.sound.setField hw)
        (Store.le_setField _ _ _))).bind fun _ j world' hj _ => ?_
      exact tends_pure hj.sound (hj.store w hw)
    · exact tends_perform (Eval.tends_fault hn.sound)
  | thisRef line mark => exact tends_perform (Eval.tends_readVariable hm.sound)
  | superRef line method mark => exact tends_perform (Eval.tends_superMethod hm.sound)

/-! ### Calls -/

theorem Closure.tends_apply {f : Closure (.frames hops)} {arguments : List Value}
    (hm : m.Within pending world) (hf : f.scope ∈ world)
    (harguments : ∀ v ∈ arguments, v.In m.store) :
    (f.apply arguments).TendsValue pending world m := by
  refine (tends_perform (Eval.tends_enter hm.sound hf fun e he => ?_)).bind
    fun inner n later hn hinner => ?_
  · exact harguments e.2 (List.of_mem_zip he).2
  · refine (tends_block (hm.evolves hn) hinner _).bind fun jump k last hk hjump => ?_
    exact tends_perform (Closure.tends_result hk.sound hjump)

theorem Class.tends_instantiate {c : Ref .cls} {arguments : List Value}
    (hm : m.Within pending world) (hc : m.store.classes.Holds c)
    (harguments : ∀ v ∈ arguments, v.In m.store) :
    (Class.instantiate (σ := .frames hops) c arguments).TendsValue pending world m := by
  refine (tends_perform (Eval.tends_alloc (R := fun o s _ => s.objects.Holds o)
    (hm.sound.newObject hc) (Store.le_newObject c) (Arena.holds_alloc_self _ _))).bind
    fun object n later hn hobject => ?_
  refine Tends.bind (R := fun s n later => s = n)
    (tends_perform (x := Eval.store) ⟨later, .refl hn.sound, rfl⟩) ?_
  rintro _ k last hk rfl
  split
  · exact tends_pure hk.sound (hk.store (.object object) hobject)
  · rename_i f hf
    have hobject : (Value.object object).In k.store := hk.store (.object object) hobject
    have hbound := hk.sound.bindMethod (hk.sound.scope_of_method? hf) hobject
    refine Tends.bind (R := fun f s later => f.scope ∈ later)
      (tends_perform (x := Eval.alloc (·.bindMethod f (.object object)))
        ⟨_, .withStore hbound (List.prefix_append _ _) (Store.le_withMemory _),
          List.mem_append_right _ (List.mem_singleton_self _)⟩) ?_
    intro closure j world' hj hclosure
    have hj' := ((hm.evolves hn).evolves hk).evolves hj
    refine (Closure.tends_apply hj' hclosure fun v hv => ?_).bind fun _ l world'' hl _ => ?_
    · exact hj.store v (hk.store v (hn.store v (harguments v hv)))
    · exact tends_pure hl.sound (hl.store _ (hj.store _ hobject))

theorem tends_callBody {callee : Value} {arguments : List Value} {paren : Token}
    (hm : m.Within pending world) (hcallee : callee.In m.store)
    (harguments : ∀ v ∈ arguments, v.In m.store) :
    (callBody (σ := .frames hops) callee arguments paren).TendsValue pending world m := by
  refine (tends_perform (tends_noteCall hm.sound)).bind fun _ n later hn _ => ?_
  have hinvoke : (invoke (σ := .frames hops) callee arguments paren).TendsValue pending later n :=
    ⟨later, ⟨hm.evolves hn, hn.store _ hcallee, fun v hv => hn.store v (harguments v hv)⟩,
      fun _ _ h => h, fun _ _ h => h⟩
  refine hinvoke.bind fun v k last hk hv => ?_
  refine Tends.bind (R := fun _ _ _ => True) (tends_perform (x := Eval.popCall)
    ⟨last, .of_sameState hk.sound ⟨rfl, rfl⟩, trivial⟩) fun _ j world' hj _ => ?_
  exact tends_pure hj.sound (hj.store v hv)

theorem tends_invokeBody (depth : Nat) {callee : Value} {arguments : List Value}
    (hm : m.Within pending world) (hcallee : callee.In m.store)
    (harguments : ∀ v ∈ arguments, v.In m.store) :
    (invokeBody (σ := .frames hops) depth callee arguments).TendsValue pending world m := by
  cases callee with
  | function ref =>
    refine Tends.bind (R := fun s n later => s = n)
      (tends_perform (x := Eval.store) ⟨world, .refl hm.sound, rfl⟩) ?_
    rintro _ n later hn rfl
    refine Closure.tends_apply (hm.evolves hn) (hn.sound.functions ref) fun v hv => ?_
    exact hn.store v (harguments v hv)
  | cls ref => exact Class.tends_instantiate hm hcallee harguments
  | native f => exact tends_perform (Native.tends_call hm.sound harguments)
  | _ => exact tends_perform (Eval.tends_halt hm.sound)

/-! ### Statements -/

theorem tends_whileRounds {condition : Expr β} {body : Stmt β} (rounds : Nat)
    (hm : m.Within pending world) :
    (whileRounds (σ := .frames hops) condition body rounds).TendsJump pending world m := by
  induction rounds generalizing m world with
  | zero => exact tends_perform (Eval.tends_halt hm.sound)
  | succ rounds ih =>
    refine (tends_eval hm condition).bind fun v n later hn _ => ?_
    split
    · refine (tends_exec (hm.evolves hn) body).bind fun jump k last hk hjump => ?_
      split
      · exact tends_pure hk.sound trivial
      · exact tends_pure hk.sound hjump
      · exact ih ((hm.evolves hn).evolves hk)
    · exact tends_pure hn.sound trivial

theorem tends_doWhileRounds {body : Stmt β} {condition : Expr β} (rounds : Nat)
    (hm : m.Within pending world) :
    (doWhileRounds (σ := .frames hops) body condition rounds).TendsJump pending world m := by
  induction rounds generalizing m world with
  | zero => exact tends_perform (Eval.tends_halt hm.sound)
  | succ rounds ih =>
    refine (tends_exec hm body).bind fun jump n later hn hjump => ?_
    split
    · exact tends_pure hn.sound trivial
    · exact tends_pure hn.sound hjump
    · refine (tends_eval (hm.evolves hn) condition).bind fun v k last hk _ => ?_
      split
      · exact ih ((hm.evolves hn).evolves hk)
      · exact tends_pure hk.sound trivial

theorem Stmt.tends_body (rounds depth : Nat) (s : Stmt β) (hm : m.Within pending world) :
    (s.body (σ := .frames hops) rounds depth).TendsJump pending world m := by
  match s with
  | .expression value =>
    exact (tends_eval hm value).bind fun _ n later hn _ => tends_pure hn.sound trivial
  | .print value =>
    refine (tends_eval hm value).bind fun v n later hn _ => ?_
    refine Tends.bind (R := fun _ _ _ => True) (tends_perform (x := printValue depth v) ?_)
      fun _ k last hk _ => tends_pure hk.sound trivial
    refine (Eval.looks_tends hn.sound Eval.looks_text).bind fun _ k last hk _ => ?_
    exact ⟨last, .of_sameState hk.sound ⟨rfl, rfl⟩, trivial⟩
  | .var name initializer =>
    refine (tends_evalOption hm initializer).bind fun v n later hn hv => ?_
    exact (tends_perform (tends_declareVariable hn.sound hv)).bind fun _ k last hk _ =>
      tends_pure hk.sound trivial
  | .block body =>
    refine Tends.bind (R := fun inner _ later => inner ∈ later)
      (tends_perform (x := openBlock) (Eval.tends_scope
        (Eval.tends_enter hm.sound hm.scope (by simp)))) fun inner n later hn hinner => ?_
    exact tends_block (hm.evolves hn) hinner body
  | .branch condition yes none =>
    refine (tends_eval hm condition).bind fun v n later hn _ => ?_
    split
    · exact tends_exec (hm.evolves hn) yes
    · exact tends_pure hn.sound trivial
  | .branch condition yes (some no) =>
    refine (tends_eval hm condition).bind fun v n later hn _ => ?_
    split
    · exact tends_exec (hm.evolves hn) yes
    · exact tends_exec (hm.evolves hn) no
  | .whileLoop condition body => exact tends_whileRounds rounds hm
  | .doWhile body condition => exact tends_doWhileRounds rounds hm
  | .breakLoop line => exact tends_pure hm.sound trivial
  | .continueLoop line => exact tends_pure hm.sound trivial
  | .returnValue line value =>
    exact (tends_evalOption hm value).bind fun v n later hn hv => tends_pure hn.sound hv
  | .function decl =>
    exact (tends_perform (tends_declareFunction hm.sound hm.scope)).bind fun _ n later hn _ =>
      tends_pure hn.sound trivial
  | .classDecl name superclass methods =>
    exact (tends_perform (tends_declareClass hm.sound hm.scope)).bind fun _ n later hn _ =>
      tends_pure hn.sound trivial
  | .marker line kind =>
    exact (tends_perform (Eval.tends_trace hm.sound)).bind fun _ n later hn _ =>
      tends_pure hn.sound trivial

theorem Stmt.tends_untilJump (body : List (Stmt β)) (hm : m.Within pending world) :
    (Stmt.untilJump (σ := .frames hops) body).TendsJump pending world m := by
  induction body generalizing m world with
  | nil => exact tends_pure hm.sound trivial
  | cons s body ih =>
    refine (tends_exec hm s).bind fun jump n later hn hjump => ?_
    cases jump with
    | some jump => exact tends_pure hn.sound hjump
    | none => exact ih (hm.evolves hn)

/-! ### Runs -/

/-- **All programs keep the contract.** -/
theorem upkeep_kept (hops : β → Hops) (pending : List Chain) (rounds : Nat) :
    (upkeep hops pending).Kept rounds where
  body depth world t m ht := by
    obtain ⟨hm, ht⟩ := ht
    cases t with
    | eval e => exact e.tends_body depth hm
    | call callee arguments paren => exact tends_callBody hm ht.1 ht.2
    | invoke callee arguments paren => exact tends_invokeBody depth hm ht.1 ht.2
    | block inner body =>
      -- The chain that was current before the block is current again after it.
      have hinner : Machine.Within pending world { m with scope := inner } :=
        ⟨hm.sound, ht, hm.pending⟩
      refine (Stmt.tends_untilJump body hinner).mono ?_ ?_
      · rintro jump n ⟨later, hn, hjump⟩
        exact ⟨later, ⟨hn.sound, hn.world, hn.store, rfl⟩, hjump⟩
      · rintro h n ⟨later, hn⟩
        exact ⟨later, ⟨hn.sound, hn.world, hn.store, rfl⟩⟩
    | exec s => exact s.tends_body rounds depth hm
  exhausted world t m ht := ⟨world, .refl ht.1.sound⟩

theorem Program.tends_body (program : Program β) (hm : m.Within pending world) :
    (Program.body (σ := .frames hops) program).TendsValue pending world m := by
  have hfold (v : Value) (hv : v.In m.store) :
      (program.foldlM (fun _ (s : Stmt β) => s.topBody (σ := .frames hops)) v).TendsValue pending
        world m := by
    induction program generalizing m world v with
    | nil => exact tends_pure hm.sound hv
    | cons s program ih =>
      rw [List.foldlM_cons]
      refine Tends.bind (R := fun (v : Value) s _ => v.In s) ?_
        fun v n later hn hv => ih (hm.evolves hn) v hv
      unfold Stmt.topBody
      split
      · exact tends_eval hm _
      · refine (tends_exec hm s).bind fun jump n later hn _ => ?_
        split
        · exact tends_pure hn.sound trivial
        · exact tends_perform (Eval.tends_halt hn.sound)
  exact hfold .nil trivial

/-- The chains that are current before and while the task of a point is carried out. -/
def Point.scopes (p : Point (.frames hops)) : List Chain :=
  match p.task with
  | .block inner _ => [p.machine.scope, inner]
  | _ => [p.machine.scope]

theorem Point.mem_of_mem_scopes {p : Point (.frames hops)} (hm : p.machine.Within pending world)
    (ht : p.task.In world p.machine.store) {chain : Chain} (hchain : chain ∈ p.scopes) :
    chain ∈ world := by
  unfold Point.scopes at hchain
  split at hchain
  · rename_i htask
    rw [htask] at ht
    obtain rfl | hchain := List.mem_cons.1 hchain
    · exact hm.scope
    · obtain rfl := List.mem_singleton.1 hchain
      exact ht
  · obtain rfl := List.mem_singleton.1 hchain
    exact hm.scope

/-- What is allowed at a point, with the chains of the points around it pending. -/
theorem Program.Trail.within {rounds depth : Nat} {program : Program β}
    (hm : m.Within [] world) {p : Point (.frames hops)} {outer : List (Point (.frames hops))}
    (h : Program.Trail rounds depth program m (p :: outer)) :
    ∃ later : List Chain, p.machine.Within (outer.flatMap Point.scopes) later ∧
      p.task.In later p.machine.store := by
  induction outer generalizing p with
  | nil =>
    cases h with
    | start hasks =>
      refine (program.tends_body hm).before_of_asks (fun _ _ _ hg => ?_) hasks
      exact (upkeep_kept hops [] rounds).run depth hg
  | cons q outer ih =>
    cases h with
    | step h hcalls =>
      obtain ⟨later, hq, hin⟩ := ih h
      -- The chains of the point that calls are pending from now on.
      have hkept := upkeep_kept hops ((q :: outer).flatMap Point.scopes) rounds
      have hbefore : (upkeep hops ((q :: outer).flatMap Point.scopes)).before later q.task
          q.machine := by
        refine ⟨⟨hq.sound, hq.scope, fun chain hchain => ?_⟩, hin⟩
        obtain hchain | hchain := List.mem_append.1 (List.flatMap_cons ▸ hchain)
        · exact q.mem_of_mem_scopes hq hin hchain
        · exact hq.pending chain hchain
      exact (hkept.body p.depth later q.task q.machine hbefore).before_of_asks
        (fun _ _ _ hg => hkept.run p.depth hg) hcalls.2

/-- **The links come to an end wherever a program comes to,** and after what is done there. -/
theorem Program.Trail.founded {rounds depth : Nat} {program : Program β}
    (hm : m.Within [] world) {p : Point (.frames hops)} {outer : List (Point (.frames hops))}
    (h : Program.Trail rounds depth program m (p :: outer)) :
    p.machine.Founded ((p :: outer).flatMap Point.scopes) ∧
      ((Task.run rounds p.depth p.task).leaves p.machine).Founded
        ((p :: outer).flatMap Point.scopes) := by
  obtain ⟨later, hp, hin⟩ := h.within hm
  have hpending (chain : Chain) (hchain : chain ∈ (p :: outer).flatMap Point.scopes) :
      chain ∈ later := by
    obtain hchain | hchain := List.mem_append.1 (List.flatMap_cons ▸ hchain)
    · exact p.mem_of_mem_scopes hp hin hchain
    · exact hp.pending chain hchain
  have hrun := (upkeep_kept hops _ rounds).run p.depth (g := later) ⟨hp, hin⟩
  have hleft : ∃ last, p.machine.Evolves later
      ((Task.run rounds p.depth p.task).leaves p.machine) last := by
    refine Eval.Ends.leaves (P := fun n => ∃ last, p.machine.Evolves later n last)
      (H := fun _ => True) (hrun.mono ?_ ?_)
    · rintro a n ⟨last, hn, -⟩
      exact ⟨last, hn⟩
    · rintro why n ⟨last, hn⟩
      exact ⟨⟨last, hn⟩, trivial⟩
  obtain ⟨last, hn⟩ := hleft
  refine ⟨hp.sound.founded hp.scope hpending, hn.sound.founded ?_ fun chain hchain => ?_⟩
  · rw [hn.scope]
    exact hn.world.subset hp.scope
  · exact hn.world.subset (hpending chain hchain)

/-! ### Sessions -/

/-- Before anything has run, the global frame is the only one. -/
theorem Store.sound_ofGlobals (natives : List Native) :
    (Store.ofMemory (Frames.ofGlobals (Native.globals natives)) : Store (.frames hops)).Sound
      [globalChain] where
  grown := .root
  frames := rfl
  functions r := List.mem_singleton_self _
  methods c x f hf := by cases hf
  lines c := .inl rfl
  instances o ho := absurd ho (Nat.not_lt_zero _)
  values :=
    { memory := by
        intro r x v hv
        have hv : (Arena.get (Frames.ofGlobals (Native.globals natives)) r).get? x = some v := hv
        rw [Frames.get_ofGlobals] at hv
        split at hv
        · obtain ⟨f, rfl⟩ := Table.forall_get?_ofList (P := fun _ v => ∃ f, v = .native f)
            (by simp) x v hv
          trivial
        · cases hv
      elements := fun r v hv => absurd hv (Array.not_mem_empty v)
      entries := fun r k e he => by cases he
      fields := fun r x v hv => by cases hv }

namespace Session

/-- Texts leave machines within a world. -/
theorem within_leaves_of_within {limits : Limits} {m : Machine .bound}
    (hm : ∃ world, m.Within [] world) (texts : List String) :
    ∃ world, (leaves (run limits) texts m).Within [] world := by
  refine leaves_induction limits (P := fun m => ∃ world, m.Within [] world) ?_ ?_ texts hm
  · rintro m n hmn ⟨world, hm⟩
    exact ⟨world, hm.evolves (.of_sameState hm.sound hmn)⟩
  · rintro text m - ⟨world, hm⟩
    have hrun := (upkeep_kept _ [] limits.rounds).program_run limits.depth
      ((program text).tends_body hm)
    refine Eval.Ends.leaves (P := fun n => ∃ world, n.Within [] world) (H := fun _ => True)
      (hrun.mono ?_ ?_)
    · rintro v n ⟨later, hn, -⟩
      exact ⟨later, hm.evolves hn⟩
    · rintro why n ⟨later, hn⟩
      exact ⟨⟨later, hm.evolves hn⟩, trivial⟩

theorem within_start (natives : List Native) (input : List String) (output : Option String)
    (tracing : Bool) (clock : Clock) :
    ∃ world, (Machine.start natives input output tracing clock).Within [] world := by
  refine ⟨[globalChain], Store.sound_ofGlobals natives, List.mem_singleton_self _, ?_⟩
  simp

/-- At the points of a session, machines are within a world. -/
theorem Visits.within {limits : Limits} {texts : List String} {m : Machine .bound}
    {p : Point .bound} (hp : Visits limits texts m p) (hm : ∃ world, m.Within [] world) :
    ∃ world, p.machine.Within [] world := by
  induction texts generalizing m with
  | nil => exact hp.elim
  | cons text texts ih =>
    obtain ⟨-, hp⟩ | hp := hp
    · obtain ⟨world, hm⟩ := hm
      have hprepared : ((prepare text).leaves m).Within [] world :=
        hm.evolves (.of_sameState hm.sound (sameState_prepare text m))
      obtain ⟨later, hlater, -⟩ := (upkeep_kept _ [] limits.rounds).before_of_visits
        ((program text).tends_body hprepared) hp
      exact ⟨later, hlater⟩
    · exact ih hp (within_leaves_of_within hm [text])

/-- **Links come to an end.** Take any session: between its texts, and wherever the run of an
accepted text comes to, before and after what is done there, each frame is enclosed by at most one
other. From the first frame of the current chain, of one that will be current again, and of one that
a function or a method has, the links lead through the chain, to no frame twice, and end with the
global one; and the links from a class lead through its line, to no class twice, and end with a
class that does not inherit. So each loop that follows links ends, with what is found in the chain
or the line. -/
theorem links_come_to_an_end (limits : Limits) (natives : List Native) (input : List String)
    (output : Option String) (tracing : Bool) (clock : Clock) (earlier : List String) :
    let m := leaves (run limits) earlier (.start natives input output tracing clock)
    (m.Founded [] ∧ m.LoopsEnd []) ∧
      ∀ text, Accepts text → ∀ p outer,
        Program.Trail limits.rounds limits.depth (program text) ((prepare text).leaves m)
          (p :: outer) →
        let pending := (p :: outer).flatMap Point.scopes
        let n := (Task.run limits.rounds p.depth p.task).leaves p.machine
        (p.machine.Founded pending ∧ p.machine.LoopsEnd pending) ∧
          n.Founded pending ∧ n.LoopsEnd pending := by
  intro m
  obtain ⟨world, hm⟩ : ∃ world, m.Within [] world :=
    within_leaves_of_within (within_start natives input output tracing clock) earlier
  have hfounded := hm.sound.founded hm.scope hm.pending
  refine ⟨⟨hfounded, hfounded.loopsEnd⟩, fun text _ p outer htrail => ?_⟩
  have hprepared : ((prepare text).leaves m).Within [] world :=
    hm.evolves (.of_sameState hm.sound (sameState_prepare text m))
  obtain ⟨hp, hn⟩ := htrail.founded hprepared
  exact ⟨⟨hp, hp.loopsEnd⟩, hn, hn.loopsEnd⟩

/-- The function `f` is in the frame that encloses it, and the class `B` inherits from `A`. -/
def circular : String :=
  "var g; \x7b fun f() \x7b\x7d g = f; \x7d class A \x7b\x7d class B < A \x7b\x7d"

theorem links_come_to_an_end_circular :
    let m := leaves (run ⟨20, 9⟩) [circular] (.start [] [] none false ⟨0, []⟩)
    let prepared := (prepare "g;").leaves m
    Accepts "g;" ∧
      (m.store.functions.get ⟨0⟩).scope = [⟨1⟩, globalFrame] ∧
      (Arena.get m.store.memory ⟨1⟩).get? "f" = some (.function ⟨0⟩) ∧
      m.store.line ⟨1⟩ = [⟨1⟩, ⟨0⟩] ∧
      ∃ p, Program.Trail 9 20 (program "g;") prepared [p] ∧
        Leads (p.machine.Encloses ([p].flatMap Point.scopes)) [⟨1⟩, globalFrame] ∧
        Leads p.machine.store.Inherits [⟨1⟩, ⟨0⟩] := by
  intro m prepared
  have haccepts : Accepts "g;" := by decide +kernel
  have hscope : (m.store.functions.get ⟨0⟩).scope = [⟨1⟩, globalFrame] := by decide +kernel
  have hvalue : (Arena.get m.store.memory ⟨1⟩).get? "f" = some (.function ⟨0⟩) := by
    decide +kernel
  have hline : m.store.line ⟨1⟩ = [⟨1⟩, ⟨0⟩] := by decide +kernel
  have hprogram : program "g;" = [.expression (.var ⟨"g", 1⟩ none)] := by
    with_unfolding_all rfl
  let p : Point .bound := ⟨20, .eval (.var ⟨"g", 1⟩ none), prepared⟩
  have htrail : Program.Trail 9 20 (program "g;") prepared [p] := by
    rw [hprogram]
    refine .start ?_
    change (Dialogue.ask p.task _).Asks _ _ _ _
    exact Dialogue.asks_ask_self
  obtain ⟨⟨hfounded, -⟩, -⟩ :=
    (links_come_to_an_end ⟨20, 9⟩ [] [] none false ⟨0, []⟩ [circular]).2 "g;" haccepts p [] htrail
  have hstore : p.machine.store = m.store := (sameState_prepare "g;" m).store
  refine ⟨haccepts, hscope, hvalue, hline, p, htrail, ?_, ?_⟩
  · rw [← hscope, ← hstore]
    exact (hfounded.frames _ .function).1
  · rw [← hline, ← hstore]
    exact (hfounded.classes _).1

end Session

end LoxLang
