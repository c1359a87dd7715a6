import LoxLang.Proofs.Agreement
import LoxLang.Proofs.Courses
import LoxLang.Proofs.Founding
import LoxLang.Proofs.Receivers

/-!
# What lasts

Functions do not change once they are there, an object keeps its class, and `this` stays what it is
in every frame that has it (`Store.Lasts`): no variable is called like a keyword, so nothing that is
declared or assigned gets in its way. And wherever a frame has `this`, it is an object
(`Store.Receives`). Both hold throughout the runs of programs that have been bound, whatever is
reported about them (`Program.lasts`).
-/

namespace LoxLang

variable {β : Type} {hops : β → Hops}

/-! ### Stores -/

/-- Wherever a frame has `this`, it is an object. -/
def Store.Receives (s : Store (.frames hops)) : Prop :=
  ∀ r v, (Arena.get s.memory r).get? Keyword.thisWord.text = some v → ∃ o, v = .object o

/-- The second store has the functions of the first, its objects with their classes, and its frames
with the keywords in them, and `this` has not become anything but an object. -/
structure Store.Lasts (s t : Store (.frames hops)) : Prop where
  functions : s.functions.Le t.functions
  frames : Frames.Settled s.memory t.memory
  objects : ∀ o, s.objects.Holds o →
    t.objects.Holds o ∧ (t.objects.get o).cls = (s.objects.get o).cls
  receives : s.Receives → t.Receives

namespace Store.Lasts

variable {s t u : Store (.frames hops)}

theorem refl (s : Store (.frames hops)) : s.Lasts s :=
  ⟨.refl _, .refl _, fun _ h => ⟨h, rfl⟩, id⟩

theorem trans (h : s.Lasts t) (h' : t.Lasts u) : s.Lasts u := by
  refine ⟨h.functions.trans h'.functions, h.frames.trans h'.frames, fun o ho => ?_,
    fun hs => h'.receives (h.receives hs)⟩
  obtain ⟨ht, hcls⟩ := h.objects o ho
  obtain ⟨hu, hcls'⟩ := h'.objects o ht
  exact ⟨hu, hcls'.trans hcls⟩

/-- Neither functions nor objects nor frames have changed. -/
theorem of_eq (hfunctions : t.functions = s.functions) (hmemory : t.memory = s.memory)
    (hobjects : t.objects = s.objects) : s.Lasts t := by
  refine ⟨hfunctions ▸ .refl _, ?_, ?_, ?_⟩
  · rw [hmemory]
    exact .refl _
  · intro o ho
    rw [hobjects]
    exact ⟨ho, rfl⟩
  · intro hs r v hv
    rw [hmemory] at hv
    exact hs r v hv

/-- No variable is called `this`. -/
theorem define {r : Ref .frame} {x : String} {v : Value} (hx : Keyword.ofText? x = none) :
    s.Lasts { s with memory := Frames.define s.memory r x v } := by
  refine ⟨.refl _, Frames.settled_define hx, fun _ h => ⟨h, rfl⟩, fun hs r' w hw => ?_⟩
  rw [Frames.get?_define_of_ne (Keyword.text_ne_of_ofText? hx .thisWord)] at hw
  exact hs r' w hw

theorem enter (chain : Chain) {locals : List (String × Value)}
    (hlocals : s.Receives → ∀ e ∈ locals, e.1 = Keyword.thisWord.text → ∃ o, e.2 = .object o) :
    s.Lasts (s.enter chain locals).2 := by
  refine ⟨.refl _, Frames.settled_alloc _, fun _ h => ⟨h, rfl⟩, fun hs r v hv => ?_⟩
  have hv : ((Arena.alloc s.memory (.ofList locals)).2.get r).get? Keyword.thisWord.text = some v :=
    hv
  rw [Arena.get_alloc] at hv
  split at hv
  · exact Table.forall_get?_ofList (P := fun x v => x = Keyword.thisWord.text → ∃ o, v = .object o)
      (hlocals hs) _ v hv rfl
  · exact hs r v hv

/-- A scope that is opened with variables that are not called like keywords. -/
theorem enter_proper (chain : Chain) {params : List Name} (hparams : ∀ n ∈ params, n.Proper)
    (arguments : List Value) :
    s.Lasts (s.enter chain ((params.map Name.text).zip arguments)).2 := by
  refine enter chain fun _ e he hthis => ?_
  obtain ⟨n, hn, hname⟩ := List.mem_map.1 (List.of_mem_zip he).1
  exact absurd (hthis.symm.trans hname.symm) (Keyword.text_ne_of_ofText? (hparams n hn) .thisWord)

theorem newFunction (f : Closure (.frames hops)) : s.Lasts (s.newFunction f).2 :=
  ⟨Arena.le_alloc f, .refl _, fun _ h => ⟨h, rfl⟩, id⟩

theorem newObject (c : Ref .cls) : s.Lasts (s.newObject c).2 := by
  refine ⟨.refl _, .refl _, fun o ho => ⟨Arena.holds_alloc_of_holds _ ho, ?_⟩, id⟩
  exact congrArg Object.cls (Arena.get_alloc_of_holds _ ho)

theorem setField (object : Ref .object) (name : String) (v : Value) :
    s.Lasts (s.setField object name v) := by
  refine ⟨.refl _, .refl _, fun o ho => ⟨?_, ?_⟩, id⟩
  · exact (Arena.holds_modify_iff _ _ _ _).2 ho
  · exact Store.cls_setField object o name v

/-- A method is bound to an object. -/
theorem bindMethod (f : Closure (.frames hops)) {object : Value}
    (hobject : s.Receives → ∃ o, object = .object o) : s.Lasts (s.bindMethod f object).2 := by
  refine enter f.scope fun hs e he _ => ?_
  obtain rfl := List.mem_singleton.1 he
  exact hobject hs

end Store.Lasts

/-! ### Operations -/

/-- The operation declares or writes nothing that is called like a keyword, and opens no scope with
a `this` that is not an object. -/
def Op.Tidy : Op (.frames hops) → Prop
  | announce x => Keyword.ofText? x = none
  | put slot _ => Keyword.ofText? slot.2 = none
  | enter _ locals => ∀ e ∈ locals, e.1 = Keyword.thisWord.text → ∃ o, e.2 = .object o
  | _ => True

theorem Op.Tidy.lasts {op : Op (.frames hops)} (hop : op.Tidy) (m : Machine (.frames hops)) :
    m.store.Lasts (op.apply m).store := by
  cases op with
  | announce x =>
    rcases Eval.leaves_announce x m with h | ⟨update, hupdate, h⟩
    · rw [Op.apply, h]
      exact .refl _
    · rw [Op.apply, h]
      obtain ⟨frame, rfl⟩ := Frames.exists_of_announce hupdate
      exact .define hop
  | put slot v => exact .define hop
  | enter scope locals => exact .enter scope fun _ => hop
  | newFunction closure => exact .newFunction closure
  | newObject cls => exact .newObject cls
  | setField object name v => exact .setField object name v
  | trace words =>
    obtain ⟨errors, h⟩ := Eval.leaves_trace words m
    rw [Op.apply, h]
    exact .refl _
  | readLine =>
    rcases Eval.leaves_readLine m with h | ⟨line, lines, -, h⟩
    · rw [Op.apply, h]
      exact .refl _
    · rw [Op.apply, h]
      exact .refl _
  | _ => exact .of_eq rfl rfl rfl

/-- The place of a variable has its name. -/
theorem Scoping.Names.snd_eq {x : String} {slot : Ref .frame × String}
    (h : (Scoping.frames hops).Names x slot) : slot.2 = x := by
  rcases h with ⟨memory, scope, mark, h⟩ | ⟨scope, update, memory, hupdate, rfl⟩
  · have hslot : Frames.locate memory scope (hops mark) x = .ok slot := h
    unfold Frames.locate at hslot
    split at hslot
    · rename_i d _
      cases hframe : Frames.frameAt scope d with
      | ok frame =>
        rw [hframe] at hslot
        cases hslot
        rfl
      | error why =>
        rw [hframe] at hslot
        cases hslot
    · split at hslot
      · cases hslot
        rfl
      · cases hslot
  · obtain ⟨frame, rfl⟩ := Frames.exists_of_announce hupdate
    rfl

/-! ### Tasks -/

section Tasks

open Dialogue Eval

variable {rounds depth : Nat} {m : Machine (.frames hops)}
  {answers : (t : Task (.frames hops)) → Eval (.frames hops) t.Answer}

/-- What lasts, from one machine to another. -/
abbrev Machine.Lasts (m n : Machine (.frames hops)) : Prop := m.store.Lasts n.store

theorem Eval.Does.lasts {α : Type} {x : Eval (.frames hops) α} (hx : x.Does Op.Tidy)
    (m : Machine (.frames hops)) : m.Lasts (x.leaves m) :=
  hx.leaves (R := Machine.Lasts) (fun m => .refl m.store) .trans (fun m _ hop => hop.lasts m) m

/-- A task that does not depend on the machine for the scopes that it opens. -/
theorem Task.moves_of_name {t : Task (.frames hops)} (hopens : t.opensAny = false)
    (hname : ∀ x, t.name? = some x → Keyword.ofText? x = none) (m : Machine (.frames hops)) :
    (t.body rounds depth).Moves answers Machine.Lasts m := by
  refine Acts.moves ((t.acts_body rounds depth).mono fun hx m => ?_) m
  refine (hx.mono fun op hop => ?_).lasts m
  cases op with
  | announce x => exact hname x hop
  | put slot v =>
    obtain ⟨x, hx, hslot⟩ := hop
    have hproper := hname x hx
    rwa [← hslot.snd_eq] at hproper
  | enter scope locals =>
    rcases hop with hany | rfl | ⟨c, rfl⟩ | ⟨object, rfl⟩
    · rw [hopens] at hany
      cases hany
    · exact fun e he => absurd he List.not_mem_nil
    · intro e he hthis
      obtain rfl := List.mem_singleton.1 he
      have hne : Keyword.superWord.text ≠ Keyword.thisWord.text := by decide
      exact absurd hthis hne
    · intro e he _
      obtain rfl := List.mem_singleton.1 he
      exact ⟨object, rfl⟩
  | _ => trivial

/-- What a method of the superclass is bound to is `this`. -/
theorem Eval.lasts_superMethod (mark : β) (name : Name) (m : Machine (.frames hops)) :
    m.Lasts ((superMethod (σ := .frames hops) mark name).leaves m) := by
  have hends : (superMethod (σ := .frames hops) mark name).Ends m (fun _ n => m.Lasts n)
      fun _ n => m.Lasts n ∧ True := by
    refine ends_bind.2 (ends_get.2 (ends_bind.2 ?_))
    cases hfound : (Scoping.frames hops).inherited m.store.memory m.scope mark with
    | error d => exact ⟨.refl _, trivial⟩
    | ok found =>
      obtain ⟨parent, object⟩ := found
      have hobject (hs : m.store.Receives) : ∃ o, object = .object o := by
        obtain ⟨d, -, -, hthis⟩ := Frames.inherited_eq_ok_iff.1 hfound
        obtain ⟨r, -, hr⟩ := Frames.valueAt_eq_ok_iff.1 hthis
        exact hs r object hr
      refine ends_expect_ok.2 ?_
      cases parent with
      | cls c =>
        dsimp only
        cases m.store.method? c name.text with
        | none => exact ⟨.refl _, trivial⟩
        | some f =>
          refine ends_alloc.2 ?_
          exact (Store.Lasts.bindMethod f hobject).trans (.newFunction _)
      | _ => exact ⟨.refl _, trivial⟩
  exact hends.leaves

theorem Closure.moves_apply {f : Closure (.frames hops)} (hparams : ∀ n ∈ f.decl.params, n.Proper)
    (arguments : List Value) (m : Machine (.frames hops)) :
    (f.apply arguments).Moves answers Machine.Lasts m := by
  refine moves_perform_bind (Store.Lasts.enter_proper f.scope hparams arguments) fun inner n _ => ?_
  refine moves_ask_bind fun jump k _ => moves_perform ?_
  exact (Closure.made_result (P := Op.Tidy)).does.lasts k

/-- A call opens a scope for the parameters, and one for `this` if it makes an instance. -/
theorem moves_invokeBody (callee : Value) (arguments : List Value)
    (hfunctions : ∀ ref, ∀ n ∈ (m.store.functions.get ref).decl.params, n.Proper)
    (hmethods : ∀ c x f, m.store.method? c x = some f → ∀ n ∈ f.decl.params, n.Proper) :
    (invokeBody (σ := .frames hops) depth callee arguments).Moves answers Machine.Lasts m := by
  cases callee with
  | function ref =>
    refine moves_store_bind (Store.Lasts.refl _) ?_
    exact Closure.moves_apply (hfunctions ref) arguments m
  | cls c =>
    refine moves_alloc_bind (Store.Lasts.newObject c) ?_
    refine moves_store_bind (Store.Lasts.refl _) ?_
    cases hf : (m.store.newObject c).2.method? c initializerName with
    | none => exact moves_pure
    | some f =>
      refine moves_alloc_bind (Store.Lasts.bindMethod f fun _ => ⟨_, rfl⟩) ?_
      refine Moves.bind (Closure.moves_apply ?_ arguments _) fun _ _ => moves_pure
      exact hmethods c _ f hf
  | native f =>
    refine moves_perform ((Native.made_call (P := Op.Tidy) ?_ trivial ?_ ?_).does.lasts m)
    · exact fun _ _ => trivial
    · exact fun _ _ => trivial
    · exact fun _ => trivial
  | _ => exact moves_perform (Store.Lasts.refl _)

end Tasks

/-! ### Runs -/

section Runs

variable {ι : Type} {M : Marking ι} {clean : ι → Prop} {site : Site ι} {t : Task M.scoping}
  {m : Machine M.scoping} {rounds depth : Nat}

/-- What a task declares or assigns is not called like a keyword. -/
theorem Task.Fits.proper (ht : t.Fits M clean site m) {x : String} (hx : t.name? = some x) :
    Keyword.ofText? x = none := by
  cases t with
  | eval e =>
    cases e with
    | assign name value mark =>
      cases hx
      exact ht.1.1.2
    | _ => cases hx
  | exec s =>
    have hname : ∃ name, s.declared? = some name ∧ name.text = x := by
      cases s with
      | var name initializer => exact ⟨name, rfl, Option.some.inj hx⟩
      | function decl => exact ⟨decl.name, rfl, Option.some.inj hx⟩
      | classDecl name superclass methods => exact ⟨name, rfl, Option.some.inj hx⟩
      | _ => cases hx
    obtain ⟨name, hdeclared, rfl⟩ := hname
    exact ht.1.proper hdeclared
  | _ => cases hx

theorem Function.BoundAt.params {f : Function M.Mark} (hf : f.BoundAt M clean site) :
    ∀ n ∈ f.params, n.Proper := by
  obtain ⟨name, params, body⟩ := f
  exact hf.1

/-- **The acts of bound code** are such that functions, classes of objects and keywords last. -/
theorem Task.moves_body (hfits : m.store.Fits M clean) (ht : t.Fits M clean site m) :
    (t.body rounds depth).Moves (Task.run rounds depth) Machine.Lasts (t.enter m) := by
  by_cases hopens : t.opensAny = true
  · cases t with
    | eval e =>
      cases e with
      | superRef line name mark =>
        exact Dialogue.moves_perform (Eval.lasts_superMethod mark name m)
      | _ => cases hopens
    | invoke callee arguments paren =>
      refine moves_invokeBody callee arguments (fun ref => ?_) fun c x f hf => ?_
      · obtain ⟨site, hdecl, -⟩ := (hfits.functions ref).bound
        exact hdecl.params
      · obtain ⟨c', hf⟩ := Store.Situated.exists_of_method? hf
        obtain ⟨site, hdecl, -⟩ := hfits.methods c' x f hf
        exact hdecl.params
    | _ => cases hopens
  · exact Task.moves_of_name (Bool.not_eq_true _ ▸ hopens) (fun x hx => ht.proper hx) _

/-- Where the points of a run fit, what lasts does so in the course of it. -/
theorem Course.of_fits {V : Point M.scoping → Prop}
    (hV : ∀ p, V p → ∃ site, (soundness M clean).before site p.task p.machine)
    (hclosed : ∀ p q, V p → p.Calls rounds q → V q) : Course rounds V Machine.Lasts where
  refl m := .refl m.store
  trans := .trans
  enter t m := by
    rw [Machine.Lasts, Task.store_enter]
    exact .refl _
  leave t outer m := by
    rw [Machine.Lasts, Task.store_leave]
    exact .refl _
  closed := hclosed
  moves depth t m hp := by
    obtain ⟨site, hfits, ht⟩ := hV _ hp
    exact Task.moves_body hfits ht

end Runs

/-! ### Texts -/

namespace Program

variable {rounds depth : Nat} {texts : List String} {natives : List Native} {input : List String}
  {output : Option String} {tracing : Bool} {clock : Clock} {p : Point .bound}

/-- Whatever is reported about the texts, what their programs come to fits. -/
theorem fits_of_anyVisits (hp : Program.AnyVisits rounds depth (Program.bound texts)
      (.start natives input output tracing clock) p) :
    ∃ site, (soundness (.plain : Marking Unit) fun _ => False).before site p.task p.machine := by
  -- No text counts as clean here, so nothing is asked of what was reported.
  refine Program.before_of_anyVisits (M := (.plain : Marking Unit)) ?_
    (Store.fits_ofGlobals () natives) rfl hp
  intro program hprogram
  obtain ⟨text, -, rfl⟩ := List.mem_map.1 hprogram
  exact ⟨(), Program.boundAt_resolveWith (Source.proper_ofText text) False.elim⟩

variable (rounds depth texts natives input output tracing clock) in
/-- **Functions, classes of objects and `this` last** in the course of any programs. -/
theorem lasts : Course rounds (Program.AnyVisits rounds depth (Program.bound texts)
    (.start natives input output tracing clock)) Machine.Lasts :=
  .of_fits (M := (.plain : Marking Unit)) (fun _ hp => fits_of_anyVisits hp)
    fun _ _ hp hpq => hp.reaches (.single hpq)

theorem receives_start :
    (Machine.start natives input output tracing clock).store.Receives := by
  intro r v hv
  have hv : (Arena.get (Frames.ofGlobals (Native.globals natives)) r).get?
      Keyword.thisWord.text = some v := hv
  rw [Frames.get_ofGlobals] at hv
  split at hv
  · rw [Native.get?_globals_keyword] at hv
    cases hv
  · cases hv

/-- Wherever programs come to, `this` is an object. -/
theorem AnyVisits.receives (hp : Program.AnyVisits rounds depth (Program.bound texts)
      (.start natives input output tracing clock) p) : p.machine.store.Receives :=
  (hp.course (lasts rounds depth texts natives input output tracing clock) fun _ h => h).receives
    receives_start

/-- Wherever programs come to, the store is sound, and what a task is about is there. -/
theorem AnyVisits.upkeep {programs : List (Program Hops)} {m : Machine .bound}
    (hm : ∃ world, m.Within [] world)
    (hp : Program.AnyVisits (σ := .bound) rounds depth programs m p) :
    ∃ world, p.machine.Within [] world ∧ p.task.In world p.machine.store := by
  induction programs generalizing m with
  | nil => exact hp.elim
  | cons program programs ih =>
    obtain ⟨world, hm⟩ := hm
    have hbody := program.tends_body hm
    rcases hp with hp | hp
    · exact (upkeep_kept _ [] rounds).before_of_visits hbody hp
    · refine ih ?_ hp
      refine Eval.Ends.leaves (P := fun n => ∃ world, n.Within [] world) (H := fun _ => True)
        (((upkeep_kept _ [] rounds).program_run depth hbody).mono ?_ ?_)
      · rintro v n ⟨later, hn, -⟩
        exact ⟨later, hm.evolves hn⟩
      · rintro why n ⟨later, hn⟩
        exact ⟨⟨later, hm.evolves hn⟩, trivial⟩

end Program

end LoxLang
