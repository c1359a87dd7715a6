import LoxLang.Proofs.Founding
import LoxLang.Proofs.Jumps
import LoxLang.Proofs.Receivers

/-!
# What `this` and `super` are

Where a session comes to a use of `this` or of `super`, the use is in a method of some class, and
there are two points that the session has come to before: the declaration of that class was executed
at one, and at the other an activation of the method has begun, bound to an object. `this` is this
object, and `super` searches from the class on that the superclass clause was when the declaration
was executed (`Session.self_references_are_lexical`). Nothing else is asked for: not the class of
the object, not its fields, and not what the variables are by now that name the classes.
-/

namespace LoxLang

/-! ### Methods that are bound to objects -/

section

variable {β : Type} {hops : β → Hops}

/-- `g` is the method `f`, bound to the object: it sees `this` in front of what the method sees. -/
def Closure.BoundTo (frames : Frames) (object : Value) (f g : Closure (.frames hops)) : Prop :=
  ∃ r, g = { f with scope := r :: f.scope } ∧
    (frames.get r).get? Keyword.thisWord.text = some object

/-- At the point, the body of the method begins to run, bound to the object. The first frame of the
chain is that of the call, in front of what the bound method sees. -/
def Point.Begins (k : Point (.frames hops)) (f : Closure (.frames hops)) (object : Value)
    (chain : Chain) : Prop :=
  ∃ a g, f.BoundTo k.machine.store.memory object g ∧ chain = a :: g.scope ∧
    k.task = .block chain f.decl.body

/-- Binding a method gives a new function. -/
theorem Eval.bindMethod_eq (f : Closure (.frames hops)) (object : Value)
    (m : Machine (.frames hops)) :
    ∃ g n, Eval.bindMethod f object m = .ok (.function g) n ∧ ¬ m.store.functions.Holds g ∧
      n.store.functions.Holds g ∧ f.BoundTo n.store.memory object (n.store.functions.get g) := by
  refine ⟨_, _, rfl, Nat.lt_irrefl _, Arena.holds_alloc_self _ _, (Arena.alloc m.store.memory
    (.ofList [(Keyword.thisWord.text, object)])).1, Arena.get_alloc_self _ _, ?_⟩
  exact Frames.get?_alloc_single m.store.memory _ object

end

/-- The expression is a use of `this` or `super`. -/
def Expr.isSelfRef {β : Type} : Expr β → Bool
  | .thisRef .. | .superRef .. => true
  | _ => false

/-- The point is a use of `super`, with a level of the stack left. -/
def Point.isSuperRef {σ : Scoping} : Point σ → Bool
  | ⟨_ + 1, .eval (.superRef ..), _⟩ => true
  | _ => false

theorem Point.exists_of_isSuperRef {σ : Scoping} {p : Point σ} (h : p.isSuperRef = true) :
    ∃ depth line name mark m, p = ⟨depth + 1, .eval (.superRef line name mark), m⟩ := by
  unfold isSuperRef at h
  split at h
  · exact ⟨_, _, _, _, _, rfl⟩
  · cases h

/-! ### What is found -/

/-- What comes of `super.name` on the machine `m`, by what the search has found: the method is bound
to the object, and if there is none then the property is undefined. -/
def SuperResult (m : Machine .bound) (name : Name) (object : Value)
    (result : EStateM.Result Halt (Machine .bound) Value) : Option (Closure .bound) → Prop
  | some f => ∃ g n, result = .ok (.function g) n ∧ result = Eval.bindMethod f object m ∧
    ¬ m.store.functions.Holds g ∧ f.BoundTo n.store.memory object (n.store.functions.get g)
  | none => result = .error (.fault ⟨.undefinedProperty name.text, some name.token⟩) m

/-- What holds of all that a computation can end with holds of what it does end with. -/
theorem Eval.ends_iff {σ : Scoping} {α : Type} {x : Eval σ α} {m : Machine σ}
    {P : EStateM.Result Halt (Machine σ) α → Prop} :
    (x.Ends m (fun a n => P (.ok a n)) fun why n => P (.error why n)) ↔ P (x m) := by
  unfold Ends
  cases x m <;> exact Iff.rfl

theorem Eval.superResult_superMethod {m : Machine .bound} {mark : Hops} {p : Ref .cls}
    {object : Value} (h : Frames.inherited m.store.memory m.scope mark = .ok (.cls p, object))
    (name : Name) :
    SuperResult m name object (Eval.superMethod (σ := .bound) mark name m)
      (m.store.method? p name.text) := by
  refine (ends_iff (P := fun result =>
    SuperResult m name object result (m.store.method? p name.text))).1 ?_
  refine ends_bind.2 (ends_get.2 (ends_bind.2 ?_))
  simp only [id_eq]
  rw [h]
  refine ends_expect_ok.2 ?_
  cases hf : m.store.method? p name.text with
  | none =>
    simp only [hf]
    exact rfl
  | some f =>
    simp only [hf]
    obtain ⟨g, n, hbind, hnew, -, hbound⟩ := bindMethod_eq f object m
    exact (ends_iff (P := fun result => SuperResult m name object result (some f))).2
      ⟨g, n, hbind, rfl, hnew, hbound⟩

/-- A use that is bound to a number of hops gives the value that is found there. -/
theorem Eval.readVariable_of_valueAt {β : Type} {hops : β → Hops} {m : Machine (.frames hops)}
    {mark : β} {d : Nat} {v : Value} (hd : hops mark = some d) (token : Token)
    (hv : Frames.valueAt m.store.memory m.scope d token.lexeme = .ok v) :
    Eval.readVariable (σ := .frames hops) mark token m = .ok v m := by
  obtain ⟨r, hr, hget⟩ := Frames.valueAt_eq_ok_iff.1 hv
  refine (ends_iff (P := fun result => result = .ok v m)).1 ?_
  refine ends_bind.2 (ends_bind.2 (ends_get.2 ?_))
  simp only [Frames.locate, hd, Frames.frameAt, hr]
  refine ends_bind.2 (ends_store.2 ?_)
  simp only [hget]
  exact rfl

/-- A task that only acts does what the act does. -/
theorem Task.run_eval_of_perform {σ : Scoping} {rounds depth : Nat} {e : Expr σ.Mark}
    {x : Eval σ Value} (hbody : e.body depth = .perform x) (m : Machine σ) :
    Task.run rounds (depth + 1) (.eval e) m = x m := by
  have hrun : (Task.body rounds depth (.eval e)).run (Task.run rounds depth) = x := by
    rw [Task.body, hbody, Dialogue.run_perform]
  cases hx : x m with
  | ok a n => exact Task.run_of_ok (t := .eval e) ((congrFun hrun m).trans hx)
  | error why n => exact Task.run_of_error (t := .eval e) ((congrFun hrun m).trans hx)

/-! ### Where the method comes from -/

section

variable {ι : Type} {M : Marking ι} {s : Store M.scoping} {c : Ref .cls}

/-- The method of an activation is one of the declaration that its class was made by. -/
theorem Store.Activation.exists_method {V : Task M.scoping → Machine M.scoping → Prop}
    {f : Closure M.scoping} {object : Ref .object} {front : Chain} {a r : Ref .frame}
    (hact : s.Activation V c f object front a r) {q : Point M.scoping}
    {parent : Option (Ref .cls)} {methods : List (Function M.Mark)} {scope : Chain}
    (hq : q.Declares s c parent methods scope) :
    ∃ method ∈ methods, f = .ofMethod scope method := by
  obtain ⟨x, hx⟩ := hact.method
  obtain ⟨name, superclass, -, -, hget⟩ := hq.executed
  rw [hget] at hx
  refine Table.forall_get?_ofList (P := fun _ (f : Closure M.scoping) =>
    ∃ method ∈ methods, f = .ofMethod scope method) (fun e he => ?_) x f hx
  obtain ⟨method, hmethod, rfl⟩ := List.mem_map.1 he
  exact ⟨method, hmethod, rfl⟩

end

section

variable {σ : Scoping} {s t : Store σ} {c p : Ref .cls} {q : Point σ}
  {parent : Option (Ref .cls)} {methods : List (Function σ.Mark)} {scope : σ.Scope}

/-- A class inherits from what its superclass clause was. -/
theorem Point.Declares.parent_eq (hq : q.Declares s c parent methods scope)
    (hp : (s.classes.get c).ancestors.head? = some p) : parent = some p := by
  obtain ⟨name, superclass, -, -, hget⟩ := hq.executed
  rw [hget] at hp
  cases parent with
  | none => cases hp
  | some p' => exact hp

/-- Later classes have no part in what is found in a line. -/
theorem Store.method?_of_le (hle : s.classes.Le t.classes)
    (hline : ∀ p ∈ s.line c, s.classes.Holds p) (x : String) : t.method? c x = s.method? c x := by
  have hget (p : Ref .cls) (hp : p ∈ s.line c) : t.classes.get p = s.classes.get p :=
    (hle p (hline p hp)).2
  have hsame : t.line c = s.line c := by
    rw [line, line, hget c List.mem_cons_self]
  rw [method?, method?, hsame]
  have hfind (l : List (Ref .cls)) (hl : l ⊆ s.line c) :
      (l.findSome? fun p => (t.classes.get p).methods.get? x) =
        l.findSome? fun p => (s.classes.get p).methods.get? x := by
    induction l with
    | nil => rfl
    | cons p l ih =>
      obtain ⟨hp, hl⟩ := List.cons_subset.1 hl
      rw [List.findSome?_cons, List.findSome?_cons, hget p hp, ih hl]
  exact hfind _ (List.Subset.refl _)

end

/-- The search along superclasses, as it is when the class is declared, finds what it finds now. -/
theorem Point.Declares.finds {s : Store .bound} {c p : Ref .cls} {q : Point .bound}
    {methods : List (Function Hops)} {scope : Chain}
    (hq : q.Declares s c (some p) methods scope) (hwithin : ∃ world, q.machine.Within [] world)
    (x : String) :
    Finds q.machine.store.Inherits (fun c => (q.machine.store.classes.get c).methods.get? x) p
      (s.method? p x) := by
  obtain ⟨world, hworld⟩ := hwithin
  obtain ⟨name, superclass, -, hparent, -⟩ := hq.executed
  obtain ⟨-, -, hholds⟩ := (tends_superclass? hworld.sound).of_ok hparent
  have hline (p' : Ref .cls) (hp' : p' ∈ q.machine.store.line p) :
      q.machine.store.classes.Holds p' :=
    hworld.sound.holds_of_mem_line (hholds p rfl) hp'
  rw [Store.method?_of_le hq.kept hline]
  exact (hworld.sound.leads_line p).finds

/-! ### Sessions -/

namespace Session

variable {limits : Limits}

/-- The program of an accepted text is bound, and nothing was reported about it. -/
theorem boundAt_program {text : String} (h : Accepts text) :
    Stmt.AllBoundAt (.plain : Marking Unit) (fun _ => True) (.top ()) (program text) :=
  Program.boundAt_resolveWith (Source.proper_ofText text) fun _ => h.2

variable {V : Task .bound → Machine .bound → Prop} {text : String} {texts : List String}
  {m : Machine .bound}

/-- The run of an accepted text keeps machines situated, and comes only to what is in an activation
if it is in a method. -/
theorem receivers_program (haccepts : Accepts text)
    (hV : ∀ q, Visits limits [text] m q → V q.task q.machine)
    (hm : Store.Situated (M := (.plain : Marking Unit)) V m.store) :
    (Program.run (σ := .bound) limits.rounds limits.depth (program text)).Ends
      ((prepare text).leaves m)
      (fun _ n => Store.Situated (M := (.plain : Marking Unit)) V n.store)
      (fun _ n => Store.Situated (M := (.plain : Marking Unit)) V n.store) ∧
    ∀ p, (program text).Visits limits.rounds limits.depth ((prepare text).leaves m) p →
      ∃ site, (receivers (M := (.plain : Marking Unit)) V).before site p.task p.machine := by
  have hprepared : Store.Situated (M := (.plain : Marking Unit)) V
      ((prepare text).leaves m).store := by
    rw [(sameState_prepare text m).store]
    exact hm
  obtain ⟨hrun, hpoints⟩ :=
    (receivers_kept (M := (.plain : Marking Unit)) V limits.rounds).program_run
      (fun q hq => hV q (.inl ⟨haccepts, hq⟩))
      (Program.settles_body hprepared (boundAt_program haccepts))
  exact ⟨hrun.mono (fun _ _ h => h.situated) fun _ _ h => h.situated, hpoints⟩

theorem situated_run (hV : ∀ q, Visits limits [text] m q → V q.task q.machine)
    (hm : Store.Situated (M := (.plain : Marking Unit)) V m.store) :
    Store.Situated (M := (.plain : Marking Unit)) V ((run limits text).leaves m).store := by
  rw [(sameState_run limits text m).store]
  unfold ran
  split
  · rename_i haccepts
    refine Eval.Ends.leaves (P := fun n => Store.Situated (M := (.plain : Marking Unit)) V n.store)
      (H := fun _ => True) ((receivers_program haccepts hV hm).1.mono ?_ ?_)
    · exact fun _ _ h => h
    · exact fun _ _ h => ⟨h, trivial⟩
  · exact hm

/-- **Points**: what a session comes to is in an activation, if it is in a method. -/
theorem Visits.receivers {p : Point .bound} (hp : Visits limits texts m p)
    (hV : ∀ q, Visits limits texts m q → V q.task q.machine)
    (hm : Store.Situated (M := (.plain : Marking Unit)) V m.store) :
    ∃ site, (LoxLang.receivers (M := (.plain : Marking Unit)) V).before site p.task p.machine := by
  induction texts generalizing m with
  | nil => exact hp.elim
  | cons text texts ih =>
    have hfirst (q : Point .bound) (hq : Visits limits [text] m q) : V q.task q.machine :=
      hV q (hq.imp_right fun h => h.elim)
    obtain ⟨haccepts, hp⟩ | hp := hp
    · exact (receivers_program haccepts hfirst hm).2 p hp
    · exact ih hp (fun q hq => hV q (.inr hq)) (situated_run hfirst hm)

/-- The points at which the class of an activation was declared, and at which the activation
began. -/
theorem exists_of_activation {Comes : Point .bound → Prop} {c : Ref .cls} {f : Closure .bound}
    {object : Ref .object} {front : Chain} {a r : Ref .frame} {e : Expr Hops}
    (hact : Store.Activation (M := (.plain : Marking Unit))
      (fun t n => ∃ depth, Comes ⟨depth, t, n⟩)
      m.store c f object front a r)
    (hchain : m.scope = front ++ a :: r :: f.scope) (he : e ∈ f.decl.selfRefs)
    (hmade : ∀ c, m.store.classes.Holds c → m.store.Made Comes c) :
    ∃ q parent methods scope method k,
      (Comes q ∧ q.Declares m.store c parent methods scope) ∧
      (method ∈ methods ∧ e ∈ method.selfRefs) ∧
      (Comes k ∧ k.Begins (.ofMethod scope method) (.object object) (a :: r :: scope)) ∧
      (m.scope = front ++ a :: r :: scope ∧
        ∀ b ∈ front, (Arena.get m.store.memory b).get? Keyword.thisWord.text = none) := by
  obtain ⟨x, hx⟩ := hact.method
  obtain ⟨q, parent, methods, scope, hq, hdeclares⟩ := hmade c (Store.holds_of_method hx)
  obtain ⟨method, hmethod, rfl⟩ := hact.exists_method hdeclares
  obtain ⟨n, ⟨depth, hk⟩, hthis⟩ := hact.begun
  refine ⟨q, parent, methods, scope, method, _, ⟨hq, hdeclares⟩, ⟨hmethod, he⟩, ⟨hk, ?_⟩,
    hchain, ?_⟩
  · exact ⟨a, _, ⟨r, rfl, hthis⟩, rfl, rfl⟩
  · exact fun b hb => (hact.inner b (List.mem_cons_of_mem a hb)).2

/-- **`this` and `super` are lexical.** Wherever a session comes to a use of one of them, the use is
in a method of a class, not counting the classes inside of the method. The session has come to the
declaration of the class, at `q`, and to the beginning of an activation of the method, at `k`. The
current chain goes on from that activation, with no other activation in between. The use of `this`
gives the object that the activation is bound to. The use of `super` gives the method that the
search along superclasses finds first, from the class on that the superclass clause was at `q`,
bound to the same object, and halts if there is none. -/
theorem self_references_are_lexical (limits : Limits) (natives : List Native) (input : List String)
    (output : Option String) (tracing : Bool) (clock : Clock) (texts : List String) (depth : Nat)
    (e : Expr Hops) (m : Machine .bound) (he : e.isSelfRef = true)
    (hvisits : Visits limits texts (.start natives input output tracing clock)
      ⟨depth + 1, .eval e, m⟩) :
    let Comes := Visits limits texts (.start natives input output tracing clock)
    let result := Task.run limits.rounds (depth + 1) (.eval e) m
    ∃ q c parent methods scope method k object front chain,
      (Comes q ∧ q.Declares m.store c parent methods scope) ∧
      (method ∈ methods ∧ e ∈ method.selfRefs) ∧
      (Comes k ∧ k.Begins (.ofMethod scope method) (.object object) chain) ∧
      (m.scope = front ++ chain ∧
        ∀ b ∈ front, (Arena.get m.store.memory b).get? Keyword.thisWord.text = none) ∧
      (∀ line mark, e = .thisRef line mark → result = .ok (.object object) m) ∧
      ∀ line name mark, e = .superRef line name mark → ∃ p found, parent = some p ∧
        Finds q.machine.store.Inherits
          (fun c => (q.machine.store.classes.get c).methods.get? name.text) p found ∧
        SuperResult m name (.object object) result found := by
  intro Comes result
  obtain ⟨site, hsituated, huses, hplace⟩ := hvisits.receivers
    (V := fun t n => ∃ depth, Comes ⟨depth, t, n⟩) (fun q hq => ⟨q.depth, hq⟩)
    (Store.situated_ofMemory () _)
  have hm : Machine.In (M := (.plain : Marking Unit)) _ site e.selfRefs m := ⟨hsituated, hplace⟩
  -- There are no classes at the start, so each one was declared in the course of the session.
  have hmade (c : Ref .cls) (hc : m.store.classes.Holds c) : m.store.Made Comes c :=
    (hvisits.bears.made c hc).resolve_left (Nat.not_lt_zero _)
  cases e with
  | thisRef line mark =>
    obtain ⟨rfl, d, hd⟩ := huses.2 trivial
    obtain ⟨c, f, object, front, a, r, hact, hchain, hrefs, hvalue⟩ := hm.exists_this hd
    obtain ⟨q, parent, methods, scope, method, k, hq, hmethod, hk, hscope⟩ :=
      exists_of_activation hact hchain (hrefs List.mem_cons_self) hmade
    refine ⟨q, c, parent, methods, scope, method, k, object, front, _, hq, hmethod, hk, hscope,
      ?_, ?_⟩
    · rintro _ _ -
      have hmark :
          (.plain : Marking Unit).hops (site.mark .plain Keyword.thisWord.text) = some d := hd
      exact (Task.run_eval_of_perform rfl m).trans
        (Eval.readVariable_of_valueAt hmark (.ofKeyword .thisWord line) hvalue)
    · intro _ _ _ heq
      cases heq
  | superRef line name mark =>
    obtain ⟨c, f, object, front, a, r, p, hact, hchain, hrefs, hp, hinherited⟩ :=
      hm.exists_super huses
    obtain ⟨q, parent, methods, scope, method, k, hq, hmethod, hk, hscope⟩ :=
      exists_of_activation hact hchain (hrefs List.mem_cons_self) hmade
    refine ⟨q, c, parent, methods, scope, method, k, object, front, _, hq, hmethod, hk, hscope,
      ?_, ?_⟩
    · intro _ _ heq
      cases heq
    · intro _ _ _ heq
      cases heq
      -- What the class inherits from has not changed since its declaration at `q`, nor have the
      -- methods of the classes that there were then: the search may as well be done at `q`.
      obtain rfl := hq.2.parent_eq hp
      refine ⟨p, m.store.method? p name.text, rfl, ?_, ?_⟩
      · exact hq.2.finds (hq.1.within (within_start natives input output tracing clock)) name.text
      · have hrun : result = Eval.superMethod (σ := .bound) mark name m :=
          Task.run_eval_of_perform rfl m
        rw [hrun]
        exact Eval.superResult_superMethod hinherited name
  | _ => cases he

/-- A class `B` with a function that is returned from a method, and a class `C` that inherits from
it. -/
def family : String :=
  "class A \x7b m() \x7b\x7d \x7d " ++
  "class B < A \x7b n() \x7b fun f() \x7b return super.m; \x7d return f; \x7d \x7d " ++
  "class C < B \x7b m() \x7b\x7d \x7d"

/-- The function is called after the method has returned, and `A` is no longer a class. -/
def orphaned : String := "A = nil; C().n()();"

theorem self_references_are_lexical_orphaned :
    let Comes := Visits ⟨20, 9⟩ [family, orphaned] (.start [] [] none false ⟨0, []⟩)
    ∃ depth line name mark m, Comes ⟨depth + 1, .eval (.superRef line name mark), m⟩ ∧
      ∃ q c p methods scope object found, Comes q ∧ q.Declares m.store c (some p) methods scope ∧
        Finds q.machine.store.Inherits
          (fun c => (q.machine.store.classes.get c).methods.get? name.text) p found ∧
        SuperResult m name (.object object)
          (Task.run 9 (depth + 1) (.eval (.superRef line name mark)) m) found := by
  intro Comes
  have haccepts : Accepts orphaned := by decide +kernel
  have hany : ((program orphaned).points 9 20 ((prepare orphaned).leaves
      ((run ⟨20, 9⟩ family).leaves (.start [] [] none false ⟨0, []⟩)))).any Point.isSuperRef =
        true := by
    decide +kernel
  obtain ⟨p, hp, hsuper⟩ := List.any_eq_true.1 hany
  obtain ⟨depth, line, name, mark, m, rfl⟩ := Point.exists_of_isSuperRef hsuper
  have hvisits : Comes ⟨depth + 1, .eval (.superRef line name mark), m⟩ :=
    .inr (.inl ⟨haccepts, Program.mem_points_iff.1 hp⟩)
  obtain ⟨q, c, parent, methods, scope, method, k, object, front, chain, hq, -, -, -, -, hfound⟩ :=
    self_references_are_lexical ⟨20, 9⟩ [] [] none false ⟨0, []⟩ [family, orphaned] depth _ m rfl
      hvisits
  obtain ⟨p, found, rfl, hfinds, hresult⟩ := hfound line name mark rfl
  exact ⟨depth, line, name, mark, m, hvisits, q, c, p, methods, scope, object, found, hq.1, hq.2,
    hfinds, hresult⟩

end Session

end LoxLang
