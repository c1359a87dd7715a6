import LoxLang.Proofs.Dispatch
import LoxLang.Proofs.Lasting

/-!
# Making instances

A call of a class that comes to its end gives a new instance of that class, and has begun to run the
nearest `init` in its line once, bound to the instance (`Point.Constructs`). And a call of an `init`
that has been bound to an object gives this object, whatever the body returns. It need not be called
where it was bound (`Point.Binds`): the function may have been stored, and other programs may have
been run since. What makes up for it is that functions last, and so does `this`
(`Program.construction_yields_instance`).
-/

namespace LoxLang

section

variable {σ : Scoping} {α β : Type} {rounds depth : Nat} {m n : Machine σ} {p q : Point σ}

/-! ### Parts of points -/

/-- The points that carrying out the point asks for, one after the other. -/
def Point.parts (rounds : Nat) : Point σ → List (Point σ)
  | ⟨0, _, _⟩ => []
  | ⟨depth + 1, t, m⟩ =>
    ((t.body rounds depth).asked (Task.run rounds depth) (t.enter m)).map
      fun next => ⟨depth, next.1, next.2⟩

theorem Point.parts_of_asked {t : Task σ} {l : List (Task σ × Machine σ)}
    (h : (t.body rounds depth).asked (Task.run rounds depth) (t.enter m) = l) :
    parts rounds ⟨depth + 1, t, m⟩ = l.map fun next => ⟨depth, next.1, next.2⟩ := by
  rw [parts, h]

theorem Point.mem_parts_iff : q ∈ p.parts rounds ↔ p.Calls rounds q := by
  obtain ⟨depth, t, m⟩ := p
  obtain ⟨depth', u, k⟩ := q
  cases depth with
  | zero =>
    refine ⟨fun h => absurd h List.not_mem_nil, fun h => ?_⟩
    exact absurd h.1 (Nat.succ_ne_zero depth').symm
  | succ depth =>
    rw [parts, List.mem_map]
    constructor
    · rintro ⟨⟨u, k⟩, hasked, hq⟩
      cases hq
      exact ⟨rfl, Dialogue.mem_asked_iff.1 hasked⟩
    · rintro ⟨hdepth, hasks⟩
      cases hdepth
      exact ⟨(u, k), Dialogue.mem_asked_iff.2 hasks, rfl⟩

theorem Point.calls_of_parts (h : p.parts rounds = [q]) : p.Calls rounds q :=
  mem_parts_iff.1 (h ▸ List.mem_singleton_self q)

namespace Dialogue

variable {answers : (t : Task σ) → Eval σ t.Answer} {t : Task σ} {x : t.Answer → Eval σ β}
  {f : t.Answer → β → α}

theorem asked_act_of_ok {y : Eval σ β} {next : β → Dialogue σ α} {b : β} (h : y m = .ok b n) :
    (act y next).asked answers m = (next b).asked answers n := by
  rw [asked, h]

/-- A dialogue that asks for one task and then acts. -/
theorem asked_ask_act :
    (ask t fun a => act (x a) fun b => done (f a b)).asked answers m = [(t, m)] := by
  rw [asked]
  cases answers t m with
  | error why k => rfl
  | ok a k =>
    refine congrArg (List.cons (t, m)) ?_
    simp only [asked]
    cases x a k <;> rfl

theorem exists_of_ask_act {v : α}
    (h : (ask t fun a => act (x a) fun b => done (f a b)).run answers m = .ok v n) :
    ∃ a k b, answers t m = .ok a k ∧ x a k = .ok b n ∧ v = f a b := by
  obtain ⟨a, k, ha, h⟩ := Eval.exists_of_bind_ok h
  obtain ⟨b, j, hb, h⟩ := Eval.exists_of_bind_ok h
  cases h
  exact ⟨a, k, b, ha, hb, rfl⟩

end Dialogue

/-! ### Calls that come to their end -/

/-- The point at which the body of a function begins to run. -/
def Closure.entry (depth : Nat) (f : Closure σ) (arguments : List Value) (m : Machine σ) :
    Point σ :=
  let opened := m.store.enter f.scope ((f.decl.params.map Name.text).zip arguments)
  ⟨depth, .block opened.1 f.decl.body, { m with store := opened.2 }⟩

theorem Closure.asked_apply (f : Closure σ) (arguments : List Value) (h : Value → α)
    (m : Machine σ) :
    (f.apply arguments >>= fun v => pure (h v)).asked (Task.run rounds depth) m =
      [((f.entry depth arguments m).task, (f.entry depth arguments m).machine)] :=
  Dialogue.asked_ask_act (f := fun _ v => h v)

/-- A function that comes to its end has run its body, and the rest is `Closure.result`. -/
theorem Closure.exists_of_apply_ok {g : Closure σ} {arguments : List Value} {f : Value → α} {a : α}
    (h : (g.apply arguments >>= fun v => pure (f v)).run (Task.run rounds depth) m = .ok a n) :
    ∃ jump v, g.result jump ((g.entry depth arguments m).left rounds) = .ok v n ∧ a = f v := by
  obtain ⟨jump, k, v, hblock, hresult, rfl⟩ := Dialogue.exists_of_ask_act
    (t := (g.entry depth arguments m).task) (x := g.result) (f := fun _ v => f v) h
  have hleft : (g.entry depth arguments m).left rounds = k := Eval.leaves_of_ok hblock
  exact ⟨jump, v, hleft ▸ hresult, rfl⟩

/-- What an initializer gives is `this`. -/
theorem Closure.receiver_of_result {f : Closure σ} {jump : Option Jump} {v : Value}
    (hinit : f.isInitializer = true) (h : f.result jump m = .ok v n) :
    σ.receiver m.store.memory f.scope = .ok v := by
  have hexpect (h : Eval.expect (σ.receiver m.store.memory f.scope) m = .ok v n) :
      σ.receiver m.store.memory f.scope = .ok v := by
    cases hv : σ.receiver m.store.memory f.scope with
    | ok w =>
      rw [hv] at h
      cases h
      rfl
    | error d =>
      rw [hv] at h
      cases h
  cases jump with
  | none =>
    simp only [Closure.result, hinit] at h
    exact hexpect h
  | some jump =>
    cases jump with
    | breakLoop line => cases h
    | continueLoop line => cases h
    | returnValue line w =>
      simp only [Closure.result, hinit] at h
      exact hexpect h

/-- What is done for a new object, by the initializer that there is. -/
def Class.setUp (object : Ref .object) (arguments : List Value) :
    Option (Closure σ) → Dialogue σ Value
  | none => pure (.object object)
  | some f => do
    let bound ← Dialogue.perform (Eval.alloc (·.bindMethod f (.object object)))
    bound.apply arguments >>= fun _ => pure (.object object)

theorem Class.instantiate_eq (c : Ref .cls) (arguments : List Value) :
    Class.instantiate (σ := σ) c arguments =
      Dialogue.perform (Eval.alloc (·.newObject c)) >>= fun object =>
        Dialogue.perform Eval.store >>= fun store =>
          Class.setUp object arguments (store.method? c initializerName) := by
  unfold instantiate
  refine congrArg _ (funext fun object => congrArg _ (funext fun store => ?_))
  cases store.method? c initializerName <;> rfl

section

variable (answers : (t : Task σ) → Eval σ t.Answer) (c : Ref .cls) (arguments : List Value)
  (m : Machine σ)

theorem Class.run_instantiate :
    (Class.instantiate c arguments).run answers m =
      (Class.setUp (m.store.newObject c).1 arguments (m.store.method? c initializerName)).run
        answers { m with store := (m.store.newObject c).2 } := by
  rw [instantiate_eq]
  rfl

theorem Class.asked_instantiate :
    (Class.instantiate c arguments).asked answers m =
      (Class.setUp (m.store.newObject c).1 arguments
        (m.store.method? c initializerName)).asked answers
        { m with store := (m.store.newObject c).2 } := by
  rw [instantiate_eq]
  rfl

end

namespace Task

/-- A call that comes to its end has been accepted, and is carried out once. -/
theorem exists_of_call_ok {callee : Value} {arguments : List Value} {paren : Token} {v : Value}
    (h : Task.run rounds depth (.call callee arguments paren) m = .ok v n) :
    ∃ d k j, k.store = m.store ∧ m.store.arity? callee = some arguments.length ∧
      Point.parts rounds ⟨depth, .call callee arguments paren, m⟩ =
        [⟨d, .invoke callee arguments paren, k⟩] ∧
      Task.run rounds d (.invoke callee arguments paren) k = .ok v j ∧ n.store = j.store := by
  obtain ⟨d, k', rfl, hbody, rfl⟩ := exists_of_run_ok h
  rcases noteCall_eq callee arguments paren m with ⟨harity, errors, -, hnote⟩ | ⟨-, cause, hnote⟩
  · have hbody := (Eval.bind_of_ok hnote _).symm.trans hbody
    obtain ⟨a, j, b, hinvoke, hpop, rfl⟩ := Dialogue.exists_of_ask_act hbody
    refine ⟨d, _, j, ?_, harity, ?_, hinvoke, ?_⟩
    · rfl
    · refine Point.parts_of_asked (l := [(.invoke callee arguments paren, _)]) ?_
      refine Eq.trans (Dialogue.asked_act_of_ok hnote) ?_
      exact Dialogue.asked_ask_act
    · cases hpop
      rfl
  · cases (Eval.bind_of_error hnote _).symm.trans hbody

/-- A call of a function that comes to its end has run its body, and the rest is
`Closure.result`. -/
theorem exists_of_invoke_function {g : Ref .function} {arguments : List Value} {paren : Token}
    {v : Value} (h : Task.run rounds depth (.invoke (.function g) arguments paren) m = .ok v n) :
    ∃ d jump, let f := m.store.functions.get g
      Point.parts rounds ⟨depth, .invoke (.function g) arguments paren, m⟩ =
        [f.entry d arguments m] ∧
      f.result jump ((f.entry d arguments m).left rounds) = .ok v n := by
  obtain ⟨d, k, rfl, hbody, rfl⟩ := exists_of_run_ok h
  obtain ⟨jump, w, hresult, rfl⟩ := Closure.exists_of_apply_ok (f := id) hbody
  refine ⟨d, jump, Point.parts_of_asked (l := [(_, _)]) ?_, hresult⟩
  exact Closure.asked_apply _ arguments id m

/-- The point at which the initializer of a class begins to run, for a new object. -/
def entryOf (depth : Nat) (c : Ref .cls) (f : Closure σ) (arguments : List Value) (m : Machine σ) :
    Point σ :=
  let bound := (m.store.newObject c).2.bindMethod f (.object (m.store.newObject c).1)
  bound.1.entry depth arguments { m with store := bound.2 }

/-- A call of a class that comes to its end gives the new object. If there is no initializer, that
is all, and if there is one, then its body has been run. -/
theorem exists_of_invoke_cls {c : Ref .cls} {arguments : List Value} {paren : Token} {v : Value}
    (h : Task.run rounds depth (.invoke (.cls c) arguments paren) m = .ok v n) :
    v = .object (m.store.newObject c).1 ∧ ∃ d,
      (m.store.method? c initializerName = none →
        Point.parts rounds ⟨depth, .invoke (.cls c) arguments paren, m⟩ = [] ∧
        n.store = (m.store.newObject c).2) ∧
      ∀ f, m.store.method? c initializerName = some f →
        Point.parts rounds ⟨depth, .invoke (.cls c) arguments paren, m⟩ =
          [entryOf d c f arguments m] ∧
        n = (entryOf d c f arguments m).left rounds := by
  obtain ⟨d, k, rfl, hbody, rfl⟩ := exists_of_run_ok h
  have hbody := (Class.run_instantiate (Task.run rounds d) c arguments m).symm.trans hbody
  have hasked := Class.asked_instantiate (Task.run rounds d) c arguments m
  cases hf : m.store.method? c initializerName with
  | none =>
    rw [hf] at hbody hasked
    cases hbody
    refine ⟨rfl, d, fun _ => ⟨Point.parts_of_asked (l := []) hasked, rfl⟩, fun f hf' => ?_⟩
    cases hf'
  | some f =>
    rw [hf] at hbody hasked
    obtain ⟨jump, w, hresult, rfl⟩ :=
      Closure.exists_of_apply_ok (f := fun _ => Value.object (m.store.newObject c).1) hbody
    refine ⟨rfl, d, fun hf' => (by cases hf'), fun f' hf' => ?_⟩
    cases hf'
    refine ⟨Point.parts_of_asked (l := [(_, _)]) (hasked.trans ?_), ?_⟩
    · exact Closure.asked_apply _ arguments (fun _ => Value.object _) _
    · exact (Closure.made_result.does.same _).of_ok hresult

end Task

end

/-! ### Instances -/

section

variable {β : Type} {hops : β → Hops}

/-- By the initializer that is found, carrying out the point begins nothing, or begins to run the
initializer, once, bound to the object. The parameters have the arguments as their values. -/
def Point.Initializes (rounds : Nat) (q : Point (.frames hops)) (arguments : List Value)
    (object : Ref .object) : Option (Closure (.frames hops)) → Prop
  | none => q.parts rounds = []
  | some f => ∃ k a chain, q.parts rounds = [k] ∧ k.Begins f (.object object) (a :: chain) ∧
    Arena.get k.machine.store.memory a = .ofList ((f.decl.params.map Name.text).zip arguments) ∧
    f.decl.params.length = arguments.length

/-- The object is what a call of the class `c` at the point `p` has made when the machine is `n`. It
was not there before, and it is an instance of the class. The call has been carried out once, with
the initializer that is found first from the class on. -/
structure Point.Constructs (rounds : Nat) (p : Point (.frames hops)) (c : Ref .cls)
    (arguments : List Value) (n : Machine (.frames hops)) (object : Ref .object) : Prop where
  new : ¬ p.machine.store.objects.Holds object
  made : n.store.objects.Holds object ∧ (n.store.objects.get object).cls = c
  initialized : ∃ q paren found, p.parts rounds = [q] ∧ q.task = .invoke (.cls c) arguments paren ∧
    Finds p.machine.store.Inherits
      (fun c => (p.machine.store.classes.get c).methods.get? initializerName) c found ∧
    q.Initializes rounds arguments object found

/-- The initializer of a class begins to run bound to the new object. -/
theorem Task.begins_entryOf (depth : Nat) (c : Ref .cls) (f : Closure (.frames hops))
    (arguments : List Value) (m : Machine (.frames hops)) :
    ∃ a chain, (entryOf depth c f arguments m).Begins f (.object (m.store.newObject c).1)
        (a :: chain) ∧
      Arena.get (entryOf depth c f arguments m).machine.store.memory a =
        .ofList ((f.decl.params.map Name.text).zip arguments) := by
  refine ⟨_, _, ⟨_, _, ⟨_, rfl, ?_⟩, rfl, rfl⟩, Arena.get_alloc_self _ _⟩
  exact (Frames.settled_alloc _).get?
    (Frames.get?_alloc_single m.store.memory _ (.object (m.store.newObject c).1))

/-- The new object is an instance of the class when the initializer begins to run. -/
theorem Task.made_entryOf (depth : Nat) (c : Ref .cls) (f : Closure (.frames hops))
    (arguments : List Value) (m : Machine (.frames hops)) :
    let s := (entryOf depth c f arguments m).machine.store
    s.objects.Holds (m.store.newObject c).1 ∧ (s.objects.get (m.store.newObject c).1).cls = c :=
  ⟨Arena.holds_alloc_self m.store.objects _,
    congrArg Object.cls (Arena.get_alloc_self m.store.objects _)⟩

/-- **Construction:** a call of a class that comes to its end gives a new instance. -/
theorem Course.constructs {rounds depth : Nat} {V : Point (.frames hops) → Prop}
    (hC : Course rounds V Machine.Lasts) {c : Ref .cls} {arguments : List Value} {paren : Token}
    {m n : Machine (.frames hops)} {v : Value} (hp : V ⟨depth, .call (.cls c) arguments paren, m⟩)
    (hleads : Leads m.store.Inherits (m.store.line c))
    (h : Task.run rounds depth (.call (.cls c) arguments paren) m = .ok v n) :
    ∃ object, v = .object object ∧
      Point.Constructs rounds ⟨depth, .call (.cls c) arguments paren, m⟩ c arguments n object := by
  obtain ⟨d, k, j, hk, harity, hparts, hinvoke, hn⟩ := Task.exists_of_call_ok h
  obtain ⟨rfl, d', hnone, hsome⟩ := Task.exists_of_invoke_cls hinvoke
  have hq := hC.closed _ _ hp (Point.calls_of_parts hparts)
  have hfinds : Finds m.store.Inherits
      (fun c => (m.store.classes.get c).methods.get? initializerName) c
      (m.store.method? c initializerName) := hleads.finds
  refine ⟨_, rfl, ?_, ?_, _, paren, _, hparts, rfl, hfinds, ?_⟩
  · rw [hk]
    exact Nat.lt_irrefl _
  · rw [hn]
    cases hf : k.store.method? c initializerName with
    | none =>
      rw [(hnone hf).2]
      exact ⟨Arena.holds_alloc_self _ _, congrArg Object.cls (Arena.get_alloc_self _ _)⟩
    | some f =>
      obtain ⟨hbegins, rfl⟩ := hsome f hf
      have hmade := Task.made_entryOf d' c f arguments k
      have hlasts := hC.run (hC.closed _ _ hq (Point.calls_of_parts hbegins))
      obtain ⟨hholds, hcls⟩ := hlasts.objects _ hmade.1
      exact ⟨hholds, hcls.trans hmade.2⟩
  · rw [← hk]
    cases hf : k.store.method? c initializerName with
    | none => exact (hnone hf).1
    | some f =>
      obtain ⟨a, chain, hbegins, hlocals⟩ := Task.begins_entryOf d' c f arguments k
      refine ⟨_, a, chain, (hsome f hf).1, hbegins, hlocals, ?_⟩
      rw [← hk, Store.arity?, hf] at harity
      exact Option.some.inj harity

end

/-! ### Initializers that are bound -/

namespace Point

/-- Carrying out the point gives the function `g`, which is `init` bound to the object: by a
property of the object, if the object has no such field, or by `super`, where the object is
`this`. -/
inductive Binds (rounds : Nat) (g : Ref .function) : Point .bound → Value → Prop where
  | property {depth : Nat} {e : Expr Hops} {name : Name} {m k n : Machine .bound}
    {object : Ref .object} (hname : name.text = initializerName)
    (hobject : Task.run rounds depth (.eval e) m = .ok (.object object) k)
    (hfield : (k.store.objects.get object).fields.get? name.text = none)
    (hvalue : Task.run rounds (depth + 1) (.eval (.get e name)) m = .ok (.function g) n) :
    Binds rounds g ⟨depth + 1, .eval (.get e name), m⟩ (.object object)
  | super {depth : Nat} {line : Int} {name : Name} {mark : Hops} {m n : Machine .bound}
    {c : Ref .cls} {object : Value} (hname : name.text = initializerName)
    (hthis : Frames.inherited m.store.memory m.scope mark = .ok (.cls c, object))
    (hvalue : Task.run rounds (depth + 1) (.eval (.superRef line name mark)) m =
      .ok (.function g) n) :
    Binds rounds g ⟨depth + 1, .eval (.superRef line name mark), m⟩ object

/-- On the machine `k`, the method `f` is bound to the object as the function `g`. Nothing that the
point comes to is later than that. -/
structure BindsAt (rounds : Nat) (g : Ref .function) (object : Value) (k : Machine .bound)
    (f : Closure .bound) (q : Point .bound) : Prop where
  method : ∃ c, k.store.method? c initializerName = some f
  bound : Eval.bindMethod f object k = .ok (.function g) (q.left rounds)
  before : ∀ {R V}, Course rounds V R → V q → ∀ p, q.Reaches rounds p → R p.machine k

end Point

theorem Dialogue.not_asks_perform {σ : Scoping} {α : Type} {x : Eval σ α} {m n : Machine σ}
    {answers : (t : Task σ) → Eval σ t.Answer} {t : Task σ} :
    ¬ (perform x).Asks answers m t n := by
  unfold perform Asks
  cases x m <;> exact id

/-- A property that is no field is a method. -/
theorem Eval.exists_of_property_ok {σ : Scoping} {object : Ref .object} {name : Name} {v : Value}
    {m n : Machine σ} (hfield : (m.store.objects.get object).fields.get? name.text = none)
    (h : Eval.property object name m = .ok v n) :
    ∃ c f, m.store.method? c name.text = some f ∧
      Eval.bindMethod f (.object object) m = .ok v n := by
  rw [property, bind_of_ok (x := store) (a := m.store) (n := m) rfl] at h
  simp only [hfield] at h
  cases hf : m.store.method? (m.store.objects.get object).cls name.text with
  | none =>
    simp only [hf] at h
    cases h
  | some f =>
    simp only [hf] at h
    exact ⟨_, f, hf, h⟩

namespace Point

variable {rounds depth : Nat} {g : Ref .function} {object : Value} {m n : Machine .bound}
  {q : Point .bound} {name : Name}

/-- The property is bound as soon as there is the object. -/
theorem exists_bindsAt_property {e : Expr Hops} {o : Ref .object} {k : Machine .bound}
    (hname : name.text = initializerName)
    (hobject : Task.run rounds depth (.eval e) m = .ok (.object o) k)
    (hfield : (k.store.objects.get o).fields.get? name.text = none)
    (hvalue : Task.run rounds (depth + 1) (.eval (.get e name)) m = .ok (.function g) n) :
    ∃ f, BindsAt rounds g (.object o) k f ⟨depth + 1, .eval (.get e name), m⟩ := by
  obtain ⟨d, n, hd, hbody, rfl⟩ := Task.exists_of_run_ok hvalue
  cases hd
  have hproperty : (Dialogue.perform (Eval.property o name)).run (Task.run rounds depth) k =
      .ok (.function g) n := (Eval.bind_of_ok hobject _).symm.trans hbody
  rw [Dialogue.run_perform] at hproperty
  obtain ⟨c, f, hf, hbind⟩ := Eval.exists_of_property_ok hfield hproperty
  have hleft : left rounds ⟨depth, .eval e, m⟩ = k := Eval.leaves_of_ok hobject
  refine ⟨f, ⟨c, hname ▸ hf⟩, ?_, fun {R V} hC hq p hp => ?_⟩
  · rw [hbind, left, Eval.leaves_of_ok hvalue]
  · have he : V ⟨depth, .eval e, m⟩ := hC.closed _ _ hq ⟨rfl, Dialogue.asks_ask_self⟩
    rcases Relation.ReflTransGen.cases_head hp with rfl | ⟨⟨d, u, j⟩, ⟨hd, hasks⟩, hinside⟩
    · exact hleft ▸ hC.run he
    · cases hd
      rcases (Dialogue.asks_ask_of_ok hobject).1 hasks with ⟨rfl, rfl⟩ | hlater
      · have hend := (hC.reaches he hinside).2
        rw [hleft] at hend
        exact hC.trans (hC.run (hC.of_reaches he hinside)) hend
      · exact absurd hlater Dialogue.not_asks_perform

theorem exists_bindsAt_super {line : Int} {mark : Hops} {c : Ref .cls}
    (hname : name.text = initializerName)
    (hthis : Frames.inherited m.store.memory m.scope mark = .ok (.cls c, object))
    (hvalue : Task.run rounds (depth + 1) (.eval (.superRef line name mark)) m =
      .ok (.function g) n) :
    ∃ f, BindsAt rounds g object m f ⟨depth + 1, .eval (.superRef line name mark), m⟩ := by
  have hresult := Eval.superResult_superMethod hthis name
  have hrun : Task.run rounds (depth + 1) (.eval (.superRef line name mark)) m =
      Eval.superMethod (σ := .bound) mark name m := Task.run_eval_of_perform rfl m
  rw [← hrun, hvalue] at hresult
  cases hf : m.store.method? c name.text with
  | none =>
    rw [hf] at hresult
    cases hresult
  | some f =>
    rw [hf] at hresult
    obtain ⟨-, -, -, hbind, -, -⟩ := hresult
    refine ⟨f, ⟨c, hname ▸ hf⟩, ?_, fun {R V} hC hq p hp => ?_⟩
    · rw [← hbind, left, Eval.leaves_of_ok hvalue]
    · rcases Relation.ReflTransGen.cases_head hp with rfl | ⟨⟨d, u, j⟩, ⟨hd, hasks⟩, -⟩
      · exact hC.refl m
      · cases hd
        exact absurd hasks Dialogue.not_asks_perform

theorem Binds.exists_bindsAt (h : q.Binds rounds g object) :
    ∃ k f, q.BindsAt rounds g object k f := by
  cases h with
  | property hname hobject hfield hvalue =>
    exact ⟨_, exists_bindsAt_property hname hobject hfield hvalue⟩
  | super hname hthis hvalue => exact ⟨_, exists_bindsAt_super hname hthis hvalue⟩

/-- **A function that is there has been bound before.** -/
theorem BindsAt.left_lasts {programs : List (Program Hops)} {start k : Machine .bound}
    {f : Closure .bound} {p : Point .bound}
    (hC : Course rounds (Program.AnyVisits rounds depth programs start) Machine.Lasts)
    (h : q.BindsAt rounds g object k f) (hq : Program.AnyVisits rounds depth programs start q)
    (hp : Program.AnyVisits rounds depth programs start p)
    (hg : p.machine.store.functions.Holds g) : (q.left rounds).Lasts p.machine := by
  obtain ⟨g', n, hbind, hnew, -⟩ := Eval.bindMethod_eq f object k
  rw [h.bound] at hbind
  cases hbind
  -- If the point came before, the function would be there when it is bound.
  have hafter (hlasts : p.machine.Lasts k) : (q.left rounds).Lasts p.machine :=
    absurd (hlasts.functions g hg).1 hnew
  have hstart := h.before hC hq q .refl
  rcases hq.order hC (fun _ h => h) hp with hinside | hinside | hfirst | hfirst
  · exact hafter (h.before hC hq p hinside)
  · exact hafter (hC.trans (hC.reaches hp hinside).1 hstart)
  · exact hfirst
  · exact hafter (hC.trans (hC.run hp) (hC.trans hfirst hstart))

end Point

/-- Initializers are marked as such where they are declared. -/
theorem Store.Bears.isInitializer {σ : Scoping} {V : Point σ → Prop} {s t : Store σ} {c : Ref .cls}
    {f : Closure σ} (h : s.Bears V t) (hs : ∀ c, ¬ s.classes.Holds c)
    (hf : t.method? c initializerName = some f) : f.isInitializer = true := by
  obtain ⟨c', -, hc'⟩ := List.exists_of_findSome?_eq_some hf
  obtain ⟨q, parent, methods, scope, -, hdeclares⟩ :=
    (h.made c' (Store.holds_of_method hc')).resolve_left (hs c')
  obtain ⟨name, superclass, -, -, hget⟩ := hdeclares.executed
  rw [hget] at hc'
  refine Table.forall_get?_ofList (P := fun x (f : Closure σ) => x = initializerName →
    f.isInitializer = true) (fun e he hname => ?_) _ f hc' rfl
  obtain ⟨method, -, rfl⟩ := List.mem_map.1 he
  exact decide_eq_true hname

/-- A call of an initializer that is bound to an object gives this object. -/
theorem Course.gives_receiver {rounds depth : Nat} {V : Point .bound → Prop} {m n : Machine .bound}
    {g : Ref .function} {f : Closure .bound} {arguments : List Value} {paren : Token}
    {object v : Value} (hC : Course rounds V Machine.Lasts)
    (hp : V ⟨depth, .call (.function g) arguments paren, m⟩) (hinit : f.isInitializer = true)
    (hbound : f.BoundTo m.store.memory object (m.store.functions.get g))
    (h : Task.run rounds depth (.call (.function g) arguments paren) m = .ok v n) : v = object := by
  obtain ⟨d, k, j, hk, -, hparts, hinvoke, -⟩ := Task.exists_of_call_ok h
  obtain ⟨d', jump, hbegins, hresult⟩ := Task.exists_of_invoke_function hinvoke
  rw [← hk] at hbound
  obtain ⟨r, hg, hthis⟩ := hbound
  have hq := hC.closed _ _ hp (Point.calls_of_parts hparts)
  have hcalls := Point.calls_of_parts hbegins
  -- From the call to the end of the body, `this` lasts.
  have hlasts := hC.trans (hC.calls hq hcalls).1 (hC.run (hC.closed _ _ hq hcalls))
  obtain ⟨r', hr', hv⟩ := Frames.valueAt_eq_ok_iff.1
    (Closure.receiver_of_result (by rw [hg]; exact hinit) hresult)
  rw [hg] at hr'
  cases hr'
  rw [hlasts.frames.get? hthis] at hv
  exact (Option.some.inj hv).symm

/-! ### Points that are found by running -/

/-- The point is a call of a class that comes to its end. -/
def Point.completesClass (rounds : Nat) : Point .bound → Bool
  | ⟨d, .call (.cls c) arguments paren, m⟩ =>
    match Task.run rounds d (.call (.cls c) arguments paren) m with
    | .ok _ _ => true
    | .error _ _ => false
  | _ => false

theorem Point.exists_of_completesClass {rounds : Nat} {p : Point .bound}
    (h : p.completesClass rounds = true) :
    ∃ d c arguments paren m v n, p = ⟨d, .call (.cls c) arguments paren, m⟩ ∧
      Task.run rounds d (.call (.cls c) arguments paren) m = .ok v n := by
  unfold completesClass at h
  split at h
  · split at h
    · exact ⟨_, _, _, _, _, _, _, rfl, ‹_›⟩
    · cases h
  · cases h

/-- The function that the point calls, if the call comes to its end. -/
def Point.completesFunction? (rounds : Nat) : Point .bound → Option (Ref .function)
  | ⟨d, .call (.function g) arguments paren, m⟩ =>
    match Task.run rounds d (.call (.function g) arguments paren) m with
    | .ok _ _ => some g
    | .error _ _ => none
  | _ => none

theorem Point.exists_of_completesFunction? {rounds : Nat} {p : Point .bound} {g : Ref .function}
    (h : p.completesFunction? rounds = some g) :
    ∃ d arguments paren m v n, p = ⟨d, .call (.function g) arguments paren, m⟩ ∧
      Task.run rounds d (.call (.function g) arguments paren) m = .ok v n := by
  unfold completesFunction? at h
  split at h
  · split at h
    · cases h
      exact ⟨_, _, _, _, _, _, rfl, ‹_›⟩
    · cases h
  · cases h

/-- The function that the point gives as the property `init` of an object. -/
def Point.bindsProperty? (rounds : Nat) : Point .bound → Option (Ref .function)
  | ⟨depth + 1, .eval (.get e name), m⟩ =>
    match (Task.run rounds depth (.eval e) m : EStateM.Result Halt (Machine .bound) Value),
        (Task.run rounds (depth + 1) (.eval (.get e name)) m :
          EStateM.Result Halt (Machine .bound) Value) with
    | .ok (.object object) k, .ok (.function g) _ =>
      if name.text = initializerName ∧
          ((k.store.objects.get object).fields.get? name.text).isNone = true then some g else none
    | _, _ => none
  | _ => none

theorem Point.exists_of_bindsProperty? {rounds : Nat} {q : Point .bound} {g : Ref .function}
    (h : q.bindsProperty? rounds = some g) : ∃ object, q.Binds rounds g object := by
  unfold bindsProperty? at h
  split at h
  · split at h
    · split at h
      · rename_i hrun hvalue hname
        cases h
        exact ⟨_, .property hname.1 hrun (Option.isNone_iff_eq_none.1 hname.2) hvalue⟩
      · cases h
    · cases h
  · cases h

/-! ### Programs -/

namespace Program

section

variable {rounds depth : Nat} {texts : List String} {natives : List Native} {input : List String}
  {output : Option String} {tracing : Bool} {clock : Clock} {p q : Point .bound}

/-- Initializers that have been bound give what they are bound to. -/
theorem AnyVisits.gives_receiver {d : Nat} {g : Ref .function} {arguments : List Value}
    {paren : Token} {m n : Machine .bound} {object v : Value}
    (hq : Program.AnyVisits rounds depth (Program.bound texts)
      (.start natives input output tracing clock) q) (hbinds : q.Binds rounds g object)
    (hp : Program.AnyVisits rounds depth (Program.bound texts)
      (.start natives input output tracing clock) ⟨d, .call (.function g) arguments paren, m⟩)
    (h : Task.run rounds d (.call (.function g) arguments paren) m = .ok v n) :
    ∃ o, object = .object o ∧ v = .object o := by
  have hC := lasts rounds depth texts natives input output tracing clock
  have hB : Course rounds _ _ := Course.bears hC.closed
  obtain ⟨k, f, hk⟩ := hbinds.exists_bindsAt
  obtain ⟨g', n', hbind, -, hholds, r, hclosure, hthis⟩ := Eval.bindMethod_eq f object k
  rw [hk.bound] at hbind
  cases hbind
  obtain ⟨c, hf⟩ := hk.method
  have hinit : f.isInitializer = true :=
    ((hq.course hB fun _ h => h).trans (hk.before hB hq q .refl)).isInitializer
      (fun _ => Nat.not_lt_zero _) hf
  obtain ⟨world, -, hcallee, -⟩ := hp.upkeep (Session.within_start ..)
  have hlasts := hk.left_lasts hC hq hp hcallee
  have hthis := hlasts.frames.get? hthis
  obtain ⟨o, rfl⟩ := hp.receives r object hthis
  refine ⟨o, rfl, hC.gives_receiver hp hinit ⟨r, ?_, hthis⟩ h⟩
  exact (hlasts.functions g hholds).2.trans hclosure

/-- Functions that are marked as initializers have an object as `this`, at the beginning of whatever
there is to be carried out and at its end. -/
theorem AnyVisits.exists_receiver (hp : Program.AnyVisits rounds depth (Program.bound texts)
      (.start natives input output tracing clock) p) {s : Store .bound}
    (hs : s = p.machine.store ∨ s = (p.left rounds).store) {g : Ref .function}
    (hinit : (s.functions.get g).isInitializer = true) :
    ∃ r outer o, (s.functions.get g).scope = r :: outer ∧
      (Arena.get s.memory r).get? Keyword.thisWord.text = some (.object o) := by
  obtain ⟨site, hbefore⟩ := fits_of_anyVisits hp
  have hafter : (p.left rounds).store.Fits (.plain : Marking Unit) (fun _ => False) := by
    refine Eval.Ends.leaves (P := fun n => n.store.Fits (.plain : Marking Unit) fun _ => False)
      (H := fun _ => True) (((soundness_kept rounds).run p.depth hbefore).mono ?_ ?_)
    · exact fun _ _ h => h.1.store.fits
    · exact fun _ _ h => ⟨h.1.store.fits, trivial⟩
  have hreceives := (lasts rounds depth texts natives input output tracing clock).run hp
  have hmain : s.Fits (.plain : Marking Unit) (fun _ => False) ∧ s.Receives := by
    rcases hs with rfl | rfl
    · exact ⟨hbefore.1, hp.receives⟩
    · exact ⟨hafter, hreceives.receives hp.receives⟩
  obtain ⟨r, outer, hscope, hhas⟩ := (hmain.1.functions g).receiver hinit
  obtain ⟨v, hv⟩ := Frames.has_iff_exists.1 hhas
  obtain ⟨o, rfl⟩ := hmain.2 r v hv
  exact ⟨r, outer, o, hscope, hv⟩

end

/-- **Construction yields the new instance.** Whatever is reported about the texts, wherever their
programs come to:

* a call of a class that comes to its end gives a new instance of the class, for which the nearest
  `init` has been begun once with the arguments, if there is one;
* once `init` has been bound to an object, by a property or by `super`, each call of the function
  that comes to its end gives this object;
* a function that is marked as an initializer has an object as `this` in the first frame of its
  chain. -/
theorem construction_yields_instance (rounds depth : Nat) (texts : List String)
    (natives : List Native) (input : List String) (output : Option String) (tracing : Bool)
    (clock : Clock) :
    let Comes := Program.AnyVisits rounds depth (Program.bound texts)
      (.start natives input output tracing clock)
    (∀ d c arguments paren m v n, Comes ⟨d, .call (.cls c) arguments paren, m⟩ →
      Task.run rounds d (.call (.cls c) arguments paren) m = .ok v n →
        ∃ o, v = .object o ∧
          Point.Constructs rounds ⟨d, .call (.cls c) arguments paren, m⟩ c arguments n o) ∧
    (∀ q g object d arguments paren m v n, Comes q → q.Binds rounds g object →
      Comes ⟨d, .call (.function g) arguments paren, m⟩ →
      Task.run rounds d (.call (.function g) arguments paren) m = .ok v n →
        ∃ o, object = .object o ∧ v = .object o) ∧
    ∀ p s g, Comes p → (s = p.machine.store ∨ s = (p.left rounds).store) →
      (s.functions.get g).isInitializer = true →
        ∃ r outer o, (s.functions.get g).scope = r :: outer ∧
          (Arena.get s.memory r).get? Keyword.thisWord.text = some (.object o) := by
  intro Comes
  refine ⟨fun d c arguments paren m v n hp h => ?_, ?_, ?_⟩
  · obtain ⟨world, hworld, -⟩ := hp.upkeep (Session.within_start ..)
    exact (lasts rounds depth texts natives input output tracing clock).constructs hp
      (hworld.sound.leads_line c) h
  · exact fun q g object d arguments paren m v n hq hbinds hp h => hq.gives_receiver hbinds hp h
  · exact fun p s g hp hs hinit => hp.exists_receiver hs hinit

/-- An initializer that returns a value, one that calls it by `super`, and one that is stored before
it is called. -/
def initializers : String :=
  "class A \x7b init(x) \x7b return x; \x7d \x7d " ++
  "class B < A \x7b init(x) \x7b super.init(x); \x7d \x7d " ++
  "var f = B(1).init; f(2);"

theorem construction_yields_instance_stored :
    let Comes := Program.AnyVisits 1 20 (Program.bound [initializers])
      (.start [] [] none false ⟨0, []⟩)
    (∃ d c arguments paren m v n o, Comes ⟨d, .call (.cls c) arguments paren, m⟩ ∧
      Task.run 1 d (.call (.cls c) arguments paren) m = .ok v n ∧ v = .object o ∧
      Point.Constructs 1 ⟨d, .call (.cls c) arguments paren, m⟩ c arguments n o) ∧
    (∃ q g object d arguments paren m v n o, Comes q ∧ q.Binds 1 g object ∧
      Comes ⟨d, .call (.function g) arguments paren, m⟩ ∧
      Task.run 1 d (.call (.function g) arguments paren) m = .ok v n ∧
      object = .object o ∧ v = .object o) ∧
    ∃ p g r outer o, Comes p ∧ (p.machine.store.functions.get g).isInitializer = true ∧
      (p.machine.store.functions.get g).scope = r :: outer ∧
      (Arena.get p.machine.store.memory r).get? Keyword.thisWord.text = some (.object o) := by
  intro Comes
  let points := (Session.program initializers).points 1 20 (.start [] [] none false ⟨0, []⟩)
  have hcomes (p : Point .bound) (hp : p ∈ points) : Comes p := .inl (Program.mem_points_iff.1 hp)
  -- The first function that there is comes of `super.init`, and the second one is stored.
  have hpoints : (points.any (Point.completesClass 1) &&
      points.any (fun p => (p.machine.store.functions.get ⟨0⟩).isInitializer) &&
      points.any (fun q => q.bindsProperty? 1 == some ⟨1⟩) &&
      points.any (fun p => p.completesFunction? 1 == some ⟨1⟩)) = true := by
    decide +kernel
  simp only [Bool.and_eq_true, List.any_eq_true, beq_iff_eq] at hpoints
  obtain ⟨⟨⟨hclass, hmarked⟩, hstored⟩, hcalled⟩ := hpoints
  obtain ⟨hconstructs, hgives, hreceivers⟩ :=
    construction_yields_instance 1 20 [initializers] [] [] none false ⟨0, []⟩
  refine ⟨?_, ?_, ?_⟩
  · obtain ⟨p, hp, hcompletes⟩ := hclass
    obtain ⟨d, c, arguments, paren, m, v, n, rfl, hrun⟩ := Point.exists_of_completesClass hcompletes
    obtain ⟨o, hv, ho⟩ := hconstructs d c arguments paren m v n (hcomes _ hp) hrun
    exact ⟨d, c, arguments, paren, m, v, n, o, hcomes _ hp, hrun, hv, ho⟩
  · obtain ⟨q, hq, hbound⟩ := hstored
    obtain ⟨p, hp, hcompletes⟩ := hcalled
    obtain ⟨object, hbinds⟩ := Point.exists_of_bindsProperty? hbound
    obtain ⟨d, arguments, paren, m, v, n, rfl, hrun⟩ :=
      Point.exists_of_completesFunction? hcompletes
    obtain ⟨o, hobject, hv⟩ :=
      hgives q _ object d arguments paren m v n (hcomes q hq) hbinds (hcomes _ hp) hrun
    exact ⟨q, _, object, d, arguments, paren, m, v, n, o, hcomes q hq, hbinds, hcomes _ hp, hrun,
      hobject, hv⟩
  · obtain ⟨p, hp, hinit⟩ := hmarked
    obtain ⟨r, outer, o, hscope, hthis⟩ := hreceivers p _ ⟨0⟩ (hcomes p hp) (.inl rfl) hinit
    exact ⟨p, ⟨0⟩, r, outer, o, hcomes p hp, hinit, hscope, hthis⟩

end Program

end LoxLang
