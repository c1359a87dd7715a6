import LoxLang.Proofs.Births
import LoxLang.Proofs.Fitting
import LoxLang.Proofs.Visited

/-!
# Activations of methods

Binding a method to an object puts a frame with `this` in front of what the method sees, and if the
class inherits, what its methods see begins with a frame with `super`. A call puts the frame of its
parameters in front of that, and blocks and functions inside of the method go on from there. So the
chain of a place inside of a method tells which activation of the method it is in
(`Store.Activation`), and a use of `this` or `super` is as many frames out as there are in between
(`Site.InActivation`).

A store is *situated* (`Store.Situated`) if this holds of all functions and methods in it. Here is
what each step does to such a store: no frame loses or changes a keyword (`Frames.Settled`), and
what is new is situated again. `V` holds of what the run comes to: the beginning of an activation is
one of these tasks.
-/

namespace LoxLang

/-! ### Uses of `this` and `super` -/

section

variable {β : Type}

mutual

/-- The uses of `this` and `super` in the expression. -/
def Expr.selfRefs : Expr β → List (Expr β)
  | .constant _ => []
  | .group inner => inner.selfRefs
  | .unary _ _ operand => operand.selfRefs
  | .binary left _ _ right => left.selfRefs ++ right.selfRefs
  | .logical left _ _ right => left.selfRefs ++ right.selfRefs
  | .var _ _ => []
  | .assign _ value _ => value.selfRefs
  | .call callee arguments _ => callee.selfRefs ++ Expr.allSelfRefs arguments
  | .list elements _ => Expr.allSelfRefs elements
  | .map entries _ => Expr.entrySelfRefs entries
  | .index container position _ => container.selfRefs ++ position.selfRefs
  | .setIndex container position value _ =>
    container.selfRefs ++ (position.selfRefs ++ value.selfRefs)
  | .get object _ => object.selfRefs
  | .set object _ value => object.selfRefs ++ value.selfRefs
  | .thisRef line mark => [.thisRef line mark]
  | .superRef line method mark => [.superRef line method mark]

/-- The uses of `this` and `super` in the expressions. -/
def Expr.allSelfRefs : List (Expr β) → List (Expr β)
  | [] => []
  | e :: es => e.selfRefs ++ Expr.allSelfRefs es

/-- The uses of `this` and `super` in the entries. -/
def Expr.entrySelfRefs : List (Expr β × Expr β) → List (Expr β)
  | [] => []
  | (key, value) :: entries => key.selfRefs ++ (value.selfRefs ++ Expr.entrySelfRefs entries)

end

/-- The uses of `this` and `super` in the expression, if there is one. -/
def Expr.optionSelfRefs : Option (Expr β) → List (Expr β)
  | none => []
  | some e => e.selfRefs

mutual

/-- The uses of `this` and `super` in the statement, in functions inside of it too. In the methods
of a class inside of it, they are of that class. -/
def Stmt.selfRefs : Stmt β → List (Expr β)
  | .expression value => value.selfRefs
  | .print value => value.selfRefs
  | .var _ initializer => Expr.optionSelfRefs initializer
  | .block body => Stmt.allSelfRefs body
  | .branch condition yes none => condition.selfRefs ++ yes.selfRefs
  | .branch condition yes (some no) => condition.selfRefs ++ (yes.selfRefs ++ no.selfRefs)
  | .whileLoop condition body => condition.selfRefs ++ body.selfRefs
  | .doWhile body condition => body.selfRefs ++ condition.selfRefs
  | .breakLoop _ => []
  | .continueLoop _ => []
  | .returnValue _ value => Expr.optionSelfRefs value
  | .function decl => decl.selfRefs
  | .classDecl _ _ _ => []
  | .marker _ _ => []

/-- The uses of `this` and `super` in the statements. -/
def Stmt.allSelfRefs : List (Stmt β) → List (Expr β)
  | [] => []
  | s :: ss => s.selfRefs ++ Stmt.allSelfRefs ss

/-- The uses of `this` and `super` in the body of the function. -/
def Function.selfRefs : Function β → List (Expr β)
  | ⟨_, _, body⟩ => Stmt.allSelfRefs body

end

theorem Function.selfRefs_eq (f : Function β) : f.selfRefs = Stmt.allSelfRefs f.body := by
  cases f
  rfl

end

/-! ### Keywords in frames -/

namespace Frames

/-- The second memory has the frames of the first, with the keywords in them as they were. -/
def Settled (frames later : Frames) : Prop :=
  ∀ r, frames.Holds r →
    later.Holds r ∧ ∀ k : Keyword, (later.get r).get? k.text = (frames.get r).get? k.text

variable {frames later last : Frames} {r : Ref .frame}

theorem Settled.refl (frames : Frames) : frames.Settled frames := fun _ h => ⟨h, fun _ => rfl⟩

theorem Settled.trans (h : frames.Settled later) (h' : later.Settled last) :
    frames.Settled last := by
  intro r hr
  obtain ⟨hholds, hget⟩ := h r hr
  obtain ⟨hholds', hget'⟩ := h' r hholds
  exact ⟨hholds', fun k => (hget' k).trans (hget k)⟩

theorem Settled.get? (h : frames.Settled later) {k : Keyword} {v : Value}
    (hv : (frames.get r).get? k.text = some v) : (later.get r).get? k.text = some v := by
  have hr : frames.Holds r := Has.holds (has_iff_exists.2 ⟨v, hv⟩)
  rw [(h r hr).2 k, hv]

/-- No variable is called like a keyword. -/
theorem settled_define {x : String} {v : Value} (hx : Keyword.ofText? x = none) :
    frames.Settled (define frames r x v) := by
  intro r' hr'
  exact ⟨holds_define_iff.2 hr', fun k => get?_define_of_ne (Keyword.text_ne_of_ofText? hx k)⟩

theorem settled_alloc (frame : Frame) : frames.Settled (frames.alloc frame).2 := by
  intro r hr
  refine ⟨Arena.holds_alloc_of_holds frame hr, fun k => ?_⟩
  rw [Arena.get_alloc_of_holds frame hr]

end Frames

variable {ι : Type} {M : Marking ι}

/-- The second store has the classes of the first, and the keywords are in the frames as they
were. -/
structure Store.Settled (s t : Store M.scoping) : Prop where
  frames : Frames.Settled s.memory t.memory
  classes : s.classes.Le t.classes

theorem Store.Settled.refl (s : Store M.scoping) : s.Settled s := ⟨.refl _, .refl _⟩

theorem Store.Settled.trans {s t u : Store M.scoping} (h : s.Settled t) (h' : t.Settled u) :
    s.Settled u :=
  ⟨h.frames.trans h'.frames, h.classes.trans h'.classes⟩

theorem Store.settled_enter (s : Store M.scoping) (chain : Chain) (locals : List (String × Value)) :
    s.Settled (s.enter chain locals).2 :=
  ⟨Frames.settled_alloc _, .refl _⟩

/-- A class that has a method is there. -/
theorem Store.holds_of_method {σ : Scoping} {s : Store σ} {c : Ref .cls} {x : String}
    {f : Closure σ} (h : (s.classes.get c).methods.get? x = some f) : s.classes.Holds c := by
  by_contra hc
  rw [Arena.get_of_not_holds hc] at h
  cases h

/-! ### Places in activations -/

/-- The method `f` of the class `c` has been called, bound to the object: `r` is the frame with
`this` and `a` that of the call, and those in front of it are of blocks and functions inside of the
method. -/
structure Store.Activation (V : Task M.scoping → Machine M.scoping → Prop) (s : Store M.scoping)
    (c : Ref .cls) (f : Closure M.scoping) (object : Ref .object) (front : Chain)
    (a r : Ref .frame) : Prop where
  method : ∃ x, (s.classes.get c).methods.get? x = some f
  receiver : (Arena.get s.memory r).get? Keyword.thisWord.text = some (.object object)
  inner : ∀ b ∈ a :: front, Arena.Holds s.memory b ∧
    (Arena.get s.memory b).get? Keyword.thisWord.text = none
  begun : ∃ m, V (.block (a :: r :: f.scope) f.decl.body) m ∧
    (Arena.get m.store.memory r).get? Keyword.thisWord.text = some (.object object)

/-- The uses `refs` of `this` and `super` are at a place in a method, and the chain is in an
activation of it: if `this` is known at the place, then it is as many frames out as those in front
of it are, and `super` is not known one frame further out unless the class inherits. -/
structure Site.InActivation (V : Task M.scoping → Machine M.scoping → Prop) (site : Site ι)
    (s : Store M.scoping) (chain : Chain) (refs : List (Expr M.Mark)) : Prop where
  plain : site.scopes.hops? Keyword.superWord.text ≠ some 0
  enclosed : ∀ d, site.scopes.hops? Keyword.thisWord.text = some d →
    ∃ c f object front a r, s.Activation V c f object front a r ∧
      chain = front ++ a :: r :: f.scope ∧ d = front.length + 1 ∧ refs ⊆ f.decl.selfRefs ∧
      ((s.classes.get c).ancestors = [] →
        site.scopes.hops? Keyword.superWord.text ≠ some (d + 1))

/-- The method sees `super` first, if its class inherits; if not, there is no `super` around its
class in the same scope. -/
structure Closure.MethodOf (frames : Frames) (ancestors : List (Ref .cls))
    (f : Closure M.scoping) : Prop where
  bound : ∃ site : Site ι, f.decl.BoundAt M (fun _ => True) (site.enter [Keyword.thisWord.text]) ∧
    (ancestors = [] → site.scopes.hops? Keyword.superWord.text ≠ some 0)
  parent : ∀ p, ancestors.head? = some p → ∃ r outer, f.scope = r :: outer ∧
    (frames.get r).get? Keyword.superWord.text = some (.cls p)

/-- The function has been declared at a place, and its chain is in the activation that the place was
in; or it is a method that has been bound to an object. -/
inductive Closure.Situated (V : Task M.scoping → Machine M.scoping → Prop) (s : Store M.scoping) :
    Closure M.scoping → Prop where
  | declared {g : Closure M.scoping} {site : Site ι}
      (hbound : g.decl.BoundAt M (fun _ => True) site)
    (hplace : site.InActivation V s g.scope g.decl.selfRefs) : Situated V s g
  | bound {c : Ref .cls} {x : String} {f : Closure M.scoping} {object : Ref .object}
    {r : Ref .frame} (hmethod : (s.classes.get c).methods.get? x = some f)
    (hreceiver : (Arena.get s.memory r).get? Keyword.thisWord.text = some (.object object)) :
    Situated V s { f with scope := r :: f.scope }

/-- All functions and methods are situated. -/
structure Store.Situated (V : Task M.scoping → Machine M.scoping → Prop) (s : Store M.scoping) :
    Prop where
  functions : ∀ r, (s.functions.get r).Situated V s
  methods : ∀ c x f, (s.classes.get c).methods.get? x = some f →
    f.MethodOf s.memory (s.classes.get c).ancestors

variable {V : Task M.scoping → Machine M.scoping → Prop} {s t : Store M.scoping} {site : Site ι}
  {chain : Chain} {refs : List (Expr M.Mark)}

theorem Store.Settled.method {c : Ref .cls} {x : String} {f : Closure M.scoping}
    (hst : s.Settled t) (h : (s.classes.get c).methods.get? x = some f) :
    (t.classes.get c).methods.get? x = some f := by
  rw [(hst.classes c (Store.holds_of_method h)).2]
  exact h

theorem Store.Activation.mono {c : Ref .cls} {f : Closure M.scoping} {object : Ref .object}
    {front : Chain} {a r : Ref .frame} (h : s.Activation V c f object front a r)
    (hst : s.Settled t) : t.Activation V c f object front a r where
  method := by
    obtain ⟨x, hx⟩ := h.method
    exact ⟨x, hst.method hx⟩
  receiver := hst.frames.get? h.receiver
  inner b hb := by
    obtain ⟨hholds, hnone⟩ := h.inner b hb
    obtain ⟨hholds', hget⟩ := hst.frames b hholds
    exact ⟨hholds', (hget .thisWord).trans hnone⟩
  begun := h.begun

namespace Site.InActivation

theorem mono (h : site.InActivation V s chain refs) (hst : s.Settled t) :
    site.InActivation V t chain refs where
  plain := h.plain
  enclosed d hd := by
    obtain ⟨c, f, object, front, a, r, hact, hchain, hlength, hrefs, hsuper⟩ := h.enclosed d hd
    refine ⟨c, f, object, front, a, r, hact.mono hst, hchain, hlength, hrefs, ?_⟩
    obtain ⟨x, hx⟩ := hact.method
    rwa [(hst.classes c (Store.holds_of_method hx)).2]

theorem sub (h : site.InActivation V s chain refs) {refs' : List (Expr M.Mark)}
    (hrefs : refs' ⊆ refs) : site.InActivation V s chain refs' where
  plain := h.plain
  enclosed d hd := by
    obtain ⟨c, f, object, front, a, r, hact, hchain, hlength, hsub, hsuper⟩ := h.enclosed d hd
    exact ⟨c, f, object, front, a, r, hact, hchain, hlength, List.Subset.trans hrefs hsub, hsuper⟩

/-- Only the distance of keywords counts. -/
theorem congr {site' : Site ι} (h : site.InActivation V s chain refs)
    (hwords : ∀ k : Keyword, site'.scopes.hops? k.text = site.scopes.hops? k.text) :
    site'.InActivation V s chain refs where
  plain := by
    rw [hwords]
    exact h.plain
  enclosed d hd := by
    rw [hwords] at hd ⊢
    exact h.enclosed d hd

theorem set (h : site.InActivation V s chain refs) {name : Name} (hname : name.Proper)
    (usable : Bool) : (site.set name.text usable).InActivation V s chain refs :=
  h.congr fun k => Scopes.hops?_set_of_ne _ _ (Keyword.text_ne_of_ofText? hname k)

/-- Outside of all blocks nothing is known. -/
theorem top (source : ι) : (Site.top source).InActivation V s chain refs :=
  ⟨by simp [Site.top, Scopes.hops?], fun d hd => by simp [Site.top, Scopes.hops?] at hd⟩

end Site.InActivation

/-- A new frame with one variable has its value. -/
theorem Frames.get?_alloc_single (frames : Frames) (x : String) (v : Value) :
    ((frames.alloc (.ofList [(x, v)])).2.get (frames.alloc (.ofList [(x, v)])).1).get? x =
      some v := by
  rw [Arena.get_alloc_self]
  exact Table.get?_insert_self .empty x v

/-- A new frame has no keyword if it is made with none. -/
theorem Frames.get?_alloc_of_not_mem {frames : Frames} {locals : List (String × Value)} {x : String}
    (h : x ∉ locals.map Prod.fst) :
    ((frames.alloc (.ofList locals)).2.get (frames.alloc (.ofList locals)).1).get? x = none := by
  rw [Arena.get_alloc_self, ← Option.not_isSome_iff_eq_none, ← Table.contains_eq_isSome,
    Table.contains_ofList, decide_eq_true_eq]
  exact h

/-- A scope that is opened for a block or a function is in the activation that is around it. -/
theorem Site.InActivation.enter (h : site.InActivation V s chain refs) {inside : Site ι}
    {names : List String} {locals : List (String × Value)}
    (hinside : inside.scopes = site.scopes.enter names) (hnames : ∀ k : Keyword, k.text ∉ names)
    (hlocals : ∀ k : Keyword, k.text ∉ locals.map Prod.fst) :
    inside.InActivation V (s.enter chain locals).2 (s.enter chain locals).1 refs := by
  have hwords (k : Keyword) :
      inside.scopes.hops? k.text = (site.scopes.hops? k.text).map (· + 1) := by
    rw [hinside, Scopes.hops?_enter_of_not_mem _ (hnames k)]
  refine ⟨fun hzero => ?_, fun d hd => ?_⟩
  · rw [hwords] at hzero
    obtain ⟨_, -, hsucc⟩ := Option.map_eq_some_iff.1 hzero
    exact Nat.succ_ne_zero _ hsucc
  · rw [hwords] at hd
    obtain ⟨d, hfurther, rfl⟩ := Option.map_eq_some_iff.1 hd
    obtain ⟨c, f, object, front, a, r, hact, hchain, hlength, hrefs, hsuper⟩ :=
      h.enclosed d hfurther
    have hact := hact.mono (s.settled_enter chain locals)
    -- The activation is the same, and the new frame is one more in front of it.
    refine ⟨c, f, object, (Arena.alloc s.memory (.ofList locals)).1 :: front, a, r,
      { hact with inner := fun b hb => ?_ }, ?_, ?_, hrefs, fun hnone hd => ?_⟩
    · rw [List.mem_cons, List.mem_cons] at hb
      obtain rfl | rfl | hb := hb
      · exact hact.inner _ List.mem_cons_self
      · exact ⟨Arena.holds_alloc_self _ _, Frames.get?_alloc_of_not_mem (hlocals .thisWord)⟩
      · exact hact.inner b (List.mem_cons_of_mem _ hb)
    · rw [List.cons_append, ← hchain]
      rfl
    · rw [hlength, List.length_cons]
    · rw [hwords] at hd
      obtain ⟨d', hd', heq⟩ := Option.map_eq_some_iff.1 hd
      obtain rfl : d' = d + 1 := Nat.succ.inj heq
      exact hsuper hnone hd'

/-! ### What changes to the store keep -/

namespace Closure

theorem MethodOf.mono {frames later : Frames} {ancestors : List (Ref .cls)} {f : Closure M.scoping}
    (h : f.MethodOf frames ancestors) (hle : frames.Settled later) :
    f.MethodOf later ancestors where
  bound := h.bound
  parent p hp := by
    obtain ⟨r, outer, hscope, hsuper⟩ := h.parent p hp
    exact ⟨r, outer, hscope, hle.get? hsuper⟩

theorem Situated.mono {g : Closure M.scoping} (h : g.Situated V s) (hst : s.Settled t) :
    g.Situated V t := by
  cases h with
  | declared hbound hplace => exact .declared hbound (hplace.mono hst)
  | bound hmethod hreceiver => exact .bound (hst.method hmethod) (hst.frames.get? hreceiver)

end Closure

namespace Store.Situated

/-- Only frames have been added, or variables to them. -/
theorem of_settled (h : s.Situated V) (hst : s.Settled t) (hfunctions : t.functions = s.functions)
    (hclasses : t.classes = s.classes) : t.Situated V where
  functions r := by
    rw [hfunctions]
    exact (h.functions r).mono hst
  methods := by
    rw [hclasses]
    exact fun c x f hf => (h.methods c x f hf).mono hst.frames

theorem newFunction (h : s.Situated V) {g : Closure M.scoping} (hg : g.Situated V s) :
    (s.newFunction g).2.Situated V where
  functions r := by
    have hst : s.Settled (s.newFunction g).2 := ⟨.refl _, .refl _⟩
    show ((s.functions.alloc g).2.get r).Situated V _
    rw [Arena.get_alloc]
    split
    · exact hg.mono hst
    · exact (h.functions r).mono hst
  methods := h.methods

theorem newClass (h : s.Situated V) {c : Class M.scoping}
    (hc : ∀ x f, c.methods.get? x = some f → f.MethodOf s.memory c.ancestors) :
    (s.newClass c).2.Situated V where
  functions r := (h.functions r).mono ⟨.refl _, Arena.le_alloc c⟩
  methods r x f hf := by
    have hf : ((s.classes.alloc c).2.get r).methods.get? x = some f := hf
    show f.MethodOf s.memory ((s.classes.alloc c).2.get r).ancestors
    rw [Arena.get_alloc] at hf ⊢
    split at hf
    · rename_i hr
      rw [if_pos hr]
      exact hc x f hf
    · rename_i hr
      rw [if_neg hr]
      exact h.methods r x f hf

/-- Where the method of a class and its ancestors is found. -/
theorem exists_of_method? {c : Ref .cls} {x : String} {f : Closure M.scoping}
    (hf : s.method? c x = some f) : ∃ c', (s.classes.get c').methods.get? x = some f := by
  obtain ⟨c', -, hc'⟩ := List.exists_of_findSome?_eq_some hf
  exact ⟨c', hc'⟩

/-- A method that is bound to an object is a function that is situated. -/
theorem bindMethod (h : s.Situated V) {c : Ref .cls} {x : String} {f : Closure M.scoping}
    (hf : s.method? c x = some f) (object : Ref .object) :
    s.Settled (s.bindMethod f (.object object)).2 ∧
      (s.bindMethod f (.object object)).2.Situated V ∧
      (s.bindMethod f (.object object)).1.Situated V (s.bindMethod f (.object object)).2 := by
  obtain ⟨c', hc'⟩ := exists_of_method? hf
  have hst : s.Settled (s.bindMethod f (.object object)).2 := s.settled_enter f.scope _
  exact ⟨hst, h.of_settled hst rfl rfl,
    .bound (hst.method hc') (Frames.get?_alloc_single s.memory _ (.object object))⟩

end Store.Situated

/-! ### Machines -/

/-- The second machine has the classes of the first and the keywords of its frames, is situated, and
the same chain is current. -/
structure Machine.Settles (V : Task M.scoping → Machine M.scoping → Prop)
    (m n : Machine M.scoping) : Prop where
  situated : n.store.Situated V
  store : m.store.Settled n.store
  scope : n.scope = m.scope

/-- The machine is situated, and its chain is in the activation that is around the place. -/
structure Machine.In (V : Task M.scoping → Machine M.scoping → Prop) (site : Site ι)
    (refs : List (Expr M.Mark)) (m : Machine M.scoping) : Prop where
  situated : m.store.Situated V
  place : site.InActivation V m.store m.scope refs

namespace Machine

variable {l m n : Machine M.scoping}

theorem Settles.refl (h : m.store.Situated V) : m.Settles V m := ⟨h, .refl _, rfl⟩

theorem Settles.trans (hlm : l.Settles V m) (hmn : m.Settles V n) : l.Settles V n :=
  ⟨hmn.situated, hlm.store.trans hmn.store, hmn.scope.trans hlm.scope⟩

theorem Settles.of_sameCode (h : m.store.Situated V) (hmn : m.SameCode n) : m.Settles V n := by
  have hst : m.store.Settled n.store := by
    constructor
    · rw [hmn.memory]
      exact .refl _
    · rw [hmn.classes]
      exact .refl _
  exact ⟨h.of_settled hst hmn.functions hmn.classes, hst, hmn.scope⟩

theorem Settles.define (h : m.store.Situated V) {r : Ref .frame} {x : String} {v : Value}
    (hx : Keyword.ofText? x = none) :
    m.Settles V { m with store := { m.store with memory := Frames.define m.store.memory r x v } } :=
  ⟨h.of_settled ⟨Frames.settled_define hx, .refl _⟩ rfl rfl,
    ⟨Frames.settled_define hx, .refl _⟩, rfl⟩

theorem Settles.enter (h : m.store.Situated V) (chain : Chain) (locals : List (String × Value)) :
    m.Settles V { m with store := (m.store.enter chain locals).2 } :=
  ⟨h.of_settled (m.store.settled_enter chain locals) rfl rfl, m.store.settled_enter chain locals,
    rfl⟩

theorem In.settles (h : m.In V site refs) (hmn : m.Settles V n) : n.In V site refs :=
  ⟨hmn.situated, hmn.scope ▸ h.place.mono hmn.store⟩

theorem In.sub (h : m.In V site refs) {refs' : List (Expr M.Mark)} (hrefs : refs' ⊆ refs) :
    m.In V site refs' :=
  ⟨h.situated, h.place.sub hrefs⟩

theorem In.set (h : m.In V site refs) {name : Name} (hname : name.Proper) (usable : Bool) :
    m.In V (site.set name.text usable) refs :=
  ⟨h.situated, h.place.set hname usable⟩

end Machine

/-! ### Where `this` and `super` are -/

section

variable {m : Machine M.scoping}

/-- **`this`** is the object that the activation around the place is bound to. -/
theorem Machine.In.exists_this (hm : m.In V site refs) {d : Nat}
    (hd : site.scopes.hops? Keyword.thisWord.text = some d) :
    ∃ c f object front a r, m.store.Activation V c f object front a r ∧
      m.scope = front ++ a :: r :: f.scope ∧ refs ⊆ f.decl.selfRefs ∧
      Frames.valueAt m.store.memory m.scope d Keyword.thisWord.text = .ok (.object object) := by
  obtain ⟨c, f, object, front, a, r, hact, hchain, hlength, hrefs, -⟩ := hm.place.enclosed d hd
  refine ⟨c, f, object, front, a, r, hact, hchain, hrefs, ?_⟩
  exact Frames.valueAt_eq_ok_iff.2 ⟨r, by simp [hchain, hlength], hact.receiver⟩

/-- **`super`** is the class that the class of the method inherits from, and `this` is found with
it. -/
theorem Machine.In.exists_super (hm : m.In V site refs) {mark : M.Mark}
    (hb : site.Binds M (fun _ => True) .superRef Keyword.superWord.text mark) :
    ∃ c f object front a r p, m.store.Activation V c f object front a r ∧
      m.scope = front ++ a :: r :: f.scope ∧ refs ⊆ f.decl.selfRefs ∧
      (m.store.classes.get c).ancestors.head? = some p ∧
      Frames.inherited m.store.memory m.scope (M.hops mark) = .ok (.cls p, .object object) := by
  obtain ⟨rfl, hknown⟩ := hb
  obtain ⟨d, hsuper, hthis⟩ := hknown trivial
  obtain ⟨c, f, object, front, a, r, hact, hchain, hlength, hrefs, hroot⟩ :=
    hm.place.enclosed d hthis
  obtain ⟨x, hx⟩ := hact.method
  cases hancestors : (m.store.classes.get c).ancestors with
  | nil =>
    -- If the class did not inherit, `super` would not be known at this distance.
    exact absurd hsuper (hroot hancestors)
  | cons p rest =>
    have hhead : (m.store.classes.get c).ancestors.head? = some p := by
      rw [hancestors]
      rfl
    obtain ⟨r', outer, hscope, hp⟩ := (hm.situated.methods c x f hx).parent p hhead
    refine ⟨c, f, object, front, a, r, p, hact, hchain, hrefs, hhead, ?_⟩
    refine Frames.inherited_eq_ok_iff.2 ⟨d + 1, ?_, ?_, ?_⟩
    · rw [Site.mark, M.hops_make, hsuper]
    · exact Frames.valueAt_eq_ok_iff.2 ⟨r', by simp [hchain, hscope, hlength, Nat.add_assoc], hp⟩
    · exact Frames.valueAt_eq_ok_iff.2 ⟨r, by simp [hchain, hlength], hact.receiver⟩

end

/-! ### Steps -/

namespace Eval

variable {α : Type} {m : Machine M.scoping}

/-- Carried out on the machine, the computation leaves it settled. -/
def Settles (V : Task M.scoping → Machine M.scoping → Prop) (x : Eval M.scoping α)
    (m : Machine M.scoping) : Prop :=
  x.Ends m (fun _ n => m.Settles V n) fun _ n => m.Settles V n

theorem settles_of_same {x : Eval M.scoping α} (hm : m.store.Situated V)
    (hx : x.Ends m (fun _ n => n = m) fun _ n => n = m) : x.Settles V m := by
  refine hx.mono ?_ ?_
  · rintro _ _ rfl
    exact .refl hm
  · rintro _ _ rfl
    exact .refl hm

theorem settles_assign (hm : m.store.Situated V) {mark : M.Mark} {name : Name} {v : Value}
    (hname : Keyword.ofText? name.text = none) :
    (assign (σ := M.scoping) mark name v).Settles V m := by
  refine ends_bind.2 ((locate_ends (.inr trivial : _ ∨ True)).mono ?_ ?_)
  · rintro ⟨r, x⟩ n ⟨rfl, rfl, -⟩
    exact .define hm hname
  · rintro why n ⟨rfl, -⟩
    exact .refl hm

theorem announce_settles (hm : m.store.Situated V) {x : String} (hx : Keyword.ofText? x = none) :
    (announce (σ := M.scoping) x).Ends m (fun slot n => m.Settles V n ∧ slot.2 = x)
      fun _ n => m.Settles V n := by
  refine ends_bind.2 (ends_scope.2 (ends_bind.2 ?_))
  cases hscope : m.scope with
  | nil =>
    simp only [Frames.announce, Frames.frameAt]
    exact .refl hm
  | cons r outer =>
    simp only [Frames.announce, Frames.frameAt]
    have hdefine : m.Settles V { m with
        store := { m.store with memory := Frames.define m.store.memory r x .nil } } :=
      .define hm hx
    exact ⟨⟨hdefine.situated, hdefine.store, hscope.symm⟩, rfl⟩

theorem settles_put (hm : m.store.Situated V) {slot : Ref .frame × String} {v : Value}
    (hx : Keyword.ofText? slot.2 = none) : (put (σ := M.scoping) slot v).Settles V m :=
  Machine.Settles.define hm hx

theorem settles_bindMethod (hm : m.store.Situated V) {c : Ref .cls} {x : String}
    {f : Closure M.scoping} (hf : m.store.method? c x = some f) (object : Ref .object) :
    (bindMethod f (.object object)).Settles V m := by
  obtain ⟨hst, hs, hg⟩ := hm.bindMethod hf object
  exact ⟨hs.newFunction hg, ⟨hst.frames, hst.classes⟩, rfl⟩

theorem settles_property (hm : m.store.Situated V) {object : Ref .object} {name : Name} :
    (property (σ := M.scoping) object name).Settles V m := by
  refine ends_bind.2 (ends_store.2 ?_)
  simp only
  split
  · exact .refl hm
  · split
    · rename_i f hf
      exact settles_bindMethod hm hf object
    · exact Machine.Settles.refl hm

theorem settles_superMethod (hm : m.In V site refs) {mark : M.Mark} {name : Name}
    (hb : site.Binds M (fun _ => True) .superRef Keyword.superWord.text mark) :
    (superMethod (σ := M.scoping) mark name).Settles V m := by
  obtain ⟨c, f, object, front, a, r, p, -, -, -, -, hinherited⟩ := hm.exists_super hb
  refine ends_bind.2 (ends_get.2 (ends_bind.2 ?_))
  dsimp only
  rw [hinherited]
  refine ends_expect_ok.2 ?_
  simp only
  split
  · rename_i f hf
    exact settles_bindMethod hm.situated hf object
  · exact Machine.Settles.refl hm.situated

end Eval

section

variable {m : Machine M.scoping}

theorem settles_declareVariable (hm : m.store.Situated V) {name : Name} {v : Value}
    (hname : name.Proper) : (declareVariable (σ := M.scoping) name v).Settles V m := by
  refine Eval.ends_bind.2 ((Eval.announce_settles hm hname).mono ?_ fun _ _ h => h)
  rintro slot n ⟨hmn, hslot⟩
  refine (Eval.settles_put hmn.situated (hslot ▸ hname)).mono ?_ ?_
  · exact fun _ _ h => hmn.trans h
  · exact fun _ _ h => hmn.trans h

/-- A function is in the activation that its declaration is in. -/
theorem settles_declareFunction {decl : Function M.Mark} (hm : m.In V site decl.selfRefs)
    (hname : decl.name.Proper)
    (hdecl : decl.BoundAt M (fun _ => True) (site.set decl.name.text true)) :
    (declareFunction (σ := M.scoping) decl).Settles V m := by
  refine Eval.ends_bind.2 ((Eval.announce_settles hm.situated hname).mono ?_ fun _ _ h => h)
  rintro slot n ⟨hmn, hslot⟩
  have hn := (hm.settles hmn).set hname true
  have hnew : n.Settles V
      { n with store := (n.store.newFunction ⟨decl, n.scope, false⟩).2 } :=
    ⟨hn.situated.newFunction (.declared hdecl hn.place), ⟨.refl _, .refl _⟩, rfl⟩
  refine Eval.ends_bind.2 (Eval.ends_scope.2 (Eval.ends_bind.2 (Eval.ends_alloc.2 ?_)))
  refine (Eval.settles_put hnew.situated (hslot ▸ hname)).mono ?_ ?_
  · exact fun _ _ h => hmn.trans (hnew.trans h)
  · exact fun _ _ h => hmn.trans (hnew.trans h)

/-- The methods of a class that inherits see `super` first. -/
theorem methodScope_settles (hm : m.store.Situated V) (parent : Option (Ref .cls)) (outer : Chain) :
    (methodScope (σ := M.scoping) parent outer).Ends m
      (fun inner n => m.Settles V n ∧
        ∀ p, parent = some p → ∃ r outer, inner = r :: outer ∧
          (Arena.get n.store.memory r).get? Keyword.superWord.text = some (.cls p))
      fun _ n => m.Settles V n := by
  cases parent with
  | none => exact ⟨.refl hm, fun p hp => by cases hp⟩
  | some c =>
    refine ⟨.enter hm outer _, ?_⟩
    intro p hp
    cases hp
    exact ⟨_, outer, rfl, Frames.get?_alloc_single m.store.memory _ (.cls c)⟩

/-- What a superclass clause is, if it is anything: a class, if there is a clause. -/
theorem superclass?_isSome (superclass : Option (Name × M.Mark)) (m : Machine M.scoping) :
    (superclass? (σ := M.scoping) superclass).Ends m
      (fun parent n => n = m ∧ parent.isSome = superclass.isSome) fun _ n => n = m := by
  cases superclass with
  | none => exact ⟨rfl, rfl⟩
  | some clause =>
    exact (superclass?_ends (.inr trivial : _ ∨ True)).mono (fun _ _ h => h) fun _ _ h => h.1

/-- What is declared in a class is a method of it: `super` has been put in front of what it sees, if
the class inherits. -/
theorem Class.methodOf_ofDecl (name : Name) {parent : Option (Ref .cls)}
    {methods : List (Function M.Mark)} {inner : Chain} {place : Site ι}
    (hmethods : Function.AllBoundAt M (fun _ => True) (place.enter [Keyword.thisWord.text]) methods)
    (hroot : parent = none → place.scopes.hops? Keyword.superWord.text ≠ some 0)
    (hsuper : ∀ p, parent = some p → ∃ r outer, inner = r :: outer ∧
      (Arena.get s.memory r).get? Keyword.superWord.text = some (.cls p))
    (x : String) (f : Closure M.scoping)
    (hf : (Class.ofDecl s name parent methods inner).methods.get? x = some f) :
    f.MethodOf s.memory (Class.ofDecl s name parent methods inner).ancestors := by
  refine Table.forall_get?_ofList (P := fun _ (f : Closure M.scoping) =>
    f.MethodOf s.memory (Class.ofDecl s name parent methods inner).ancestors)
      (fun e he => ?_) x f hf
  obtain ⟨method, hmethod, rfl⟩ := List.mem_map.1 he
  refine ⟨⟨place, hmethods.of_mem hmethod, fun hnone => ?_⟩, fun p hp => ?_⟩
  · cases parent with
    | none => exact hroot rfl
    | some c => cases hnone
  · cases parent with
    | none => cases hp
    | some c =>
      cases hp
      exact hsuper _ rfl

/-- Declaring a class, once it is known where its methods are bound. -/
theorem settles_declareClass_of_methods {name : Name} {superclass : Option (Name × M.Mark)}
    {methods : List (Function M.Mark)} (hm : m.In V site refs) (hname : name.Proper)
    (hmethods : Function.AllBoundAt M (fun _ => True) (((site.set name.text true).aroundMethods
      superclass.isSome).enter [Keyword.thisWord.text]) methods) :
    (declareClass (σ := M.scoping) name superclass methods).Settles V m := by
  rw [Eval.Settles, declareClass_eq]
  refine Eval.ends_bind.2 ((superclass?_isSome superclass m).mono ?_ ?_)
  swap
  · rintro _ _ rfl
    exact .refl hm.situated
  rintro parent m ⟨rfl, hsome⟩
  refine Eval.ends_bind.2 ((Eval.announce_settles hm.situated hname).mono ?_ fun _ _ h => h)
  rintro slot n ⟨hmn, hslot⟩
  refine Eval.ends_bind.2 (Eval.ends_scope.2 (Eval.ends_bind.2 ?_))
  refine (methodScope_settles hmn.situated parent n.scope).mono ?_ fun _ _ h => hmn.trans h
  rintro inner k ⟨hnk, hsuper⟩
  refine Eval.ends_bind.2 (Eval.ends_store.2 (Eval.ends_bind.2 (Eval.ends_alloc.2 ?_)))
  have hroot (hnone : parent = none) : ((site.set name.text true).aroundMethods
      superclass.isSome).scopes.hops? Keyword.superWord.text ≠ some 0 := by
    -- A class without a parent has no superclass clause, so no scope is opened for `super`.
    rw [← hsome, hnone]
    exact (hm.place.set hname true).plain
  have hclass := Class.methodOf_ofDecl (s := k.store) name hmethods hroot hsuper
  have hnew : k.Settles V { k with
      store := (k.store.newClass (Class.ofDecl k.store name parent methods inner)).2 } :=
    ⟨hnk.situated.newClass hclass, ⟨.refl _, Arena.le_alloc _⟩, rfl⟩
  refine (Eval.settles_put hnew.situated (hslot ▸ hname)).mono ?_ ?_
  · exact fun _ _ h => hmn.trans (hnk.trans (hnew.trans h))
  · exact fun _ _ h => hmn.trans (hnk.trans (hnew.trans h))

theorem settles_declareClass {name : Name} {superclass : Option (Name × M.Mark)}
    {methods : List (Function M.Mark)} (hm : m.In V site refs)
    (hs : (Stmt.classDecl name superclass methods).BoundAt M (fun _ => True) site) :
    (declareClass (σ := M.scoping) name superclass methods).Settles V m := by
  match superclass with
  | none => exact settles_declareClass_of_methods hm hs.1 hs.2.2
  | some (parent, mark) => exact settles_declareClass_of_methods hm hs.1 hs.2.2.2.2

/-! ### Calls -/

theorem Closure.result_same {f : Closure M.scoping} {jump : Option Jump} :
    (f.result jump).Ends m (fun _ n => n = m) fun _ n => n = m := by
  unfold Closure.result
  split
  · exact rfl
  · exact rfl
  · split
    · refine Eval.ends_bind.2 (Eval.ends_store.2 ?_)
      cases Scoping.receiver M.scoping m.store.memory f.scope <;> exact rfl
    · split <;> exact rfl

/-- The body of a method that has been bound to an object, at the beginning of an activation. -/
theorem Site.inActivation_of_begins (site : Site ι) {c : Ref .cls} {x : String}
    {f : Closure M.scoping} {object : Ref .object} {r : Ref .frame} {locals : List (String × Value)}
    (hmethod : (m.store.classes.get c).methods.get? x = some f)
    (hreceiver : (Arena.get m.store.memory r).get? Keyword.thisWord.text = some (.object object))
    (hroot : (m.store.classes.get c).ancestors = [] →
      site.scopes.hops? Keyword.superWord.text ≠ some 0)
    (hparams : ∀ k : Keyword, k.text ∉ f.decl.params.map Name.text)
    (hlocals : ∀ k : Keyword, k.text ∉ locals.map Prod.fst)
    (hV : V (.block (m.store.enter (r :: f.scope) locals).1 f.decl.body)
      { m with store := (m.store.enter (r :: f.scope) locals).2 }) :
    ((site.enter [Keyword.thisWord.text]).body (f.decl.params.map Name.text)).InActivation V
      (m.store.enter (r :: f.scope) locals).2 (m.store.enter (r :: f.scope) locals).1
      f.decl.selfRefs := by
  have hwords (k : Keyword) :
      ((site.enter [Keyword.thisWord.text]).body
        (f.decl.params.map Name.text)).scopes.hops? k.text =
        ((site.scopes.enter [Keyword.thisWord.text]).hops? k.text).map (· + 1) :=
    Scopes.hops?_enter_of_not_mem _ (hparams k)
  have hsuper : (site.scopes.enter [Keyword.thisWord.text]).hops? Keyword.superWord.text =
      (site.scopes.hops? Keyword.superWord.text).map (· + 1) :=
    Scopes.hops?_enter_of_not_mem _ (by decide)
  have hthis : (site.scopes.enter [Keyword.thisWord.text]).hops? Keyword.thisWord.text = some 0 :=
    Scopes.hops?_enter_of_mem _ (List.mem_singleton_self _)
  have hst := m.store.settled_enter (r :: f.scope) locals
  refine ⟨?_, fun d hd => ?_⟩
  · rw [hwords, hsuper]
    cases site.scopes.hops? Keyword.superWord.text <;> simp
  · -- `this` is one frame out, behind the parameters, so nothing is in front of the activation.
    rw [hwords, hthis] at hd
    cases hd
    refine ⟨c, f, object, [], (Arena.alloc m.store.memory (.ofList locals)).1, r, ⟨?_, ?_, ?_, ?_⟩,
      rfl, rfl, List.Subset.refl _, fun hnone => ?_⟩
    · exact ⟨x, hst.method hmethod⟩
    · exact hst.frames.get? hreceiver
    · intro b hb
      obtain rfl := List.mem_singleton.1 hb
      exact ⟨Arena.holds_alloc_self _ _, Frames.get?_alloc_of_not_mem (hlocals .thisWord)⟩
    · exact ⟨_, hV, hst.frames.get? hreceiver⟩
    · have hzero := hroot hnone
      rw [hwords, hsuper]
      cases hd : site.scopes.hops? Keyword.superWord.text with
      | none => simp
      | some d =>
        intro h
        have hd' : d = 0 := by simpa using h
        exact hzero (hd' ▸ hd)

/-- **An activation begins**: the body of a function is in the activation that the function was
declared in, and that of a method is in a new one. -/
theorem Closure.Situated.enter {g : Closure M.scoping} (hg : g.Situated V m.store)
    (hm : m.store.Situated V) (arguments : List Value) {inner : Chain} {s : Store M.scoping}
    (henter : m.store.enter g.scope ((g.decl.params.map Name.text).zip arguments) = (inner, s)) :
    ∃ site : Site ι, Stmt.AllBoundAt M (fun _ => True) site g.decl.body ∧
      (V (.block inner g.decl.body) { m with store := s } →
        site.InActivation V s inner (Stmt.allSelfRefs g.decl.body)) := by
  have hparams {place : Site ι} (hbound : g.decl.BoundAt M (fun _ => True) place) (k : Keyword) :
      k.text ∉ g.decl.params.map Name.text := by
    intro hk
    obtain ⟨name, hname, htext⟩ := List.mem_map.1 hk
    have hreserved := ((Function.boundAt_iff M _).1 hbound).1 name hname
    exact Keyword.text_ne_of_ofText? hreserved k htext.symm
  have hlocals {place : Site ι} (hbound : g.decl.BoundAt M (fun _ => True) place) (k : Keyword) :
      k.text ∉ ((g.decl.params.map Name.text).zip arguments).map Prod.fst := by
    intro hk
    obtain ⟨e, he, htext⟩ := List.mem_map.1 hk
    exact hparams hbound k (htext ▸ (List.of_mem_zip he).1)
  obtain ⟨rfl, rfl⟩ := Prod.mk.inj henter
  cases hg with
  | @declared _ site hbound hplace =>
    refine ⟨site.body (g.decl.params.map Name.text), ((Function.boundAt_iff M _).1 hbound).2.2,
      fun _ => ?_⟩
    rw [← Function.selfRefs_eq]
    exact hplace.enter rfl (hparams hbound) (hlocals hbound)
  | @bound c x f object r hmethod hreceiver =>
    obtain ⟨site, hbound, hroot⟩ := (hm.methods c x f hmethod).bound
    refine ⟨(site.enter [Keyword.thisWord.text]).body (f.decl.params.map Name.text),
      ((Function.boundAt_iff M _).1 hbound).2.2, fun hV => ?_⟩
    rw [← Function.selfRefs_eq]
    exact site.inActivation_of_begins hmethod hreceiver hroot (hparams hbound) (hlocals hbound) hV

end

end LoxLang
