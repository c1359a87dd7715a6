import LoxLang.Proofs.Chains
import LoxLang.Proofs.Values

/-!
# Stores that fit

A store *fits* (`Store.Fits`) if every function and every method in it is bound at a place whose
scopes its chain of frames corresponds to. Here is what each step of the evaluation of bound code
does to such a store and to the current chain: what it leaves fits again and has all frames and
names that were there before (`Machine.Grows`), and a use of a variable finds its place.
-/

namespace LoxLang

/-- Not a fault without a place, nor a defect or a fault for a jump that is not excused. -/
def Halt.Accounted (excuse : Prop) : Halt → Prop
  | fault f => f.place.isSome ∧ (f.cause.isStray = true → excuse)
  | defect _ => excuse
  | _ => True

theorem Halt.Placed.accounted {h : Halt} (hh : h.Placed) (excuse : Prop) : h.Accounted excuse := by
  cases h with
  | fault f => exact ⟨hh.1, fun hstray => absurd hstray (by simp [hh.2])⟩
  | defect d => exact hh.elim
  | _ => exact hh

theorem Halt.accounted_fault {f : Fault} {excuse : Prop} (hplace : f.place.isSome)
    (hcause : f.cause.isStray = false) : (Halt.fault f).Accounted excuse :=
  Placed.accounted (h := .fault f) ⟨hplace, hcause⟩ excuse

variable {ι : Type} (M : Marking ι) (clean : ι → Prop)

/-- How a statement at the place may leave those around it. -/
def Site.Lets (site : Site ι) : Option Jump → Prop
  | none => True
  | some (.breakLoop _) | some (.continueLoop _) => clean site.source → site.inLoop = true
  | some (.returnValue ..) => clean site.source → site.inFunction = true

namespace Closure

/-- The function is bound at a place that its chain corresponds to. -/
structure Fits (frames : Frames) (f : Closure M.scoping) : Prop where
  bound : ∃ site : Site ι, f.decl.BoundAt M clean site ∧ Chain.Fits frames site.scopes f.scope
  receiver : f.isInitializer = true →
    ∃ r outer, f.scope = r :: outer ∧ frames.Has r Keyword.thisWord.text

/-- The method is bound in a scope with `this`, at a place that its chain corresponds to. -/
def FitsMethod (frames : Frames) (f : Closure M.scoping) : Prop :=
  ∃ site : Site ι, f.decl.BoundAt M clean (site.enter [Keyword.thisWord.text]) ∧
    Chain.Fits frames site.scopes f.scope

end Closure

/-- Functions and methods are bound at places that their chains correspond to, and `super` is a
class wherever it is in a frame. -/
structure Store.Fits (s : Store M.scoping) : Prop where
  globals : Arena.Holds s.memory globalFrame
  supers : ∀ r v, (Arena.get s.memory r).get? Keyword.superWord.text = some v → ∃ c, v = .cls c
  functions : ∀ r, (s.functions.get r).Fits M clean s.memory
  methods : ∀ c x f, (s.classes.get c).methods.get? x = some f → f.FitsMethod M clean s.memory

/-- The second store has the frames of the first and fits. -/
structure Store.Grows (s t : Store M.scoping) : Prop where
  fits : t.Fits M clean
  frames : Frames.Le s.memory t.memory

/-- The second machine has the frames of the first and fits, and the same chain is current. -/
structure Machine.Grows (m n : Machine M.scoping) : Prop where
  store : m.store.Grows M clean n.store
  scope : n.scope = m.scope

/-- The machine fits, and the current chain corresponds to the scopes of the place. -/
structure Machine.At (site : Site ι) (m : Machine M.scoping) : Prop where
  fits : m.store.Fits M clean
  chain : Chain.Fits m.store.memory site.scopes m.scope

variable {M clean} {frames later : Frames} {s t u : Store M.scoping} {l m n : Machine M.scoping}
  {site : Site ι}

namespace Closure

theorem Fits.mono {f : Closure M.scoping} (h : f.Fits M clean frames) (hle : frames.Le later) :
    f.Fits M clean later := by
  refine ⟨?_, fun hi => ?_⟩
  · obtain ⟨site, hsite, hchain⟩ := h.bound
    exact ⟨site, hsite, hchain.mono hle⟩
  · obtain ⟨r, outer, hscope, hthis⟩ := h.receiver hi
    exact ⟨r, outer, hscope, hle.has r _ hthis⟩

theorem FitsMethod.mono {f : Closure M.scoping} (h : f.FitsMethod M clean frames)
    (hle : frames.Le later) : f.FitsMethod M clean later := by
  obtain ⟨site, hsite, hchain⟩ := h
  exact ⟨site, hsite, hchain.mono hle⟩

end Closure

/-! ### What changes to the store keep -/

namespace Store

theorem Grows.refl (h : s.Fits M clean) : s.Grows M clean s := ⟨h, .refl _⟩

theorem Grows.trans (hst : s.Grows M clean t) (htu : t.Grows M clean u) : s.Grows M clean u :=
  ⟨htu.fits, hst.frames.trans htu.frames⟩

/-- Only frames have been added, or names to them. -/
theorem Fits.withMemory {memory : Frames} (h : s.Fits M clean) (hle : Frames.Le s.memory memory)
    (hsuper : ∀ r v, (memory.get r).get? Keyword.superWord.text = some v → ∃ c, v = .cls c) :
    s.Grows M clean { s with memory := memory } :=
  ⟨⟨hle.holds _ h.globals, hsuper, fun r => (h.functions r).mono hle,
    fun c x f hf => (h.methods c x f hf).mono hle⟩, hle⟩

theorem Fits.define (h : s.Fits M clean) {r : Ref .frame} {x : String} {v : Value}
    (hx : Keyword.superWord.text ≠ x) :
    s.Grows M clean { s with memory := Frames.define s.memory r x v } := by
  refine h.withMemory Frames.le_define fun r' w hw => h.supers r' w ?_
  rwa [Frames.get?_define_of_ne hx] at hw

theorem Fits.enter (h : s.Fits M clean) (chain : Chain) {locals : List (String × Value)}
    (hlocals : ∀ e ∈ locals, e.1 = Keyword.superWord.text → ∃ c, e.2 = .cls c) :
    s.Grows M clean (s.enter chain locals).2 := by
  refine h.withMemory (Frames.le_alloc _) fun r v hv => ?_
  have hv : ((Arena.alloc s.memory (.ofList locals)).2.get r).get? Keyword.superWord.text =
      some v :=
    hv
  rw [Arena.get_alloc] at hv
  split at hv
  · exact Table.forall_get?_ofList (P := fun x v => x = Keyword.superWord.text → ∃ c, v = .cls c)
      hlocals _ v hv rfl
  · exact h.supers r v hv

theorem Fits.newFunction (h : s.Fits M clean) {f : Closure M.scoping}
    (hf : f.Fits M clean s.memory) : s.Grows M clean (s.newFunction f).2 := by
  refine ⟨⟨h.globals, h.supers, fun r => ?_, h.methods⟩, .refl _⟩
  show ((s.functions.alloc f).2.get r).Fits M clean s.memory
  rw [Arena.get_alloc]
  split
  · exact hf
  · exact h.functions r

theorem Fits.newClass (h : s.Fits M clean) {c : Class M.scoping}
    (hc : ∀ x f, c.methods.get? x = some f → f.FitsMethod M clean s.memory) :
    s.Grows M clean (s.newClass c).2 := by
  refine ⟨⟨h.globals, h.supers, h.functions, fun r x f hf => ?_⟩, .refl _⟩
  have hf : ((s.classes.alloc c).2.get r).methods.get? x = some f := hf
  rw [Arena.get_alloc] at hf
  split at hf
  · exact hc x f hf
  · exact h.methods r x f hf

theorem Fits.method? (h : s.Fits M clean) {c : Ref .cls} {x : String} {f : Closure M.scoping}
    (hf : s.method? c x = some f) : f.FitsMethod M clean s.memory := by
  obtain ⟨c', -, hc'⟩ := List.exists_of_findSome?_eq_some hf
  exact h.methods c' x f hc'

/-- A method that is bound to an object is a function that fits. -/
theorem Fits.bindMethod (h : s.Fits M clean) {f : Closure M.scoping}
    (hf : f.FitsMethod M clean s.memory) (object : Value) :
    s.Grows M clean (s.bindMethod f object).2 ∧
      (s.bindMethod f object).1.Fits M clean (s.bindMethod f object).2.memory := by
  have hgrows : s.Grows M clean (s.bindMethod f object).2 :=
    h.enter f.scope (by simp [Keyword.text])
  refine ⟨hgrows, ?_, fun _ => ?_⟩
  · obtain ⟨site, hsite, hchain⟩ := hf
    exact ⟨site.enter [Keyword.thisWord.text], hsite, hchain.enter h.globals (by simp)⟩
  · exact ⟨_, _, rfl, Frames.has_alloc (by simp)⟩

end Store

namespace Machine

theorem Grows.refl (h : m.store.Fits M clean) : m.Grows M clean m := ⟨.refl h, rfl⟩

theorem Grows.trans (hlm : l.Grows M clean m) (hmn : m.Grows M clean n) : l.Grows M clean n :=
  ⟨hlm.store.trans hmn.store, hmn.scope.trans hlm.scope⟩

theorem Grows.withStore (h : m.store.Grows M clean t) : m.Grows M clean { m with store := t } :=
  ⟨h, rfl⟩

/-- What leaves the code as it is leaves it fitting. -/
theorem Grows.of_sameCode (h : m.store.Fits M clean) (hmn : m.SameCode n) : m.Grows M clean n := by
  refine ⟨⟨⟨?_, ?_, ?_, ?_⟩, ?_⟩, hmn.scope⟩
  · rw [hmn.memory]
    exact h.globals
  · rw [hmn.memory]
    exact h.supers
  · rw [hmn.memory, hmn.functions]
    exact h.functions
  · rw [hmn.memory, hmn.classes]
    exact h.methods
  · rw [hmn.memory]
    exact .refl _

theorem At.grows (h : m.At M clean site) (hmn : m.Grows M clean n) : n.At M clean site :=
  ⟨hmn.store.fits, hmn.scope ▸ h.chain.mono hmn.store.frames⟩

end Machine

/-! ### Variables -/

/-- A use that is bound at a place finds its name. -/
theorem Site.Binds.exists_frame {chain : Chain} {use : Use} {x : String} {mark : M.Mark}
    (h : site.Binds M clean use x mark) (hchain : Chain.Fits frames site.scopes chain) {d : Nat}
    (hd : M.hops mark = some d) :
    ∃ r, chain[d]? = some r ∧ r ≠ globalFrame ∧ frames.Has r x := by
  have hmark : mark = site.mark M x ∨ mark = M.make site.source site.scopes none := by
    cases use with
    | read => exact .inl h
    | assign => exact .inl h.1
    | thisRef => exact h.1
    | superRef => exact .inl h.1
  obtain rfl | rfl := hmark
  · rw [Site.mark, M.hops_make] at hd
    exact hchain.exists_of_hops? hd
  · rw [M.hops_make] at hd
    cases hd

namespace Eval

variable {excuse : Prop} {mark : M.Mark}

/-- The place of a use, if the frame that its mark leads to has the name. -/
theorem locate_ends {token : Token}
    (hfound : (∀ d, M.hops mark = some d →
      ∃ r, m.scope[d]? = some r ∧ Frames.Has m.store.memory r token.lexeme) ∨ excuse) :
    (locate (σ := M.scoping) mark token).Ends m
      (fun slot n => n = m ∧ slot.2 = token.lexeme ∧
        (Frames.Has m.store.memory slot.1 token.lexeme ∨ excuse))
      fun h n => n = m ∧ h.Accounted excuse := by
  refine ends_bind.2 (ends_get.2 ?_)
  simp only [Frames.locate]
  cases hd : M.hops mark with
  | none =>
    simp only
    cases hr : Frames.holder? m.store.memory globalChain token.lexeme with
    | none => exact ⟨rfl, Halt.accounted_fault rfl rfl⟩
    | some r =>
      rw [Frames.holder?] at hr
      exact ⟨rfl, rfl, .inl (List.find?_some hr :)⟩
  | some d =>
    simp only [Frames.frameAt]
    cases hr : m.scope[d]? with
    | none =>
      refine ⟨rfl, hfound.resolve_left fun hfound => ?_⟩
      obtain ⟨r, hr', -⟩ := hfound d hd
      rw [hr] at hr'
      cases hr'
    | some r =>
      refine ⟨rfl, rfl, hfound.imp_left fun hfound => ?_⟩
      obtain ⟨r', hr', hhas⟩ := hfound d hd
      rw [hr] at hr'
      cases hr'
      exact hhas

theorem readVariable_ends {token : Token}
    (hfound : (∀ d, M.hops mark = some d →
      ∃ r, m.scope[d]? = some r ∧ Frames.Has m.store.memory r token.lexeme) ∨ excuse) :
    (readVariable (σ := M.scoping) mark token).Ends m (fun _ n => n = m)
      fun h n => n = m ∧ h.Accounted excuse := by
  refine ends_bind.2 ((locate_ends hfound).mono ?_ fun _ _ h => h)
  rintro ⟨r, x⟩ n ⟨rfl, rfl, hhas⟩
  refine ends_bind.2 (ends_store.2 ?_)
  simp only
  cases hv : (Arena.get n.store.memory r).get? token.lexeme with
  | some v => exact rfl
  | none =>
    refine ⟨rfl, hhas.resolve_left fun hhas => ?_⟩
    obtain ⟨v, hv'⟩ := Frames.has_iff_exists.1 hhas
    rw [hv] at hv'
    cases hv'

theorem assign_ends {name : Name} {v : Value} (hm : m.At M clean site)
    (hb : site.Binds M clean .assign name.text mark) :
    (assign (σ := M.scoping) mark name v).Ends m (fun _ n => m.Grows M clean n)
      fun h n => n = m ∧ h.Accounted excuse := by
  refine ends_bind.2 ((locate_ends (.inl fun d hd => ?_)).mono ?_ fun _ _ h => h)
  · obtain ⟨r, hr, -, hhas⟩ := hb.exists_frame hm.chain hd
    exact ⟨r, hr, hhas⟩
  · rintro ⟨r, x⟩ n ⟨rfl, rfl, -⟩
    exact ⟨hm.fits.define (Keyword.text_ne_of_ofText? hb.2 .superWord), rfl⟩

/-! ### Methods -/

/-- A method becomes a function of its own. -/
theorem bindMethod_ends {f : Closure M.scoping} {object : Value}
    {H : Halt → Machine M.scoping → Prop}
    (hm : m.store.Fits M clean) (hf : f.FitsMethod M clean m.store.memory) :
    (bindMethod f object).Ends m (fun _ n => m.Grows M clean n) H := by
  obtain ⟨hgrows, hfits⟩ := hm.bindMethod hf object
  exact ⟨hgrows.trans (hgrows.fits.newFunction hfits), rfl⟩

theorem property_ends {object : Ref .object} {name : Name} (hm : m.store.Fits M clean) :
    (property object name).Ends m (fun _ n => m.Grows M clean n)
      fun h n => n = m ∧ h.Accounted excuse := by
  refine ends_bind.2 (ends_store.2 ?_)
  simp only
  split
  · exact .refl hm
  · split
    · rename_i f hf
      exact bindMethod_ends hm (hm.method? hf)
    · exact ⟨rfl, Halt.accounted_fault rfl rfl⟩

/-- Where nothing was reported, `super` and `this` are found at a use of `super`. -/
theorem exists_inherited (hm : m.At M clean site) (hclean : clean site.source)
    (hb : site.Binds M clean .superRef Keyword.superWord.text mark) :
    ∃ parent object,
      Frames.inherited m.store.memory m.scope (M.hops mark) = .ok (parent, object) := by
  obtain ⟨rfl, hknown⟩ := hb
  obtain ⟨d, hsuper, hthis⟩ := hknown hclean
  obtain ⟨r, hr, -, hhas⟩ := hm.chain.exists_of_hops? hsuper
  obtain ⟨r', hr', -, hhas'⟩ := hm.chain.exists_of_hops? hthis
  obtain ⟨parent, hparent⟩ := Frames.has_iff_exists.1 hhas
  obtain ⟨object, hobject⟩ := Frames.has_iff_exists.1 hhas'
  refine ⟨parent, object, Frames.inherited_eq_ok_iff.2 ⟨d + 1, ?_, ?_, ?_⟩⟩
  · rw [Site.mark, M.hops_make, hsuper]
  · exact Frames.valueAt_eq_ok_iff.2 ⟨r, hr, hparent⟩
  · exact Frames.valueAt_eq_ok_iff.2 ⟨r', hr', hobject⟩

theorem superMethod_ends {name : Name} (hm : m.At M clean site)
    (hb : site.Binds M clean .superRef Keyword.superWord.text mark) :
    (superMethod (σ := M.scoping) mark name).Ends m (fun _ n => m.Grows M clean n)
      fun h n => n = m ∧ h.Accounted (∃ i, ¬ clean i) := by
  refine ends_bind.2 (ends_get.2 (ends_bind.2 ?_))
  dsimp only
  cases hi : Frames.inherited m.store.memory m.scope (M.hops mark) with
  | error d =>
    refine ⟨rfl, site.source, fun hclean => ?_⟩
    obtain ⟨parent, object, hi'⟩ := exists_inherited hm hclean hb
    rw [hi] at hi'
    cases hi'
  | ok found =>
    obtain ⟨parent, object⟩ := found
    obtain ⟨d, -, hparent, -⟩ := Frames.inherited_eq_ok_iff.1 hi
    obtain ⟨r, -, hr⟩ := Frames.valueAt_eq_ok_iff.1 hparent
    obtain ⟨c, rfl⟩ := hm.fits.supers r parent hr
    refine ends_expect_ok.2 ?_
    simp only
    split
    · rename_i f hf
      exact bindMethod_ends hm.fits (hm.fits.method? hf)
    · exact ⟨rfl, Halt.accounted_fault rfl rfl⟩

/-! ### Declarations -/

/-- A name that is announced is in the innermost frame. -/
theorem announce_ends {x : String} {H : Halt → Machine M.scoping → Prop} (hm : m.At M clean site)
    (hx : Keyword.superWord.text ≠ x) :
    (announce (σ := M.scoping) x).Ends m
      (fun slot n => m.Grows M clean n ∧ n.At M clean (site.set x true) ∧ slot.2 = x) H := by
  obtain ⟨r, outer, hscope, hr⟩ := hm.chain.exists_cons hm.fits.globals
  refine ends_bind.2 (ends_scope.2 (ends_bind.2 ?_))
  simp only [Frames.announce, hscope]
  have hgrows : m.Grows M clean
      { m with store := { m.store with memory := Frames.define m.store.memory r x .nil },
               scope := m.scope } := ⟨hm.fits.define hx, rfl⟩
  have hchain := (hm.grows hgrows).chain
  rw [hscope] at hchain hgrows
  exact ⟨hgrows, ⟨hgrows.store.fits, hchain.set_true (Frames.has_define_self hr)⟩, rfl⟩

theorem put_ends {slot : Ref .frame × String} {v : Value} {H : Halt → Machine M.scoping → Prop}
    (hm : m.store.Fits M clean) (hx : Keyword.superWord.text ≠ slot.2) :
    (put (σ := M.scoping) slot v).Ends m (fun _ n => m.Grows M clean n) H :=
  ⟨hm.define hx, rfl⟩

end Eval

variable {excuse : Prop}

theorem declareVariable_ends {name : Name} {v : Value} {H : Halt → Machine M.scoping → Prop}
    (hm : m.At M clean site) (hname : name.Proper) :
    (declareVariable name v).Ends m
      (fun _ n => m.Grows M clean n ∧ n.At M clean (site.set name.text true)) H := by
  have hx := Keyword.text_ne_of_ofText? hname .superWord
  refine Eval.ends_bind.2 ((Eval.announce_ends hm hx).mono ?_ fun _ _ h => h)
  rintro slot n ⟨hmn, hn, hslot⟩
  refine (Eval.put_ends hn.fits (hslot ▸ hx)).mono (fun _ k hnk => ?_) fun _ _ h => h
  exact ⟨hmn.trans hnk, hn.grows hnk⟩

theorem declareFunction_ends {decl : Function M.Mark} {H : Halt → Machine M.scoping → Prop}
    (hm : m.At M clean site) (hname : decl.name.Proper)
    (hdecl : decl.BoundAt M clean (site.set decl.name.text true)) :
    (declareFunction (σ := M.scoping) decl).Ends m
      (fun _ n => m.Grows M clean n ∧ n.At M clean (site.set decl.name.text true)) H := by
  have hx := Keyword.text_ne_of_ofText? hname .superWord
  refine Eval.ends_bind.2 ((Eval.announce_ends hm hx).mono ?_ fun _ _ h => h)
  rintro slot n ⟨hmn, hn, hslot⟩
  refine Eval.ends_bind.2 (Eval.ends_scope.2 (Eval.ends_bind.2 (Eval.ends_alloc.2 ?_)))
  have hnew := hn.fits.newFunction (f := ⟨decl, n.scope, false⟩) ⟨⟨_, hdecl, hn.chain⟩, by simp⟩
  refine (Eval.put_ends hnew.fits (hslot ▸ hx)).mono (fun _ k hk => ?_) fun _ _ h => h
  have hnk := (Machine.Grows.withStore hnew).trans hk
  exact ⟨hmn.trans hnk, hn.grows hnk⟩

/-! ### Classes -/

theorem superclass?_ends {parent : Name} {mark : M.Mark}
    (hfound : (∀ d, M.hops mark = some d →
      ∃ r, m.scope[d]? = some r ∧ Frames.Has m.store.memory r parent.text) ∨ excuse) :
    (superclass? (σ := M.scoping) (some (parent, mark))).Ends m (fun c n => n = m ∧ c.isSome)
      fun h n => n = m ∧ h.Accounted excuse := by
  refine Eval.ends_bind.2 ((Eval.readVariable_ends hfound).mono ?_ fun _ _ h => h)
  rintro v n rfl
  split
  · exact ⟨rfl, rfl⟩
  · exact ⟨rfl, Halt.accounted_fault rfl rfl⟩

theorem Function.AllBoundAt.of_mem {fs : List (Function M.Mark)} {f : Function M.Mark}
    (h : Function.AllBoundAt M clean site fs) (hf : f ∈ fs) : f.BoundAt M clean site := by
  induction fs with
  | nil => cases hf
  | cons g fs ih =>
    cases hf with
    | head => exact h.1
    | tail _ hf => exact ih h.2 hf

/-- Methods that are declared fit, if the scope that they see does. -/
theorem Function.AllBoundAt.fitsMethod {chain : Chain} {methods : List (Function M.Mark)}
    (h : Function.AllBoundAt M clean (site.enter [Keyword.thisWord.text]) methods)
    (hchain : Chain.Fits frames site.scopes chain) (x : String) (f : Closure M.scoping)
    (hf : (Table.ofList (methods.map fun m =>
      (m.name.text, Closure.ofMethod (σ := M.scoping) chain m))).get? x = some f) :
    f.FitsMethod M clean frames := by
  refine Table.forall_get?_ofList (P := fun _ f => f.FitsMethod M clean frames) ?_ x f hf
  intro e he
  obtain ⟨method, hmethod, rfl⟩ := List.mem_map.1 he
  exact ⟨site, h.of_mem hmethod, hchain⟩

/-- The place around the methods of a class, `this` apart. -/
def Site.aroundMethods (site : Site ι) (inherits : Bool) : Site ι :=
  if inherits then site.enter [Keyword.superWord.text] else site

theorem methodScope_ends (parent : Option (Ref .cls)) {H : Halt → Machine M.scoping → Prop}
    (hm : m.At M clean site) :
    (methodScope (σ := M.scoping) parent m.scope).Ends m
      (fun inner n => m.Grows M clean n ∧
        Chain.Fits n.store.memory (site.aroundMethods parent.isSome).scopes inner) H := by
  cases parent with
  | none => exact ⟨.refl hm.fits, hm.chain⟩
  | some c =>
    refine ⟨⟨hm.fits.enter m.scope ?_, rfl⟩, hm.chain.enter hm.fits.globals (by simp)⟩
    simp

/-- Declaring a class, once it is known what it inherits from. -/
theorem declareClass_ends_of_superclass {name : Name} {superclass : Option (Name × M.Mark)}
    {methods : List (Function M.Mark)} (hm : m.At M clean site) (hname : name.Proper)
    (hmethods : Function.AllBoundAt M clean (((site.set name.text true).aroundMethods
      superclass.isSome).enter [Keyword.thisWord.text]) methods)
    (hparent : (superclass? (σ := M.scoping) superclass).Ends m
      (fun c n => n = m ∧ c.isSome = superclass.isSome) fun h n => n = m ∧ h.Accounted excuse) :
    (declareClass (σ := M.scoping) name superclass methods).Ends m
      (fun _ n => m.Grows M clean n ∧ n.At M clean (site.set name.text true))
      fun h n => n = m ∧ h.Accounted excuse := by
  have hx := Keyword.text_ne_of_ofText? hname .superWord
  rw [declareClass_eq]
  refine Eval.ends_bind.2 (hparent.mono ?_ fun _ _ h => h)
  rintro parent m ⟨rfl, hsome⟩
  refine Eval.ends_bind.2 ((Eval.announce_ends hm hx).mono ?_ fun _ _ h => h)
  rintro slot n ⟨hmn, hn, hslot⟩
  refine Eval.ends_bind.2 (Eval.ends_scope.2 (Eval.ends_bind.2 ?_))
  refine (methodScope_ends parent hn).mono ?_ fun _ _ h => h
  rintro inner k ⟨hnk, hinner⟩
  refine Eval.ends_bind.2 (Eval.ends_store.2 (Eval.ends_bind.2 (Eval.ends_alloc.2 ?_)))
  have hnew := hnk.store.fits.newClass
    (c := ⟨name.text, (parent.map k.store.line).getD [], .ofList (methods.map fun m =>
      (m.name.text, Closure.ofMethod (σ := M.scoping) inner m))⟩)
    (hmethods.fitsMethod (hsome ▸ hinner))
  refine (Eval.put_ends hnew.fits (hslot ▸ hx)).mono (fun _ j hj => ?_) fun _ _ h => h
  have hnj := hnk.trans ((Machine.Grows.withStore hnew).trans hj)
  exact ⟨hmn.trans hnj, hn.grows hnj⟩

theorem declareClass_ends {name : Name} {superclass : Option (Name × M.Mark)}
    {methods : List (Function M.Mark)} (hm : m.At M clean site)
    (hs : (Stmt.classDecl name superclass methods).BoundAt M clean site) :
    (declareClass (σ := M.scoping) name superclass methods).Ends m
      (fun _ n => m.Grows M clean n ∧ n.At M clean (site.set name.text true))
      fun h n => n = m ∧ h.Accounted (∃ i, ¬ clean i) := by
  match superclass with
  | none =>
    obtain ⟨hname, -, hmethods⟩ := hs
    exact declareClass_ends_of_superclass hm hname hmethods ⟨rfl, rfl⟩
  | some (parent, mark) =>
    obtain ⟨hname, -, rfl, hself, hmethods⟩ := hs
    refine declareClass_ends_of_superclass hm hname hmethods (superclass?_ends ?_)
    -- A class that is its own superclass has been reported.
    by_cases hne : parent.text = name.text
    · exact .inr ⟨site.source, fun hclean => hself hclean hne⟩
    · refine .inl fun d hd => ?_
      rw [Site.mark, M.hops_make, Site.set, Scopes.hops?_set_of_ne _ _ hne] at hd
      obtain ⟨r, hr, -, hhas⟩ := hm.chain.exists_of_hops? hd
      exact ⟨r, hr, hhas⟩

/-! ### Calls -/

namespace Closure

variable {f : Closure M.scoping}

/-- A call finds the object that an initializer has set up, and is not left with a jump that belongs
to a loop. -/
theorem result_ends {jump : Option Jump} (hf : f.Fits M clean m.store.memory)
    (hloop : site.inLoop = false) (hjump : site.Lets clean jump) :
    (f.result jump).Ends m (fun _ n => n = m)
      fun h n => n = m ∧ h.Accounted (∃ i, ¬ clean i) := by
  have hexcuse (hin : clean site.source → site.inLoop = true) : ∃ i, ¬ clean i :=
    ⟨site.source, fun hclean => by simp [hloop] at hin; exact hin hclean⟩
  unfold result
  split
  · exact ⟨rfl, rfl, fun _ => hexcuse hjump⟩
  · exact ⟨rfl, rfl, fun _ => hexcuse hjump⟩
  · split
    · rename_i hinit
      obtain ⟨r, outer, hscope, hhas⟩ := hf.receiver hinit
      obtain ⟨v, hv⟩ := Frames.has_iff_exists.1 hhas
      have hreceiver : Frames.receiver m.store.memory f.scope = .ok v :=
        Frames.valueAt_eq_ok_iff.2 ⟨r, by rw [hscope]; rfl, hv⟩
      refine Eval.ends_bind.2 (Eval.ends_store.2 ?_)
      dsimp only
      rw [hreceiver]
      exact rfl
    · split <;> exact rfl

/-- The frame of a call has the parameters, and corresponds to the scope of the body. -/
theorem Fits.enter {arguments : List Value} (hf : f.Fits M clean s.memory) (hs : s.Fits M clean)
    (harity : arguments.length = f.decl.params.length) :
    ∃ site : Site ι, site.inLoop = false ∧ Stmt.AllBoundAt M clean site f.decl.body ∧
      s.Grows M clean (s.enter f.scope ((f.decl.params.map Name.text).zip arguments)).2 ∧
      Chain.Fits (s.enter f.scope ((f.decl.params.map Name.text).zip arguments)).2.memory
        site.scopes (s.enter f.scope ((f.decl.params.map Name.text).zip arguments)).1 := by
  obtain ⟨site, hdecl, hchain⟩ := hf.bound
  obtain ⟨hproper, -, hbody⟩ := (Function.boundAt_iff M clean).1 hdecl
  refine ⟨site.body (f.decl.params.map Name.text), rfl, hbody, hs.enter _ ?_,
    hchain.enter hs.globals ?_⟩
  · rintro ⟨x, v⟩ he hx
    obtain ⟨name, hname, rfl⟩ := List.mem_map.1 (List.of_mem_zip he).1
    exact absurd hx.symm (Keyword.text_ne_of_ofText? (hproper name hname) .superWord)
  · intro x hx
    rwa [List.map_fst_zip]
    simp [harity]

end Closure

end LoxLang
