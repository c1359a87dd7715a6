import LoxLang.Proofs.Binding
import LoxLang.Proofs.SimulatedRuns
import LoxLang.Tree.Marks

/-!
# Runs with other marks

A bound program and the same program with other marks correspond in a simulation that fits the way
they are bound (`Simulation.Relabels`, `Stmt.BoundAt.sim`). The simplest case is to leave of a mark
nothing but the hops (`Simulation.unmark`): evaluation looks at nothing else, so both programs come
to the same points at the same time.
-/

namespace LoxLang

/-! ### Expressions -/

section

variable {σ τ : Scoping} {S : Simulation σ τ} {p : S.Place} {f : σ.Mark → τ.Mark}
  {holds : Use → String → σ.Mark → Prop}

mutual

/-- An expression corresponds to the one with other marks, if its uses do. -/
theorem Expr.Uses.sim (ht : ∀ token, S.Tokens p token token)
    (hu : ∀ use x mark, holds use x mark → S.Uses p use x x mark (f mark)) {e : Expr σ.Mark}
    (he : e.Uses holds) : e.Sim S p (e.mapMarks f) := by
  match e with
  | .constant value => exact .constant
  | .group inner => exact .group (Expr.Uses.sim ht hu (e := inner) he)
  | .unary op line operand => exact .unary (Expr.Uses.sim ht hu (e := operand) he) (ht _)
  | .binary left op line right =>
    exact .binary (Expr.Uses.sim ht hu he.1) (Expr.Uses.sim ht hu he.2) (ht _)
  | .logical left op line right =>
    exact .logical (Expr.Uses.sim ht hu he.1) (Expr.Uses.sim ht hu he.2)
  | .var name mark => exact .var (hu _ _ _ he) (ht _)
  | .assign name value mark => exact .assign (Expr.Uses.sim ht hu he.2) (hu _ _ _ he.1) (ht _)
  | .call callee arguments line =>
    exact .call (Expr.Uses.sim ht hu he.1) (Expr.AllUses.sim ht hu he.2) (ht _)
  | .list elements line => exact .list (Expr.AllUses.sim ht hu he)
  | .map entries line =>
    have hentries := Expr.EntryUses.sim ht hu he
    exact .map hentries.1 hentries.2 (ht _)
  | .index container position line =>
    exact .index (Expr.Uses.sim ht hu he.1) (Expr.Uses.sim ht hu he.2) (ht _)
  | .setIndex container position value line =>
    exact .setIndex (Expr.Uses.sim ht hu he.1) (Expr.Uses.sim ht hu he.2.1)
      (Expr.Uses.sim ht hu he.2.2) (ht _)
  | .get object name => exact .get (Expr.Uses.sim ht hu (e := object) he) rfl (ht _)
  | .set object name value =>
    exact .set (Expr.Uses.sim ht hu he.1) (Expr.Uses.sim ht hu he.2) rfl (ht _)
  | .thisRef line mark => exact .thisRef (hu _ _ _ he) (ht _)
  | .superRef line method mark => exact .superRef (hu _ _ _ he) rfl (ht _)

theorem Expr.AllUses.sim (ht : ∀ token, S.Tokens p token token)
    (hu : ∀ use x mark, holds use x mark → S.Uses p use x x mark (f mark))
    {es : List (Expr σ.Mark)} (he : Expr.AllUses holds es) :
    List.Forall₂ (Expr.Sim S p) es (Expr.mapAllMarks f es) := by
  match es with
  | [] => exact .nil
  | e :: es => exact .cons (Expr.Uses.sim ht hu he.1) (Expr.AllUses.sim ht hu he.2)

theorem Expr.EntryUses.sim (ht : ∀ token, S.Tokens p token token)
    (hu : ∀ use x mark, holds use x mark → S.Uses p use x x mark (f mark))
    {entries : List (Expr σ.Mark × Expr σ.Mark)} (he : Expr.EntryUses holds entries) :
    List.Forall₂ (Expr.Sim S p) (entries.map Prod.fst)
      ((Expr.mapEntryMarks f entries).map Prod.fst) ∧
      List.Forall₂ (Expr.Sim S p) (entries.map Prod.snd)
        ((Expr.mapEntryMarks f entries).map Prod.snd) := by
  match entries with
  | [] => exact ⟨.nil, .nil⟩
  | (key, value) :: entries =>
    have hentries := Expr.EntryUses.sim ht hu he.2.2
    exact ⟨.cons (Expr.Uses.sim ht hu he.1) hentries.1,
      .cons (Expr.Uses.sim ht hu he.2.1) hentries.2⟩

end

theorem Expr.OptionUses.sim (ht : ∀ token, S.Tokens p token token)
    (hu : ∀ use x mark, holds use x mark → S.Uses p use x x mark (f mark))
    {e : Option (Expr σ.Mark)} (he : Expr.OptionUses holds e) :
    Expr.OptionSim S p e (e.map (Expr.mapMarks f)) := by
  cases e with
  | none => exact .none
  | some e => exact .some (Expr.Uses.sim ht hu he)

end

/-! ### Statements -/

variable {ι : Type} {M : Marking ι} {clean : ι → Prop}

/-- The simulation relates bound programs to the same programs with the marks changed by `f`, and
`place` says what it knows of a place. -/
structure Simulation.Relabels {τ : Scoping} (S : Simulation M.scoping τ) (clean : ι → Prop)
    (f : M.Mark → τ.Mark) (place : Site ι → S.Place) : Prop where
  tokens : ∀ site token, S.Tokens (place site) token token
  uses : ∀ site use x mark, site.Binds M clean use x mark →
    S.Uses (place site) use x x mark (f mark)
  /-- A variable is not there yet when its initializer is evaluated. -/
  initializer : ∀ site (name : Name) use x mark, site.Fresh clean name →
    (site.set name.text false).Binds M clean use x mark → S.Uses (place site) use x x mark (f mark)
  /-- A class is not there yet when its superclass is looked up. -/
  superclass : ∀ site (name parent : Name), (clean site.source → parent.text ≠ name.text) →
    S.Uses (place site) .read parent.text parent.text
      ((site.set name.text true).mark M parent.text)
      (f ((site.set name.text true).mark M parent.text))
  declares : ∀ site (name : Name), site.Fresh clean name →
    S.Declares (place site) name.text name.text (place (site.set name.text true))
  enters : ∀ site names, (clean site.source → names.Nodup) →
    S.Enters (place site) names names (place (site.enter names))
  /-- Only the scopes around a place matter. -/
  loop : ∀ site : Site ι, place site.loop = place site
  body : ∀ (site : Site ι) names, place (site.body names) = place (site.enter names)

section

variable {τ : Scoping} {S : Simulation M.scoping τ} {f : M.Mark → τ.Mark}
  {place : Site ι → S.Place}

mutual

/-- A bound statement corresponds to the one with other marks. -/
theorem Stmt.BoundAt.sim (hS : S.Relabels clean f place) {site : Site ι} {s : Stmt M.Mark}
    (hs : s.BoundAt M clean site) :
    Stmt.Sim S (place site) s (s.mapMarks f) (place (site.after s)) := by
  have ht := hS.tokens site
  have hu := hS.uses site
  match s with
  | .expression value => exact .expression (Expr.Uses.sim ht hu hs)
  | .print value => exact .print (Expr.Uses.sim ht hu hs)
  | .var name initializer =>
    obtain ⟨-, hfresh, hvalue⟩ := hs
    have hvalue :=
      Expr.OptionUses.sim ht (fun use x mark => hS.initializer site name use x mark hfresh) hvalue
    exact .var hvalue (hS.declares site name hfresh)
  | .block body =>
    exact .block (hS.enters site [] fun _ => List.nodup_nil) (Stmt.AllBoundAt.sim hS hs)
  | .branch condition yes none =>
    have hyes := Stmt.BoundAt.sim hS hs.2.1
    rw [Site.after, Scopes.after_of_declares_nothing _ hs.2.2] at hyes
    exact .when (Expr.Uses.sim ht hu hs.1) hyes hs.2.2
  | .branch condition yes (some no) =>
    obtain ⟨hcondition, hyes, hyn, hno, hnn⟩ := hs
    have hyes := Stmt.BoundAt.sim hS hyes
    have hno := Stmt.BoundAt.sim hS hno
    rw [Site.after, Scopes.after_of_declares_nothing _ hyn] at hyes
    rw [Site.after, Scopes.after_of_declares_nothing _ hnn] at hno
    exact .branch (Expr.Uses.sim ht hu hcondition) hyes hyn hno hnn
  | .whileLoop condition body =>
    have hbody := Stmt.BoundAt.sim hS hs.2.1
    rw [Site.after, Scopes.after_of_declares_nothing _ hs.2.2, hS.loop] at hbody
    exact .whileLoop (Expr.Uses.sim ht hu hs.1) hbody hs.2.2
  | .doWhile body condition =>
    have hbody := Stmt.BoundAt.sim hS hs.2.1
    rw [Site.after, Scopes.after_of_declares_nothing _ hs.2.2, hS.loop] at hbody
    exact .doWhile (Expr.Uses.sim ht hu hs.1) hbody hs.2.2
  | .breakLoop line => exact .breakLoop (ht _)
  | .continueLoop line => exact .continueLoop (ht _)
  | .returnValue line value => exact .returnValue (Expr.OptionUses.sim ht hu hs.2) (ht _)
  | .function ⟨name, params, body⟩ =>
    obtain ⟨-, hfresh, hdecl⟩ := hs
    exact .function (hS.declares site name hfresh) (Function.BoundAt.sim hS hdecl)
  | .classDecl name none methods =>
    obtain ⟨-, hfresh, hmethods⟩ := hs
    exact .classDecl rfl (hS.declares site name hfresh) .none rfl
      (hS.enters _ _ fun _ => by simp) (Function.AllBoundAt.sim hS hmethods)
  | .classDecl name (some (parent, mark)) methods =>
    obtain ⟨-, hfresh, rfl, hself, hmethods⟩ := hs
    exact .classDecl rfl (hS.declares site name hfresh)
      (.some ⟨hS.superclass site name parent hself, ht _⟩)
      (hS.enters _ _ fun _ => by simp)
      (hS.enters _ _ fun _ => by simp) (Function.AllBoundAt.sim hS hmethods)
  | .marker line m => exact .marker

theorem Stmt.AllBoundAt.sim (hS : S.Relabels clean f place) {site : Site ι}
    {ss : List (Stmt M.Mark)} (hs : Stmt.AllBoundAt M clean site ss) :
    Stmt.AllSim S (place site) ss (Stmt.mapAllMarks f ss) := by
  match ss with
  | [] => exact .nil
  | s :: ss => exact .cons (Stmt.BoundAt.sim hS hs.1) (Stmt.AllBoundAt.sim hS hs.2)

theorem Function.BoundAt.sim (hS : S.Relabels clean f place) {site : Site ι}
    {decl : Function M.Mark} (hd : decl.BoundAt M clean site) :
    Function.Sim S (place site) decl (decl.mapMarks f) := by
  match decl with
  | ⟨name, params, body⟩ =>
    have hbody := Stmt.AllBoundAt.sim hS hd.2.2
    rw [hS.body] at hbody
    exact .intro rfl rfl (hS.enters site _ hd.2.1) hbody

theorem Function.AllBoundAt.sim (hS : S.Relabels clean f place) {site : Site ι}
    {decls : List (Function M.Mark)} (hd : Function.AllBoundAt M clean site decls) :
    Function.AllSim S (place site) decls (Function.mapAllMarks f decls) := by
  match decls with
  | [] => exact .nil
  | decl :: decls =>
    exact .cons (Function.BoundAt.sim hS hd.1) (Function.AllBoundAt.sim hS hd.2)

end

end

/-! ### Marks that tell only the hops -/

/-- Programs that do the same with the same names and hops. Memories and scopes are equal, and
`Tokens` says what tokens correspond at a place. -/
def Simulation.inFrames (M : Marking ι) {P : Type} (top : P) (Tokens : P → Token → Token → Prop) :
    Simulation M.scoping .bound where
  Place := P
  World := Unit
  Owner := Unit
  top := top
  Tokens := Tokens
  Uses _ _ x y mark hops := x = y ∧ M.hops mark = hops
  Declares p x y q := x = y ∧ q = p
  Enters p xs ys q := xs = ys ∧ q = p
  HasReceiver _ := True
  Grows _ _ _ := True
  Memories _ frames frames' := frames = frames'
  Slots _ slot slot' := slot = slot'
  Scopes _ _ chain chain' := chain = chain'
  Current _ _ _ chain chain' := chain = chain' ∧ chain ≠ []
  grows_refl _ := trivial
  grows_trans _ _ := trivial
  grows_of_none _ := trivial
  scopes_of_current h := h.1
  slots_mono _ h := h
  scopes_mono _ h := h
  current_mono _ h := h
  current_top _ := ⟨(), rfl, List.cons_ne_nil _ _⟩
  enters_top := ⟨top, rfl, rfl⟩
  locate := by
    rintro - - chain _ frames _ use x _ mark _ rfl rfl ⟨rfl, rfl⟩ -
    dsimp only [id_eq]
    cases Frames.locate frames chain (M.hops mark) x with
    | ok slot => exact .found rfl rfl
    | error miss => cases miss with
      | undefined => exact .undefined rfl
      | defect d => exact .defect
  put := by
    rintro - frames _ slot _ v rfl rfl
    rfl
  announce := by
    rintro - - - chain _ frames _ x _ - rfl ⟨rfl, hne⟩ ⟨rfl, rfl⟩
    cases chain with
    | nil => exact absurd rfl hne
    | cons r outer => exact ⟨_, _, rfl, rfl, (), trivial, rfl, ⟨rfl, hne⟩, rfl⟩
  enter := by
    rintro - - chain _ frames _ xs _ - values rfl rfl ⟨rfl, rfl⟩ - -
    exact ⟨(), (), trivial, rfl, ⟨rfl, List.cons_ne_nil _ _⟩, fun _ _ => trivial⟩
  inherited := by
    rintro - - chain _ frames _ mark _ rfl rfl ⟨-, rfl⟩
    rfl
  receiver := by
    rintro - - chain _ frames _ rfl rfl -
    rfl
  hasReceiver _ := trivial

/-- Programs and the same programs with nothing left of the marks but the hops. -/
def Simulation.unmark (M : Marking ι) : Simulation M.scoping .bound := .inFrames M () fun _ => Eq

instance (M : Marking ι) : (Simulation.unmark M).Lockstep := ⟨id⟩

theorem Simulation.relabels_unmark :
    (Simulation.unmark M).Relabels clean M.hops fun _ => () where
  tokens _ _ := rfl
  uses _ _ _ _ _ := ⟨rfl, rfl⟩
  initializer _ _ _ _ _ _ _ := ⟨rfl, rfl⟩
  superclass _ _ _ _ := ⟨rfl, rfl⟩
  declares _ _ _ := ⟨rfl, rfl⟩
  enters _ _ _ := ⟨rfl, rfl⟩
  loop _ := rfl
  body _ _ := rfl

/-! ### Points -/

/-- The point is the same as the second one, apart from the marks. -/
def Point.Unmarks (p : Point M.scoping) (q : Point .bound) : Prop :=
  p.depth = q.depth ∧
    ∃ g, (Simulation.unmark M).pact.before g p.task q.task p.machine q.machine

namespace Point.Unmarks

variable {p : Point M.scoping} {q : Point .bound}

theorem eval (h : p.Unmarks q) {e' : Expr Hops} (hq : q.task = .eval e') :
    ∃ e, p.task = .eval e ∧ e.Sim (.unmark M) () e' ∧
      p.machine.SimAt (.unmark M) () () () q.machine := by
  obtain ⟨-, g, hm, ht⟩ := h
  rw [hq] at ht
  cases hp : p.task with
  | eval e =>
    rw [hp] at ht
    exact ⟨e, rfl, ht.1, hm, ht.2⟩
  | _ =>
    rw [hp] at ht
    exact ht.elim

theorem exec (h : p.Unmarks q) {s' : Stmt Hops} (hq : q.task = .exec s') :
    ∃ s next, p.task = .exec s ∧ s.Sim (.unmark M) () s' next ∧
      p.machine.SimAt (.unmark M) () () () q.machine := by
  obtain ⟨-, g, hm, ht⟩ := h
  rw [hq] at ht
  cases hp : p.task with
  | exec s =>
    rw [hp] at ht
    exact ⟨s, g.next, rfl, ht.1, hm, ht.2⟩
  | _ =>
    rw [hp] at ht
    exact ht.elim

end Point.Unmarks

/-- Machines that are the same apart from marks have the same chain and the same frames. -/
theorem Machine.SimAt.same {w : (Simulation.unmark M).World} {p : (Simulation.unmark M).Place}
    {o : (Simulation.unmark M).Owner} {m : Machine M.scoping} {n : Machine .bound}
    (h : m.SimAt (.unmark M) w p o n) :
    m.scope = n.scope ∧ m.store.memory = n.store.memory :=
  ⟨h.current.1, h.sim.store.memory⟩

end LoxLang
