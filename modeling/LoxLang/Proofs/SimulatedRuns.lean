import LoxLang.Proofs.Simulation

/-!
# Simulated runs

A simulation of scopings carries over to runs: two machines that correspond, on which two programs
that correspond are run, go through the same steps. Each step of the evaluation keeps the machines
in correspondence, with equal values; so the pact `Simulation.pact` is kept
(`Simulation.pact_kept`), if the simulation has no markers left out (`Simulation.Lockstep`).
-/

namespace LoxLang

open Dialogue

variable {σ τ : Scoping} {α β γ δ : Type}

/-- The tokens correspond at some place. -/
def Simulation.AnyTokens (S : Simulation σ τ) (t u : Token) : Prop := ∃ p, S.Tokens p t u

/-- The jumps correspond. -/
inductive Jump.Sim (L : Token → Token → Prop) : Jump → Jump → Prop where
  | breakLoop {line line' : Int}
    (h : L (.ofKeyword .breakWord line) (.ofKeyword .breakWord line')) :
    Sim L (.breakLoop line) (.breakLoop line')
  | continueLoop {line line' : Int}
    (h : L (.ofKeyword .continueWord line) (.ofKeyword .continueWord line')) :
    Sim L (.continueLoop line) (.continueLoop line')
  | returnValue {line line' : Int} {v : Value}
    (h : L (.ofKeyword .returnWord line) (.ofKeyword .returnWord line')) :
    Sim L (.returnValue line v) (.returnValue line' v)

namespace Machine

variable (S : Simulation σ τ)

/-- The machines correspond, and what can be seen corresponds at the place. -/
structure SimAt (w : S.World) (p : S.Place) (o : S.Owner) (m : Machine σ) (n : Machine τ) :
    Prop where
  sim : m.Sim S w n
  current : S.Current w p o m.scope n.scope

/-- From `m` and `n` the runs have come to machines that correspond, with the same scopes current as
before. -/
def Follows (o : Option S.Owner) (w : S.World) (m : Machine σ) (n : Machine τ) (m' : Machine σ)
    (n' : Machine τ) : Prop :=
  ∃ w₁, S.Grows o w w₁ ∧ m'.Sim S w₁ n' ∧ m'.scope = m.scope ∧ n'.scope = n.scope

/-- From `m` and `n` the runs have come to a halt. -/
def Stops (w : S.World) (m : Machine σ) (n : Machine τ) (h k : Halt) (m' : Machine σ)
    (n' : Machine τ) : Prop :=
  Halt.Pairs S.AnyTokens h k ∧ m.Follows S none w n m' n'

variable {S} {o : S.Owner} {w w₁ : S.World} {p : S.Place} {m m' : Machine σ} {n n' : Machine τ}

theorem SimAt.scopes (h : m.SimAt S w p o n) : S.Scopes w p m.scope n.scope :=
  S.scopes_of_current h.current

theorem SimAt.mono (h : m.SimAt S w p o n) (hw : S.Grows none w w₁) (hs : m'.Sim S w₁ n')
    (hl : m'.scope = m.scope) (hr : n'.scope = n.scope) : m'.SimAt S w₁ p o n' :=
  ⟨hs, by rw [hl, hr]; exact S.current_mono hw h.current⟩

theorem Follows.refl (h : m.Sim S w n) : m.Follows S none w n m n :=
  ⟨w, S.grows_refl w, h, rfl, rfl⟩

theorem Follows.of_grows {m₁ : Machine σ} {n₁ : Machine τ} (hw : S.Grows none w w₁)
    (hl : m₁.scope = m.scope) (hr : n₁.scope = n.scope)
    (h : m₁.Follows S none w₁ n₁ m' n') : m.Follows S none w n m' n' := by
  obtain ⟨w₂, hw₂, hs, hl₂, hr₂⟩ := h
  exact ⟨w₂, S.grows_trans hw hw₂, hs, hl₂.trans hl, hr₂.trans hr⟩

theorem Sim.stay_follows (h : m.Sim S w n) (hs : m.Stay n m' n') : m.Follows S none w n m' n' :=
  ⟨w, S.grows_refl w, h.stay hs, hs.left.scope, hs.right.scope⟩

theorem Sim.stops (h : m.Sim S w n) {why why' : Halt} (hw : Halt.Pairs S.AnyTokens why why') :
    Stops S w m n why why' m n :=
  ⟨hw, .refl h⟩

end Machine

variable {S : Simulation σ τ} {w : S.World} {p : S.Place} {o : S.Owner} {m : Machine σ}
  {n : Machine τ}

/-! ### Variables -/

namespace Eval

variable {mark : σ.Mark} {mark' : τ.Mark} {token token' : Token} {use : Use}

theorem locate_pairs (hm : m.Sim S w n) (hscope : S.Scopes w p m.scope n.scope)
    (hu : S.Uses p use token.lexeme token'.lexeme mark mark') (huse : use ≠ .superRef)
    (hplace : S.Tokens p token token') :
    (locate mark token).Pairs (locate mark' token') m n
      (fun slot slot' m' n' => m' = m ∧ n' = n ∧ S.Slots w slot slot' ∧
        σ.get? m.store.memory slot = τ.get? n.store.memory slot')
      fun h k m' n' => m' = m ∧ n' = n ∧ Halt.Pairs S.AnyTokens h k := by
  refine pairs_bind (pairs_get.2 ?_)
  have hlocated := S.locate hm.store.memory hscope hu huse
  generalize σ.locate m.store.memory m.scope mark token.lexeme = found at hlocated
  generalize τ.locate n.store.memory n.scope mark' token'.lexeme = found' at hlocated
  cases hlocated with
  | found h hvalue => exact ⟨rfl, rfl, h, hvalue⟩
  | undefined h =>
    refine ⟨rfl, rfl, ?_⟩
    rw [h]
    exact .placed ⟨p, hplace⟩
  | defect => exact ⟨rfl, rfl, .defect⟩

theorem readVariable_pairs (hm : m.Sim S w n) (hscope : S.Scopes w p m.scope n.scope)
    (hu : S.Uses p use token.lexeme token'.lexeme mark mark') (huse : use ≠ .superRef)
    (hplace : S.Tokens p token token') :
    (readVariable mark token).Pairs (readVariable mark' token') m n
      (fun v v' m' n' => v = v' ∧ m' = m ∧ n' = n)
      fun h k m' n' => m' = m ∧ n' = n ∧ Halt.Pairs S.AnyTokens h k := by
  refine pairs_bind ((locate_pairs hm hscope hu huse hplace).mono ?_ fun _ _ _ _ h => h)
  rintro slot slot' m n ⟨rfl, rfl, -, hvalue⟩
  refine pairs_bind (pairs_store.2 ?_)
  rw [hvalue]
  cases τ.get? n.store.memory slot' with
  | some v => exact ⟨rfl, rfl, rfl⟩
  | none => exact ⟨rfl, rfl, .defect⟩

theorem assign_pairs {name name' : Name} {v : Value} (hm : m.Sim S w n)
    (hscope : S.Scopes w p m.scope n.scope)
    (hu : S.Uses p .assign name.text name'.text mark mark')
    (hplace : S.Tokens p name.token name'.token) :
    (assign mark name v).Pairs (assign mark' name' v) m n
      (fun _ _ m' n' => m.Follows S none w n m' n') (Machine.Stops S w m n) := by
  have hu : S.Uses p .assign name.token.lexeme name'.token.lexeme mark mark' := hu
  refine pairs_bind ((locate_pairs hm hscope hu nofun hplace).mono ?_ ?_)
  · rintro slot slot' m n ⟨rfl, rfl, hslots, -⟩
    exact ⟨w, S.grows_refl w, hm.withStore (hm.store.withMemory (S.grows_refl w)
      (S.put v hm.store.memory hslots)), rfl, rfl⟩
  · rintro h k m n ⟨rfl, rfl, hhk⟩
    exact hm.stops hhk

/-! ### Methods -/

theorem bindMethod_pairs {f : Closure σ} {f' : Closure τ} {object : Value}
    {H : Halt → Halt → Machine σ → Machine τ → Prop} (hm : m.Sim S w n)
    (hf : f.SimMethod S w f') :
    (bindMethod f object).Pairs (bindMethod f' object) m n
      (fun v v' m' n' => v = v' ∧ m.Follows S none w n m' n') H := by
  obtain ⟨w₁, hw, hclosure, hstore⟩ := hm.store.bindMethod hf object
  obtain ⟨hvalue, hnew⟩ := hstore.newFunction hclosure
  exact ⟨hvalue, w₁, hw, hm.withStore hnew, rfl, rfl⟩

theorem property_pairs {object : Ref .object} {name name' : Name} (hm : m.Sim S w n)
    (hname : name.text = name'.text) (hplace : S.Tokens p name.token name'.token) :
    (property object name).Pairs (property object name') m n
      (fun v v' m' n' => v = v' ∧ m.Follows S none w n m' n') (Machine.Stops S w m n) := by
  refine pairs_bind (pairs_store.2 ?_)
  rw [← hm.store.objects, ← hname]
  dsimp only
  split
  · exact ⟨rfl, .refl hm⟩
  · obtain ⟨hx, hx'⟩ | ⟨f, f', hx, hx', hf⟩ :=
      rel_cases (hm.store.method? (m.store.objects.get object).cls name.text)
    · rw [hx, hx']
      exact hm.stops (.placed ⟨p, hplace⟩)
    · rw [hx, hx']
      exact bindMethod_pairs hm hf

theorem superMethod_pairs {name name' : Name} (hm : m.Sim S w n)
    (hscope : S.Scopes w p m.scope n.scope)
    (hu : S.Uses p .superRef Keyword.superWord.text Keyword.superWord.text mark mark')
    (hname : name.text = name'.text) (hplace : S.Tokens p name.token name'.token) :
    (superMethod mark name).Pairs (superMethod mark' name') m n
      (fun v v' m' n' => v = v' ∧ m.Follows S none w n m' n') (Machine.Stops S w m n) := by
  refine pairs_bind (pairs_get.2 ?_)
  rw [S.inherited hm.store.memory hscope hu]
  cases τ.inherited n.store.memory n.scope mark' with
  | error d => exact hm.stops .defect
  | ok found =>
    refine pairs_bind (pairs_expect_ok.2 ?_)
    split
    · rename_i cls object
      obtain ⟨hx, hx'⟩ | ⟨f, f', hx, hx', hf⟩ := rel_cases (hm.store.method? cls name.text)
      · rw [← hname, hx, hx']
        exact hm.stops (.placed ⟨p, hplace⟩)
      · rw [← hname, hx, hx']
        exact bindMethod_pairs hm hf
    · exact hm.stops .defect

/-! ### Declarations -/

theorem announce_pairs {x y : String} {q : S.Place}
    {H : Halt → Halt → Machine σ → Machine τ → Prop} (hm : m.SimAt S w p o n)
    (hd : S.Declares p x y q) :
    (announce x : Eval σ σ.Slot).Pairs (announce y : Eval τ τ.Slot) m n
      (fun slot slot' m' n' => ∃ w₁, S.Grows (some o) w w₁ ∧ m'.SimAt S w₁ q o n' ∧
        S.Slots w₁ slot slot') H := by
  obtain ⟨declare, declare', hdeclare, hdeclare', w₁, hw, hmemory, hcurrent, hslots⟩ :=
    S.announce hm.sim.store.memory hm.current hd
  refine pairs_bind (pairs_scope.2 (pairs_bind ?_))
  rw [hdeclare, hdeclare']
  exact ⟨w₁, hw, ⟨⟨hm.sim.store.withMemory hw hmemory, hm.sim.calls, hm.sim.effects,
    hm.sim.input, hm.sim.clock⟩, hcurrent⟩, hslots⟩

theorem put_pairs {slot : σ.Slot} {slot' : τ.Slot} {v : Value}
    {H : Halt → Halt → Machine σ → Machine τ → Prop} (hm : m.SimAt S w p o n)
    (hslots : S.Slots w slot slot') :
    (put slot v).Pairs (put slot' v) m n (fun _ _ m' n' => m'.SimAt S w p o n') H :=
  ⟨hm.sim.withStore (hm.sim.store.withMemory (S.grows_refl w)
    (S.put v hm.sim.store.memory hslots)), hm.current⟩

end Eval

variable {q : S.Place}

variable (S) in
/-- From the world `w` the runs have come to the place `q` by a declaration. -/
def Machine.Declared (w : S.World) (q : S.Place) (o : S.Owner) (m : Machine σ) (n : Machine τ) :
    Prop :=
  ∃ w₁, S.Grows (some o) w w₁ ∧ m.SimAt S w₁ q o n

theorem declareVariable_pairs {name name' : Name} {v : Value}
    {H : Halt → Halt → Machine σ → Machine τ → Prop} (hm : m.SimAt S w p o n)
    (hd : S.Declares p name.text name'.text q) :
    (declareVariable name v : Eval σ Unit).Pairs (declareVariable name' v : Eval τ Unit) m n
      (fun _ _ m' n' => m'.Declared S w q o n') H := by
  refine Eval.pairs_bind ((Eval.announce_pairs hm hd).mono ?_ fun _ _ _ _ h => h)
  rintro slot slot' m n ⟨w₁, hw, hm, hslots⟩
  exact (Eval.put_pairs hm hslots).mono (fun _ _ _ _ h => ⟨w₁, hw, h⟩) fun _ _ _ _ h => h

theorem declareFunction_pairs {decl : Function σ.Mark} {decl' : Function τ.Mark}
    {H : Halt → Halt → Machine σ → Machine τ → Prop} (hm : m.SimAt S w p o n)
    (hd : S.Declares p decl.name.text decl'.name.text q) (hf : decl.Sim S q decl') :
    (declareFunction decl).Pairs (declareFunction decl') m n
      (fun _ _ m' n' => m'.Declared S w q o n') H := by
  refine Eval.pairs_bind ((Eval.announce_pairs hm hd).mono ?_ fun _ _ _ _ h => h)
  rintro slot slot' m n ⟨w₁, hw, hm, hslots⟩
  refine Eval.pairs_bind (Eval.pairs_scope.2 (Eval.pairs_bind (Eval.pairs_alloc.2 ?_)))
  have hclosure : Closure.Sim S w₁ ⟨decl, m.scope, false⟩ ⟨decl', n.scope, false⟩ :=
    ⟨rfl, q, hf, hm.scopes, nofun⟩
  obtain ⟨hvalue, hnew⟩ := hm.sim.store.newFunction hclosure
  have hm : Machine.SimAt S w₁ q o
      { m with store := (m.store.newFunction ⟨decl, m.scope, false⟩).2 }
      { n with store := (n.store.newFunction ⟨decl', n.scope, false⟩).2 } :=
    ⟨hm.sim.withStore hnew, hm.current⟩
  rw [hvalue]
  exact (Eval.put_pairs hm hslots).mono (fun _ _ _ _ h => ⟨w₁, hw, h⟩) fun _ _ _ _ h => h

/-! ### Classes -/

theorem superclass?_pairs {parent : Option (Name × σ.Mark)} {parent' : Option (Name × τ.Mark)}
    (hm : m.SimAt S w p o n) (hp : SuperclassSim S p parent parent') :
    (superclass? parent).Pairs (superclass? parent') m n
      (fun c c' m' n' => c = c' ∧ c.isSome = parent.isSome ∧ m' = m ∧ n' = n)
      (Machine.Stops S w m n) := by
  cases hp with
  | none => exact ⟨rfl, rfl, rfl, rfl⟩
  | @some parent parent' hp =>
    have hu : S.Uses p .read parent.1.token.lexeme parent'.1.token.lexeme parent.2 parent'.2 :=
      hp.1
    refine Eval.pairs_bind
      ((Eval.readVariable_pairs hm.sim hm.scopes hu nofun hp.2).mono ?_ ?_)
    · rintro v _ m n ⟨rfl, rfl, rfl⟩
      split
      · exact ⟨rfl, rfl, rfl, rfl⟩
      · exact hm.sim.stops (.placed ⟨p, hp.2⟩)
    · rintro h k m n ⟨rfl, rfl, hhk⟩
      exact hm.sim.stops hhk

theorem methodScope_pairs {parent : Option (Ref .cls)} {around : S.Place}
    {H : Halt → Halt → Machine σ → Machine τ → Prop} (hm : m.SimAt S w p o n)
    (ha : S.AroundMethods p parent.isSome around) :
    (methodScope parent m.scope : Eval σ σ.Scope).Pairs (methodScope parent n.scope) m n
      (fun inner inner' m' n' => ∃ w₁, S.Grows none w w₁ ∧ m'.SimAt S w₁ p o n' ∧
        S.Scopes w₁ around inner inner') H := by
  cases parent with
  | none =>
    have ha : around = p := ha
    subst ha
    exact ⟨w, S.grows_refl w, hm, hm.scopes⟩
  | some c =>
    have ha : S.Enters p [Keyword.superWord.text] [Keyword.superWord.text] around := ha
    obtain ⟨w₁, o', hw, hstore, hcurrent, -⟩ :=
      hm.sim.store.enter [.cls c] hm.scopes ha rfl rfl
    exact ⟨w₁, hw, hm.mono hw (hm.sim.withStore hstore) rfl rfl, S.scopes_of_current hcurrent⟩

/-- Methods that are declared alike correspond, if what they see does. -/
theorem Function.AllSim.closures {around inside : S.Place} {scope : σ.Scope} {scope' : τ.Scope}
    {methods : List (Function σ.Mark)} {methods' : List (Function τ.Mark)}
    (hscope : S.Scopes w around scope scope')
    (he : S.Enters around [Keyword.thisWord.text] [Keyword.thisWord.text] inside)
    (h : Function.AllSim S inside methods methods') :
    List.Forall₂ (fun e e' => e.1 = e'.1 ∧ Closure.SimMethod S w e.2 e'.2)
      (methods.map fun m => (m.name.text, Closure.ofMethod scope m))
      (methods'.map fun m => (m.name.text, Closure.ofMethod scope' m)) := by
  induction methods generalizing methods' with
  | nil =>
    cases h
    exact .nil
  | cons f fs ih =>
    cases h with
    | cons hf hfs =>
      refine .cons ⟨hf.name_text, ?_, around, inside, hscope, he, hf⟩ (ih hfs)
      simp only [Closure.ofMethod, hf.name_text]

theorem declareClass_pairs {name name' : Name} {parent : Option (Name × σ.Mark)}
    {parent' : Option (Name × τ.Mark)} {methods : List (Function σ.Mark)}
    {methods' : List (Function τ.Mark)} {around inside : S.Place} (hm : m.SimAt S w p o n)
    (hname : name.text = name'.text) (hd : S.Declares p name.text name'.text q)
    (hp : SuperclassSim S p parent parent') (ha : S.AroundMethods q parent.isSome around)
    (he : S.Enters around [Keyword.thisWord.text] [Keyword.thisWord.text] inside)
    (hmethods : Function.AllSim S inside methods methods') :
    (declareClass name parent methods).Pairs (declareClass name' parent' methods') m n
      (fun _ _ m' n' => m'.Declared S w q o n') (Machine.Stops S w m n) := by
  rw [declareClass_eq, declareClass_eq]
  refine Eval.pairs_bind ((superclass?_pairs hm hp).mono ?_ fun _ _ _ _ h => h)
  rintro c _ m n ⟨rfl, hsome, rfl, rfl⟩
  refine Eval.pairs_bind ((Eval.announce_pairs hm hd).mono ?_ fun _ _ _ _ h => h)
  rintro slot slot' m n ⟨w₁, hw, hm, hslots⟩
  refine Eval.pairs_bind (Eval.pairs_scope.2 (Eval.pairs_bind ?_))
  refine (methodScope_pairs hm (hsome ▸ ha)).mono ?_ fun _ _ _ _ h => h
  rintro inner inner' m n ⟨w₂, hw₂, hm, hinner⟩
  refine Eval.pairs_bind (Eval.pairs_store.2 (Eval.pairs_bind (Eval.pairs_alloc.2 ?_)))
  let declared : Class σ := ⟨name.text, (c.map m.store.line).getD [],
    .ofList (methods.map fun f => (f.name.text, Closure.ofMethod inner f))⟩
  let declared' : Class τ := ⟨name'.text, (c.map n.store.line).getD [],
    .ofList (methods'.map fun f => (f.name.text, Closure.ofMethod inner' f))⟩
  have hclass : declared.Sim S w₂ declared' := by
    refine ⟨hname, ?_, Table.rel_get?_ofList (hmethods.closures hinner he)⟩
    cases c with
    | none => rfl
    | some c => exact hm.sim.store.line c
  obtain ⟨hvalue, hnew⟩ := hm.sim.store.newClass hclass
  have hm : Machine.SimAt S w₂ q o { m with store := (m.store.newClass declared).2 }
      { n with store := (n.store.newClass declared').2 } := ⟨hm.sim.withStore hnew, hm.current⟩
  have hgrows := S.grows_trans hw (S.grows_of_none hw₂)
  rw [hvalue]
  exact (Eval.put_pairs hm (S.slots_mono hw₂ hslots)).mono (fun _ _ _ _ h => ⟨w₂, hgrows, h⟩)
    fun _ _ _ _ h => h

/-! ### The pact -/

/-- What is known of two tasks apart from the machines. -/
structure Simulation.Spot (S : Simulation σ τ) where
  world : S.World
  place : S.Place
  owner : S.Owner
  /-- The place that a statement leads to. -/
  next : S.Place

namespace Task

variable (S) in
/-- The tasks correspond. -/
def Sim (g : S.Spot) : Task σ → Task τ → Machine σ → Machine τ → Prop
  | eval e, eval e', m, n =>
    e.Sim S g.place e' ∧ S.Current g.world g.place g.owner m.scope n.scope
  | call v arguments paren, call v' arguments' paren', _, _ =>
    v = v' ∧ arguments = arguments' ∧ S.AnyTokens paren paren'
  | invoke v arguments paren, invoke v' arguments' paren', m, _ =>
    v = v' ∧ arguments = arguments' ∧ S.AnyTokens paren paren' ∧
      m.store.arity? v = some arguments.length
  | block inner body, block inner' body', _, _ =>
    Stmt.AllSim S g.place body body' ∧ S.Current g.world g.place g.owner inner inner'
  | exec s, exec s', m, n =>
    s.Sim S g.place s' g.next ∧ S.Current g.world g.place g.owner m.scope n.scope
  | _, _, _, _ => False

/-- Where a task may declare something among the scopes that there are, even if it halts. -/
def owner (g : S.Spot) : Task σ → Option S.Owner
  | block .. => some g.owner
  | _ => none

variable (S) in
/-- The answers of tasks correspond, and so do the machines that they leave. -/
def SimAfter (g : S.Spot) : (t : Task σ) → (u : Task τ) → Machine σ → Machine τ → t.Answer →
    u.Answer → Machine σ → Machine τ → Prop
  | eval _, eval _, m, n, v, v', m', n' => v = v' ∧ m.Follows S none g.world n m' n'
  | call .., call .., m, n, v, v', m', n' => v = v' ∧ m.Follows S none g.world n m' n'
  | invoke .., invoke .., m, n, v, v', m', n' => v = v' ∧ m.Follows S none g.world n m' n'
  | block .., block .., m, n, j, j', m', n' =>
    Option.Rel (Jump.Sim S.AnyTokens) j j' ∧ m.Follows S (some g.owner) g.world n m' n'
  | exec s, exec _, m, n, j, j', m', n' =>
    Option.Rel (Jump.Sim S.AnyTokens) j j' ∧
      ((s.declared? = none ∧ m.Follows S none g.world n m' n') ∨
        (s.declared? ≠ none ∧ m'.Declared S g.world g.next g.owner n'))
  | _, _, _, _, _, _, _, _ => False

end Task

variable (S) in
/-- **The pact of a simulation**: tasks that correspond have answers that correspond. -/
def Simulation.pact : Pact σ τ where
  Ghost := S.Spot
  before g t u m n := m.Sim S g.world n ∧ t.Sim S g u m n
  after g t u m n a b m' n' := t.SimAfter S g u m n a b m' n'
  halts g t _ m n h k m' n' :=
    Halt.Pairs S.AnyTokens h k ∧ m.Follows S (t.owner g) g.world n m' n'

namespace Dialogue

variable {R : α → β → Prop} {R' : γ → δ → Prop} {d : Dialogue σ α} {d' : Dialogue τ β}
  {f : α → Dialogue σ γ} {g : β → Dialogue τ δ} {m' : Machine σ} {n' : Machine τ} {w₁ : S.World}

variable (S) in
/-- By the pact, the dialogues go from `m` and `n` to results that stand in the relation `R`. -/
def Runs (w : S.World) (R : α → β → Prop) (d : Dialogue σ α) (d' : Dialogue τ β) (m : Machine σ)
    (n : Machine τ) : Prop :=
  d.Relates S.pact d' m n (fun a b m' n' => R a b ∧ m.Follows S none w n m' n')
    (Machine.Stops S w m n)

/-- What runs from later machines runs as seen from before. -/
theorem Runs.of_grows (hw : S.Grows none w w₁) (hl : m'.scope = m.scope) (hr : n'.scope = n.scope)
    (hd : d.Runs S w₁ R d' m' n') :
    d.Relates S.pact d' m' n' (fun a b m' n' => R a b ∧ m.Follows S none w n m' n')
      (Machine.Stops S w m n) := by
  refine Relates.mono hd ?_ ?_
  · exact fun a b m₂ n₂ h => ⟨h.1, h.2.of_grows hw hl hr⟩
  · exact fun h k m₂ n₂ h => ⟨h.1, h.2.of_grows hw hl hr⟩

theorem Runs.bind (hd : d.Runs S w R d' m n)
    (hf : ∀ a b w₁ m' n', R a b → S.Grows none w w₁ → m'.Sim S w₁ n' → m'.scope = m.scope →
      n'.scope = n.scope → (f a).Runs S w₁ R' (g b) m' n') :
    (d >>= f).Runs S w R' (d' >>= g) m n := by
  refine relates_bind (Relates.mono hd ?_ fun _ _ _ _ h => h)
  rintro a b m' n' ⟨hab, w₁, hw, hs, hl, hr⟩
  exact (hf a b w₁ m' n' hab hw hs hl hr).of_grows hw hl hr

/-- At a place, values being equal. -/
theorem Runs.bindAt {d : Dialogue σ α} {d' : Dialogue τ α} {f : α → Dialogue σ γ}
    {g : α → Dialogue τ δ} (hm : m.SimAt S w p o n) (hd : d.Runs S w Eq d' m n)
    (hf : ∀ a w₁ m' n', m'.SimAt S w₁ p o n' → (f a).Runs S w₁ R' (g a) m' n') :
    (d >>= f).Runs S w R' (d' >>= g) m n := by
  refine hd.bind ?_
  rintro a _ w₁ m' n' rfl hw hs hl hr
  exact hf a w₁ m' n' (hm.mono hw hs hl hr)

theorem runs_pure {a : α} {b : β} (hm : m.Sim S w n) (hab : R a b) :
    (pure a : Dialogue σ α).Runs S w R (pure b) m n :=
  relates_pure.2 ⟨hab, .refl hm⟩

theorem runs_halt {h k : Halt} (hm : m.Sim S w n) (hhk : Halt.Pairs S.AnyTokens h k) :
    (perform (Eval.halt h) : Dialogue σ α).Runs S w R (perform (Eval.halt k)) m n :=
  relates_perform.2 (hm.stops hhk)

theorem runs_onValues {H : Halt → Prop} {x : Eval σ α} {y : Eval τ α} (hm : m.Sim S w n)
    (hx : Eval.OnValues S.AnyTokens H x y) : (perform x).Runs S w Eq (perform y) m n := by
  refine relates_perform.2 ((hx m n hm.alike).mono ?_ ?_)
  · exact fun a b m' n' h => ⟨h.1, hm.stay_follows h.2⟩
  · exact fun h k m' n' h => ⟨h.1, hm.stay_follows h.2.2⟩

theorem runs_eval {e : Expr σ.Mark} {e' : Expr τ.Mark} (hm : m.SimAt S w p o n)
    (he : e.Sim S p e') : (eval e).Runs S w Eq (eval e') m n :=
  ⟨⟨w, p, o, p⟩, ⟨hm.sim, he, hm.current⟩, fun _ _ _ _ h => h, fun _ _ _ _ h => h⟩

theorem runs_readVariable {use : Use} {token token' : Token} {mark : σ.Mark} {mark' : τ.Mark}
    (hm : m.SimAt S w p o n) (hu : S.Uses p use token.lexeme token'.lexeme mark mark')
    (huse : use ≠ .superRef) (hplace : S.Tokens p token token') :
    (perform (Eval.readVariable mark token)).Runs S w Eq
      (perform (Eval.readVariable mark' token')) m n := by
  refine relates_perform.2
    ((Eval.readVariable_pairs hm.sim hm.scopes hu huse hplace).mono ?_ ?_)
  · rintro v _ m n ⟨rfl, rfl, rfl⟩
    exact ⟨rfl, .refl hm.sim⟩
  · rintro h k m n ⟨rfl, rfl, hhk⟩
    exact hm.sim.stops hhk

theorem runs_assign {name name' : Name} {mark : σ.Mark} {mark' : τ.Mark} {v : Value}
    (hm : m.SimAt S w p o n) (hu : S.Uses p .assign name.text name'.text mark mark')
    (hplace : S.Tokens p name.token name'.token) :
    (perform (Eval.assign mark name v)).Runs S w Eq (perform (Eval.assign mark' name' v)) m n :=
  relates_perform.2 ((Eval.assign_pairs hm.sim hm.scopes hu hplace).mono
    (fun _ _ _ _ h => ⟨rfl, h⟩) fun _ _ _ _ h => h)

theorem runs_evalOption {e : Option (Expr σ.Mark)} {e' : Option (Expr τ.Mark)}
    (hm : m.SimAt S w p o n) (he : Expr.OptionSim S p e e') :
    (evalOption e).Runs S w Eq (evalOption e') m n := by
  cases he with
  | none => exact runs_pure hm.sim rfl
  | some he => exact runs_eval hm he

/-- A statement that declares nothing. -/
theorem runs_exec {s : Stmt σ.Mark} {s' : Stmt τ.Mark} (hm : m.SimAt S w p o n)
    (hs : s.Sim S p s' p) (hnothing : s.declared? = none) :
    (exec s).Runs S w (Option.Rel (Jump.Sim S.AnyTokens)) (exec s') m n := by
  refine ⟨⟨w, p, o, p⟩, ⟨hm.sim, hs, hm.current⟩, ?_, fun _ _ _ _ h => h⟩
  rintro a b m' n' ⟨hab, ⟨-, h⟩ | ⟨h, -⟩⟩
  · exact ⟨hab, h⟩
  · exact absurd hnothing h

theorem runs_call {v : Value} {arguments : List Value} {paren paren' : Token}
    (hm : m.SimAt S w p o n) (hplace : S.AnyTokens paren paren') :
    (call v arguments paren).Runs S w Eq (call v arguments paren') m n :=
  ⟨⟨w, p, o, p⟩, ⟨hm.sim, rfl, rfl, hplace⟩, fun _ _ _ _ h => h, fun _ _ _ _ h => h⟩

theorem runs_invoke {v : Value} {arguments : List Value} {paren paren' : Token} (g : S.Spot)
    (hm : m.Sim S w n) (hplace : S.AnyTokens paren paren')
    (harity : m.store.arity? v = some arguments.length) :
    (invoke v arguments paren).Runs S w Eq (invoke v arguments paren') m n :=
  ⟨{ g with world := w }, ⟨hm, rfl, rfl, hplace, harity⟩, fun _ _ _ _ h => h, fun _ _ _ _ h => h⟩

theorem runs_evalAll {es : List (Expr σ.Mark)} {es' : List (Expr τ.Mark)}
    (hm : m.SimAt S w p o n) (he : List.Forall₂ (Expr.Sim S p) es es') :
    (es.mapM eval).Runs S w Eq (es'.mapM eval) m n := by
  refine relates_mapM (R := Expr.Sim S p) (I := fun m' n' => m.Follows S none w n m' n') ?_ he
    (.refl hm.sim)
  rintro e e' m' n' he ⟨w₁, hw, hs, hl, hr⟩
  exact (runs_eval (hm.mono hw hs hl hr) he).of_grows hw hl hr

theorem runs_evalEntries {brace brace' : Token} {entries : List (Expr σ.Mark × Expr σ.Mark)}
    {entries' : List (Expr τ.Mark × Expr τ.Mark)} (hm : m.SimAt S w p o n)
    (hplace : S.AnyTokens brace brace')
    (hk : List.Forall₂ (Expr.Sim S p) (entries.map Prod.fst) (entries'.map Prod.fst))
    (hv : List.Forall₂ (Expr.Sim S p) (entries.map Prod.snd) (entries'.map Prod.snd)) :
    Runs S w Eq
      (entries.foldlM (fun (written : Entries) (key, value) => do
        let key ← eval key
        let value ← eval value
        perform (writeEntry brace written key value)) .empty)
      (entries'.foldlM (fun (written : Entries) (key, value) => do
        let key ← eval key
        let value ← eval value
        perform (writeEntry brace' written key value)) .empty) m n := by
  have hentries : List.Forall₂ (fun e e' => e.1.Sim S p e'.1 ∧ e.2.Sim S p e'.2) entries
      entries' := by
    rw [List.forall₂_map_left_iff, List.forall₂_map_right_iff] at hk hv
    induction hk with
    | nil => exact .nil
    | cons h _ ih =>
      cases hv with
      | cons h' hv => exact .cons ⟨h, h'⟩ (ih hv)
  refine relates_foldlM (I := fun m' n' => m.Follows S none w n m' n') ?_ hentries (.refl hm.sim)
  rintro written ⟨key, value⟩ ⟨key', value'⟩ m' n' ⟨hkey, hvalue⟩ ⟨w₁, hw, hs, hl, hr⟩
  have hstep : Runs S w₁ Eq
      (do
        let key ← eval key
        let value ← eval value
        perform (writeEntry brace written key value))
      (do
        let key ← eval key'
        let value ← eval value'
        perform (writeEntry brace' written key value)) m' n' := by
    have hm := hm.mono hw hs hl hr
    refine (runs_eval hm hkey).bindAt hm fun _ w₂ m₂ n₂ hm₂ => ?_
    refine (runs_eval hm₂ hvalue).bindAt hm₂ fun _ w₃ m₃ n₃ hm₃ => ?_
    exact runs_onValues hm₃.sim (Eval.onValues_writeEntry hplace)
  exact hstep.of_grows hw hl hr

end Dialogue

/-! ### Expressions -/

theorem Expr.runs_body (depth : Nat) {e : Expr σ.Mark} {e' : Expr τ.Mark}
    (hm : m.SimAt S w p o n) (he : e.Sim S p e') :
    (e.body depth).Runs S w Eq (e'.body depth) m n := by
  cases he with
  | constant => exact runs_pure hm.sim rfl
  | group h => exact runs_eval hm h
  | unary h hplace =>
    refine (runs_eval hm h).bindAt hm fun v w₁ m₁ n₁ hm₁ => ?_
    exact runs_onValues hm₁.sim (Eval.onValues_unary ⟨p, hplace⟩)
  | binary hl hr hplace =>
    refine (runs_eval hm hl).bindAt hm fun v w₁ m₁ n₁ hm₁ => ?_
    refine (runs_eval hm₁ hr).bindAt hm₁ fun v' w₂ m₂ n₂ hm₂ => ?_
    exact runs_onValues hm₂.sim (Eval.onValues_binary ⟨p, hplace⟩)
  | @logical op _ _ _ _ _ _ hl hr =>
    refine (runs_eval hm hl).bindAt hm fun v w₁ m₁ n₁ hm₁ => ?_
    by_cases hv : op.decides v
    · simp only [hv, if_true]
      exact runs_pure hm₁.sim rfl
    · simp only [hv]
      exact runs_eval hm₁ hr
  | var h hplace => exact runs_readVariable hm h nofun hplace
  | assign he h hplace =>
    refine (runs_eval hm he).bindAt hm fun v w₁ m₁ n₁ hm₁ => ?_
    refine (runs_assign hm₁ h hplace).bindAt hm₁ fun _ w₂ m₂ n₂ hm₂ => ?_
    exact runs_pure hm₂.sim rfl
  | call he ha hplace =>
    refine (runs_eval hm he).bindAt hm fun v w₁ m₁ n₁ hm₁ => ?_
    refine (runs_evalAll hm₁ ha).bindAt hm₁ fun vs w₂ m₂ n₂ hm₂ => ?_
    exact runs_call hm₂ ⟨p, hplace⟩
  | list h =>
    refine (runs_evalAll hm h).bindAt hm fun vs w₁ m₁ n₁ hm₁ => ?_
    exact runs_onValues (H := Halt.Placed) hm₁.sim Eval.onValues_newList
  | map hk hv hplace =>
    refine (runs_evalEntries hm ⟨p, hplace⟩ hk hv).bindAt hm fun entries w₁ m₁ n₁ hm₁ => ?_
    exact runs_onValues (H := Halt.Placed) hm₁.sim Eval.onValues_newMap
  | index hc hi hplace =>
    refine (runs_eval hm hc).bindAt hm fun c w₁ m₁ n₁ hm₁ => ?_
    refine (runs_eval hm₁ hi).bindAt hm₁ fun i w₂ m₂ n₂ hm₂ => ?_
    exact runs_onValues hm₂.sim (Eval.onValues_element ⟨p, hplace⟩)
  | setIndex hc hi hv hplace =>
    refine (runs_eval hm hc).bindAt hm fun c w₁ m₁ n₁ hm₁ => ?_
    refine (runs_eval hm₁ hi).bindAt hm₁ fun i w₂ m₂ n₂ hm₂ => ?_
    refine (runs_eval hm₂ hv).bindAt hm₂ fun v w₃ m₃ n₃ hm₃ => ?_
    refine (runs_onValues hm₃.sim (Eval.onValues_setElement ⟨p, hplace⟩)).bindAt hm₃
      fun _ w₄ m₄ n₄ hm₄ => ?_
    exact runs_pure hm₄.sim rfl
  | get h hname hplace =>
    refine (runs_eval hm h).bindAt hm fun v w₁ m₁ n₁ hm₁ => ?_
    split
    · exact relates_perform.2 (Eval.property_pairs hm₁.sim hname hplace)
    · exact runs_halt hm₁.sim (.placed ⟨p, hplace⟩)
  | set he hv hname hplace =>
    refine (runs_eval hm he).bindAt hm fun v w₁ m₁ n₁ hm₁ => ?_
    split
    · refine (runs_eval hm₁ hv).bindAt hm₁ fun v' w₂ m₂ n₂ hm₂ => ?_
      rw [hname]
      refine (runs_onValues (H := Halt.Placed) hm₂.sim Eval.onValues_setField).bindAt hm₂
        fun _ w₃ m₃ n₃ hm₃ => ?_
      exact runs_pure hm₃.sim rfl
    · exact runs_halt hm₁.sim (.placed ⟨p, hplace⟩)
  | thisRef h hplace => exact runs_readVariable hm h nofun hplace
  | superRef h hname hplace =>
    exact relates_perform.2 (Eval.superMethod_pairs hm.sim hm.scopes h hname hplace)

/-! ### Calls -/

theorem runs_callBody (g : S.Spot) {v : Value} {arguments : List Value} {paren paren' : Token}
    (hm : m.Sim S w n) (hplace : S.AnyTokens paren paren') :
    (callBody v arguments paren).Runs S w Eq (callBody v arguments paren') m n := by
  refine relates_bind (relates_perform.2 ((noteCall_pairs hplace hm.alike).mono ?_ ?_))
  · rintro - - m₁ n₁ ⟨hs, harity⟩
    refine Runs.of_grows (S.grows_refl w) hs.left.scope hs.right.scope ?_
    refine (runs_invoke g (hm.stay hs) hplace harity).bind ?_
    rintro v _ w₁ m₂ n₂ rfl - hm₂ - -
    refine (runs_onValues (H := Halt.Placed) hm₂ Eval.onValues_popCall).bind ?_
    rintro - - w₂ m₃ n₃ - - hm₃ - -
    exact runs_pure hm₃ rfl
  · exact fun h k m₁ n₁ h => ⟨h.1, hm.stay_follows h.2.2⟩

/-- What a call gives corresponds, if the jumps do that have left the bodies. -/
theorem Closure.result_pairs {f : Closure σ} {f' : Closure τ} {j j' : Option Jump}
    (hm : m.Sim S w n) (hf : f.Sim S w f') (hj : Option.Rel (Jump.Sim S.AnyTokens) j j') :
    (f.result j).Pairs (f'.result j') m n (fun v v' m' n' => v = v' ∧ m' = m ∧ n' = n)
      (Machine.Stops S w m n) := by
  have hrest (value : Eval σ Value) (value' : Eval τ Value)
      (hvalue : value.Pairs value' m n (fun v v' m' n' => v = v' ∧ m' = m ∧ n' = n)
        (Machine.Stops S w m n)) :
      Eval.Pairs
        (if f.isInitializer then do Eval.expect (σ.receiver (← Eval.store).memory f.scope)
          else value)
        (if f'.isInitializer then do Eval.expect (τ.receiver (← Eval.store).memory f'.scope)
          else value') m n (fun v v' m' n' => v = v' ∧ m' = m ∧ n' = n)
            (Machine.Stops S w m n) := by
    obtain ⟨p, -, hscope, hreceiver⟩ := hf.code
    rw [← hf.isInitializer]
    split
    · refine Eval.pairs_bind (Eval.pairs_store.2 ?_)
      rw [S.receiver hm.store.memory hscope (hreceiver ‹_›)]
      cases τ.receiver n.store.memory f'.scope with
      | ok v => exact ⟨rfl, rfl, rfl⟩
      | error d => exact hm.stops .defect
    · exact hvalue
  cases hj with
  | none => exact hrest _ _ ⟨rfl, rfl, rfl⟩
  | some hj =>
    cases hj with
    | breakLoop hplace => exact hm.stops (.placed hplace)
    | continueLoop hplace => exact hm.stops (.placed hplace)
    | returnValue hplace => exact hrest _ _ ⟨rfl, rfl, rfl⟩

theorem Closure.runs_apply {f : Closure σ} {f' : Closure τ} {arguments : List Value}
    (hm : m.Sim S w n) (hf : f.Sim S w f') (harity : arguments.length = f.decl.params.length) :
    (f.apply arguments).Runs S w Eq (f'.apply arguments) m n := by
  obtain ⟨p, hdecl, hscope, -⟩ := hf.code
  have hlength := hdecl.length_params
  obtain ⟨q, henters, hbody⟩ : ∃ q, S.Enters p (f.decl.params.map Name.text)
      (f'.decl.params.map Name.text) q ∧ Stmt.AllSim S q f.decl.body f'.decl.body := by
    generalize f.decl = decl at hdecl
    generalize f'.decl = decl' at hdecl
    cases hdecl with
    | intro hname hlength he hb => exact ⟨_, he, hb⟩
  obtain ⟨w₁, o, hw, hstore, hcurrent, hback⟩ := hm.store.enter arguments hscope
    henters (by simp [harity]) (by simp [harity, hlength])
  refine relates_bind (relates_perform.2 (Eval.pairs_alloc.2 ?_))
  refine relates_bind ⟨⟨w₁, q, o, q⟩, ⟨hm.withStore hstore, hbody, hcurrent⟩, ?_, ?_⟩
  · rintro j j' m₁ n₁ ⟨hj, w₂, hw₂, hm₁, hl, hr⟩
    have hw₂ := hback w₂ hw₂
    refine relates_perform.2 ((Closure.result_pairs hm₁ (hf.mono hw₂) hj).mono ?_ ?_)
    · rintro v _ m₂ n₂ ⟨rfl, rfl, rfl⟩
      exact ⟨rfl, w₂, hw₂, hm₁, hl, hr⟩
    · exact fun h k m₂ n₂ h => ⟨h.1, h.2.of_grows hw₂ hl hr⟩
  · rintro h k m₁ n₁ ⟨hhk, w₂, hw₂, hs, hl, hr⟩
    exact ⟨hhk, w₂, hback w₂ hw₂, hs, hl, hr⟩

theorem Class.runs_instantiate {c : Ref .cls} {arguments : List Value} (hm : m.Sim S w n)
    (harity : m.store.arity? (.cls c) = some arguments.length) :
    (Class.instantiate c arguments).Runs S w Eq (Class.instantiate c arguments) m n := by
  obtain ⟨hobject, hnew⟩ := hm.store.newObject c
  refine relates_bind (relates_perform.2 (Eval.pairs_alloc.2 ?_))
  refine relates_bind (relates_perform.2 (Eval.pairs_store.2 ?_))
  rw [hobject]
  have hmethod : (m.store.newObject c).2.method? c initializerName =
      m.store.method? c initializerName := rfl
  obtain ⟨hx, hx'⟩ | ⟨f, f', hx, hx', hf⟩ := rel_cases (hnew.method? c initializerName)
  · simp only [hx, hx']
    exact runs_pure (hm.withStore hnew) rfl
  · simp only [hx, hx']
    obtain ⟨w₁, hw, hclosure, hstore⟩ := hnew.bindMethod hf (.object (n.store.newObject c).1)
    refine relates_bind (relates_perform.2 (Eval.pairs_alloc.2 ?_))
    refine Runs.of_grows hw rfl rfl ((Closure.runs_apply (hm.withStore hstore) hclosure ?_).bind ?_)
    · rw [hmethod] at hx
      have hlength : f.decl.params.length = arguments.length := by
        simpa [Store.arity?, hx] using harity
      exact hlength.symm
    · rintro - - w₂ m₂ n₂ - - hm₂ - -
      exact runs_pure hm₂ rfl

theorem runs_invokeBody (depth : Nat) {v : Value} {arguments : List Value} (hm : m.Sim S w n)
    (harity : m.store.arity? v = some arguments.length) :
    (invokeBody depth v arguments).Runs S w Eq (invokeBody depth v arguments) m n := by
  cases v with
  | function ref =>
    refine relates_bind (relates_perform.2 (Eval.pairs_store.2 ?_))
    exact Closure.runs_apply hm (hm.store.functions ref) (Option.some.inj harity).symm
  | cls ref => exact Class.runs_instantiate hm harity
  | native f => exact runs_onValues hm (Native.onValues_call depth (Option.some.inj harity).symm)
  | _ => cases harity

/-! ### Statements -/

theorem runs_whileRounds {e : Expr σ.Mark} {e' : Expr τ.Mark} {body : Stmt σ.Mark}
    {body' : Stmt τ.Mark} (rounds : Nat) (hm : m.SimAt S w p o n) (he : e.Sim S p e')
    (hb : body.Sim S p body' p) (hnothing : body.declared? = none) :
    (whileRounds e body rounds).Runs S w (Option.Rel (Jump.Sim S.AnyTokens))
      (whileRounds e' body' rounds) m n := by
  induction rounds generalizing m n w with
  | zero => exact runs_halt hm.sim .unfinished
  | succ rounds ih =>
    refine (runs_eval hm he).bindAt hm fun v w₁ m₁ n₁ hm₁ => ?_
    split
    · refine (runs_exec hm₁ hb hnothing).bind fun j j' w₂ m₂ n₂ hj hw₂ hm₂ hl hr => ?_
      have hm₂ := hm₁.mono hw₂ hm₂ hl hr
      rcases hj with hj | _
      · cases hj with
        | breakLoop _ => exact runs_pure hm₂.sim .none
        | continueLoop _ => exact ih hm₂
        | returnValue hplace => exact runs_pure hm₂.sim (.some (.returnValue hplace))
      · exact ih hm₂
    · exact runs_pure hm₁.sim .none

theorem runs_doWhileRounds {e : Expr σ.Mark} {e' : Expr τ.Mark} {body : Stmt σ.Mark}
    {body' : Stmt τ.Mark} (rounds : Nat) (hm : m.SimAt S w p o n) (he : e.Sim S p e')
    (hb : body.Sim S p body' p) (hnothing : body.declared? = none) :
    (doWhileRounds body e rounds).Runs S w (Option.Rel (Jump.Sim S.AnyTokens))
      (doWhileRounds body' e' rounds) m n := by
  induction rounds generalizing m n w with
  | zero => exact runs_halt hm.sim .unfinished
  | succ rounds ih =>
    refine (runs_exec hm hb hnothing).bind fun j j' w₁ m₁ n₁ hj hw₁ hm₁ hl hr => ?_
    have hm₁ := hm.mono hw₁ hm₁ hl hr
    have hround : Runs S w₁ (Option.Rel (Jump.Sim S.AnyTokens))
        (do if (← eval e).isTruthy then doWhileRounds body e rounds else return none)
        (do if (← eval e').isTruthy then doWhileRounds body' e' rounds else return none)
        m₁ n₁ := by
      refine (runs_eval hm₁ he).bindAt hm₁ fun v w₂ m₂ n₂ hm₂ => ?_
      split
      · exact ih hm₂
      · exact runs_pure hm₂.sim .none
    rcases hj with hj | _
    · cases hj with
      | breakLoop _ => exact runs_pure hm₁.sim .none
      | continueLoop _ => exact hround
      | returnValue hplace => exact runs_pure hm₁.sim (.some (.returnValue hplace))
    · exact hround

theorem runs_openBlock {body : List (Stmt σ.Mark)} {body' : List (Stmt τ.Mark)}
    (hm : m.SimAt S w p o n) (he : S.Enters p [] [] q) (hb : Stmt.AllSim S q body body') :
    Runs S w (Option.Rel (Jump.Sim S.AnyTokens))
      (do
        let inner ← perform openBlock
        block inner body)
      (do
        let inner ← perform openBlock
        block inner body') m n := by
  obtain ⟨w₁, o', hw, hstore, hcurrent, hback⟩ := hm.sim.store.enter [] hm.scopes he rfl rfl
  refine relates_bind (relates_perform.2
    (Eval.pairs_bind (Eval.pairs_scope.2 (Eval.pairs_alloc.2 ?_))))
  refine ⟨⟨w₁, q, o', q⟩, ⟨hm.sim.withStore hstore, hb, hcurrent⟩, ?_, ?_⟩
  · rintro j j' m₁ n₁ ⟨hj, w₂, hw₂, hm₁, hl, hr⟩
    exact ⟨hj, w₂, hback w₂ hw₂, hm₁, hl, hr⟩
  · rintro h k m₁ n₁ ⟨hhk, w₂, hw₂, hm₁, hl, hr⟩
    exact ⟨hhk, w₂, hback w₂ hw₂, hm₁, hl, hr⟩

/-- A statement that declares nothing leads to the place it is at. -/
theorem Stmt.Sim.next_eq {s : Stmt σ.Mark} {s' : Stmt τ.Mark} (hs : s.Sim S p s' q)
    (hnothing : s.declared? = none) : q = p := by
  cases hs <;> first | rfl | cases hnothing

/-- An empty block is executed in place of a marker. -/
def Task.Spared (t : Task σ) (u : Task τ) : Prop :=
  ∃ line marker, t = .exec (.marker line marker) ∧ u = .exec (.block [])

/-- Statements that declare nothing. -/
theorem Stmt.runs_body (rounds depth : Nat) {s : Stmt σ.Mark} {s' : Stmt τ.Mark}
    (hm : m.SimAt S w p o n) (hs : s.Sim S p s' q) (hnothing : s.declared? = none)
    (hspared : ¬ Task.Spared (.exec s) (.exec s')) :
    (s.body rounds depth).Runs S w (Option.Rel (Jump.Sim S.AnyTokens)) (s'.body rounds depth)
      m n := by
  cases hs with
  | expression h =>
    refine (runs_eval hm h).bindAt hm fun v w₁ m₁ n₁ hm₁ => ?_
    exact runs_pure hm₁.sim .none
  | print h =>
    refine (runs_eval hm h).bindAt hm fun v w₁ m₁ n₁ hm₁ => ?_
    refine (runs_onValues (H := Halt.Placed) hm₁.sim Eval.onValues_printValue).bindAt hm₁
      fun _ w₂ m₂ n₂ hm₂ => ?_
    exact runs_pure hm₂.sim .none
  | block he hb => exact runs_openBlock hm he hb
  | when h hy hn =>
    refine (runs_eval hm h).bindAt hm fun v w₁ m₁ n₁ hm₁ => ?_
    split
    · exact runs_exec hm₁ hy hn
    · exact runs_pure hm₁.sim .none
  | branch h hy hn hno hnn =>
    refine (runs_eval hm h).bindAt hm fun v w₁ m₁ n₁ hm₁ => ?_
    split
    · exact runs_exec hm₁ hy hn
    · exact runs_exec hm₁ hno hnn
  | whileLoop h hb hn => exact runs_whileRounds rounds hm h hb hn
  | doWhile h hb hn => exact runs_doWhileRounds rounds hm h hb hn
  | breakLoop hplace => exact runs_pure hm.sim (.some (.breakLoop ⟨p, hplace⟩))
  | continueLoop hplace => exact runs_pure hm.sim (.some (.continueLoop ⟨p, hplace⟩))
  | returnValue h hplace =>
    refine (runs_evalOption hm h).bindAt hm fun v w₁ m₁ n₁ hm₁ => ?_
    exact runs_pure hm₁.sim (.some (.returnValue ⟨p, hplace⟩))
  | marker =>
    refine (runs_onValues (H := Halt.Placed) hm.sim Eval.onValues_trace).bindAt hm
      fun _ w₁ m₁ n₁ hm₁ => ?_
    exact runs_pure hm₁.sim .none
  | spared => exact absurd ⟨_, _, rfl, rfl⟩ hspared
  | var | function | classDecl => cases hnothing

/-- A statement leads to the place after it. -/
theorem Stmt.relates_body (rounds depth : Nat) {s : Stmt σ.Mark} {s' : Stmt τ.Mark}
    (hm : m.SimAt S w p o n) (hs : s.Sim S p s' q)
    (hspared : ¬ Task.Spared (.exec s) (.exec s')) :
    (s.body rounds depth).Relates S.pact (s'.body rounds depth) m n
      (fun j j' m' n' => Option.Rel (Jump.Sim S.AnyTokens) j j' ∧
        ((s.declared? = none ∧ m.Follows S none w n m' n') ∨
          (s.declared? ≠ none ∧ m'.Declared S w q o n'))) (Machine.Stops S w m n) := by
  by_cases hnothing : s.declared? = none
  · exact Relates.mono (s.runs_body rounds depth hm hs hnothing hspared)
      (fun _ _ _ _ h => ⟨h.1, .inl ⟨hnothing, h.2⟩⟩) fun _ _ _ _ h => h
  · cases hs with
    | var h hd =>
      refine relates_bind (Relates.mono (runs_evalOption hm h) ?_ fun _ _ _ _ h => h)
      rintro v _ m₁ n₁ ⟨rfl, w₁, hw, hm₁, hl, hr⟩
      refine relates_bind (relates_perform.2
        ((declareVariable_pairs (hm.mono hw hm₁ hl hr) hd).mono ?_ fun _ _ _ _ h => h))
      rintro - - m₂ n₂ ⟨w₂, hw₂, hm₂⟩
      exact ⟨.none, .inr ⟨hnothing, w₂, S.grows_trans (S.grows_of_none hw) hw₂, hm₂⟩⟩
    | function hd hf =>
      refine relates_bind (relates_perform.2
        ((declareFunction_pairs hm hd hf).mono ?_ fun _ _ _ _ h => h))
      exact fun _ _ m₁ n₁ h => ⟨.none, .inr ⟨hnothing, h⟩⟩
    | classDecl hname hd hp ha he hmethods =>
      refine relates_bind (relates_perform.2
        ((declareClass_pairs hm hname hd hp ha he hmethods).mono ?_ fun _ _ _ _ h => h))
      exact fun _ _ m₁ n₁ h => ⟨.none, .inr ⟨hnothing, h⟩⟩
    | _ => exact absurd rfl hnothing

/-- Whether or not a statement declares something, it leads to the place after it. -/
theorem Machine.SimAt.declared {s : Stmt σ.Mark} {s' : Stmt τ.Mark} {m' : Machine σ}
    {n' : Machine τ} (hm : m.SimAt S w p o n) (hs : s.Sim S p s' q)
    (h : (s.declared? = none ∧ m.Follows S none w n m' n') ∨
      (s.declared? ≠ none ∧ m'.Declared S w q o n')) : m'.Declared S w q o n' := by
  obtain ⟨hnothing, w₁, hw, hm₁, hl, hr⟩ | ⟨-, h⟩ := h
  · rw [hs.next_eq hnothing]
    exact ⟨w₁, S.grows_of_none hw, hm.mono hw hm₁ hl hr⟩
  · exact h

/-- The statements of a block, as seen from before the first of them. -/
theorem relates_untilJump {body : List (Stmt σ.Mark)} {body' : List (Stmt τ.Mark)}
    (hm : m.SimAt S w p o n) (hb : Stmt.AllSim S p body body') :
    (Stmt.untilJump body).Relates S.pact (Stmt.untilJump body') m n
      (fun j j' m' n' => Option.Rel (Jump.Sim S.AnyTokens) j j' ∧
        ∃ w₁, S.Grows (some o) w w₁ ∧ m'.Sim S w₁ n')
      fun h k m' n' => Halt.Pairs S.AnyTokens h k ∧
        ∃ w₁, S.Grows (some o) w w₁ ∧ m'.Sim S w₁ n' := by
  induction body generalizing body' m n w p with
  | nil =>
    cases hb
    exact ⟨.none, w, S.grows_of_none (S.grows_refl w), hm.sim⟩
  | cons s body ih =>
    cases hb with
    | @cons _ q _ s' _ body' hs hb =>
      refine relates_bind ⟨⟨w, p, o, q⟩, ⟨hm.sim, hs, hm.current⟩, ?_, ?_⟩
      · rintro j j' m₁ n₁ ⟨hj, hrest⟩
        obtain ⟨w₁, hw, hm₁⟩ := hm.declared hs hrest
        cases hj with
        | some hj => exact ⟨.some hj, w₁, hw, hm₁.sim⟩
        | none =>
          refine (ih hm₁ hb).mono ?_ ?_
          · exact fun j j' m₂ n₂ ⟨hj, w₂, hw₂, hm₂⟩ => ⟨hj, w₂, S.grows_trans hw hw₂, hm₂⟩
          · exact fun h k m₂ n₂ ⟨hhk, w₂, hw₂, hm₂⟩ => ⟨hhk, w₂, S.grows_trans hw hw₂, hm₂⟩
      · rintro h k m₁ n₁ ⟨hhk, w₁, hw, hm₁, -, -⟩
        exact ⟨hhk, w₁, S.grows_of_none hw, hm₁⟩

/-! ### Runs -/

/-- The bodies of tasks keep to the pact, unless a block is executed in place of a marker. -/
theorem Task.relates_body (rounds depth : Nat) {g : S.Spot} {t : Task σ} {u : Task τ}
    (ht : S.pact.before g t u m n) (hspared : ¬ t.Spared u) :
    (t.body rounds depth).Relates S.pact (u.body rounds depth) (t.enter m) (u.enter n)
      (fun a b m' n' => S.pact.after g t u m n a b (t.leave m.scope m') (u.leave n.scope n'))
      fun h k m' n' => S.pact.halts g t u m n (t.blame h) (u.blame k) (t.leave m.scope m')
        (u.leave n.scope n') := by
  obtain ⟨hm, ht⟩ := ht
  cases t with
  | eval e => cases u with
    | eval e' => exact Expr.runs_body depth ⟨hm, ht.2⟩ ht.1
    | _ => exact ht.elim
  | call v arguments paren => cases u with
    | call v' arguments' paren' =>
      obtain ⟨rfl, rfl, hplace⟩ := ht
      exact runs_callBody g hm hplace
    | _ => exact ht.elim
  | invoke v arguments paren => cases u with
    | invoke v' arguments' paren' =>
      obtain ⟨rfl, rfl, hplace, harity⟩ := ht
      refine Relates.mono (runs_invokeBody depth hm harity) (fun _ _ _ _ h => h) ?_
      exact fun h k m₁ n₁ h => ⟨h.1.blame hplace, h.2⟩
    | _ => exact ht.elim
  | block inner body => cases u with
    | block inner' body' =>
      -- The block ends in a scope of its own, and the former one is current again.
      have hinner : Machine.SimAt S g.world g.place g.owner { m with scope := inner }
          { n with scope := inner' } :=
        ⟨⟨hm.store, hm.calls, hm.effects, hm.input, hm.clock⟩, ht.2⟩
      refine (relates_untilJump hinner ht.1).mono ?_ ?_
      · rintro j j' m₁ n₁ ⟨hj, w₁, hw, hm₁⟩
        exact ⟨hj, w₁, hw, ⟨hm₁.store, hm₁.calls, hm₁.effects, hm₁.input, hm₁.clock⟩, rfl, rfl⟩
      · rintro h k m₁ n₁ ⟨hhk, w₁, hw, hm₁⟩
        exact ⟨hhk, w₁, hw, ⟨hm₁.store, hm₁.calls, hm₁.effects, hm₁.input, hm₁.clock⟩, rfl, rfl⟩
    | _ => exact ht.elim
  | exec s => cases u with
    | exec s' => exact s.relates_body rounds depth ⟨hm, ht.2⟩ ht.1 hspared
    | _ => exact ht.elim

/-- Tasks that correspond halt alike where no level of the stack is left. -/
theorem Simulation.halts_exhausted {g : S.Spot} {t : Task σ} {u : Task τ}
    (ht : S.pact.before g t u m n) : S.pact.halts g t u m n .exhausted .exhausted m n := by
  refine ⟨.exhausted, ?_⟩
  obtain ⟨w₁, hw, h⟩ := Machine.Follows.refl ht.1
  exact ⟨w₁, S.grows_of_none hw, h⟩

theorem Task.Spared.spares {g : S.Spot} {t : Task σ} {u : Task τ} (h : t.Spared u)
    (ht : S.pact.before g t u m n) : S.Spares := by
  obtain ⟨line, marker, rfl, rfl⟩ := h
  obtain ⟨world, place, owner, next⟩ := g
  obtain ⟨-, hs, -⟩ := ht
  cases hs with
  | spared h => exact h

/-- **Simulated runs keep the pact,** if they go step by step. -/
theorem Simulation.pact_kept (S : Simulation σ τ) [S.Lockstep] (rounds : Nat) :
    S.pact.Kept rounds where
  body depth _ _ _ _ _ ht :=
    Task.relates_body rounds depth ht fun h => Lockstep.not_spares (h.spares ht)
  exhausted _ _ _ _ _ ht := S.halts_exhausted ht

/-! ### Programs -/

/-- Declarations at the place do not lead away from it, as it is outside of all blocks. -/
def Simulation.Stays (S : Simulation σ τ) (p : S.Place) : Prop :=
  ∀ x y q, S.Declares p x y q → q = p

theorem Stmt.Sim.next_eq_of_stays {s : Stmt σ.Mark} {s' : Stmt τ.Mark} (hs : s.Sim S p s' q)
    (hp : S.Stays p) : q = p := by
  cases hs <;> first | rfl | exact hp _ _ _ ‹_›

/-- From the world `w` the runs have come to a halt, at the place `p`. -/
def Machine.StopsAt (S : Simulation σ τ) (w : S.World) (p : S.Place) (o : S.Owner) (h k : Halt)
    (m : Machine σ) (n : Machine τ) : Prop :=
  Halt.Pairs S.AnyTokens h k ∧ m.Declared S w p o n

theorem Machine.SimAt.stopsAt (hm : m.SimAt S w p o n) {h k : Halt} {m' : Machine σ}
    {n' : Machine τ} (hs : Stops S w m n h k m' n') : StopsAt S w p o h k m' n' := by
  obtain ⟨hhk, w₁, hw, hm₁, hl, hr⟩ := hs
  exact ⟨hhk, w₁, S.grows_of_none hw, hm.mono hw hm₁ hl hr⟩

theorem Jump.Sim.escaped {j j' : Jump} {L : Token → Token → Prop} (hj : j.Sim L j') :
    Halt.Pairs L (.fault j.escaped) (.fault j'.escaped) := by
  cases hj with
  | breakLoop h => exact .placed h
  | continueLoop h => exact .placed h
  | returnValue h => exact .placed h

theorem Stmt.relates_topBody {s : Stmt σ.Mark} {s' : Stmt τ.Mark} (hp : S.Stays p)
    (hm : m.SimAt S w p o n) (hs : s.Sim S p s' q) :
    s.topBody.Relates S.pact s'.topBody m n
      (fun v v' m' n' => v = v' ∧ m'.Declared S w p o n') (Machine.StopsAt S w p o) := by
  have hsim := hs
  cases hs with
  | expression h =>
    refine Relates.mono (runs_eval hm h) ?_ fun _ _ _ _ => hm.stopsAt
    rintro v v' m₁ n₁ ⟨hv, w₁, hw, hm₁, hl, hr⟩
    exact ⟨hv, w₁, S.grows_of_none hw, hm.mono hw hm₁ hl hr⟩
  | _ =>
    refine relates_bind ⟨⟨w, p, o, _⟩, ⟨hm.sim, hsim, hm.current⟩, ?_, fun _ _ _ _ => hm.stopsAt⟩
    rintro j j' m₁ n₁ ⟨hj, hrest⟩
    have hm₁ := hm.declared hsim hrest
    rw [hsim.next_eq_of_stays hp] at hm₁
    cases hj with
    | none => exact ⟨rfl, hm₁⟩
    | some hj => exact relates_perform.2 ⟨hj.escaped, hm₁⟩

/-- Programs that correspond run in step, and end at the place where they started. -/
theorem Program.relates_body {program : Program σ.Mark} {program' : Program τ.Mark}
    (hp : S.Stays p) (hm : m.SimAt S w p o n) (h : Stmt.AllSim S p program program') :
    (Program.body program).Relates S.pact (Program.body program') m n
      (fun v v' m' n' => v = v' ∧ m'.Declared S w p o n') (Machine.StopsAt S w p o) := by
  have hfold (v : Value) : Relates S.pact (program.foldlM (fun _ s => s.topBody) v)
      (program'.foldlM (fun _ s => s.topBody) v) m n
      (fun v v' m' n' => v = v' ∧ m'.Declared S w p o n') (Machine.StopsAt S w p o) := by
    induction program generalizing program' m n w v with
    | nil =>
      cases h
      exact ⟨rfl, w, S.grows_of_none (S.grows_refl w), hm⟩
    | cons s program ih =>
      cases h with
      | cons hs h =>
        rw [hs.next_eq_of_stays hp] at h
        rw [List.foldlM_cons, List.foldlM_cons]
        refine relates_bind ((Stmt.relates_topBody hp hm hs).mono ?_ fun _ _ _ _ h => h)
        rintro v _ m₁ n₁ ⟨rfl, w₁, hw, hm₁⟩
        refine (ih hm₁ h v).mono ?_ ?_
        · exact fun _ _ _ _ ⟨hv, w₂, hw₂, hm₂⟩ => ⟨hv, w₂, S.grows_trans hw hw₂, hm₂⟩
        · exact fun _ _ _ _ ⟨hhk, w₂, hw₂, hm₂⟩ => ⟨hhk, w₂, S.grows_trans hw hw₂, hm₂⟩
  exact hfold .nil

/-- **Points of simulated runs.** Programs that correspond are run one after the other, on machines
that correspond. Where the second run comes to a point, the first one comes to one that belongs to
it. -/
theorem Simulation.exists_of_anyVisits {rounds depth : Nat} {programs : List (Program σ.Mark)}
    {programs' : List (Program τ.Mark)} {point : Point τ} [S.Lockstep] (hp : S.Stays p)
    (h : List.Forall₂ (Stmt.AllSim S p) programs programs') (hm : m.SimAt S w p o n)
    (hpoint : Program.AnyVisits rounds depth programs' n point) :
    ∃ point' : Point σ, Program.AnyVisits rounds depth programs m point' ∧
      point'.depth = point.depth ∧
        ∃ g, S.pact.before g point'.task point.task point'.machine point.machine := by
  induction h generalizing m n w with
  | nil => exact hpoint.elim
  | cons h _ ih =>
    have hbody := Program.relates_body hp hm h
    obtain hpoint | hpoint := hpoint
    · obtain ⟨point', hvisits, hrest⟩ := (S.pact_kept rounds).exists_of_visits hbody hpoint
      exact ⟨point', .inl hvisits, hrest⟩
    · have hruns := ((S.pact_kept rounds).program_run depth hbody).mono (fun _ _ _ _ h => h.2)
        fun _ _ _ _ h => h
      obtain ⟨w₁, -, hm₁⟩ := hruns.leaves
      obtain ⟨point', hvisits, hrest⟩ := ih hm₁ hpoint
      exact ⟨point', .inr hvisits, hrest⟩

end LoxLang
