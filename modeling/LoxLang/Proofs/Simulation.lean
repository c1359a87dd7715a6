import LoxLang.Proofs.Grammar
import LoxLang.Proofs.Values

/-!
# Simulations of scopings

Everything about running a program is the same for all scopings. So to show that two programs, each
with its own scoping, do the same, it is enough to compare what the scopings do: that is what a
`Simulation` is about. It relates the two programs place by place, the two memories by way of a
*world*, and what can be seen at a place; and it asks that the operations of the scopings keep these
relations.

Here are the relations on trees and on machines that come of it (`Stmt.Sim`, `Machine.Sim`). Values
are not related but equal: lists, functions, classes and objects are made at the same time in both
runs.
-/

namespace LoxLang

/-- Both options are empty, or both hold something. -/
theorem rel_cases {α β : Type} {R : α → β → Prop} {a : Option α} {b : Option β}
    (h : Option.Rel R a b) : (a = none ∧ b = none) ∨ ∃ x y, a = some x ∧ b = some y ∧ R x y := by
  cases h with
  | none => exact .inl ⟨rfl, rfl⟩
  | some h => exact .inr ⟨_, _, rfl, rfl, h⟩

/-- Tables that are made from lists that correspond have values that correspond. -/
theorem Table.rel_get?_ofList {κ α β : Type} [DecidableEq κ] {R : α → β → Prop}
    {es : List (κ × α)} {es' : List (κ × β)}
    (h : List.Forall₂ (fun e e' => e.1 = e'.1 ∧ R e.2 e'.2) es es') (k : κ) :
    Option.Rel R ((Table.ofList es).get? k) ((Table.ofList es').get? k) := by
  have hfold : ∀ (t : Table κ α) (t' : Table κ β), Option.Rel R (t.get? k) (t'.get? k) →
      Option.Rel R ((es.foldl (fun t e => t.insert e.1 e.2) t).get? k)
        ((es'.foldl (fun t e => t.insert e.1 e.2) t').get? k) := by
    induction h with
    | nil => exact fun _ _ ht => ht
    | cons he _ ih =>
      intro t t' ht
      refine ih _ _ ?_
      rw [Table.get?_insert, Table.get?_insert, he.1]
      split
      · exact .some he.2
      · exact ht
  exact hfold .empty .empty .none

variable {σ τ : Scoping}

/-- What comes of looking for the place of a variable in two runs. -/
inductive Located (Slots : σ.Slot → τ.Slot → Prop) (mem : σ.Memory) (mem' : τ.Memory)
    (x y : String) : Except Miss σ.Slot → Except Miss τ.Slot → Prop where
  | found {slot : σ.Slot} {slot' : τ.Slot} (h : Slots slot slot')
    (hvalue : σ.get? mem slot = τ.get? mem' slot') :
      Located Slots mem mem' x y (.ok slot) (.ok slot')
  | undefined (h : x = y) : Located Slots mem mem' x y (.error .undefined) (.error .undefined)
  | defect {d : Defect} : Located Slots mem mem' x y (.error (.defect d)) (.error (.defect d))

/-- How the programs, the memories and the scopes of two runs correspond. -/
structure Simulation (σ τ : Scoping) where
  /-- What is known of a place in both programs. -/
  Place : Type
  /-- What is known of both memories. -/
  World : Type
  /-- What tells apart the scopes that are declared in. -/
  Owner : Type
  /-- The place outside of all blocks. -/
  top : Place
  /-- The tokens correspond at the place. -/
  Tokens : Place → Token → Token → Prop
  /-- The uses correspond at the place: the names and the marks. -/
  Uses : Place → Use → String → String → σ.Mark → τ.Mark → Prop
  /-- Declaring the names leads from one place to another. -/
  Declares : Place → String → String → Place → Prop
  /-- A scope with the names leads from one place to another. -/
  Enters : Place → List String → List String → Place → Prop
  /-- There is a receiver in the innermost scope around the place. -/
  HasReceiver : Place → Prop
  /-- The second world has come of the first, and nothing has been declared in between in the scopes
  that there were, except for one. -/
  Grows : Option Owner → World → World → Prop
  Memories : World → σ.Memory → τ.Memory → Prop
  Slots : World → σ.Slot → τ.Slot → Prop
  /-- What can be seen corresponds at the place. -/
  Scopes : World → Place → σ.Scope → τ.Scope → Prop
  /-- What can be seen corresponds at the place, and no more has been declared there. -/
  Current : World → Place → Owner → σ.Scope → τ.Scope → Prop
  grows_refl : ∀ w, Grows none w w
  grows_trans : ∀ {o w w₁ w₂}, Grows o w w₁ → Grows o w₁ w₂ → Grows o w w₂
  grows_of_none : ∀ {o w w₁}, Grows none w w₁ → Grows o w w₁
  scopes_of_current : ∀ {w p o s s'}, Current w p o s s' → Scopes w p s s'
  slots_mono : ∀ {o w w₁ slot slot'}, Grows o w w₁ → Slots w slot slot' → Slots w₁ slot slot'
  scopes_mono : ∀ {o w w₁ p s s'}, Grows o w w₁ → Scopes w p s s' → Scopes w₁ p s s'
  current_mono : ∀ {w w₁ p o s s'}, Grows none w w₁ → Current w p o s s' → Current w₁ p o s s'
  current_top : ∀ w, ∃ o, Current w top o σ.top τ.top
  enters_top : ∃ q, Enters top [] [] q
  locate : ∀ {w p s s' mem mem' use x y mark mark'}, Memories w mem mem' → Scopes w p s s' →
    Uses p use x y mark mark' → use ≠ .superRef →
    Located (Slots w) mem mem' x y (σ.locate mem s mark x) (τ.locate mem' s' mark' y)
  put : ∀ {w mem mem' slot slot'} (v : Value), Memories w mem mem' → Slots w slot slot' →
    Memories w (σ.put mem slot v) (τ.put mem' slot' v)
  announce : ∀ {w p o s s' mem mem' x y q}, Memories w mem mem' → Current w p o s s' →
    Declares p x y q → ∃ declare declare', σ.announce s x = .ok declare ∧
      τ.announce s' y = .ok declare' ∧ ∃ w₁, Grows (some o) w w₁ ∧
        Memories w₁ (declare mem).2 (declare' mem').2 ∧
        Current w₁ q o (declare mem).1.2 (declare' mem').1.2 ∧
        Slots w₁ (declare mem).1.1 (declare' mem').1.1
  enter : ∀ {w p s s' mem mem' xs ys q} {values : List Value}, Memories w mem mem' →
    Scopes w p s s' → Enters p xs ys q → values.length = xs.length → values.length = ys.length →
    ∃ w₁ o, Grows none w w₁ ∧
      Memories w₁ (σ.enter s (xs.zip values) mem).2 (τ.enter s' (ys.zip values) mem').2 ∧
      Current w₁ q o (σ.enter s (xs.zip values) mem).1 (τ.enter s' (ys.zip values) mem').1 ∧
      ∀ w₂, Grows (some o) w₁ w₂ → Grows none w w₂
  inherited : ∀ {w p s s' mem mem' mark mark'}, Memories w mem mem' → Scopes w p s s' →
    Uses p .superRef Keyword.superWord.text Keyword.superWord.text mark mark' →
      σ.inherited mem s mark = τ.inherited mem' s' mark'
  receiver : ∀ {w p s s' mem mem'}, Memories w mem mem' → Scopes w p s s' → HasReceiver p →
    σ.receiver mem s = τ.receiver mem' s'
  hasReceiver : ∀ {p q}, Enters p [Keyword.thisWord.text] [Keyword.thisWord.text] q →
    HasReceiver q
  /-- The second program may have an empty block where the first one has a marker. -/
  Spares : Prop := False
  /-- The scope of an empty block makes no difference. -/
  spare : ∀ {w p s s' mem mem'}, Spares → Memories w mem mem' → Scopes w p s s' →
    ∃ w₁, Grows none w w₁ ∧ Memories w₁ mem (τ.enter s' [] mem').2 := by
      exact fun h => False.elim h

/-- Programs that correspond have markers at the same places. -/
class Simulation.Lockstep (S : Simulation σ τ) : Prop where
  not_spares : ¬ S.Spares

variable (S : Simulation σ τ)

/-! ### Trees -/

/-- The expressions correspond at a place. -/
inductive Expr.Sim (p : S.Place) : Expr σ.Mark → Expr τ.Mark → Prop where
  | constant {value : Constant} : Sim p (.constant value) (.constant value)
  | group {e e'} (h : Sim p e e') : Sim p (.group e) (.group e')
  | unary {op line line' e e'} (h : Sim p e e')
    (hplace : S.Tokens p (.ofSymbol op.symbol line) (.ofSymbol op.symbol line')) :
    Sim p (.unary op line e) (.unary op line' e')
  | binary {op line line' l l' r r'} (hl : Sim p l l') (hr : Sim p r r')
    (hplace : S.Tokens p (.ofSymbol op.symbol line) (.ofSymbol op.symbol line')) :
    Sim p (.binary l op line r) (.binary l' op line' r')
  | logical {op line line' l l' r r'} (hl : Sim p l l') (hr : Sim p r r') :
    Sim p (.logical l op line r) (.logical l' op line' r')
  | var {name name' : Name} {mark mark'} (h : S.Uses p .read name.text name'.text mark mark')
    (hplace : S.Tokens p name.token name'.token) : Sim p (.var name mark) (.var name' mark')
  | assign {name name' : Name} {e e' mark mark'} (he : Sim p e e')
    (h : S.Uses p .assign name.text name'.text mark mark')
    (hplace : S.Tokens p name.token name'.token) :
      Sim p (.assign name e mark) (.assign name' e' mark')
  | call {e e' arguments arguments' line line'} (he : Sim p e e')
    (ha : List.Forall₂ (Sim p) arguments arguments')
    (hplace : S.Tokens p (.ofSymbol .rightParen line) (.ofSymbol .rightParen line')) :
    Sim p (.call e arguments line) (.call e' arguments' line')
  | list {elements elements' line line'} (h : List.Forall₂ (Sim p) elements elements') :
    Sim p (.list elements line) (.list elements' line')
  | map {entries entries' line line'}
    (hk : List.Forall₂ (Sim p) (entries.map Prod.fst) (entries'.map Prod.fst))
    (hv : List.Forall₂ (Sim p) (entries.map Prod.snd) (entries'.map Prod.snd))
    (hplace : S.Tokens p (.ofSymbol .leftBrace line) (.ofSymbol .leftBrace line')) :
    Sim p (.map entries line) (.map entries' line')
  | index {c c' i i' line line'} (hc : Sim p c c') (hi : Sim p i i')
    (hplace : S.Tokens p (.ofSymbol .leftBracket line) (.ofSymbol .leftBracket line')) :
    Sim p (.index c i line) (.index c' i' line')
  | setIndex {c c' i i' v v' line line'} (hc : Sim p c c') (hi : Sim p i i') (hv : Sim p v v')
    (hplace : S.Tokens p (.ofSymbol .leftBracket line) (.ofSymbol .leftBracket line')) :
    Sim p (.setIndex c i v line) (.setIndex c' i' v' line')
  | get {e e'} {name name' : Name} (h : Sim p e e') (hname : name.text = name'.text)
    (hplace : S.Tokens p name.token name'.token) : Sim p (.get e name) (.get e' name')
  | set {e e' v v'} {name name' : Name} (he : Sim p e e') (hv : Sim p v v')
    (hname : name.text = name'.text) (hplace : S.Tokens p name.token name'.token) :
    Sim p (.set e name v) (.set e' name' v')
  | thisRef {line line' mark mark'}
    (h : S.Uses p .thisRef Keyword.thisWord.text Keyword.thisWord.text mark mark')
    (hplace : S.Tokens p (.ofKeyword .thisWord line) (.ofKeyword .thisWord line')) :
    Sim p (.thisRef line mark) (.thisRef line' mark')
  | superRef {line line'} {method method' : Name} {mark mark'}
    (h : S.Uses p .superRef Keyword.superWord.text Keyword.superWord.text mark mark')
    (hname : method.text = method'.text) (hplace : S.Tokens p method.token method'.token) :
    Sim p (.superRef line method mark) (.superRef line' method' mark')

/-- The expressions, which may be missing, correspond at a place. -/
def Expr.OptionSim (p : S.Place) (e : Option (Expr σ.Mark)) (e' : Option (Expr τ.Mark)) : Prop :=
  Option.Rel (Expr.Sim S p) e e'

/-- The superclasses, which may be missing, correspond at a place. -/
def SuperclassSim (p : S.Place) (parent : Option (Name × σ.Mark))
    (parent' : Option (Name × τ.Mark)) : Prop :=
  Option.Rel (fun c c' => S.Uses p .read c.1.text c'.1.text c.2 c'.2 ∧
    S.Tokens p c.1.token c'.1.token) parent parent'

/-- The place around the methods of a class, `this` apart. -/
def Simulation.AroundMethods (p : S.Place) (inherits : Bool) (q : S.Place) : Prop :=
  if inherits then S.Enters p [Keyword.superWord.text] [Keyword.superWord.text] q else q = p

mutual

/-- The statements correspond at a place, and lead to another one. -/
inductive Stmt.Sim : S.Place → Stmt σ.Mark → Stmt τ.Mark → S.Place → Prop where
  | expression {p e e'} (h : e.Sim S p e') : Stmt.Sim p (.expression e) (.expression e') p
  | print {p e e'} (h : e.Sim S p e') : Stmt.Sim p (.print e) (.print e') p
  | var {p q e e'} {name name' : Name} (h : Expr.OptionSim S p e e')
    (hd : S.Declares p name.text name'.text q) : Stmt.Sim p (.var name e) (.var name' e') q
  | block {p q body body'} (he : S.Enters p [] [] q) (hb : Stmt.AllSim q body body') :
    Stmt.Sim p (.block body) (.block body') p
  | when {p e e' yes yes'} (h : e.Sim S p e') (hy : Stmt.Sim p yes yes' p)
    (hn : yes.declared? = none) : Stmt.Sim p (.branch e yes none) (.branch e' yes' none) p
  | branch {p e e' yes yes' no no'} (h : e.Sim S p e') (hy : Stmt.Sim p yes yes' p)
    (hn : yes.declared? = none) (hno : Stmt.Sim p no no' p) (hnn : no.declared? = none) :
    Stmt.Sim p (.branch e yes (some no)) (.branch e' yes' (some no')) p
  | whileLoop {p e e' body body'} (h : e.Sim S p e') (hb : Stmt.Sim p body body' p)
    (hn : body.declared? = none) : Stmt.Sim p (.whileLoop e body) (.whileLoop e' body') p
  | doWhile {p e e' body body'} (h : e.Sim S p e') (hb : Stmt.Sim p body body' p)
    (hn : body.declared? = none) : Stmt.Sim p (.doWhile body e) (.doWhile body' e') p
  | breakLoop {p line line'}
    (hplace : S.Tokens p (.ofKeyword .breakWord line) (.ofKeyword .breakWord line')) :
    Stmt.Sim p (.breakLoop line) (.breakLoop line') p
  | continueLoop {p line line'}
    (hplace : S.Tokens p (.ofKeyword .continueWord line) (.ofKeyword .continueWord line')) :
    Stmt.Sim p (.continueLoop line) (.continueLoop line') p
  | returnValue {p line line' e e'} (h : Expr.OptionSim S p e e')
    (hplace : S.Tokens p (.ofKeyword .returnWord line) (.ofKeyword .returnWord line')) :
    Stmt.Sim p (.returnValue line e) (.returnValue line' e') p
  | function {p q f f'} (hd : S.Declares p f.name.text f'.name.text q) (hf : Function.Sim q f f') :
    Stmt.Sim p (.function f) (.function f') q
  | classDecl {p q around inside} {name name' : Name} {parent parent' methods methods'}
    (hname : name.text = name'.text) (hd : S.Declares p name.text name'.text q)
    (hp : SuperclassSim S p parent parent') (ha : S.AroundMethods q parent.isSome around)
    (he : S.Enters around [Keyword.thisWord.text] [Keyword.thisWord.text] inside)
    (hm : Function.AllSim inside methods methods') :
    Stmt.Sim p (.classDecl name parent methods) (.classDecl name' parent' methods') q
  | marker {p line line' m m'} : Stmt.Sim p (.marker line m) (.marker line' m') p
  | spared {p line m} (h : S.Spares) : Stmt.Sim p (.marker line m) (.block []) p

/-- The statements correspond one by one, each after what those before it declare. -/
inductive Stmt.AllSim : S.Place → List (Stmt σ.Mark) → List (Stmt τ.Mark) → Prop where
  | nil {p} : Stmt.AllSim p [] []
  | cons {p q s s' ss ss'} (h : Stmt.Sim p s s' q) (hs : Stmt.AllSim q ss ss') :
    Stmt.AllSim p (s :: ss) (s' :: ss')

/-- The functions correspond as they are declared at a place. -/
inductive Function.Sim : S.Place → Function σ.Mark → Function τ.Mark → Prop where
  | intro {p q} {name name' : Name} {params params' : List Name} {body body'}
    (hname : name.text = name'.text) (hlength : params.length = params'.length)
    (he : S.Enters p (params.map Name.text) (params'.map Name.text) q)
    (hb : Stmt.AllSim q body body') :
    Function.Sim p ⟨name, params, body⟩ ⟨name', params', body'⟩

/-- The functions correspond one by one. -/
inductive Function.AllSim : S.Place → List (Function σ.Mark) → List (Function τ.Mark) → Prop where
  | nil {p} : Function.AllSim p [] []
  | cons {p f f' fs fs'} (h : Function.Sim p f f') (hs : Function.AllSim p fs fs') :
    Function.AllSim p (f :: fs) (f' :: fs')

end

/-! ### Machines -/

/-- The functions correspond. -/
structure Closure.Sim (w : S.World) (f : Closure σ) (f' : Closure τ) : Prop where
  isInitializer : f.isInitializer = f'.isInitializer
  code : ∃ p, f.decl.Sim S p f'.decl ∧ S.Scopes w p f.scope f'.scope ∧
    (f.isInitializer = true → S.HasReceiver p)

/-- The methods correspond as they are declared. -/
structure Closure.SimMethod (w : S.World) (f : Closure σ) (f' : Closure τ) : Prop where
  isInitializer : f.isInitializer = f'.isInitializer
  code : ∃ p q, S.Scopes w p f.scope f'.scope ∧
    S.Enters p [Keyword.thisWord.text] [Keyword.thisWord.text] q ∧ f.decl.Sim S q f'.decl

/-- The classes correspond. -/
structure Class.Sim (w : S.World) (c : Class σ) (c' : Class τ) : Prop where
  name : c.name = c'.name
  ancestors : c.ancestors = c'.ancestors
  methods : ∀ x, Option.Rel (Closure.SimMethod S w) (c.methods.get? x) (c'.methods.get? x)

/-- The stores correspond. -/
structure Store.Sim (w : S.World) (s : Store σ) (t : Store τ) : Prop where
  memory : S.Memories w s.memory t.memory
  lists : s.lists = t.lists
  maps : s.maps = t.maps
  objects : s.objects = t.objects
  functionCount : s.functions.cells.size = t.functions.cells.size
  functions : ∀ r, (s.functions.get r).Sim S w (t.functions.get r)
  classCount : s.classes.cells.size = t.classes.cells.size
  classes : ∀ r, (s.classes.get r).Sim S w (t.classes.get r)

/-- The machines correspond, what can be seen apart. -/
structure Machine.Sim (w : S.World) (m : Machine σ) (n : Machine τ) : Prop where
  store : m.store.Sim S w n.store
  calls : m.calls = n.calls
  effects : m.effects = n.effects
  input : m.input = n.input
  clock : m.clock = n.clock

variable {S} {o : Option S.Owner} {w w₁ w₂ : S.World} {s : Store σ} {t : Store τ}
  {m m' : Machine σ} {n n' : Machine τ}

namespace Closure

variable {f : Closure σ} {f' : Closure τ}

theorem Sim.mono (h : f.Sim S w f') (hw : S.Grows o w w₁) : f.Sim S w₁ f' := by
  obtain ⟨p, hdecl, hscope, hreceiver⟩ := h.code
  exact ⟨h.isInitializer, p, hdecl, S.scopes_mono hw hscope, hreceiver⟩

theorem SimMethod.mono (h : f.SimMethod S w f') (hw : S.Grows o w w₁) : f.SimMethod S w₁ f' := by
  obtain ⟨p, q, hscope, henters, hdecl⟩ := h.code
  exact ⟨h.isInitializer, p, q, S.scopes_mono hw hscope, henters, hdecl⟩

/-- What stands in for a function where there is none corresponds. -/
theorem sim_default (w : S.World) : (default : Closure σ).Sim S w default := by
  obtain ⟨q, hq⟩ := S.enters_top
  obtain ⟨o, ho⟩ := S.current_top w
  exact ⟨rfl, S.top, .intro rfl rfl hq .nil, S.scopes_of_current ho, nofun⟩

end Closure

theorem Class.Sim.mono {c : Class σ} {c' : Class τ} (h : c.Sim S w c') (hw : S.Grows o w w₁) :
    c.Sim S w₁ c' := by
  refine ⟨h.name, h.ancestors, fun x => ?_⟩
  obtain ⟨hx, hx'⟩ | ⟨f, f', hx, hx', hf⟩ := rel_cases (h.methods x)
  · rw [hx, hx']
    exact .none
  · rw [hx, hx']
    exact .some (hf.mono hw)

namespace Function

variable {p : S.Place} {f : Function σ.Mark} {f' : Function τ.Mark}

theorem Sim.name_text (h : f.Sim S p f') : f.name.text = f'.name.text := by
  cases h with
  | intro hname => exact hname

theorem Sim.length_params (h : f.Sim S p f') : f.params.length = f'.params.length := by
  cases h with
  | intro _ hlength => exact hlength

end Function

/-- A class that corresponds to one with a superclass has one as well. -/
theorem Stmt.Sim.superclass {p q : S.Place} {s : Stmt σ.Mark} {name parent' : Name} {mark' : τ.Mark}
    {methods : List (Function τ.Mark)}
    (h : s.Sim S p (.classDecl name (some (parent', mark')) methods) q) :
    ∃ name parent mark methods, s = .classDecl name (some (parent, mark)) methods ∧
      S.Uses p .read parent.text parent'.text mark mark' := by
  cases h with
  | classDecl hname hd hp =>
    cases hp with
    | @some parent _ hp => exact ⟨_, parent.1, parent.2, _, rfl, hp.1⟩

/-- Stores with nothing in them but variables correspond, if the variables do. -/
theorem Store.sim_ofMemory {memory : σ.Memory} {memory' : τ.Memory}
    (h : S.Memories w memory memory') : (Store.ofMemory memory).Sim S w (.ofMemory memory') :=
  ⟨h, rfl, rfl, rfl, rfl, fun _ => Closure.sim_default w, rfl, fun _ => ⟨rfl, rfl, fun _ => .none⟩⟩

namespace Store.Sim

/-- Two stores that correspond have the same classes in the line of a class. -/
theorem line (h : s.Sim S w t) (c : Ref .cls) : s.line c = t.line c :=
  congrArg (c :: ·) (h.classes c).ancestors

theorem method? (h : s.Sim S w t) (c : Ref .cls) (x : String) :
    Option.Rel (Closure.SimMethod S w) (s.method? c x) (t.method? c x) := by
  rw [Store.method?, Store.method?, h.line]
  generalize t.line c = line
  induction line with
  | nil => exact .none
  | cons c line ih =>
    rw [List.findSome?_cons, List.findSome?_cons]
    obtain ⟨hx, hx'⟩ | ⟨f, f', hx, hx', hf⟩ := rel_cases ((h.classes c).methods x)
    · rw [hx, hx']
      exact ih
    · rw [hx, hx']
      exact .some hf

theorem arity? (h : s.Sim S w t) (v : Value) : s.arity? v = t.arity? v := by
  cases v with
  | function r =>
    obtain ⟨p, hdecl, -⟩ := (h.functions r).code
    exact congrArg some hdecl.length_params
  | cls r =>
    obtain ⟨hx, hx'⟩ | ⟨f, f', hx, hx', hf⟩ := rel_cases (h.method? r initializerName)
    · simp only [Store.arity?, hx, hx']
      rfl
    · obtain ⟨p, q, -, -, hdecl⟩ := hf.code
      simp only [Store.arity?, hx, hx', Option.map_some, Option.getD_some, hdecl.length_params]
  | _ => rfl

theorem alike (h : s.Sim S w t) : s.Alike t where
  lists := h.lists
  maps := h.maps
  objects := h.objects
  functionName r := by
    obtain ⟨p, hdecl, -⟩ := (h.functions r).code
    exact hdecl.name_text
  className r := (h.classes r).name
  arity := h.arity?

theorem withMemory (h : s.Sim S w t) (hw : S.Grows o w w₁) {memory : σ.Memory}
    {memory' : τ.Memory} (hmemory : S.Memories w₁ memory memory') :
    Store.Sim S w₁ { s with memory := memory } { t with memory := memory' } :=
  ⟨hmemory, h.lists, h.maps, h.objects, h.functionCount, fun r => (h.functions r).mono hw,
    h.classCount, fun r => (h.classes r).mono hw⟩

theorem newFunction (h : s.Sim S w t) {f : Closure σ} {f' : Closure τ} (hf : f.Sim S w f') :
    (s.newFunction f).1 = (t.newFunction f').1 ∧
      (s.newFunction f).2.Sim S w (t.newFunction f').2 := by
  refine ⟨?_, h.memory, h.lists, h.maps, h.objects, ?_, fun r => ?_, h.classCount, h.classes⟩
  · simp only [Store.newFunction, Arena.alloc, h.functionCount]
  · simp only [Store.newFunction, Arena.alloc, Array.size_push, h.functionCount]
  · simp only [Store.newFunction, Arena.get_alloc, h.functionCount]
    split
    · exact hf
    · exact h.functions r

theorem newClass (h : s.Sim S w t) {c : Class σ} {c' : Class τ} (hc : c.Sim S w c') :
    (s.newClass c).1 = (t.newClass c').1 ∧ (s.newClass c).2.Sim S w (t.newClass c').2 := by
  refine ⟨?_, h.memory, h.lists, h.maps, h.objects, h.functionCount, h.functions, ?_, fun r => ?_⟩
  · simp only [Store.newClass, Arena.alloc, h.classCount]
  · simp only [Store.newClass, Arena.alloc, Array.size_push, h.classCount]
  · simp only [Store.newClass, Arena.get_alloc, h.classCount]
    split
    · exact hc
    · exact h.classes r

theorem newObject (h : s.Sim S w t) (c : Ref .cls) :
    (s.newObject c).1 = (t.newObject c).1 ∧ (s.newObject c).2.Sim S w (t.newObject c).2 :=
  ⟨by rw [Store.newObject, h.objects]; rfl,
    { h with objects := by rw [Store.newObject, h.objects]; rfl }⟩

/-- A scope is opened in both runs. -/
theorem enter (h : s.Sim S w t) {p q : S.Place} {scope : σ.Scope} {scope' : τ.Scope}
    {xs ys : List String} (values : List Value) (hscope : S.Scopes w p scope scope')
    (he : S.Enters p xs ys q) (hx : values.length = xs.length) (hy : values.length = ys.length) :
    ∃ w₁ o, S.Grows none w w₁ ∧
      (s.enter scope (xs.zip values)).2.Sim S w₁ (t.enter scope' (ys.zip values)).2 ∧
      S.Current w₁ q o (s.enter scope (xs.zip values)).1 (t.enter scope' (ys.zip values)).1 ∧
      ∀ w₂, S.Grows (some o) w₁ w₂ → S.Grows none w w₂ := by
  obtain ⟨w₁, o, hw, hmemory, hcurrent, hback⟩ := S.enter h.memory hscope he hx hy
  exact ⟨w₁, o, hw, h.withMemory hw hmemory, hcurrent, hback⟩

/-- A method is bound to an object in both runs. -/
theorem bindMethod (h : s.Sim S w t) {f : Closure σ} {f' : Closure τ} (hf : f.SimMethod S w f')
    (object : Value) :
    ∃ w₁, S.Grows none w w₁ ∧ (s.bindMethod f object).1.Sim S w₁ (t.bindMethod f' object).1 ∧
      (s.bindMethod f object).2.Sim S w₁ (t.bindMethod f' object).2 := by
  obtain ⟨p, q, hscope, henters, hdecl⟩ := hf.code
  obtain ⟨w₁, o, hw, hstore, hcurrent, -⟩ :=
    h.enter [object] hscope henters rfl rfl
  exact ⟨w₁, hw, ⟨hf.isInitializer, q, hdecl, S.scopes_of_current hcurrent,
    fun _ => S.hasReceiver henters⟩, hstore⟩

end Store.Sim

namespace Machine.Sim

theorem alike (h : m.Sim S w n) : m.Alike n :=
  ⟨h.store.alike, h.calls, h.effects, h.input, h.clock⟩

theorem withStore (h : m.Sim S w n) (hs : s.Sim S w₁ t) :
    Machine.Sim S w₁ { m with store := s } { n with store := t } :=
  ⟨hs, h.calls, h.effects, h.input, h.clock⟩

/-- What is done to values leaves machines that correspond. -/
theorem stay (h : m.Sim S w n) (hs : m.Stay n m' n') : m'.Sim S w n' := by
  refine ⟨⟨?_, hs.alike.store.lists, hs.alike.store.maps, hs.alike.store.objects, ?_, ?_, ?_, ?_⟩,
    hs.alike.calls, hs.alike.effects, hs.alike.input, hs.alike.clock⟩
  · rw [hs.left.memory, hs.right.memory]
    exact h.store.memory
  · rw [hs.left.functions, hs.right.functions]
    exact h.store.functionCount
  · rw [hs.left.functions, hs.right.functions]
    exact h.store.functions
  · rw [hs.left.classes, hs.right.classes]
    exact h.store.classCount
  · rw [hs.left.classes, hs.right.classes]
    exact h.store.classes

end Machine.Sim

end LoxLang
