import LoxLang.Binding.Program
import LoxLang.Proofs.Grammar
import LoxLang.Scoping.Frames

/-!
# Bound trees

What it means for a tree to be bound amid given scopes, said of the bound tree alone
(`Stmt.BoundAt`): every use has the mark that is right for its place, declarations come in order,
and, if nothing was reported about the program, no scope declares a name twice, no class is its own
superclass, `this` and `super` stand where they are known, and jumps stand in loops and functions.
Binding a program that is proper gives such a tree (`Program.boundAt_resolveWith`).

A `Marking` is a kind of marks. All of them tell the hops of a use; the marks of a kind may also
tell which program a use is in and which scopes were around it when it was bound.
-/

namespace LoxLang

/-- A kind of marks, for programs that are told apart by `ι`. -/
structure Marking (ι : Type) where
  Mark : Type
  /-- The mark of a use in a program, amid scopes, that is bound to the given hops. -/
  make : ι → Scopes → Hops → Mark
  hops : Mark → Hops
  hops_make : ∀ source scopes h, hops (make source scopes h) = h

namespace Marking

variable {ι : Type}

/-- Marks that tell nothing but the hops. -/
def plain : Marking ι := ⟨Hops, fun _ _ h => h, id, fun _ _ _ => rfl⟩

/-- Marks that tell all there is: the program, the scopes and the hops. -/
def full : Marking ι := ⟨ι × Scopes × Hops, fun i scopes h => (i, scopes, h), (·.2.2),
  fun _ _ _ => rfl⟩

/-- Variables in frames, found by such marks. -/
abbrev scoping (M : Marking ι) : Scoping := .frames M.hops

end Marking

namespace Bound

variable {α β : Type} (x : Bound α) (f : α → Bound β)

@[simp]
theorem result_pure (a : α) : (pure a : Bound α).result = a := rfl

@[simp]
theorem result_bind : (x >>= f).result = (f x.result).result := rfl

@[simp]
theorem diagnostics_pure (a : α) : (pure a : Bound α).diagnostics = [] := rfl

@[simp]
theorem diagnostics_bind :
    (x >>= f).diagnostics = x.diagnostics ++ (f x.result).diagnostics := rfl

theorem diagnostics_reportIf_eq_nil {wrong : Bool} {place : Token} {error : StaticError} :
    (reportIf wrong place error).diagnostics = [] ↔ wrong = false := by
  cases wrong <;> simp [reportIf]

/-- What holds of reports, one after the other, holds of all of them together. -/
structure Additive (D : List Diagnostic → List Diagnostic → Prop) : Prop where
  nil : D [] []
  append : ∀ {ds ds' es es'}, D ds ds' → D es es' → D (ds ++ es) (ds' ++ es')

/-- The second result is made from the first one by `f`, and `D` holds of what is reported. -/
def Maps (D : List Diagnostic → List Diagnostic → Prop) (f : α → β) (u : Bound α) (v : Bound β) :
    Prop :=
  v.result = f u.result ∧ D u.diagnostics v.diagnostics

section

variable {D : List Diagnostic → List Diagnostic → Prop} {γ δ : Type} {g : α → β} {h : γ → δ}

theorem Additive.pure (hD : Additive D) {a : α} {b : β} (hb : b = g a) :
    (Pure.pure a : Bound α).Maps D g (Pure.pure b) :=
  ⟨hb, hD.nil⟩

theorem Additive.bind (hD : Additive D) {u : Bound α} {v : Bound β} {k : α → Bound γ}
    {k' : β → Bound δ} (huv : u.Maps D g v) (hk : ∀ a, (k a).Maps D h (k' (g a))) :
    (u >>= k).Maps D h (v >>= k') := by
  obtain ⟨hresult, hreports⟩ := huv
  obtain ⟨hresult', hreports'⟩ := hk u.result
  rw [← hresult] at hresult' hreports'
  exact ⟨hresult', hD.append hreports hreports'⟩

end

end Bound

/-! ### Scopes -/

namespace Scopes

/-- The scopes after a statement: what it declares can be used from then on. -/
def after {β : Type} (scopes : Scopes) (s : Stmt β) : Scopes :=
  match s.declared? with
  | none => scopes
  | some name => scopes.set name.text true

theorem after_of_declares_nothing {β : Type} (scopes : Scopes) {s : Stmt β}
    (h : s.declared? = none) : scopes.after s = scopes := by
  rw [after, h]

@[simp]
theorem length_set (scopes : Scopes) (x : String) (b : Bool) :
    (scopes.set x b).length = scopes.length := by
  cases scopes <;> rfl

@[simp]
theorem set_set (scopes : Scopes) (x : String) (a b : Bool) :
    (scopes.set x a).set x b = scopes.set x b := by
  cases scopes with
  | nil => rfl
  | cons scope outer => simp [set]

theorem hops?_set_of_ne (scopes : Scopes) {x y : String} (b : Bool) (h : y ≠ x) :
    (scopes.set x b).hops? y = scopes.hops? y := by
  cases scopes with
  | nil => rfl
  | cons scope outer =>
    simp only [set, hops?, List.findIdx?_cons, Table.get?_insert_of_ne scope b h]

/-- A name that is not there yet, and cannot be used yet, changes nothing. -/
theorem hops?_set_false (scopes : Scopes) {x : String} (h : scopes.declares x = false)
    (y : String) : (scopes.set x false).hops? y = scopes.hops? y := by
  by_cases hyx : y = x
  · subst hyx
    cases scopes with
    | nil => rfl
    | cons scope outer =>
      have hnone : scope.get? y = none := by
        simpa [declares, Table.contains_eq_isSome] using h
      simp only [set, hops?, List.findIdx?_cons, Table.get?_insert_self, hnone]
      rfl
  · exact scopes.hops?_set_of_ne false hyx

theorem get?_enter_iff {names : List String} {x : String} :
    (Table.ofList (names.map fun name => (name, true))).get? x = some true ↔ x ∈ names := by
  have hc := Table.contains_ofList (names.map fun name => (name, true)) x
  rw [Table.contains_eq_isSome, List.map_map] at hc
  simp only [Function.comp_def, List.map_id_fun', id_eq] at hc
  have hv : ∀ k v, (Table.ofList (names.map fun name => (name, true))).get? k = some v →
      v = true := Table.forall_get?_ofList (P := fun _ v => v = true) (by simp)
  cases hg : (Table.ofList (names.map fun name => (name, true))).get? x with
  | none => simpa [hg] using hc
  | some b =>
    rw [hv x b hg]
    simpa [hg] using hc

theorem hops?_enter_of_mem (scopes : Scopes) {names : List String} {x : String} (h : x ∈ names) :
    (scopes.enter names).hops? x = some 0 := by
  simp [enter, hops?, List.findIdx?_cons, get?_enter_iff, h]

theorem hops?_enter_of_not_mem (scopes : Scopes) {names : List String} {x : String}
    (h : x ∉ names) : (scopes.enter names).hops? x = (scopes.hops? x).map (· + 1) := by
  simp [enter, hops?, List.findIdx?_cons, get?_enter_iff, h]

theorem result_declareUsable (scopes : Scopes) (name : Name) :
    (scopes.declareUsable name).result = scopes.set name.text true :=
  scopes.set_set name.text false true

theorem result_declareAll (scope : Scope) (outer : Scopes) (names : List Name) :
    (declareAll (scope :: outer) names).result =
      ((names.map fun n => (n.text, true)).foldl (fun t e => t.insert e.1 e.2) scope) :: outer := by
  induction names generalizing scope with
  | nil => rfl
  | cons name names ih =>
    have hname := result_declareUsable (scope :: outer) name
    calc (declareAll (scope :: outer) (name :: names)).result
        = (declareAll (declareUsable (scope :: outer) name).result names).result := rfl
      _ = (declareAll (scope.insert name.text true :: outer) names).result := by rw [hname]; rfl
      _ = _ := ih _

/-- The scopes in which the body of a function is bound. -/
theorem result_declareAll_enter (scopes : Scopes) (names : List Name) :
    ((scopes.enter []).declareAll names).result = scopes.enter (names.map Name.text) := by
  rw [enter, result_declareAll, enter, List.map_map]
  rfl

/-- Names that are declared without a report are all different, and were not there before. -/
theorem nodup_of_declareAll (scope : Scope) (outer : Scopes) (names : List Name)
    (h : (declareAll (scope :: outer) names).diagnostics = []) :
    (names.map Name.text).Nodup ∧ ∀ n ∈ names, scope.contains n.text = false := by
  induction names generalizing scope with
  | nil => simp
  | cons name names ih =>
    have hstep : declareAll (scope :: outer) (name :: names) =
        declareUsable (scope :: outer) name >>= fun scopes => scopes.declareAll names := rfl
    rw [hstep, Bound.diagnostics_bind, result_declareUsable, List.append_eq_nil_iff] at h
    obtain ⟨hname, hrest⟩ := h
    obtain ⟨hnodup, hfresh⟩ := ih (scope.insert name.text true) hrest
    have hnew : scope.contains name.text = false := by
      simp only [declareUsable, declare, Bound.diagnostics_bind, List.append_eq_nil_iff,
        Bound.diagnostics_reportIf_eq_nil] at hname
      exact hname.1.1
    refine ⟨List.nodup_cons.2 ⟨fun hmem => ?_, hnodup⟩, List.forall_mem_cons.2 ⟨hnew, ?_⟩⟩
    · obtain ⟨n, hn, htext⟩ := List.mem_map.1 hmem
      have := hfresh n hn
      rw [htext, Table.contains_insert_self] at this
      cases this
    · intro n hn
      have := hfresh n hn
      rw [Table.contains_insert, Bool.or_eq_false_iff] at this
      exact this.2

/-- A name is declared without a report only if the innermost scope does not have it. -/
theorem declares_eq_false_of_declare {scopes : Scopes} {name : Name}
    (h : (scopes.declare name).diagnostics = []) : scopes.declares name.text = false := by
  simp only [declare, Bound.diagnostics_bind, List.append_eq_nil_iff,
    Bound.diagnostics_reportIf_eq_nil] at h
  exact h.1

theorem declares_eq_false_of_declareUsable {scopes : Scopes} {name : Name}
    (h : (scopes.declareUsable name).diagnostics = []) : scopes.declares name.text = false := by
  simp only [declareUsable, Bound.diagnostics_bind, List.append_eq_nil_iff] at h
  exact declares_eq_false_of_declare h.1

@[simp]
theorem result_bindUse (scopes : Scopes) (use : Use) (name : String) (line : Int) :
    (scopes.bindUse use name line).result = scopes.hops? name := by
  unfold bindUse
  split <;> simp [*]

@[simp]
theorem diagnostics_bindUse (scopes : Scopes) (use : Use) (name : String) (line : Int) :
    (scopes.bindUse use name line).diagnostics = [] := by
  unfold bindUse
  split <;> rfl

end Scopes

/-! ### What it means to be bound -/

/-- A place in a program: the program, and what there is around the place. -/
structure Site (ι : Type) where
  source : ι
  scopes : Scopes
  /-- There is a loop, in the same function. -/
  inLoop : Bool
  inFunction : Bool

namespace Site

variable {ι : Type} (M : Marking ι) (clean : ι → Prop) (site : Site ι)

/-- The place of a program's own statements. -/
def top (source : ι) : Site ι := ⟨source, [], false, false⟩

/-- The place with the state of a name set in the innermost scope. -/
def set (name : String) (usable : Bool) : Site ι :=
  { site with scopes := site.scopes.set name usable }

/-- The place in another scope, with the given names. -/
def enter (names : List String) : Site ι := { site with scopes := site.scopes.enter names }

/-- The place in a loop. -/
def loop : Site ι := { site with inLoop := true }

/-- The place in a function with the given parameters. -/
def body (params : List String) : Site ι := ⟨site.source, site.scopes.enter params, false, true⟩

/-- The mark of a use of the name. -/
def mark (name : String) : M.Mark := M.make site.source site.scopes (site.scopes.hops? name)

/-- The mark is right for the use of the name at this place. -/
def Binds : Use → String → M.Mark → Prop
  | .read, name, mark => mark = site.mark M name
  | .assign, name, mark => mark = site.mark M name ∧ Keyword.ofText? name = none
  -- Outside of classes a use of `this` is reported, and not looked up.
  | .thisRef, name, mark =>
    (mark = site.mark M name ∨ mark = M.make site.source site.scopes none) ∧
      (clean site.source → mark = site.mark M name ∧ ∃ d, site.scopes.hops? name = some d)
  | .superRef, name, mark =>
    mark = site.mark M name ∧
      (clean site.source → ∃ d, site.scopes.hops? name = some (d + 1) ∧
        site.scopes.hops? Keyword.thisWord.text = some d)

/-- The place after a statement. -/
def after {β : Type} (s : Stmt β) : Site ι := { site with scopes := site.scopes.after s }

/-- If nothing was reported, the name is new in the innermost scope. -/
def Fresh (name : Name) : Prop := clean site.source → site.scopes.declares name.text = false

end Site

section

variable {ι : Type} (M : Marking ι) (clean : ι → Prop)

mutual

/-- The statement is bound at a place. -/
def Stmt.BoundAt (site : Site ι) : Stmt M.Mark → Prop
  | .expression value => value.Uses (site.Binds M clean)
  | .print value => value.Uses (site.Binds M clean)
  | .var name initializer =>
    name.Proper ∧ site.Fresh clean name ∧
      Expr.OptionUses ((site.set name.text false).Binds M clean) initializer
  | .block body => Stmt.AllBoundAt (site.enter []) body
  | .branch condition yes none =>
    condition.Uses (site.Binds M clean) ∧ yes.BoundAt site ∧ yes.declared? = none
  | .branch condition yes (some no) =>
    condition.Uses (site.Binds M clean) ∧ yes.BoundAt site ∧ yes.declared? = none ∧
      no.BoundAt site ∧ no.declared? = none
  | .whileLoop condition body =>
    condition.Uses (site.Binds M clean) ∧ body.BoundAt site.loop ∧ body.declared? = none
  | .doWhile body condition =>
    condition.Uses (site.Binds M clean) ∧ body.BoundAt site.loop ∧ body.declared? = none
  | .breakLoop _ => clean site.source → site.inLoop = true
  | .continueLoop _ => clean site.source → site.inLoop = true
  | .returnValue _ value =>
    (clean site.source → site.inFunction = true) ∧ Expr.OptionUses (site.Binds M clean) value
  | .function decl =>
    decl.name.Proper ∧ site.Fresh clean decl.name ∧ decl.BoundAt (site.set decl.name.text true)
  | .classDecl name none methods =>
    name.Proper ∧ site.Fresh clean name ∧
      Function.AllBoundAt ((site.set name.text true).enter [Keyword.thisWord.text]) methods
  | .classDecl name (some (parent, mark)) methods =>
    name.Proper ∧ site.Fresh clean name ∧
      mark = (site.set name.text true).mark M parent.text ∧
      (clean site.source → parent.text ≠ name.text) ∧
      Function.AllBoundAt (((site.set name.text true).enter [Keyword.superWord.text]).enter
        [Keyword.thisWord.text]) methods
  | .marker _ _ => True

/-- The statements are bound one after the other, each after what those before it declare. -/
def Stmt.AllBoundAt (site : Site ι) : List (Stmt M.Mark) → Prop
  | [] => True
  | s :: ss => s.BoundAt site ∧ Stmt.AllBoundAt (site.after s) ss

/-- The function is declared at a place. -/
def Function.BoundAt (site : Site ι) : Function M.Mark → Prop
  | ⟨_, params, body⟩ =>
    (∀ n ∈ params, n.Proper) ∧ (clean site.source → (params.map Name.text).Nodup) ∧
      Stmt.AllBoundAt (site.body (params.map Name.text)) body

/-- The functions are declared at a place. -/
def Function.AllBoundAt (site : Site ι) : List (Function M.Mark) → Prop
  | [] => True
  | f :: fs => f.BoundAt site ∧ Function.AllBoundAt site fs

end

theorem Function.boundAt_iff {site : Site ι} {f : Function M.Mark} :
    f.BoundAt M clean site ↔ (∀ n ∈ f.params, n.Proper) ∧
      (clean site.source → (f.params.map Name.text).Nodup) ∧
        Stmt.AllBoundAt M clean (site.body (f.params.map Name.text)) f.body := by
  cases f
  rfl

/-- Where there is a class around, `this` is known, and in a subclass `super` is known one scope
further out. -/
structure ClassScopes (classes : ClassContext) (scopes : Scopes) : Prop where
  this_known : classes ≠ .outside → ∃ d, scopes.hops? Keyword.thisWord.text = some d
  super_known : classes = .subclass → ∃ d, scopes.hops? Keyword.superWord.text = some (d + 1) ∧
    scopes.hops? Keyword.thisWord.text = some d

variable {M clean} {i : ι} {classes : ClassContext} {scopes : Scopes} {inLoop inFunction : Bool}

mutual

theorem Expr.uses_resolve (hc : ClassScopes classes scopes) {e : Expr Unit}
    (he : e.Uses Use.Proper)
    (hd : clean i → (e.resolve (M.make i) classes scopes).diagnostics = []) :
    (e.resolve (M.make i) classes scopes).result.Uses
      (Site.Binds M clean ⟨i, scopes, inLoop, inFunction⟩) := by
  cases e with
  | constant value => trivial
  | group inner =>
    simp only [Expr.resolve, Bound.diagnostics_bind, Bound.diagnostics_pure, List.append_nil] at hd
    exact uses_resolve (e := inner) hc he hd
  | unary op line operand =>
    simp only [Expr.resolve, Bound.diagnostics_bind, Bound.diagnostics_pure, List.append_nil] at hd
    exact uses_resolve (e := operand) hc he hd
  | binary left op line right =>
    simp only [Expr.resolve, Bound.diagnostics_bind, Bound.diagnostics_pure, List.append_nil,
      List.append_eq_nil_iff] at hd
    exact ⟨uses_resolve hc he.1 fun h => (hd h).1, uses_resolve hc he.2 fun h => (hd h).2⟩
  | logical left op line right =>
    simp only [Expr.resolve, Bound.diagnostics_bind, Bound.diagnostics_pure, List.append_nil,
      List.append_eq_nil_iff] at hd
    exact ⟨uses_resolve hc he.1 fun h => (hd h).1, uses_resolve hc he.2 fun h => (hd h).2⟩
  | var name mark => simp [Expr.resolve, Expr.Uses, Site.Binds, Site.mark]
  | assign name value mark =>
    simp only [Expr.resolve, Bound.diagnostics_bind, Bound.diagnostics_pure, List.append_nil,
      Scopes.diagnostics_bindUse] at hd
    have hvalue := uses_resolve hc he.2 hd
    simp only [Expr.resolve, Bound.result_bind, Bound.result_pure, Scopes.result_bindUse]
    exact ⟨⟨rfl, he.1⟩, hvalue⟩
  | call callee arguments line =>
    simp only [Expr.resolve, Bound.diagnostics_bind, Bound.diagnostics_pure, List.append_nil,
      List.append_eq_nil_iff] at hd
    exact ⟨uses_resolve hc he.1 fun h => (hd h).1, uses_resolveAll hc he.2 fun h => (hd h).2⟩
  | list elements line =>
    simp only [Expr.resolve, Bound.diagnostics_bind, Bound.diagnostics_pure, List.append_nil] at hd
    exact uses_resolveAll hc he hd
  | map entries line =>
    simp only [Expr.resolve, Bound.diagnostics_bind, Bound.diagnostics_pure, List.append_nil] at hd
    exact uses_resolveEntries hc he hd
  | index container position line =>
    simp only [Expr.resolve, Bound.diagnostics_bind, Bound.diagnostics_pure, List.append_nil,
      List.append_eq_nil_iff] at hd
    exact ⟨uses_resolve hc he.1 fun h => (hd h).1, uses_resolve hc he.2 fun h => (hd h).2⟩
  | setIndex container position value line =>
    simp only [Expr.resolve, Bound.diagnostics_bind, Bound.diagnostics_pure, List.append_nil,
      List.append_eq_nil_iff] at hd
    exact ⟨uses_resolve hc he.1 fun h => (hd h).1, uses_resolve hc he.2.1 fun h => (hd h).2.1,
      uses_resolve hc he.2.2 fun h => (hd h).2.2⟩
  | get object name =>
    simp only [Expr.resolve, Bound.diagnostics_bind, Bound.diagnostics_pure, List.append_nil] at hd
    exact uses_resolve (e := object) hc he hd
  | set object name value =>
    simp only [Expr.resolve, Bound.diagnostics_bind, Bound.diagnostics_pure, List.append_nil,
      List.append_eq_nil_iff] at hd
    exact ⟨uses_resolve hc he.1 fun h => (hd h).1, uses_resolve hc he.2 fun h => (hd h).2⟩
  | thisRef line mark =>
    by_cases ho : classes = .outside
    · have hr : ((Expr.thisRef line mark).resolve (M.make i) classes scopes).result =
          .thisRef line (M.make i scopes none) := by simp [Expr.resolve, ho]
      have hn : ¬ clean i := fun h => by simpa [Expr.resolve, ho, Bound.reportIf] using hd h
      rw [hr]
      exact ⟨.inr rfl, fun h => absurd h hn⟩
    · have hr : ((Expr.thisRef line mark).resolve (M.make i) classes scopes).result =
          .thisRef line (Site.mark M ⟨i, scopes, inLoop, inFunction⟩ Keyword.thisWord.text) := by
        simp [Expr.resolve, ho, Site.mark, Token.lexeme, Token.ofKeyword, Word.lexeme]
      rw [hr]
      exact ⟨.inl rfl, fun _ => ⟨rfl, hc.this_known ho⟩⟩
  | superRef line method mark =>
    have hr : ((Expr.superRef line method mark).resolve (M.make i) classes scopes).result =
        .superRef line method
          (Site.mark M ⟨i, scopes, inLoop, inFunction⟩ Keyword.superWord.text) := by
      simp [Expr.resolve, Site.mark, Token.lexeme, Token.ofKeyword, Word.lexeme]
    rw [hr]
    refine ⟨rfl, fun h => hc.super_known ?_⟩
    have hclass : classes ≠ .outside ∧ classes ≠ .rootClass := by
      simpa [Expr.resolve, Bound.diagnostics_reportIf_eq_nil] using hd h
    cases classes with
    | outside => exact absurd rfl hclass.1
    | rootClass => exact absurd rfl hclass.2
    | subclass => rfl

theorem Expr.uses_resolveAll (hc : ClassScopes classes scopes) {es : List (Expr Unit)}
    (he : Expr.AllUses Use.Proper es)
    (hd : clean i → (Expr.resolveAll (M.make i) classes scopes es).diagnostics = []) :
    Expr.AllUses (Site.Binds M clean ⟨i, scopes, inLoop, inFunction⟩)
      (Expr.resolveAll (M.make i) classes scopes es).result := by
  cases es with
  | nil => trivial
  | cons e es =>
    simp only [Expr.resolveAll, Bound.diagnostics_bind, Bound.diagnostics_pure, List.append_nil,
      List.append_eq_nil_iff] at hd
    exact ⟨uses_resolve hc he.1 fun h => (hd h).1, uses_resolveAll hc he.2 fun h => (hd h).2⟩

theorem Expr.uses_resolveEntries (hc : ClassScopes classes scopes)
    {entries : List (Expr Unit × Expr Unit)} (he : Expr.EntryUses Use.Proper entries)
    (hd : clean i → (Expr.resolveEntries (M.make i) classes scopes entries).diagnostics = []) :
    Expr.EntryUses (Site.Binds M clean ⟨i, scopes, inLoop, inFunction⟩)
      (Expr.resolveEntries (M.make i) classes scopes entries).result := by
  match entries with
  | [] => trivial
  | (key, value) :: entries =>
    simp only [Expr.resolveEntries, Bound.diagnostics_bind, Bound.diagnostics_pure,
      List.append_nil, List.append_eq_nil_iff] at hd
    exact ⟨uses_resolve hc he.1 fun h => (hd h).1, uses_resolve hc he.2.1 fun h => (hd h).2.1,
      uses_resolveEntries hc he.2.2 fun h => (hd h).2.2⟩

end

theorem Expr.optionUses_resolve (hc : ClassScopes classes scopes) {e : Option (Expr Unit)}
    (he : Expr.OptionUses Use.Proper e)
    (hd : clean i → (Expr.resolveOption (M.make i) classes scopes e).diagnostics = []) :
    Expr.OptionUses (Site.Binds M clean ⟨i, scopes, inLoop, inFunction⟩)
      (Expr.resolveOption (M.make i) classes scopes e).result := by
  cases e with
  | none => trivial
  | some e =>
    simp only [Expr.resolveOption, Bound.diagnostics_bind, Bound.diagnostics_pure,
      List.append_nil] at hd
    exact uses_resolve (e := e) hc he hd

/-! ### Binding statements -/

namespace ClassScopes

theorem outside : ClassScopes .outside scopes := ⟨fun h => absurd rfl h, nofun⟩

theorem set (hc : ClassScopes classes scopes) {name : Name} (hn : name.Proper) (b : Bool) :
    ClassScopes classes (scopes.set name.text b) := by
  have hne := Keyword.text_ne_of_ofText? hn
  constructor
  · rw [Scopes.hops?_set_of_ne _ _ (hne _)]
    exact hc.this_known
  · rw [Scopes.hops?_set_of_ne _ _ (hne _), Scopes.hops?_set_of_ne _ _ (hne _)]
    exact hc.super_known

theorem enter (hc : ClassScopes classes scopes) {names : List Name}
    (hn : ∀ n ∈ names, n.Proper) : ClassScopes classes (scopes.enter (names.map Name.text)) := by
  have hnew (k : Keyword) : k.text ∉ names.map Name.text := by
    intro hmem
    obtain ⟨n, hmem, htext⟩ := List.mem_map.1 hmem
    exact Keyword.text_ne_of_ofText? (hn n hmem) k htext.symm
  constructor
  · intro ho
    obtain ⟨d, hd⟩ := hc.this_known ho
    exact ⟨d + 1, by rw [Scopes.hops?_enter_of_not_mem _ (hnew _), hd]; rfl⟩
  · intro hs
    obtain ⟨d, hsuper, hthis⟩ := hc.super_known hs
    refine ⟨d + 1, ?_, ?_⟩
    · rw [Scopes.hops?_enter_of_not_mem _ (hnew _), hsuper]
      rfl
    · rw [Scopes.hops?_enter_of_not_mem _ (hnew _), hthis]
      rfl

theorem after (hc : ClassScopes classes scopes) {s : Stmt Unit} (hs : s.Proper) :
    ClassScopes classes (scopes.after s) := by
  unfold Scopes.after
  split
  · exact hc
  · exact hc.set (hs.declared ‹_›) true

/-- Around the methods of a class without a superclass. -/
theorem rootClass : ClassScopes .rootClass (scopes.enter [Keyword.thisWord.text]) :=
  ⟨fun _ => ⟨0, Scopes.hops?_enter_of_mem _ (by simp)⟩, nofun⟩

/-- Around the methods of a class with a superclass. -/
theorem subclass : ClassScopes .subclass
    ((scopes.enter [Keyword.superWord.text]).enter [Keyword.thisWord.text]) := by
  have hthis : ((scopes.enter [Keyword.superWord.text]).enter [Keyword.thisWord.text]).hops?
      Keyword.thisWord.text = some 0 := Scopes.hops?_enter_of_mem _ (by simp)
  have hsuper : ((scopes.enter [Keyword.superWord.text]).enter [Keyword.thisWord.text]).hops?
      Keyword.superWord.text = some 1 := by
    rw [Scopes.hops?_enter_of_not_mem _ (by decide), Scopes.hops?_enter_of_mem _ (by simp)]
    rfl
  exact ⟨fun _ => ⟨0, hthis⟩, fun _ => ⟨0, hsuper, hthis⟩⟩

end ClassScopes

section

variable {β : Type} {mark : Scopes → Hops → β} {context : Context}

theorem Function.name_resolve (f : Function Unit) :
    (f.resolve mark context scopes).result.name = f.name := by
  cases f
  rfl

theorem Stmt.declared?_resolve (s : Stmt Unit) :
    (s.resolve mark context scopes).result.1.declared? = s.declared? := by
  cases s with
  | branch condition yes no => cases no <;> rfl
  | function decl => exact congrArg some decl.name_resolve
  | _ => rfl

/-- The scopes that a statement leaves, if it is proper. -/
theorem Stmt.scopes_resolve {s : Stmt Unit} (hs : s.Proper) (context : Context) :
    (s.resolve mark context scopes).result.2 = scopes.after s := by
  cases s with
  | branch condition yes no =>
    cases no with
    | none => exact (scopes_resolve hs.2.1 context).trans (scopes.after_of_declares_nothing hs.2.2)
    | some no =>
      have hyes : (yes.resolve mark context scopes).result.2 = scopes :=
        (scopes_resolve hs.2.1 context).trans (scopes.after_of_declares_nothing hs.2.2.1)
      simp only [Stmt.resolve, Bound.result_bind, Bound.result_pure, hyes]
      exact (scopes_resolve hs.2.2.2.1 context).trans
        (scopes.after_of_declares_nothing hs.2.2.2.2)
  | whileLoop condition body =>
    exact (scopes_resolve hs.2.1 _).trans (scopes.after_of_declares_nothing hs.2.2)
  | doWhile body condition =>
    exact (scopes_resolve hs.2.1 _).trans (scopes.after_of_declares_nothing hs.2.2)
  | var name initializer => exact scopes.set_set name.text false true
  | function decl => exact scopes.result_declareUsable decl.name
  | classDecl name superclass methods => exact scopes.result_declareUsable name
  | _ => rfl

end

/-- The place that statements are bound at in a context. -/
def Context.site (context : Context) (i : ι) (scopes : Scopes) : Site ι :=
  ⟨i, scopes, context.inLoop, context.function ≠ .topLevel⟩

mutual

theorem Stmt.boundAt_resolve (context : Context) {scopes : Scopes}
    (hc : ClassScopes context.classes scopes) {s : Stmt Unit} (hs : s.Proper)
    (hd : clean i → (s.resolve (M.make i) context scopes).diagnostics = []) :
    (s.resolve (M.make i) context scopes).result.1.BoundAt M clean (context.site i scopes) := by
  match s with
  | .expression value =>
    simp only [Stmt.resolve, Bound.diagnostics_bind, Bound.diagnostics_pure, List.append_nil] at hd
    exact Expr.uses_resolve hc hs hd
  | .print value =>
    simp only [Stmt.resolve, Bound.diagnostics_bind, Bound.diagnostics_pure, List.append_nil] at hd
    exact Expr.uses_resolve hc hs hd
  | .var name initializer =>
    simp only [Stmt.resolve, Bound.diagnostics_bind, Bound.diagnostics_pure, List.append_nil,
      List.append_eq_nil_iff] at hd
    refine ⟨hs.1, fun h => Scopes.declares_eq_false_of_declare (hd h).1, ?_⟩
    exact Expr.optionUses_resolve (hc.set hs.1 false) hs.2 fun h => (hd h).2.2
  | .block body =>
    simp only [Stmt.resolve, Bound.diagnostics_bind, Bound.diagnostics_pure, List.append_nil] at hd
    exact Stmt.allBoundAt_resolve context (hc.enter (List.forall_mem_nil _)) hs hd
  | .branch condition yes none =>
    simp only [Stmt.resolve, Bound.diagnostics_bind, Bound.diagnostics_pure, List.append_nil,
      List.append_eq_nil_iff] at hd
    exact ⟨Expr.uses_resolve hc hs.1 fun h => (hd h).1,
      Stmt.boundAt_resolve context hc hs.2.1 fun h => (hd h).2,
      (Stmt.declared?_resolve yes).trans hs.2.2⟩
  | .branch condition yes (some no) =>
    -- The other branch is bound in the scopes that are left by the first, which are the same.
    have hyes : (yes.resolve (M.make i) context scopes).result.2 = scopes :=
      (Stmt.scopes_resolve hs.2.1 context).trans (scopes.after_of_declares_nothing hs.2.2.1)
    simp only [Stmt.resolve, Bound.diagnostics_bind, Bound.diagnostics_pure, List.append_nil,
      List.append_eq_nil_iff, hyes] at hd
    simp only [Stmt.resolve, Bound.result_bind, Bound.result_pure, hyes]
    exact ⟨Expr.uses_resolve hc hs.1 fun h => (hd h).1,
      Stmt.boundAt_resolve context hc hs.2.1 fun h => (hd h).2.1,
      (Stmt.declared?_resolve yes).trans hs.2.2.1,
      Stmt.boundAt_resolve context hc hs.2.2.2.1 fun h => (hd h).2.2,
      (Stmt.declared?_resolve no).trans hs.2.2.2.2⟩
  | .whileLoop condition body =>
    simp only [Stmt.resolve, Bound.diagnostics_bind, Bound.diagnostics_pure, List.append_nil,
      List.append_eq_nil_iff] at hd
    exact ⟨Expr.uses_resolve hc hs.1 fun h => (hd h).1,
      Stmt.boundAt_resolve { context with inLoop := true } hc hs.2.1 fun h => (hd h).2,
      (Stmt.declared?_resolve body).trans hs.2.2⟩
  | .doWhile body condition =>
    have hbody : (body.resolve (M.make i) { context with inLoop := true } scopes).result.2 =
        scopes :=
      (Stmt.scopes_resolve hs.2.1 _).trans (scopes.after_of_declares_nothing hs.2.2)
    simp only [Stmt.resolve, Bound.diagnostics_bind, Bound.diagnostics_pure, List.append_nil,
      List.append_eq_nil_iff, hbody] at hd
    simp only [Stmt.resolve, Bound.result_bind, Bound.result_pure, hbody]
    exact ⟨Expr.uses_resolve hc hs.1 fun h => (hd h).2,
      Stmt.boundAt_resolve { context with inLoop := true } hc hs.2.1 fun h => (hd h).1,
      (Stmt.declared?_resolve body).trans hs.2.2⟩
  | .breakLoop line =>
    simp only [Stmt.resolve, Bound.diagnostics_bind, Bound.diagnostics_pure, List.append_nil,
      Bound.diagnostics_reportIf_eq_nil, Bool.not_eq_false'] at hd
    exact hd
  | .continueLoop line =>
    simp only [Stmt.resolve, Bound.diagnostics_bind, Bound.diagnostics_pure, List.append_nil,
      Bound.diagnostics_reportIf_eq_nil, Bool.not_eq_false'] at hd
    exact hd
  | .returnValue line value =>
    simp only [Stmt.resolve, Bound.diagnostics_bind, Bound.diagnostics_pure, List.append_nil,
      List.append_eq_nil_iff, Bound.diagnostics_reportIf_eq_nil, decide_eq_false_iff_not] at hd
    exact ⟨fun h => decide_eq_true (hd h).1,
      Expr.optionUses_resolve hc hs fun h => (hd h).2.2⟩
  | .function decl =>
    simp only [Stmt.resolve, Bound.diagnostics_bind, Bound.diagnostics_pure, List.append_nil,
      List.append_eq_nil_iff, Scopes.result_declareUsable] at hd
    simp only [Stmt.resolve, Bound.result_bind, Bound.result_pure, Scopes.result_declareUsable]
    have hname : decl.name.Proper := Function.Proper.name hs
    refine ⟨?_, fun h => ?_, ?_⟩
    · rw [Function.name_resolve]
      exact hname
    · rw [Function.name_resolve]
      exact Scopes.declares_eq_false_of_declareUsable (hd h).1
    · rw [Function.name_resolve]
      exact Function.boundAt_resolve { context with function := .function } nofun
        (hc.set hname true) hs fun h => (hd h).2
  | .classDecl name none methods =>
    simp only [Stmt.resolve, resolveSuperclass, Bound.diagnostics_bind, Bound.diagnostics_pure,
      Bound.result_pure, List.append_nil, List.nil_append, List.append_eq_nil_iff,
      Scopes.result_declareUsable, Option.isSome_none, Bool.false_eq_true, if_false] at hd
    simp only [Stmt.resolve, resolveSuperclass, Bound.result_bind, Bound.result_pure,
      Scopes.result_declareUsable, Option.isSome_none, Bool.false_eq_true, if_false]
    exact ⟨hs.1, fun h => Scopes.declares_eq_false_of_declareUsable (hd h).1,
      Function.allBoundAt_resolve _ ClassScopes.rootClass hs.2 fun h => (hd h).2⟩
  | .classDecl name (some (parent, ())) methods =>
    simp only [Stmt.resolve, resolveSuperclass, Bound.diagnostics_bind, Bound.diagnostics_pure,
      Bound.result_bind, Bound.result_pure, List.append_nil, List.append_eq_nil_iff,
      Scopes.result_declareUsable, Option.isSome_some, if_true, Scopes.result_bindUse,
      Bound.diagnostics_reportIf_eq_nil, decide_eq_false_iff_not] at hd
    simp only [Stmt.resolve, resolveSuperclass, Bound.result_bind, Bound.result_pure,
      Scopes.result_declareUsable, Option.isSome_some, if_true, Scopes.result_bindUse]
    exact ⟨hs.1, fun h => Scopes.declares_eq_false_of_declareUsable (hd h).1, rfl,
      fun h => (hd h).2.1.1,
      Function.allBoundAt_resolve _ ClassScopes.subclass hs.2 fun h => (hd h).2.2⟩
  | .marker line m => trivial

theorem Stmt.allBoundAt_resolve (context : Context) {scopes : Scopes}
    (hc : ClassScopes context.classes scopes) {ss : List (Stmt Unit)} (hs : Stmt.AllProper ss)
    (hd : clean i → (Stmt.resolveAll (M.make i) context scopes ss).diagnostics = []) :
    Stmt.AllBoundAt M clean (context.site i scopes)
      (Stmt.resolveAll (M.make i) context scopes ss).result.1 := by
  match ss with
  | [] => trivial
  | s :: ss =>
    have hscopes : (s.resolve (M.make i) context scopes).result.2 = scopes.after s :=
      Stmt.scopes_resolve hs.1 context
    simp only [Stmt.resolveAll, Bound.diagnostics_bind, Bound.diagnostics_pure, List.append_nil,
      List.append_eq_nil_iff, hscopes] at hd
    simp only [Stmt.resolveAll, Bound.result_bind, Bound.result_pure, hscopes]
    refine ⟨Stmt.boundAt_resolve context hc hs.1 fun h => (hd h).1, ?_⟩
    have hafter : (context.site i scopes).after (s.resolve (M.make i) context scopes).result.1 =
        context.site i (scopes.after s) := by
      rw [Site.after, Scopes.after, Stmt.declared?_resolve]
      rfl
    rw [hafter]
    exact Stmt.allBoundAt_resolve context (hc.after hs.1) hs.2 fun h => (hd h).2

theorem Function.boundAt_resolve (context : Context) (hfunction : context.function ≠ .topLevel)
    {scopes : Scopes} {inLoop inFunction : Bool} (hc : ClassScopes context.classes scopes)
    {f : Function Unit} (hf : f.Proper)
    (hd : clean i → (f.resolve (M.make i) context scopes).diagnostics = []) :
    (f.resolve (M.make i) context scopes).result.BoundAt M clean
      ⟨i, scopes, inLoop, inFunction⟩ := by
  match f with
  | ⟨name, params, body⟩ =>
    simp only [Function.resolve, Bound.diagnostics_bind, Bound.diagnostics_pure, List.append_nil,
      List.append_eq_nil_iff, Scopes.result_declareAll_enter] at hd
    simp only [Function.resolve, Bound.result_bind, Bound.result_pure,
      Scopes.result_declareAll_enter]
    have hbody := Stmt.allBoundAt_resolve { context with inLoop := false } (hc.enter hf.2.1) hf.2.2
      fun h => (hd h).2
    -- A loop around the function is none for the body.
    rw [Context.site, decide_eq_true hfunction] at hbody
    exact ⟨hf.2.1, fun h => (Scopes.nodup_of_declareAll _ _ _ (hd h).1).1, hbody⟩

theorem Function.allBoundAt_resolve (context : Context) {scopes : Scopes}
    {inLoop inFunction : Bool} (hc : ClassScopes context.classes scopes) {fs : List (Function Unit)}
    (hf : Function.AllProper fs)
    (hd : clean i → (Function.resolveMethods (M.make i) context scopes fs).diagnostics = []) :
    Function.AllBoundAt M clean ⟨i, scopes, inLoop, inFunction⟩
      (Function.resolveMethods (M.make i) context scopes fs).result := by
  match fs with
  | [] => trivial
  | f :: fs =>
    simp only [Function.resolveMethods, Bound.diagnostics_bind, Bound.diagnostics_pure,
      List.append_nil, List.append_eq_nil_iff] at hd
    let kind : FunctionContext := if f.name.text = initializerName then .initializer else .method
    have hkind : kind ≠ .topLevel := by
      unfold kind
      split <;> nofun
    exact ⟨Function.boundAt_resolve { context with function := kind } hkind hc hf.1
      fun h => (hd h).1, Function.allBoundAt_resolve context hc hf.2 fun h => (hd h).2⟩

end

/-- **Binding a proper program** gives a bound one. -/
theorem Program.boundAt_resolveWith {program : Program Unit} (hp : Stmt.AllProper program)
    (hd : clean i → (Program.resolveWith (M.make i) program).diagnostics = []) :
    Stmt.AllBoundAt M clean (.top i) (Program.resolveWith (M.make i) program).result := by
  simp only [Program.resolveWith, Bound.diagnostics_bind, Bound.diagnostics_pure,
    List.append_nil] at hd
  exact Stmt.allBoundAt_resolve .program ClassScopes.outside hp hd

end

end LoxLang
