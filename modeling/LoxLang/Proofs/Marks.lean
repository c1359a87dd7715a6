import LoxLang.Binding.Program
import LoxLang.Proofs.Binding
import LoxLang.Proofs.Lines
import LoxLang.Tree.Marks

/-!
# Binding changes only the marks

Without its marks, a bound program is the one that was bound (`Program.forget_resolveWith`). And
neither the marks nor the lines matter to binding: a program on other lines that is bound with other
marks becomes the same tree, but for its lines and marks, and the same is reported about it
(`Program.relines_resolveWith`).
-/

namespace LoxLang

section

variable {β : Type} {mark : Scopes → Hops → β} {classes : ClassContext} {scopes : Scopes}

/-! ### Without marks -/

mutual

theorem Expr.forget_resolve (e : Expr Unit) :
    (e.resolve mark classes scopes).result.mapMarks (fun _ => ()) = e := by
  match e with
  | .constant value => rfl
  | .group inner => exact congrArg Expr.group inner.forget_resolve
  | .unary op line operand => exact congrArg (Expr.unary op line) operand.forget_resolve
  | .binary left op line right =>
    simp [Expr.resolve, Expr.mapMarks, left.forget_resolve, right.forget_resolve]
  | .logical left op line right =>
    simp [Expr.resolve, Expr.mapMarks, left.forget_resolve, right.forget_resolve]
  | .var name () => rfl
  | .assign name value () => simp [Expr.resolve, Expr.mapMarks, value.forget_resolve]
  | .call callee arguments line =>
    simp [Expr.resolve, Expr.mapMarks, callee.forget_resolve, Expr.forget_resolveAll arguments]
  | .list elements line =>
    simp [Expr.resolve, Expr.mapMarks, Expr.forget_resolveAll elements]
  | .map entries line =>
    simp [Expr.resolve, Expr.mapMarks, Expr.forget_resolveEntries entries]
  | .index container position line =>
    simp [Expr.resolve, Expr.mapMarks, container.forget_resolve, position.forget_resolve]
  | .setIndex container position value line =>
    simp [Expr.resolve, Expr.mapMarks, container.forget_resolve, position.forget_resolve,
      value.forget_resolve]
  | .get object name => simp [Expr.resolve, Expr.mapMarks, object.forget_resolve]
  | .set object name value =>
    simp [Expr.resolve, Expr.mapMarks, object.forget_resolve, value.forget_resolve]
  | .thisRef line () =>
    by_cases ho : classes = .outside <;> simp [Expr.resolve, Expr.mapMarks, ho]
  | .superRef line method () => rfl

theorem Expr.forget_resolveAll (es : List (Expr Unit)) :
    Expr.mapAllMarks (fun _ => ()) (Expr.resolveAll mark classes scopes es).result = es := by
  match es with
  | [] => rfl
  | e :: es => simp [Expr.resolveAll, Expr.mapAllMarks, e.forget_resolve, forget_resolveAll es]

theorem Expr.forget_resolveEntries (entries : List (Expr Unit × Expr Unit)) :
    Expr.mapEntryMarks (fun _ => ()) (Expr.resolveEntries mark classes scopes entries).result =
      entries := by
  match entries with
  | [] => rfl
  | (key, value) :: entries =>
    simp [Expr.resolveEntries, Expr.mapEntryMarks, key.forget_resolve, value.forget_resolve,
      forget_resolveEntries entries]

end

theorem Expr.forget_resolveOption (e : Option (Expr Unit)) :
    (Expr.resolveOption mark classes scopes e).result.map (Expr.mapMarks fun _ => ()) = e := by
  cases e with
  | none => rfl
  | some e => exact congrArg some e.forget_resolve

theorem Marker.forget_resolve (m : Marker Unit) :
    (m.resolve mark classes scopes).result.mapMarks (fun _ => ()) = m := by
  match m with
  | .set name value => simp [Marker.resolve, Marker.mapMarks, value.forget_resolve]
  | .build root () path arguments =>
    simp [Marker.resolve, Marker.mapMarks, Expr.forget_resolveAll arguments]
  | .walk operand => simp [Marker.resolve, Marker.mapMarks, operand.forget_resolve]
  | .check operand => simp [Marker.resolve, Marker.mapMarks, operand.forget_resolve]
  | .thru operand => simp [Marker.resolve, Marker.mapMarks, operand.forget_resolve]
  | .otherwise => rfl

theorem forget_resolveSuperclass (name : Name) (superclass : Option (Name × Unit)) :
    (resolveSuperclass mark scopes name superclass).result.map (fun p => (p.1, ())) =
      superclass := by
  match superclass with
  | none => rfl
  | some (parent, ()) => rfl

mutual

theorem Stmt.forget_resolve (context : Context) (scopes : Scopes) (s : Stmt Unit) :
    (s.resolve mark context scopes).result.1.mapMarks (fun _ => ()) = s := by
  match s with
  | .expression value => simp [Stmt.resolve, Stmt.mapMarks, value.forget_resolve]
  | .print value => simp [Stmt.resolve, Stmt.mapMarks, value.forget_resolve]
  | .var name initializer =>
    simp [Stmt.resolve, Stmt.mapMarks, Expr.forget_resolveOption initializer]
  | .block body => simp [Stmt.resolve, Stmt.mapMarks, Stmt.forget_resolveAll]
  | .branch condition yes none =>
    simp [Stmt.resolve, Stmt.mapMarks, condition.forget_resolve, yes.forget_resolve]
  | .branch condition yes (some no) =>
    simp [Stmt.resolve, Stmt.mapMarks, condition.forget_resolve, yes.forget_resolve,
      no.forget_resolve]
  | .whileLoop condition body =>
    simp [Stmt.resolve, Stmt.mapMarks, condition.forget_resolve, body.forget_resolve]
  | .doWhile body condition =>
    simp [Stmt.resolve, Stmt.mapMarks, condition.forget_resolve, body.forget_resolve]
  | .breakLoop line => rfl
  | .continueLoop line => rfl
  | .returnValue line value =>
    simp [Stmt.resolve, Stmt.mapMarks, Expr.forget_resolveOption value]
  | .function decl => simp [Stmt.resolve, Stmt.mapMarks, decl.forget_resolve]
  | .classDecl name superclass methods =>
    simp [Stmt.resolve, Stmt.mapMarks, forget_resolveSuperclass, Function.forget_resolveMethods]
  | .marker line m => simp [Stmt.resolve, Stmt.mapMarks, m.forget_resolve]

theorem Stmt.forget_resolveAll (context : Context) (scopes : Scopes) (ss : List (Stmt Unit)) :
    Stmt.mapAllMarks (fun _ => ()) (Stmt.resolveAll mark context scopes ss).result.1 = ss := by
  match ss with
  | [] => rfl
  | s :: ss =>
    simp [Stmt.resolveAll, Stmt.mapAllMarks, s.forget_resolve, Stmt.forget_resolveAll]

theorem Function.forget_resolve (context : Context) (scopes : Scopes) (f : Function Unit) :
    (f.resolve mark context scopes).result.mapMarks (fun _ => ()) = f := by
  match f with
  | ⟨name, params, body⟩ =>
    simp [Function.resolve, Function.mapMarks, Stmt.forget_resolveAll]

theorem Function.forget_resolveMethods (context : Context) (scopes : Scopes)
    (fs : List (Function Unit)) :
    Function.mapAllMarks (fun _ => ()) (Function.resolveMethods mark context scopes fs).result =
      fs := by
  match fs with
  | [] => rfl
  | f :: fs =>
    simp [Function.resolveMethods, Function.mapAllMarks, f.forget_resolve,
      Function.forget_resolveMethods]

end

/-- **Binding changes only the marks**: without them, the bound program is the one that was
bound. -/
theorem Program.forget_resolveWith (program : Program Unit) :
    Program.mapMarks (fun _ => ()) (Program.resolveWith mark program).result = program :=
  Stmt.forget_resolveAll .program [] program

end

section

variable (g : Int → Int)

/-! ### With other marks, on other lines -/

theorem Expr.ungrouped_mapLines (e : Expr Unit) :
    (e.mapLines g).ungrouped = e.ungrouped.mapLines g := by
  fun_induction ungrouped e with
  | case1 inner ih => simpa only [mapLines, ungrouped] using ih
  | case2 e h => cases e <;> simp_all [mapLines, ungrouped]

@[simp] theorem Expr.isUseOf_mapLines (e : Expr Unit) (name : String) :
    (e.mapLines g).isUseOf name = e.isUseOf name := by
  unfold isUseOf
  rw [ungrouped_mapLines]
  cases e.ungrouped <;> rfl

/-- The second result is made from the first one by `h`, and the reports are on the lines that `g`
gives. -/
abbrev Bound.Relines {α δ : Type} (h : α → δ) (u : Bound α) (v : Bound δ) : Prop :=
  u.Maps (fun ds ds' => ds' = ds.map (Diagnostic.mapLine g)) h v

theorem additive_mapLine :
    Bound.Additive fun ds ds' => ds' = ds.map (Diagnostic.mapLine g) where
  nil := rfl
  append h h' := by rw [h, h', List.map_append]

theorem Bound.relines_reportIf (wrong : Bool) (place : Token) (error : StaticError) :
    (reportIf wrong place error).Relines g id (reportIf wrong (place.mapLine g) error) := by
  cases wrong <;> exact ⟨rfl, rfl⟩

theorem Scopes.relines_bindUse (scopes : Scopes) (use : Use) (name : String) (line : Int) :
    (scopes.bindUse use name line).Relines g id (scopes.bindUse use name (g line)) := by
  unfold bindUse
  cases scopes.hops? name <;> exact ⟨rfl, rfl⟩

variable {β γ : Type} (f : β → γ) (mark : Scopes → Hops → β) {classes : ClassContext}
  {scopes : Scopes}

mutual

theorem Expr.relines_resolve (e : Expr Unit) :
    (e.resolve mark classes scopes).Relines g (fun e => (e.mapMarks f).mapLines g)
      ((e.mapLines g).resolve (fun s h => f (mark s h)) classes scopes) := by
  have hf := additive_mapLine g
  cases e with
  | constant value => exact hf.pure rfl
  | group inner => exact hf.bind inner.relines_resolve fun _ => hf.pure rfl
  | unary op line operand => exact hf.bind operand.relines_resolve fun _ => hf.pure rfl
  | binary left op line right =>
    exact hf.bind left.relines_resolve fun _ => hf.bind right.relines_resolve fun _ => hf.pure rfl
  | logical left op line right =>
    exact hf.bind left.relines_resolve fun _ => hf.bind right.relines_resolve fun _ => hf.pure rfl
  | var name use => exact hf.bind (scopes.relines_bindUse g ..) fun _ => hf.pure rfl
  | assign name value use =>
    exact hf.bind value.relines_resolve fun _ =>
      hf.bind (scopes.relines_bindUse g ..) fun _ => hf.pure rfl
  | call callee arguments line =>
    exact hf.bind callee.relines_resolve fun _ =>
      hf.bind (Expr.relines_resolveAll arguments) fun _ => hf.pure rfl
  | list elements line => exact hf.bind (Expr.relines_resolveAll elements) fun _ => hf.pure rfl
  | map entries line => exact hf.bind (Expr.relines_resolveEntries entries) fun _ => hf.pure rfl
  | index container position line =>
    exact hf.bind container.relines_resolve fun _ =>
      hf.bind position.relines_resolve fun _ => hf.pure rfl
  | setIndex container position value line =>
    exact hf.bind container.relines_resolve fun _ => hf.bind position.relines_resolve fun _ =>
      hf.bind value.relines_resolve fun _ => hf.pure rfl
  | get object name => exact hf.bind object.relines_resolve fun _ => hf.pure rfl
  | set object name value =>
    exact hf.bind object.relines_resolve fun _ => hf.bind value.relines_resolve fun _ => hf.pure rfl
  | thisRef line use =>
    refine hf.bind (Bound.relines_reportIf g ..) fun _ => ?_
    by_cases h : classes = .outside
    · simp only [h, ↓reduceIte]
      exact hf.pure rfl
    · simp only [h, ↓reduceIte]
      exact hf.bind (scopes.relines_bindUse g ..) fun _ => hf.pure rfl
  | superRef line method use =>
    exact hf.bind (Bound.relines_reportIf g ..) fun _ => hf.bind (Bound.relines_reportIf g ..)
      fun _ => hf.bind (scopes.relines_bindUse g ..) fun _ => hf.pure rfl

theorem Expr.relines_resolveAll (es : List (Expr Unit)) :
    (Expr.resolveAll mark classes scopes es).Relines g
      (fun es => Expr.mapAllLines g (Expr.mapAllMarks f es))
      (Expr.resolveAll (fun s h => f (mark s h)) classes scopes (Expr.mapAllLines g es)) := by
  have hf := additive_mapLine g
  cases es with
  | nil => exact hf.pure rfl
  | cons e es =>
    exact hf.bind e.relines_resolve fun _ => hf.bind (Expr.relines_resolveAll es) fun _ =>
      hf.pure rfl

theorem Expr.relines_resolveEntries (entries : List (Expr Unit × Expr Unit)) :
    (Expr.resolveEntries mark classes scopes entries).Relines g
      (fun entries => Expr.mapEntryLines g (Expr.mapEntryMarks f entries))
      (Expr.resolveEntries (fun s h => f (mark s h)) classes scopes
        (Expr.mapEntryLines g entries)) := by
  have hf := additive_mapLine g
  match entries with
  | [] => exact hf.pure rfl
  | (key, value) :: entries =>
    exact hf.bind key.relines_resolve fun _ => hf.bind value.relines_resolve fun _ =>
      hf.bind (Expr.relines_resolveEntries entries) fun _ => hf.pure rfl

end

theorem Expr.relines_resolveOption (e : Option (Expr Unit)) :
    (Expr.resolveOption mark classes scopes e).Relines g
      (fun e => (e.map (mapMarks f)).map (mapLines g))
      (Expr.resolveOption (fun s h => f (mark s h)) classes scopes (e.map (mapLines g))) := by
  have hf := additive_mapLine g
  cases e with
  | none => exact hf.pure rfl
  | some e => exact hf.bind (e.relines_resolve g f mark) fun _ => hf.pure rfl

theorem Marker.relines_resolve (m : Marker Unit) :
    (m.resolve mark classes scopes).Relines g (fun m => (m.mapMarks f).mapLines g)
      ((m.mapLines g).resolve (fun s h => f (mark s h)) classes scopes) := by
  have hf := additive_mapLine g
  cases m with
  | build root use path arguments =>
    exact hf.bind (scopes.relines_bindUse g ..) fun _ =>
      hf.bind (Expr.relines_resolveAll g f mark arguments) fun _ => hf.pure rfl
  | otherwise => exact hf.pure rfl
  | _ => exact hf.bind (Expr.relines_resolve g f mark _) fun _ => hf.pure rfl

theorem Scopes.relines_declare (scopes : Scopes) (name : Name) :
    (scopes.declare name).Relines g id (scopes.declare (name.mapLine g)) :=
  (additive_mapLine g).bind (Bound.relines_reportIf g ..) fun _ => (additive_mapLine g).pure rfl

theorem Scopes.relines_declareUsable (scopes : Scopes) (name : Name) :
    (scopes.declareUsable name).Relines g id (scopes.declareUsable (name.mapLine g)) :=
  (additive_mapLine g).bind (scopes.relines_declare g name) fun _ => (additive_mapLine g).pure rfl

theorem Scopes.relines_declareAll (names : List Name) (scopes : Scopes) :
    (scopes.declareAll names).Relines g id (scopes.declareAll (names.map (Name.mapLine g))) := by
  induction names generalizing scopes with
  | nil => exact (additive_mapLine g).pure rfl
  | cons name names ih => exact (additive_mapLine g).bind (scopes.relines_declareUsable g name) ih

theorem relines_resolveSuperclass (name : Name) (superclass : Option (Name × Unit)) :
    (resolveSuperclass mark scopes name superclass).Relines g
      (fun parent => (parent.map fun p => (p.1, f p.2)).map fun (parent, use) =>
        (parent.mapLine g, use))
      (resolveSuperclass (fun s h => f (mark s h)) scopes (name.mapLine g)
        (superclass.map fun (parent, use) => (parent.mapLine g, use))) := by
  have hf := additive_mapLine g
  cases superclass with
  | none => exact hf.pure rfl
  | some parent =>
    exact hf.bind (Bound.relines_reportIf g ..) fun _ =>
      hf.bind (scopes.relines_bindUse g ..) fun _ => hf.pure rfl

mutual

/-- Neither lines nor marks make a difference to how a statement is bound, and what is reported
about it is reported on its lines. -/
theorem Stmt.relines_resolve (s : Stmt Unit) (context : Context) (scopes : Scopes) :
    (s.resolve mark context scopes).Relines g (fun r => ((r.1.mapMarks f).mapLines g, r.2))
      ((s.mapLines g).resolve (fun s h => f (mark s h)) context scopes) := by
  have hf := additive_mapLine g
  cases s with
  | expression value => exact hf.bind (value.relines_resolve g f mark) fun _ => hf.pure rfl
  | print value => exact hf.bind (value.relines_resolve g f mark) fun _ => hf.pure rfl
  | var name initializer =>
    have hown : (initializer.map (Expr.mapLines g)).any (·.isUseOf name.text) =
        initializer.any (·.isUseOf name.text) := by
      cases initializer <;> simp
    refine hf.bind (scopes.relines_declare g name) fun declared => ?_
    refine hf.bind (g := id) ?_ fun _ =>
      hf.bind (Expr.relines_resolveOption g f mark initializer) fun _ => hf.pure rfl
    rw [← hown]
    exact Bound.relines_reportIf g ..
  | block body =>
    exact hf.bind (Stmt.relines_resolveAll body context (scopes.enter [])) fun _ => hf.pure rfl
  | branch condition yes no =>
    cases no with
    | none =>
      exact hf.bind (condition.relines_resolve g f mark) fun _ =>
        hf.bind (yes.relines_resolve context scopes) fun _ => hf.pure rfl
    | some no =>
      exact hf.bind (condition.relines_resolve g f mark) fun _ =>
        hf.bind (yes.relines_resolve context scopes) fun r =>
          hf.bind (no.relines_resolve context r.2) fun _ => hf.pure rfl
  | whileLoop condition body =>
    exact hf.bind (condition.relines_resolve g f mark) fun _ =>
      hf.bind (body.relines_resolve { context with inLoop := true } scopes) fun _ => hf.pure rfl
  | doWhile body condition =>
    exact hf.bind (body.relines_resolve { context with inLoop := true } scopes) fun _ =>
      hf.bind (condition.relines_resolve g f mark) fun _ => hf.pure rfl
  | breakLoop line => exact hf.bind (Bound.relines_reportIf g ..) fun _ => hf.pure rfl
  | continueLoop line => exact hf.bind (Bound.relines_reportIf g ..) fun _ => hf.pure rfl
  | returnValue line value =>
    refine hf.bind (Bound.relines_reportIf g ..) fun _ => hf.bind (g := id) ?_ fun _ =>
      hf.bind (Expr.relines_resolveOption g f mark value) fun _ => hf.pure rfl
    rw [Option.isSome_map]
    exact Bound.relines_reportIf g ..
  | function decl =>
    refine hf.bind (g := id) ?_ fun scopes =>
      hf.bind (decl.relines_resolve { context with function := .function } scopes) fun _ =>
        hf.pure rfl
    rw [Function.name_mapLines]
    exact scopes.relines_declareUsable g decl.name
  | classDecl name superclass methods =>
    refine hf.bind (scopes.relines_declareUsable g name) fun scopes =>
      hf.bind (relines_resolveSuperclass g f mark name superclass) fun parent => ?_
    simp only [Option.isSome_map]
    exact hf.bind (Function.relines_resolveMethods methods _ _) fun _ => hf.pure rfl
  | marker line m => exact hf.bind (m.relines_resolve g f mark) fun _ => hf.pure rfl

theorem Stmt.relines_resolveAll (ss : List (Stmt Unit)) (context : Context) (scopes : Scopes) :
    (Stmt.resolveAll mark context scopes ss).Relines g
      (fun r => (Stmt.mapAllLines g (Stmt.mapAllMarks f r.1), r.2))
      (Stmt.resolveAll (fun s h => f (mark s h)) context scopes (Stmt.mapAllLines g ss)) := by
  have hf := additive_mapLine g
  cases ss with
  | nil => exact hf.pure rfl
  | cons s ss =>
    exact hf.bind (s.relines_resolve context scopes) fun r =>
      hf.bind (Stmt.relines_resolveAll ss context r.2) fun _ => hf.pure rfl

theorem Function.relines_resolve (decl : Function Unit) (context : Context) (scopes : Scopes) :
    (decl.resolve mark context scopes).Relines g (fun decl => (decl.mapMarks f).mapLines g)
      ((decl.mapLines g).resolve (fun s h => f (mark s h)) context scopes) := by
  obtain ⟨name, params, body⟩ := decl
  have hf := additive_mapLine g
  exact hf.bind (Scopes.relines_declareAll g params _) fun inner =>
    hf.bind (Stmt.relines_resolveAll body { context with inLoop := false } inner) fun _ =>
      hf.pure rfl

theorem Function.relines_resolveMethods (decls : List (Function Unit)) (context : Context)
    (scopes : Scopes) :
    (Function.resolveMethods mark context scopes decls).Relines g
      (fun decls => Function.mapAllLines g (Function.mapAllMarks f decls))
      (Function.resolveMethods (fun s h => f (mark s h)) context scopes
        (Function.mapAllLines g decls)) := by
  have hf := additive_mapLine g
  cases decls with
  | nil => exact hf.pure rfl
  | cons decl decls =>
    unfold Function.mapAllLines Function.resolveMethods
    rw [Function.name_mapLines, Name.text_mapLine]
    exact hf.bind (decl.relines_resolve _ scopes) fun _ =>
      hf.bind (Function.relines_resolveMethods decls context scopes) fun _ => hf.pure rfl

end

/-- **Binding does not depend on marks and lines**: with other marks and on other lines a program
becomes the same tree, but for the marks and the lines. -/
theorem Program.relines_resolveWith (program : Program Unit) :
    (Program.resolveWith mark program).Relines g (fun p => (p.mapMarks f).mapLines g)
      (Program.resolveWith (fun s h => f (mark s h)) (program.mapLines g)) := by
  have hf := additive_mapLine g
  exact hf.bind (Stmt.relines_resolveAll g f mark program .program []) fun _ => hf.pure rfl

end

/-- **Binding with other marks** gives other marks and nothing else. -/
theorem Program.resolveWith_mapMarks {β γ : Type} (mark : Scopes → Hops → β) (f : β → γ)
    (program : Program Unit) :
    (Program.resolveWith (fun s h => f (mark s h)) program).result =
        (Program.resolveWith mark program).result.mapMarks f ∧
      (Program.resolveWith (fun s h => f (mark s h)) program).diagnostics =
        (Program.resolveWith mark program).diagnostics := by
  obtain ⟨hresult, hdiagnostics⟩ := Program.relines_resolveWith id f mark program
  rw [Program.mapLines_id] at hresult hdiagnostics
  exact ⟨hresult.trans (Program.mapLines_id _), hdiagnostics.trans (List.map_id _)⟩

/-- **Binding on other lines** gives a program on other lines, and reports on those lines. -/
theorem Program.resolve_mapLines (g : Int → Int) (program : Program Unit) :
    (Program.resolve (program.mapLines g)).result = (Program.resolve program).result.mapLines g ∧
      (Program.resolve (program.mapLines g)).diagnostics =
        (Program.resolve program).diagnostics.map (Diagnostic.mapLine g) := by
  obtain ⟨hresult, hdiagnostics⟩ := Program.relines_resolveWith g id (fun _ hops => hops) program
  have hmarks := (Program.resolveWith_mapMarks (fun _ hops => hops) id program).1
  exact ⟨hresult.trans (congrArg (Program.mapLines g) hmarks.symm), hdiagnostics⟩

end LoxLang
