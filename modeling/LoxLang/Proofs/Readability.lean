import LoxLang.Proofs.Faithful
import LoxLang.Proofs.Forms
import LoxLang.Proofs.Lines

/-!
# Programs are told apart by their forms

The form of a program is written in one line, with no more marks than blanks, commas and brackets,
and nothing in it is escaped. Still it tells the program (`Source.form_determines_program`), apart
from lines, which it does not show. A program is first laid out as nested forms (`Stmt.toForms`),
which its form is the text of, and a tree is found again from its layout (`Expr.toExpr_toForm`,
`Stmt.toStmt_toForm`): where two kinds of trees begin with the same head, they have different counts
of operands.
-/

namespace LoxLang

variable {β : Type}

/-! ### Layout -/

namespace Form

/-- A name, or the head of a form that is no word of the language. -/
def name (text : String) : Form := .word (.identifier text)

/-- An operator or a mark. -/
def symbol (s : Symbol) : Form := .word (.symbol s)

/-- A keyword. -/
def keyword (k : Keyword) : Form := .word (.keyword k)

@[simp] theorem text_name (s : String) : (name s).text = s.toList := by rw [name, text]; rfl

@[simp] theorem text_symbol (s : Symbol) : (symbol s).text = s.text.toList := by
  rw [symbol, text]
  rfl

@[simp] theorem text_keyword (k : Keyword) : (keyword k).text = k.text.toList := by
  rw [keyword, text]; rfl

end Form

mutual

/-- Lay out an expression. -/
def Expr.toForm : Expr β → Form
  | .constant value => .word value.word
  | .group inner => .parens [.name "group", inner.toForm]
  | .unary op _ operand => .parens [.symbol op.symbol, operand.toForm]
  | .binary left op _ right => .parens [.symbol op.symbol, left.toForm, right.toForm]
  | .logical left op _ right => .parens [.keyword op.keyword, left.toForm, right.toForm]
  | .var name _ => .name name.text
  | .assign name value _ => .parens [.symbol .equal, .name name.text, value.toForm]
  | .call callee arguments _ => .parens (.name "call" :: callee.toForm :: Expr.toForms arguments)
  | .list elements _ => .brackets (Expr.toForms elements)
  | .map entries _ => .braces (Expr.toEntryForms entries)
  | .index container position _ => .parens [.name "index", container.toForm, position.toForm]
  | .setIndex container position value _ =>
    .parens [.name "index=", container.toForm, position.toForm, value.toForm]
  | .get object name => .parens [.symbol .dot, object.toForm, .name name.text]
  | .set object name value =>
    .parens [.symbol .equal, object.toForm, .name name.text, value.toForm]
  | .thisRef _ _ => .keyword .thisWord
  | .superRef _ method _ => .parens [.keyword .superWord, .name method.text]

/-- Lay out expressions. -/
def Expr.toForms : List (Expr β) → List Form
  | [] => []
  | e :: es => e.toForm :: Expr.toForms es

/-- Lay out the entries of a map. -/
def Expr.toEntryForms : List (Expr β × Expr β) → List (Form × Form)
  | [] => []
  | (key, value) :: entries => (key.toForm, value.toForm) :: Expr.toEntryForms entries

end

/-- Lay out a marker. -/
def Marker.toForm (m : Marker β) : Form :=
  .parens <| .keyword m.keyword :: match m with
    | .set name value => [.name name.text, value.toForm]
    | .build root mark path arguments => (Expr.path root mark path).toForm :: Expr.toForms arguments
    | .walk operand | .check operand | .thru operand => [operand.toForm]
    | .otherwise => []

/-- Lay out the superclass of a class. -/
def Form.ofSuperclass : Option (Name × β) → List Form
  | none => []
  | some (parent, _) => [.symbol .less, .name parent.text]

mutual

/-- Lay out a statement. -/
def Stmt.toForm : Stmt β → Form
  | .expression value => .parens [.symbol .semicolon, value.toForm]
  | .print value => .parens [.keyword .printWord, value.toForm]
  | .var name none => .parens [.keyword .varWord, .name name.text]
  | .var name (some value) => .parens [.keyword .varWord, .name name.text, value.toForm]
  | .block body => .parens (.name "block" :: Stmt.toForms body)
  | .branch condition yes none => .parens [.keyword .ifWord, condition.toForm, yes.toForm]
  | .branch condition yes (some no) =>
    .parens [.name "if-else", condition.toForm, yes.toForm, no.toForm]
  | .whileLoop condition body => .parens [.keyword .whileWord, condition.toForm, body.toForm]
  | .doWhile body condition => .parens [.name "do-while", body.toForm, condition.toForm]
  | .breakLoop _ => .parens [.keyword .breakWord]
  | .continueLoop _ => .parens [.keyword .continueWord]
  | .returnValue _ none => .parens [.keyword .returnWord]
  | .returnValue _ (some value) => .parens [.keyword .returnWord, value.toForm]
  | .function decl => decl.toForm
  | .classDecl name superclass methods =>
    .parens (.keyword .classWord :: .name name.text ::
      (Form.ofSuperclass superclass ++ Function.toForms methods))
  | .marker _ m => m.toForm

/-- Lay out statements. -/
def Stmt.toForms : List (Stmt β) → List Form
  | [] => []
  | s :: ss => s.toForm :: Stmt.toForms ss

/-- Lay out a function. -/
def Function.toForm : Function β → Form
  | ⟨name, params, body⟩ =>
    .parens (.keyword .funWord :: .name name.text :: .parens (params.map fun p => .name p.text) ::
      Stmt.toForms body)

/-- Lay out methods. -/
def Function.toForms : List (Function β) → List Form
  | [] => []
  | f :: fs => f.toForm :: Function.toForms fs

end

/-! ### The form of a program is the text of its layout -/

theorem toList_parens (words : List String) {items : List Form}
    (h : words.map String.toList = Form.texts items) :
    (parens words).toList = (Form.parens items).text := by
  rw [parens, Form.text, ← h]
  simp

mutual

theorem Expr.toList_form (e : Expr β) : e.form.toList = e.toForm.text := by
  cases e with
  | constant value =>
    rw [form, toForm, Form.text]
    cases value with
    | bool b => cases b <;> rfl
    | _ => rfl
  | group inner => exact toList_parens _ (by simp [Form.texts, inner.toList_form])
  | unary op line operand => exact toList_parens _ (by simp [Form.texts, operand.toList_form])
  | binary left op line right =>
    exact toList_parens _ (by simp [Form.texts, left.toList_form, right.toList_form])
  | logical left op line right =>
    exact toList_parens _ (by simp [Form.texts, left.toList_form, right.toList_form])
  | var name mark => rw [form, toForm, Form.text_name]
  | assign name value mark =>
    exact toList_parens _ (by simp [Form.texts, value.toList_form, Symbol.text])
  | call callee arguments line =>
    exact toList_parens _ (by simp [Form.texts, callee.toList_form, Expr.toList_forms arguments])
  | list elements line =>
    rw [form, toForm, Form.text, ← Expr.toList_forms elements]
    simp
  | map entries line =>
    rw [form, toForm, Form.text, ← Expr.toList_entryForms entries]
    simp
  | index container position line =>
    exact toList_parens _ (by simp [Form.texts, container.toList_form, position.toList_form])
  | setIndex container position value line =>
    exact toList_parens _
      (by simp [Form.texts, container.toList_form, position.toList_form, value.toList_form])
  | get object name => exact toList_parens _ (by simp [Form.texts, object.toList_form, Symbol.text])
  | set object name value =>
    exact toList_parens _
      (by simp [Form.texts, object.toList_form, value.toList_form, Symbol.text])
  | thisRef line mark => rw [form, toForm, Form.text_keyword]; rfl
  | superRef line method mark => exact toList_parens _ (by simp [Form.texts, Keyword.text])

theorem Expr.toList_forms (es : List (Expr β)) :
    (forms es).map String.toList = Form.texts (toForms es) := by
  cases es with
  | nil => rfl
  | cons e es => simp [forms, toForms, Form.texts, e.toList_form, Expr.toList_forms es]

theorem Expr.toList_entryForms (entries : List (Expr β × Expr β)) :
    (entryForms entries).map String.toList = Form.entryTexts (toEntryForms entries) := by
  cases entries with
  | nil => rfl
  | cons entry entries =>
    obtain ⟨key, value⟩ := entry
    simp [entryForms, toEntryForms, Form.entryTexts, key.toList_form, value.toList_form,
      Expr.toList_entryForms entries]

end

theorem Marker.toList_form (m : Marker β) : m.form.toList = m.toForm.text := by
  cases m with
  | build root mark path arguments =>
    exact toList_parens _ (by simp [Form.texts, Expr.toList_form, Expr.toList_forms])
  | _ => exact toList_parens _ (by simp [Form.texts, Expr.toList_form])

mutual

theorem Stmt.toList_form (s : Stmt β) : s.form.toList = s.toForm.text := by
  cases s with
  | expression value =>
    exact toList_parens _ (by simp [Form.texts, value.toList_form, Symbol.text])
  | print value => exact toList_parens _ (by simp [Form.texts, value.toList_form, Keyword.text])
  | var name initializer =>
    cases initializer <;>
      exact toList_parens _ (by simp [Form.texts, Expr.toList_form, Keyword.text])
  | block body => exact toList_parens _ (by simp [Form.texts, Stmt.toList_forms body])
  | branch condition yes no =>
    cases no with
    | none =>
      exact toList_parens _
        (by simp [Form.texts, condition.toList_form, yes.toList_form, Keyword.text])
    | some no =>
      exact toList_parens _
        (by simp [Form.texts, condition.toList_form, yes.toList_form, no.toList_form])
  | whileLoop condition body =>
    exact toList_parens _
      (by simp [Form.texts, condition.toList_form, body.toList_form, Keyword.text])
  | doWhile body condition =>
    exact toList_parens _ (by simp [Form.texts, condition.toList_form, body.toList_form])
  | breakLoop line => exact toList_parens ["break"] (by simp [Form.texts, Keyword.text])
  | continueLoop line =>
    exact toList_parens ["continue"] (by simp [Form.texts, Keyword.text])
  | returnValue line value =>
    cases value with
    | none => exact toList_parens ["return"] (by simp [Form.texts, Keyword.text])
    | some value => exact toList_parens _ (by simp [Form.texts, value.toList_form, Keyword.text])
  | function decl => rw [Stmt.form, Stmt.toForm, decl.toList_form]
  | classDecl name superclass methods =>
    rcases superclass with _ | ⟨parent, mark⟩ <;>
      exact toList_parens _ (by
        simp [Form.ofSuperclass, Form.texts, Function.toList_forms methods, Keyword.text,
          Symbol.text])
  | marker line m => rw [Stmt.form, Stmt.toForm, m.toList_form]

theorem Stmt.toList_forms (ss : List (Stmt β)) :
    (Stmt.forms ss).map String.toList = Form.texts (Stmt.toForms ss) := by
  cases ss with
  | nil => rfl
  | cons s ss => simp [Stmt.forms, Stmt.toForms, Form.texts, s.toList_form, Stmt.toList_forms ss]

theorem Function.toList_form (f : Function β) : f.form.toList = f.toForm.text := by
  obtain ⟨name, params, body⟩ := f
  have hparams : (parens (params.map Name.text)).toList =
      (Form.parens (params.map fun p => .name p.text)).text :=
    toList_parens _ (by simp [Form.texts_eq_map])
  exact toList_parens _ (by simp [Form.texts, hparams, Stmt.toList_forms body, Keyword.text])

theorem Function.toList_forms (fs : List (Function β)) :
    (Function.forms fs).map String.toList = Form.texts (Function.toForms fs) := by
  cases fs with
  | nil => rfl
  | cons f fs =>
    simp [Function.forms, Function.toForms, Form.texts, f.toList_form, Function.toList_forms fs]

end

/-! ### The tree of a layout

A tree is found again from its layout. The first word of a form tells its kind, together with the
count of operands where several kinds begin with that word. -/

/-- The name of a variable. -/
def Expr.name : Expr Unit → Name
  | .var name _ => name
  | _ => ⟨"", 0⟩

/-- The constant or variable that is laid out as a word. -/
def Word.toExpr : Word → Expr Unit
  | .identifier x => .var ⟨x, 0⟩ ()
  | .keyword .thisWord => .thisRef 0 ()
  | .keyword .trueWord => .constant (.bool true)
  | .keyword .falseWord => .constant (.bool false)
  | .number _ x => .constant (.number x)
  | .string s => .constant (.string s)
  | _ => .constant .nil

/-- The expression of the kind that the word tells. -/
def Expr.compose : Word → List (Expr Unit) → Expr Unit
  | .identifier head, operand :: operands =>
    if head = "group" then .group operand
    else if head = "call" then .call operand operands 0
    else if head = "index" then .index operand (operands.headD operand) 0
    else .setIndex operand (operands.headD operand) (operands.getLastD operand) 0
  | .keyword .superWord, [method] => .superRef 0 method.name ()
  | .symbol .bang, [operand] => .unary .complement 0 operand
  | .symbol .minus, [operand] => .unary .negate 0 operand
  | .symbol .equal, [target, value] => .assign target.name value ()
  | .symbol .equal, [object, name, value] => .set object name.name value
  | .symbol .dot, [object, name] => .get object name.name
  -- Every other head with two operands is an operator.
  | head, [left, right] =>
    ((ladder.flatten.find? (·.word = head)).map (Operator.apply left 0 right)).getD left
  | _, _ => .constant .nil

mutual

/-- The expression that is laid out as the form. -/
def Form.toExpr : Form → Expr Unit
  | .word w => w.toExpr
  | .parens (.word head :: operands) => Expr.compose head (Form.toExprs operands)
  | .parens _ => .constant .nil
  | .brackets items => .list (Form.toExprs items) 0
  | .braces entries => .map (Form.toEntries entries) 0

/-- The expressions that are laid out as the forms. -/
def Form.toExprs : List Form → List (Expr Unit)
  | [] => []
  | form :: forms => form.toExpr :: Form.toExprs forms

/-- The entries that are laid out as the forms. -/
def Form.toEntries : List (Form × Form) → List (Expr Unit × Expr Unit)
  | [] => []
  | (key, value) :: entries => (key.toExpr, value.toExpr) :: Form.toEntries entries

end

mutual

theorem Expr.toExpr_toForm (e : Expr Unit) : e.toForm.toExpr = e.mapLines fun _ => 0 := by
  cases e with
  | constant value =>
    cases value with
    | bool b => cases b <;> rfl
    | _ => rfl
  | group inner => exact congrArg Expr.group inner.toExpr_toForm
  | unary op line operand =>
    cases op <;> exact congrArg _ operand.toExpr_toForm
  | binary left op line right =>
    cases op <;> exact congrArg₂ (Expr.binary · _ 0 ·) left.toExpr_toForm right.toExpr_toForm
  | logical left op line right =>
    cases op <;> exact congrArg₂ (Expr.logical · _ 0 ·) left.toExpr_toForm right.toExpr_toForm
  | var name mark => rfl
  | assign name value mark => exact congrArg (Expr.assign _ · _) value.toExpr_toForm
  | call callee arguments line =>
    exact congrArg₂ (Expr.call · · 0) callee.toExpr_toForm (Expr.toExprs_toForms arguments)
  | list elements line => exact congrArg (Expr.list · 0) (Expr.toExprs_toForms elements)
  | map entries line => exact congrArg (Expr.map · 0) (Expr.toEntries_toEntryForms entries)
  | index container position line =>
    exact congrArg₂ (Expr.index · · 0) container.toExpr_toForm position.toExpr_toForm
  | setIndex container position value line =>
    rw [mapLines, ← container.toExpr_toForm, ← position.toExpr_toForm, ← value.toExpr_toForm]
    rfl
  | get object name => exact congrArg (Expr.get · _) object.toExpr_toForm
  | set object name value =>
    exact congrArg₂ (Expr.set · _ ·) object.toExpr_toForm value.toExpr_toForm
  | thisRef line mark => rfl
  | superRef line method mark => rfl

theorem Expr.toExprs_toForms (es : List (Expr Unit)) :
    Form.toExprs (toForms es) = mapAllLines (fun _ => 0) es := by
  cases es with
  | nil => rfl
  | cons e es => rw [toForms, Form.toExprs, mapAllLines, e.toExpr_toForm, Expr.toExprs_toForms es]

theorem Expr.toEntries_toEntryForms (entries : List (Expr Unit × Expr Unit)) :
    Form.toEntries (toEntryForms entries) = mapEntryLines (fun _ => 0) entries := by
  cases entries with
  | nil => rfl
  | cons entry entries =>
    obtain ⟨key, value⟩ := entry
    rw [toEntryForms, Form.toEntries, mapEntryLines, key.toExpr_toForm, value.toExpr_toForm,
      Expr.toEntries_toEntryForms entries]

end

theorem Expr.path_concat (root : Name) (mark : β) (names : List Name) (name : Name) :
    path root mark (names ++ [name]) = .get (path root mark names) name := by
  rw [path, List.foldl_append]
  rfl

theorem Expr.mapLines_path (f : Int → Int) (root : Name) (mark : β) (names : List Name) :
    (path root mark names).mapLines f =
      path (root.mapLine f) mark (names.map (Name.mapLine f)) := by
  induction names using List.reverseRecOn with
  | nil => rfl
  | append_singleton names name ih =>
    rw [List.map_append, List.map_singleton, path_concat, path_concat, mapLines, ih]

/-- The variable at the root of properties, and their names. -/
def Expr.rootAndPath : Expr Unit → Name × List Name
  | .get object name => (object.rootAndPath.1, object.rootAndPath.2 ++ [name])
  | e => (e.name, [])

theorem Expr.rootAndPath_path (root : Name) (names : List Name) :
    (path root () names).rootAndPath = (root, names) := by
  induction names using List.reverseRecOn with
  | nil => rfl
  | append_singleton names name ih => rw [path_concat, rootAndPath, ih]

/-- The marker with the keyword. -/
def Marker.compose : Keyword → List (Expr Unit) → Marker Unit
  | .setWord, [name, value] => .set name.name value
  | .buildWord, path :: arguments => .build path.rootAndPath.1 () path.rootAndPath.2 arguments
  | .walkWord, [operand] => .walk operand
  | .checkWord, [operand] => .check operand
  | .thruWord, [operand] => .thru operand
  | _, _ => .otherwise

/-- The function of a statement that declares one. -/
def Stmt.function? : Stmt Unit → Option (Function Unit)
  | .function decl => some decl
  | _ => none

/-- The statement of the kind that the word tells, where some operands are statements. -/
def Stmt.compose : Word → List Form → List (Stmt Unit) → Stmt Unit
  -- The operands are given as forms and once more as statements, which not all of them are.
  | .symbol _, [value], _ => .expression value.toExpr
  | .keyword .printWord, [value], _ => .print value.toExpr
  | .keyword .varWord, name :: value, _ => .var name.toExpr.name (value.head?.map Form.toExpr)
  | .keyword .ifWord, [condition, _], [_, yes] => .branch condition.toExpr yes none
  | .keyword .whileWord, [condition, _], [_, body] => .whileLoop condition.toExpr body
  | .keyword .breakWord, _, _ => .breakLoop 0
  | .keyword .continueWord, _, _ => .continueLoop 0
  | .keyword .returnWord, value, _ => .returnValue 0 (value.head?.map Form.toExpr)
  | .keyword .funWord, name :: .parens params :: _, _ :: _ :: body =>
    .function ⟨name.toExpr.name, (Form.toExprs params).map Expr.name, body⟩
  | .keyword .classWord, name :: .word _ :: parent :: _, _ :: _ :: _ :: methods =>
    .classDecl name.toExpr.name (some (parent.toExpr.name, ())) (methods.filterMap Stmt.function?)
  | .keyword .classWord, name :: _, _ :: methods =>
    .classDecl name.toExpr.name none (methods.filterMap Stmt.function?)
  | .keyword k, operands, _ => .marker 0 (Marker.compose k (Form.toExprs operands))
  | .identifier head, operands, stmts =>
    if head = "block" then .block stmts
    else match operands, stmts with
      | [_, condition], body :: _ => .doWhile body condition.toExpr
      | condition :: _, [_, yes, no] => .branch condition.toExpr yes (some no)
      | _, _ => .block stmts
  | _, _, stmts => .block stmts

mutual

/-- The statement that is laid out as the form. -/
def Form.toStmt : Form → Stmt Unit
  | .parens (.word head :: operands) => Stmt.compose head operands (Form.toStmts operands)
  | _ => .block []

/-- The statements that are laid out as the forms. -/
def Form.toStmts : List Form → List (Stmt Unit)
  | [] => []
  | form :: forms => form.toStmt :: Form.toStmts forms

end

theorem Marker.toStmt_toForm (m : Marker Unit) :
    m.toForm.toStmt = .marker 0 (m.mapLines fun _ => 0) := by
  cases m with
  | set name value => exact congrArg (fun e => Stmt.marker 0 (.set _ e)) value.toExpr_toForm
  | build root mark names arguments =>
    have hpath := Expr.rootAndPath_path (root.mapLine fun _ => 0)
      (names.map (Name.mapLine fun _ => 0))
    rw [← Expr.mapLines_path, ← Expr.toExpr_toForm] at hpath
    rw [mapLines, ← (Prod.mk.inj hpath).1, ← (Prod.mk.inj hpath).2, ← Expr.toExprs_toForms]
    rfl
  | walk operand => exact congrArg (fun e => Stmt.marker 0 (.walk e)) operand.toExpr_toForm
  | check operand => exact congrArg (fun e => Stmt.marker 0 (.check e)) operand.toExpr_toForm
  | thru operand => exact congrArg (fun e => Stmt.marker 0 (.thru e)) operand.toExpr_toForm
  | otherwise => rfl

mutual

theorem Stmt.toStmt_toForm (s : Stmt Unit) : s.toForm.toStmt = s.mapLines fun _ => 0 := by
  cases s with
  | expression value => exact congrArg Stmt.expression value.toExpr_toForm
  | print value => exact congrArg Stmt.print value.toExpr_toForm
  | var name initializer =>
    cases initializer with
    | none => rfl
    | some value => exact congrArg (fun e => Stmt.var _ (some e)) value.toExpr_toForm
  | block body => exact congrArg Stmt.block (Stmt.toStmts_toForms body)
  | branch condition yes no =>
    cases no with
    | none =>
      exact congrArg₂ (Stmt.branch · · none) condition.toExpr_toForm yes.toStmt_toForm
    | some no =>
      rw [Stmt.mapLines, ← condition.toExpr_toForm, ← yes.toStmt_toForm, ← no.toStmt_toForm]
      rfl
  | whileLoop condition body =>
    exact congrArg₂ Stmt.whileLoop condition.toExpr_toForm body.toStmt_toForm
  | doWhile body condition =>
    exact congrArg₂ Stmt.doWhile body.toStmt_toForm condition.toExpr_toForm
  | breakLoop line | continueLoop line => rfl
  | returnValue line value =>
    cases value with
    | none => rfl
    | some value => exact congrArg (fun e => Stmt.returnValue 0 (some e)) value.toExpr_toForm
  | function decl => exact decl.toStmt_toForm
  | classDecl name superclass methods =>
    have hmethods : (Form.toStmts (Function.toForms methods)).filterMap Stmt.function? =
        Function.mapAllLines (fun _ => 0) methods := by
      rw [Function.toStmts_toForms methods]
      simp [List.filterMap_map, Function.comp_def, Stmt.function?]
    rcases superclass with _ | ⟨parent, mark⟩
    · rw [Stmt.mapLines, ← hmethods]
      -- A word after the name would tell of a superclass, and no method is a word.
      rcases methods with _ | ⟨⟨name', params, body⟩, methods⟩ <;> rfl
    · exact congrArg (Stmt.classDecl _ _) hmethods
  | marker line m => exact m.toStmt_toForm
termination_by structural s

theorem Stmt.toStmts_toForms (ss : List (Stmt Unit)) :
    Form.toStmts (Stmt.toForms ss) = Stmt.mapAllLines (fun _ => 0) ss := by
  cases ss with
  | nil => rfl
  | cons s ss =>
    rw [Stmt.toForms, Form.toStmts, Stmt.mapAllLines, s.toStmt_toForm, Stmt.toStmts_toForms ss]
termination_by structural ss

theorem Function.toStmt_toForm (f : Function Unit) :
    f.toForm.toStmt = .function (f.mapLines fun _ => 0) := by
  obtain ⟨name, params, body⟩ := f
  have hparams : (Form.toExprs (params.map fun p => .name p.text)).map Expr.name =
      params.map (Name.mapLine fun _ => 0) := by
    induction params with
    | nil => rfl
    | cons p params ih => exact congrArg _ ih
  rw [Function.mapLines, ← hparams, ← Stmt.toStmts_toForms body]
  rfl
termination_by structural f

theorem Function.toStmts_toForms (fs : List (Function Unit)) :
    Form.toStmts (Function.toForms fs) = (Function.mapAllLines (fun _ => 0) fs).map .function := by
  cases fs with
  | nil => rfl
  | cons f fs =>
    rw [Function.toForms, Form.toStmts, Function.mapAllLines, List.map_cons, f.toStmt_toForm,
      Function.toStmts_toForms fs]
termination_by structural fs

end

/-- Statements with one layout are the same, apart from lines. -/
theorem Stmt.eq_of_toForms_eq (ss ss' : List (Stmt Unit)) (h : Stmt.toForms ss = Stmt.toForms ss') :
    Stmt.mapAllLines (fun _ => 0) ss = Stmt.mapAllLines (fun _ => 0) ss' := by
  rw [← Stmt.toStmts_toForms, h, Stmt.toStmts_toForms]

/-! ### Layouts of programs that have been read -/

/-- Words as they are found in program text, of which numbers are finite. -/
def Word.Legible : Word → Prop
  | .number _ value => value.isFinite = true
  | w => w.Written

/-- The word is not a number beyond the range of finite ones. -/
def Word.isFinite : Word → Bool
  | .number _ value => value.isFinite
  | _ => true

/-- The tokens of a text are legible if the numbers in it are finite. -/
theorem Scan.legible_of_isFinite {source : String}
    (h : (ofText source).tokens.all (fun t => t.word.isFinite) = true) :
    ∀ t ∈ (ofText source).tokens, t.word.Legible := by
  intro t ht
  have hfinite : t.word.isFinite = true := List.all_eq_true.1 h t ht
  have hwritten : t.word.Written := written_of_mem (List.mem_map_of_mem ht)
  generalize t.word = w at hfinite hwritten ⊢
  cases w with
  | number text value => exact hfinite
  | _ => exact hwritten

theorem Word.legible_plain (w : Word) : w.plain.Legible ↔ w.Legible := by
  cases w <;> exact Iff.rfl

namespace Part

/-- All words of a phrase are legible. -/
def Legible (ps : List Part) : Prop :=
  ∀ w line excess, Part.word w line excess ∈ ps → w.Legible

variable {ps qs : List Part} {pss : List (List Part)}

@[simp] theorem legible_nil : Legible [] := by simp [Legible]

@[simp] theorem legible_append : Legible (ps ++ qs) ↔ Legible ps ∧ Legible qs := by
  simp only [Legible, List.mem_append]
  exact ⟨fun h => ⟨fun w l x hw => h w l x (.inl hw), fun w l x hw => h w l x (.inr hw)⟩,
    fun h w l x hw => hw.elim (h.1 w l x) (h.2 w l x)⟩

@[simp] theorem legible_word {w : Word} {line : Option Int} {excess : Option String} :
    Legible (.word w line excess :: ps) ↔ w.Legible ∧ Legible ps := by
  constructor
  · exact fun h => ⟨h _ _ _ List.mem_cons_self, fun w l x hw => h w l x (List.mem_cons_of_mem _ hw)⟩
  · rintro ⟨hw, hps⟩ w' line' excess' hw'
    obtain heq | hw' := List.mem_cons.1 hw'
    · obtain ⟨rfl, -, -⟩ := Part.word.inj heq
      exact hw
    · exact hps w' line' excess' hw'

@[simp] theorem legible_parens : Legible (.parens :: ps) ↔ Legible ps := by
  simp [Legible]

@[simp] theorem legible_symbol {s : Symbol} : Legible (symbol s :: ps) ↔ Legible ps :=
  legible_word.trans (and_iff_right (.symbol s))

@[simp] theorem legible_symbolAt {s : Symbol} {line : Int} :
    Legible (symbolAt s line :: ps) ↔ Legible ps :=
  legible_word.trans (and_iff_right (.symbol s))

@[simp] theorem legible_keyword {k : Keyword} : Legible (keyword k :: ps) ↔ Legible ps :=
  legible_word.trans (and_iff_right (.keyword k))

@[simp] theorem legible_keywordAt {k : Keyword} {line : Int} :
    Legible (keywordAt k line :: ps) ↔ Legible ps :=
  legible_word.trans (and_iff_right (.keyword k))

@[simp] theorem legible_name {n : Name} :
    Legible (.name n :: ps) ↔ (Word.identifier n.text).Legible ∧ Legible ps := legible_word

@[simp] theorem legible_report {what : String} : Legible (report what ps) ↔ Legible ps := by
  rcases ps with _ | ⟨_ | _, _⟩
  · exact Iff.rfl
  · exact legible_word.trans legible_word.symm
  · exact Iff.rfl

@[simp] theorem legible_separated : Legible (separated pss) ↔ ∀ ps ∈ pss, Legible ps := by
  induction pss with
  | nil => simp [separated]
  | cons ps pss ih =>
    cases pss with
    | nil => simp [separated]
    | cons qs pss =>
      rw [separated, legible_append, legible_symbol, ih]
      exact List.forall_mem_cons.symm

@[simp] theorem legible_capped {what : String} {position : Nat} :
    (∀ ps ∈ capped what position pss, Legible ps) ↔ ∀ ps ∈ pss, Legible ps := by
  induction pss generalizing position with
  | nil => simp [capped]
  | cons ps pss ih =>
    rw [capped, List.forall_mem_cons, List.forall_mem_cons, ih]
    split <;> simp

@[simp] theorem legible_optional : Legible (Part.optional pss) ↔ ∀ ps ∈ pss, Legible ps := by
  cases pss with
  | nil => simp [Part.optional]
  | cons ps pss => simp [Part.optional]

end Part

/-- The words that tokens are read as are legible if those of the tokens are. -/
theorem Spans.legible {ps : List Part} {ts rest : List Token} {ds : List Diagnostic}
    (h : Spans ps ts rest ds) (hts : ∀ t ∈ ts, t.word.Legible) : Part.Legible ps := by
  induction h with
  | nil => exact Part.legible_nil
  | word hword _ _ ih =>
    obtain ⟨ht, hlater⟩ := List.forall_mem_cons.1 hts
    rw [← Word.legible_plain, hword, Word.legible_plain] at ht
    exact Part.legible_word.2 ⟨ht, ih hlater⟩
  | noParens _ ih => exact Part.legible_parens.2 (ih hts)
  | parens _ _ _ ih =>
    exact Part.legible_parens.2 (ih (List.forall_mem_cons.1 (List.forall_mem_cons.1 hts).2).2)

namespace Form

theorem legible_name {x : String} (h : (Word.identifier x).Legible) : (name x).Legible := by
  rw [name, Legible]
  cases h with
  | @identifier c cs hc hcs hname =>
    exact ⟨⟨c, cs, String.toList_ofList, hc, fun d hd => .inl (hcs d hd)⟩, hname⟩

theorem legible_names {names : List Name}
    (h : ∀ n ∈ names, (Word.identifier n.text).Legible) :
    AllLegible (names.map fun n => name n.text) := by
  rw [allLegible_iff]
  intro f hf
  obtain ⟨n, hn, rfl⟩ := List.mem_map.1 hf
  exact legible_name (h n hn)

/-- A head begins with a letter as names do, and is no keyword. -/
theorem legible_head {c : Char} {cs : List Char} (head : String) (htext : head.toList = c :: cs)
    (hc : isLetter c = true) (hcs : cs.all (fun d => isWordChar d || d = '=' || d = '-') = true)
    (hkeyword : Keyword.ofText? head = none) : (name head).Legible := by
  rw [name, Legible]
  refine ⟨⟨c, cs, htext, hc, fun d hd => ?_⟩, Keyword.text_ne_of_ofText? hkeyword⟩
  simpa [or_assoc] using List.all_eq_true.1 hcs d hd

@[simp] theorem legible_keyword (k : Keyword) : (keyword k).Legible := by
  rw [keyword, Legible]
  trivial

theorem legible_symbol {s : Symbol} (h : isUnbroken s.text.toList = true) : (symbol s).Legible := by
  rw [symbol, Legible]
  exact h

theorem legible_constant {c : Constant} (h : c.word.Legible) : (Form.word c.word).Legible := by
  rw [Legible]
  cases c with
  | nil => trivial
  | bool b => cases b <;> trivial
  | number x => exact ⟨rfl, h⟩
  | string s =>
    cases h with
    | string hs => exact hs

end Form

mutual

/-- What is read from legible words is laid out legibly. -/
theorem Expr.legible_toForm (e : Expr β) (h : Part.Legible e.parts) : e.toForm.Legible := by
  cases e with
  | constant value =>
    rw [toForm]
    exact Form.legible_constant (by simpa [parts] using h)
  | group inner =>
    have hinner : Part.Legible inner.parts := by simpa [parts] using h
    rw [toForm, Form.Legible]
    exact ⟨Form.legible_head _ rfl rfl rfl rfl, inner.legible_toForm hinner, trivial⟩
  | unary op line operand =>
    have hoperand : Part.Legible operand.parts := by simpa [parts] using h
    rw [toForm, Form.Legible]
    exact ⟨Form.legible_symbol (by cases op <;> rfl), operand.legible_toForm hoperand, trivial⟩
  | binary left op line right =>
    obtain ⟨hleft, hright⟩ : Part.Legible left.parts ∧ Part.Legible right.parts := by
      simpa [parts] using h
    rw [toForm, Form.Legible]
    exact ⟨Form.legible_symbol (by cases op <;> rfl), left.legible_toForm hleft,
      right.legible_toForm hright, trivial⟩
  | logical left op line right =>
    obtain ⟨hleft, hright⟩ : Part.Legible left.parts ∧ Part.Legible right.parts := by
      simpa [parts] using h
    rw [toForm, Form.Legible]
    exact ⟨Form.legible_keyword _, left.legible_toForm hleft, right.legible_toForm hright, trivial⟩
  | var name mark =>
    rw [toForm]
    exact Form.legible_name (by simpa [parts] using h)
  | assign name value mark =>
    obtain ⟨hname, hvalue⟩ : (Word.identifier name.text).Legible ∧ Part.Legible value.parts := by
      simpa [parts] using h
    rw [toForm, Form.Legible]
    exact ⟨Form.legible_symbol rfl, Form.legible_name hname, value.legible_toForm hvalue, trivial⟩
  | call callee arguments line =>
    obtain ⟨hcallee, harguments⟩ : Part.Legible callee.parts ∧
        ∀ ps ∈ Expr.eachParts arguments, Part.Legible ps := by simpa [parts] using h
    rw [toForm, Form.Legible]
    exact ⟨Form.legible_head _ rfl rfl rfl rfl, callee.legible_toForm hcallee,
      Expr.legible_toForms arguments harguments⟩
  | list elements line =>
    rw [toForm, Form.Legible]
    exact Expr.legible_toForms elements (by simpa [parts] using h)
  | map entries line =>
    rw [toForm, Form.Legible]
    exact Expr.legible_toEntryForms entries (by simpa [parts] using h)
  | index container position line =>
    obtain ⟨hcontainer, hposition⟩ :
        Part.Legible container.parts ∧ Part.Legible position.parts := by
      simpa [parts] using h
    rw [toForm, Form.Legible]
    exact ⟨Form.legible_head _ rfl rfl rfl rfl, container.legible_toForm hcontainer,
      position.legible_toForm hposition, trivial⟩
  | setIndex container position value line =>
    obtain ⟨hcontainer, hposition, hvalue⟩ : Part.Legible container.parts ∧
        Part.Legible position.parts ∧ Part.Legible value.parts := by simpa [parts] using h
    rw [toForm, Form.Legible]
    exact ⟨Form.legible_head _ rfl rfl rfl rfl, container.legible_toForm hcontainer,
      position.legible_toForm hposition, value.legible_toForm hvalue, trivial⟩
  | get object name =>
    obtain ⟨hobject, hname⟩ : Part.Legible object.parts ∧ (Word.identifier name.text).Legible := by
      simpa [parts] using h
    rw [toForm, Form.Legible]
    exact ⟨Form.legible_symbol rfl, object.legible_toForm hobject, Form.legible_name hname, trivial⟩
  | set object name value =>
    obtain ⟨hobject, hname, hvalue⟩ : Part.Legible object.parts ∧
        (Word.identifier name.text).Legible ∧ Part.Legible value.parts := by simpa [parts] using h
    rw [toForm, Form.Legible]
    exact ⟨Form.legible_symbol rfl, object.legible_toForm hobject, Form.legible_name hname,
      value.legible_toForm hvalue, trivial⟩
  | thisRef line mark =>
    rw [toForm]
    exact Form.legible_keyword _
  | superRef line method mark =>
    have hmethod : (Word.identifier method.text).Legible := by simpa [parts] using h
    rw [toForm, Form.Legible]
    exact ⟨Form.legible_keyword _, Form.legible_name hmethod, trivial⟩

theorem Expr.legible_toForms (es : List (Expr β)) (h : ∀ ps ∈ eachParts es, Part.Legible ps) :
    Form.AllLegible (toForms es) := by
  cases es with
  | nil => trivial
  | cons e es =>
    obtain ⟨he, hes⟩ := List.forall_mem_cons.1 h
    exact ⟨e.legible_toForm he, Expr.legible_toForms es hes⟩

theorem Expr.legible_toEntryForms (entries : List (Expr β × Expr β))
    (h : ∀ ps ∈ entryParts entries, Part.Legible ps) :
    Form.EntriesLegible (toEntryForms entries) := by
  cases entries with
  | nil => trivial
  | cons entry entries =>
    obtain ⟨key, value⟩ := entry
    obtain ⟨hentry, hentries⟩ := List.forall_mem_cons.1 h
    obtain ⟨hkey, hvalue⟩ : Part.Legible key.parts ∧ Part.Legible value.parts := by
      simpa using hentry
    exact ⟨key.legible_toForm hkey, value.legible_toForm hvalue,
      Expr.legible_toEntryForms entries hentries⟩

end

/-- The variable of a `build` marker and the properties that lead on from it. -/
theorem Expr.legible_path {root : Name} {mark : β} {names : List Name}
    (hroot : (Word.identifier root.text).Legible)
    (hnames : ∀ n ∈ names, (Word.identifier n.text).Legible) :
    (path root mark names).toForm.Legible := by
  induction names using List.reverseRecOn with
  | nil => exact Form.legible_name hroot
  | append_singleton names name ih =>
    have hinit := ih fun n hn => hnames n (List.mem_append_left _ hn)
    rw [path_concat, toForm, Form.Legible]
    exact ⟨Form.legible_symbol rfl, hinit, Form.legible_name (hnames name (by simp)), trivial⟩

theorem Marker.legible_toForm (m : Marker β) (h : Part.Legible m.parts) : m.toForm.Legible := by
  unfold toForm
  rw [Form.Legible]
  refine ⟨Form.legible_keyword _, ?_⟩
  cases m with
  | set name value =>
    obtain ⟨hname, hvalue⟩ : (Word.identifier name.text).Legible ∧ Part.Legible value.parts := by
      simpa [parts] using h
    exact ⟨Form.legible_name hname, value.legible_toForm hvalue, trivial⟩
  | build root mark names arguments =>
    obtain ⟨hroot, hnames, harguments⟩ : (Word.identifier root.text).Legible ∧
        Part.Legible (names.flatMap fun name => [Part.symbol .dot, .name name]) ∧
        ∀ ps ∈ Expr.eachParts arguments, Part.Legible ps := by simpa [parts] using h
    have hnames : ∀ n ∈ names, (Word.identifier n.text).Legible := by
      intro n hn
      have hmem : Part.name n ∈ [Part.symbol .dot, .name n] := by simp
      exact hnames (.identifier n.text) (some n.line) none (List.mem_flatMap.2 ⟨n, hn, hmem⟩)
    exact ⟨Expr.legible_path hroot hnames, Expr.legible_toForms arguments harguments⟩
  | walk operand => exact ⟨operand.legible_toForm h, trivial⟩
  | check operand => exact ⟨operand.legible_toForm h, trivial⟩
  | thru operand => exact ⟨operand.legible_toForm h, trivial⟩
  | otherwise => trivial

mutual

theorem Stmt.legible_toForm (s : Stmt β) (h : Part.Legible s.parts) : s.toForm.Legible := by
  cases s with
  | expression value =>
    have hvalue : Part.Legible value.parts := by simpa [Stmt.parts] using h
    rw [Stmt.toForm, Form.Legible]
    exact ⟨Form.legible_symbol rfl, value.legible_toForm hvalue, trivial⟩
  | print value =>
    have hvalue : Part.Legible value.parts := by simpa [Stmt.parts] using h
    rw [Stmt.toForm, Form.Legible]
    exact ⟨Form.legible_keyword _, value.legible_toForm hvalue, trivial⟩
  | var name initializer =>
    cases initializer with
    | none =>
      have hname : (Word.identifier name.text).Legible := by simpa [Stmt.parts] using h
      rw [Stmt.toForm, Form.Legible]
      exact ⟨Form.legible_keyword _, Form.legible_name hname, trivial⟩
    | some value =>
      obtain ⟨hname, hvalue⟩ : (Word.identifier name.text).Legible ∧ Part.Legible value.parts := by
        simpa [Stmt.parts] using h
      rw [Stmt.toForm, Form.Legible]
      exact ⟨Form.legible_keyword _, Form.legible_name hname, value.legible_toForm hvalue, trivial⟩
  | block body =>
    rw [Stmt.toForm, Form.Legible]
    exact ⟨Form.legible_head _ rfl rfl rfl rfl,
      Stmt.legible_toForms body (by simpa [Stmt.parts] using h)⟩
  | branch condition yes no =>
    cases no with
    | none =>
      obtain ⟨hcondition, hyes⟩ : Part.Legible condition.parts ∧ Part.Legible yes.parts := by
        simpa [Stmt.parts] using h
      rw [Stmt.toForm, Form.Legible]
      exact ⟨Form.legible_keyword _, condition.legible_toForm hcondition, yes.legible_toForm hyes,
        trivial⟩
    | some no =>
      obtain ⟨hcondition, hyes, hno⟩ : Part.Legible condition.parts ∧ Part.Legible yes.parts ∧
          Part.Legible no.parts := by simpa [Stmt.parts] using h
      rw [Stmt.toForm, Form.Legible]
      exact ⟨Form.legible_head _ rfl rfl rfl rfl, condition.legible_toForm hcondition,
        yes.legible_toForm hyes, no.legible_toForm hno, trivial⟩
  | whileLoop condition body =>
    obtain ⟨hcondition, hbody⟩ : Part.Legible condition.parts ∧ Part.Legible body.parts := by
      simpa [Stmt.parts] using h
    rw [Stmt.toForm, Form.Legible]
    exact ⟨Form.legible_keyword _, condition.legible_toForm hcondition, body.legible_toForm hbody,
      trivial⟩
  | doWhile body condition =>
    obtain ⟨hbody, hcondition⟩ : Part.Legible body.parts ∧ Part.Legible condition.parts := by
      simpa [Stmt.parts] using h
    rw [Stmt.toForm, Form.Legible]
    exact ⟨Form.legible_head _ rfl rfl rfl rfl, body.legible_toForm hbody,
      condition.legible_toForm hcondition, trivial⟩
  | breakLoop line =>
    rw [Stmt.toForm, Form.Legible]
    exact ⟨Form.legible_keyword _, trivial⟩
  | continueLoop line =>
    rw [Stmt.toForm, Form.Legible]
    exact ⟨Form.legible_keyword _, trivial⟩
  | returnValue line value =>
    cases value with
    | none =>
      rw [Stmt.toForm, Form.Legible]
      exact ⟨Form.legible_keyword _, trivial⟩
    | some value =>
      have hvalue : Part.Legible value.parts := by simpa [Stmt.parts] using h
      rw [Stmt.toForm, Form.Legible]
      exact ⟨Form.legible_keyword _, value.legible_toForm hvalue, trivial⟩
  | function decl =>
    rw [Stmt.toForm]
    exact decl.legible_toForm (by simpa [Stmt.parts] using h)
  | classDecl name superclass methods =>
    rw [Stmt.toForm, Form.Legible]
    rcases superclass with _ | ⟨parent, mark⟩
    · obtain ⟨hname, hmethods⟩ : (Word.identifier name.text).Legible ∧
          Part.Legible (Function.allParts methods) := by simpa [Stmt.parts] using h
      exact ⟨Form.legible_keyword _, Form.legible_name hname,
        Function.legible_toForms methods hmethods⟩
    · obtain ⟨hname, hparent, hmethods⟩ : (Word.identifier name.text).Legible ∧
          (Word.identifier parent.text).Legible ∧ Part.Legible (Function.allParts methods) := by
        simpa [Stmt.parts] using h
      exact ⟨Form.legible_keyword _, Form.legible_name hname, Form.legible_symbol rfl,
        Form.legible_name hparent, Function.legible_toForms methods hmethods⟩
  | marker line m =>
    rw [Stmt.toForm]
    exact m.legible_toForm (by simpa [Stmt.parts] using h)

theorem Stmt.legible_toForms (ss : List (Stmt β)) (h : Part.Legible (Stmt.allParts ss)) :
    Form.AllLegible (Stmt.toForms ss) := by
  cases ss with
  | nil => trivial
  | cons s ss =>
    rw [Stmt.allParts, Part.legible_append] at h
    exact ⟨s.legible_toForm h.1, Stmt.legible_toForms ss h.2⟩

theorem Function.legible_toForm (f : Function β) (h : Part.Legible f.parts) :
    f.toForm.Legible := by
  obtain ⟨name, params, body⟩ := f
  obtain ⟨hname, hparams, hbody⟩ : (Word.identifier name.text).Legible ∧
      (∀ n ∈ params, (Word.identifier n.text).Legible) ∧ Part.Legible (Stmt.allParts body) := by
    simpa [Function.parts, Name.eachParts] using h
  rw [Function.toForm, Form.Legible]
  refine ⟨Form.legible_keyword _, Form.legible_name hname, ?_, Stmt.legible_toForms body hbody⟩
  rw [Form.Legible]
  exact Form.legible_names hparams

theorem Function.legible_toForms (fs : List (Function β))
    (h : Part.Legible (Function.allParts fs)) : Form.AllLegible (Function.toForms fs) := by
  cases fs with
  | nil => trivial
  | cons f fs =>
    rw [Function.allParts, Part.legible_append] at h
    exact ⟨f.legible_toForm h.1, Function.legible_toForms fs h.2⟩

end

theorem Program.toList_form (program : Program β) :
    program.form.toList = [' '].intercalate (Form.texts (Stmt.toForms program)) := by
  rw [Program.form, ← Stmt.toList_forms]
  simp

namespace Source

/-- **The form of a program tells the program.** Two programs that have been read without a report
and have the same form are the same tree, with the same names, operators and values: they differ at
most in their lines. -/
theorem form_determines_program {endLine endLine' : Int} {ts ts' : List Token}
    (hts : ∀ t ∈ ts, t.word.Legible) (hts' : ∀ t ∈ ts', t.word.Legible)
    (h : (ofTokens endLine ts).diagnostics = []) (h' : (ofTokens endLine' ts').diagnostics = [])
    (hform : (ofTokens endLine ts).program.form = (ofTokens endLine' ts').program.form) :
    (ofTokens endLine ts).program.mapLines (fun _ => 0) =
      (ofTokens endLine' ts').program.mapLines (fun _ => 0) := by
  have hlegible : Form.AllLegible (Stmt.toForms (ofTokens endLine ts).program) :=
    Stmt.legible_toForms _ ((found_ofTokens endLine h).2.legible hts)
  have hlegible' : Form.AllLegible (Stmt.toForms (ofTokens endLine' ts').program) :=
    Stmt.legible_toForms _ ((found_ofTokens endLine' h').2.legible hts')
  have htext := congrArg String.toList hform
  rw [Program.toList_form, Program.toList_form] at htext
  exact Stmt.eq_of_toForms_eq _ _ (Form.eq_of_intercalate_eq hlegible hlegible' htext)

/-- A parameter that is named like a head, a string with a parenthesis in it, and a minus sign
before one operand and between two, on one line and on several. -/
theorem form_determines_program_lines :
    let ts := (Scan.ofText "fun f(call, x) \x7b x.y = call(\"a ) b\")[1.5] - -x; \x7d").tokens
    let ts' :=
      (Scan.ofText "fun f(call, x)\n\x7b\n x.y =\ncall(\"a ) b\")[1.50]\n- -x; \x7d").tokens
    (∀ t ∈ ts, t.word.Legible) ∧ (∀ t ∈ ts', t.word.Legible) ∧
      (ofTokens 1 ts).diagnostics = [] ∧ (ofTokens 5 ts').diagnostics = [] ∧
      (ofTokens 1 ts).program.form = (ofTokens 5 ts').program.form ∧
      (ofTokens 1 ts).program.mapLines (fun _ => 0) =
        (ofTokens 5 ts').program.mapLines fun _ => 0 := by
  intro ts ts'
  have hts : ∀ t ∈ ts, t.word.Legible := Scan.legible_of_isFinite (by decide +kernel)
  have hts' : ∀ t ∈ ts', t.word.Legible := Scan.legible_of_isFinite (by decide +kernel)
  have h : (ofTokens 1 ts).diagnostics = [] := by decide +kernel
  have h' : (ofTokens 5 ts').diagnostics = [] := by decide +kernel
  have hform : (ofTokens 1 ts).program.form = (ofTokens 5 ts').program.form := by decide +kernel
  exact ⟨hts, hts', h, h', hform, form_determines_program hts hts' h h' hform⟩

end Source

end LoxLang
