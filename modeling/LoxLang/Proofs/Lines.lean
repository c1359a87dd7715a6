import LoxLang.Proofs.Spelling

/-!
# Programs on other lines

Lines are the only thing that a program keeps of where its words stand. `Program.mapLines` applies a
function to all of them. A program on other lines is written as before, with its words on other
lines (`Program.parts_mapLines`), and it can be read back if it could before
(`Program.grammatical_mapLines`).
-/

namespace LoxLang

variable {β : Type}

/-! ### Moving to other lines -/

section

variable (f : Int → Int)

/-- Apply a function to the line of a name. -/
def Name.mapLine (n : Name) : Name := ⟨n.text, f n.line⟩

/-- Apply a function to the line of a token. -/
def Token.mapLine (t : Token) : Token := ⟨t.word, f t.line⟩

/-- Apply a function to the line of a diagnostic. -/
def Diagnostic.mapLine (d : Diagnostic) : Diagnostic := ⟨f d.line, d.place, d.error⟩

/-- Apply a function to the line of a part. -/
def Part.mapLine : Part → Part
  | .word w line excess => .word w (line.map f) excess
  | .parens => .parens

mutual

/-- Apply a function to the lines of an expression. -/
def Expr.mapLines : Expr β → Expr β
  | .constant value => .constant value
  | .group inner => .group inner.mapLines
  | .unary op line operand => .unary op (f line) operand.mapLines
  | .binary left op line right => .binary left.mapLines op (f line) right.mapLines
  | .logical left op line right => .logical left.mapLines op (f line) right.mapLines
  | .var name mark => .var (name.mapLine f) mark
  | .assign name value mark => .assign (name.mapLine f) value.mapLines mark
  | .call callee arguments line => .call callee.mapLines (Expr.mapAllLines arguments) (f line)
  | .list elements line => .list (Expr.mapAllLines elements) (f line)
  | .map entries line => .map (Expr.mapEntryLines entries) (f line)
  | .index container position line => .index container.mapLines position.mapLines (f line)
  | .setIndex container position value line =>
    .setIndex container.mapLines position.mapLines value.mapLines (f line)
  | .get object name => .get object.mapLines (name.mapLine f)
  | .set object name value => .set object.mapLines (name.mapLine f) value.mapLines
  | .thisRef line mark => .thisRef (f line) mark
  | .superRef line method mark => .superRef (f line) (method.mapLine f) mark

/-- Apply a function to the lines of expressions. -/
def Expr.mapAllLines : List (Expr β) → List (Expr β)
  | [] => []
  | e :: es => e.mapLines :: Expr.mapAllLines es

/-- Apply a function to the lines of map entries. -/
def Expr.mapEntryLines : List (Expr β × Expr β) → List (Expr β × Expr β)
  | [] => []
  | (key, value) :: entries => (key.mapLines, value.mapLines) :: Expr.mapEntryLines entries

end

/-- Apply a function to the lines of a marker. -/
def Marker.mapLines : Marker β → Marker β
  | .set name value => .set (name.mapLine f) (value.mapLines f)
  | .build root mark path arguments =>
    .build (root.mapLine f) mark (path.map (Name.mapLine f)) (Expr.mapAllLines f arguments)
  | .walk operand => .walk (operand.mapLines f)
  | .check operand => .check (operand.mapLines f)
  | .thru operand => .thru (operand.mapLines f)
  | .otherwise => .otherwise

mutual

/-- Apply a function to the lines of a statement. -/
def Stmt.mapLines : Stmt β → Stmt β
  | .expression value => .expression (value.mapLines f)
  | .print value => .print (value.mapLines f)
  | .var name initializer => .var (name.mapLine f) (initializer.map (Expr.mapLines f))
  | .block body => .block (Stmt.mapAllLines body)
  | .branch condition yes none => .branch (condition.mapLines f) yes.mapLines none
  | .branch condition yes (some no) =>
    .branch (condition.mapLines f) yes.mapLines (some no.mapLines)
  | .whileLoop condition body => .whileLoop (condition.mapLines f) body.mapLines
  | .doWhile body condition => .doWhile body.mapLines (condition.mapLines f)
  | .breakLoop line => .breakLoop (f line)
  | .continueLoop line => .continueLoop (f line)
  | .returnValue line value => .returnValue (f line) (value.map (Expr.mapLines f))
  | .function decl => .function decl.mapLines
  | .classDecl name superclass methods =>
    .classDecl (name.mapLine f) (superclass.map fun (parent, mark) => (parent.mapLine f, mark))
      (Function.mapAllLines methods)
  | .marker line m => .marker (f line) (m.mapLines f)

/-- Apply a function to the lines of statements. -/
def Stmt.mapAllLines : List (Stmt β) → List (Stmt β)
  | [] => []
  | s :: ss => s.mapLines :: Stmt.mapAllLines ss

/-- Apply a function to the lines of a function. -/
def Function.mapLines : Function β → Function β
  | ⟨name, params, body⟩ => ⟨name.mapLine f, params.map (Name.mapLine f), Stmt.mapAllLines body⟩

/-- Apply a function to the lines of functions. -/
def Function.mapAllLines : List (Function β) → List (Function β)
  | [] => []
  | decl :: decls => decl.mapLines :: Function.mapAllLines decls

end

/-- Apply a function to the lines of a program. -/
def Program.mapLines (program : Program β) : Program β := Stmt.mapAllLines f program

end

variable {f : Int → Int}

@[simp] theorem Name.text_mapLine (n : Name) : (n.mapLine f).text = n.text := rfl

@[simp] theorem Name.token_mapLine (n : Name) : (n.mapLine f).token = n.token.mapLine f := rfl

@[simp] theorem Function.name_mapLines (g : Function β) :
    (g.mapLines f).name = g.name.mapLine f := by
  cases g
  rfl

/-! ### How the programs are written -/

namespace Part

@[simp] theorem mapLine_symbol (s : Symbol) : (symbol s).mapLine f = symbol s := rfl

@[simp] theorem mapLine_symbolAt (s : Symbol) (line : Int) :
    (symbolAt s line).mapLine f = symbolAt s (f line) := rfl

@[simp] theorem mapLine_keyword (k : Keyword) : (keyword k).mapLine f = keyword k := rfl

@[simp] theorem mapLine_keywordAt (k : Keyword) (line : Int) :
    (keywordAt k line).mapLine f = keywordAt k (f line) := rfl

@[simp] theorem mapLine_name (n : Name) : (name n).mapLine f = name (n.mapLine f) := rfl

@[simp] theorem first?_map (ps : List Part) : first? (ps.map (mapLine f)) = first? ps := by
  rcases ps with _ | ⟨_ | _, _⟩ <;> rfl

theorem map_report (what : String) (ps : List Part) :
    (report what ps).map (mapLine f) = report what (ps.map (mapLine f)) := by
  rcases ps with _ | ⟨_ | _, _⟩ <;> rfl

@[simp] theorem map_capped (what : String) (position : Nat) (pss : List (List Part)) :
    (capped what position pss).map (List.map (mapLine f)) =
      capped what position (pss.map (List.map (mapLine f))) := by
  induction pss generalizing position with
  | nil => rfl
  | cons ps pss ih =>
    simp only [capped, List.map_cons, ih]
    split
    · rw [map_report]
    · rfl

@[simp] theorem map_separated (pss : List (List Part)) :
    (separated pss).map (mapLine f) = separated (pss.map (List.map (mapLine f))) := by
  induction pss with
  | nil => rfl
  | cons ps pss ih =>
    cases pss with
    | nil => rfl
    | cons qs pss =>
      simp only [separated, List.map_append, List.map_cons, mapLine_symbol] at ih ⊢
      rw [ih]

@[simp] theorem map_optional (pss : List (List Part)) :
    (Part.optional pss).map (mapLine f) = Part.optional (pss.map (List.map (mapLine f))) := by
  cases pss with
  | nil => rfl
  | cons ps pss => simp [Part.optional]

end Part

/-- The tokens of a phrase on other lines are the tokens on those lines. -/
theorem Spans.mapLine {ps : List Part} {ts rest : List Token} {ds : List Diagnostic}
    (h : Spans ps ts rest ds) : Spans (ps.map (Part.mapLine f)) (ts.map (Token.mapLine f))
      (rest.map (Token.mapLine f)) (ds.map (Diagnostic.mapLine f)) := by
  induction h with
  | nil => exact .nil
  | @word w line excess ps t ts rest ds hword hline h ih =>
    have hreport : ((excess.map fun what => Diagnostic.atToken t (.tooMany what)).toList).map
        (Diagnostic.mapLine f) =
          (excess.map fun what => Diagnostic.atToken (t.mapLine f) (.tooMany what)).toList := by
      cases excess <;> rfl
    rw [List.map_append, hreport]
    refine .word hword (fun l hl => ?_) ih
    obtain ⟨l', hl', rfl⟩ := Option.map_eq_some_iff.1 hl
    exact congrArg f (hline l' hl')
  | noParens _ ih => exact .noParens ih
  | parens ht hu _ ih => exact .parens ht hu ih

open LoxLang.Part

mutual

theorem Expr.parts_mapLines (e : Expr β) : (e.mapLines f).parts = e.parts.map (Part.mapLine f) := by
  cases e with
  | constant => rfl
  | group inner => simp [Expr.mapLines, parts, inner.parts_mapLines]
  | unary op line operand => simp [Expr.mapLines, parts, operand.parts_mapLines]
  | binary left op line right =>
    simp [Expr.mapLines, parts, left.parts_mapLines, right.parts_mapLines]
  | logical left op line right =>
    simp [Expr.mapLines, parts, left.parts_mapLines, right.parts_mapLines]
  | var => rfl
  | assign name value mark => simp [Expr.mapLines, parts, value.parts_mapLines]
  | call callee arguments line =>
    simp [Expr.mapLines, parts, callee.parts_mapLines, Expr.eachParts_mapLines arguments]
  | list elements line => simp [Expr.mapLines, parts, Expr.eachParts_mapLines elements]
  | map entries line => simp [Expr.mapLines, parts, Expr.entryParts_mapLines entries]
  | index container position line =>
    simp [Expr.mapLines, parts, container.parts_mapLines, position.parts_mapLines]
  | setIndex container position value line =>
    simp [Expr.mapLines, parts, container.parts_mapLines, position.parts_mapLines,
      value.parts_mapLines]
  | get object name => simp [Expr.mapLines, parts, object.parts_mapLines]
  | set object name value =>
    simp [Expr.mapLines, parts, object.parts_mapLines, value.parts_mapLines]
  | thisRef => rfl
  | superRef => rfl

theorem Expr.eachParts_mapLines (es : List (Expr β)) :
    eachParts (mapAllLines f es) = (eachParts es).map (List.map (Part.mapLine f)) := by
  cases es with
  | nil => rfl
  | cons e es => simp [mapAllLines, eachParts, e.parts_mapLines, Expr.eachParts_mapLines es]

theorem Expr.entryParts_mapLines (entries : List (Expr β × Expr β)) :
    entryParts (mapEntryLines f entries) =
      (entryParts entries).map (List.map (Part.mapLine f)) := by
  cases entries with
  | nil => rfl
  | cons entry entries =>
    obtain ⟨key, value⟩ := entry
    simp [mapEntryLines, entryParts, key.parts_mapLines, value.parts_mapLines,
      Expr.entryParts_mapLines entries]

end

theorem Marker.parts_mapLines (m : Marker β) :
    (m.mapLines f).parts = m.parts.map (Part.mapLine f) := by
  cases m with
  | build root mark path arguments =>
    simp [Marker.mapLines, parts, Expr.eachParts_mapLines, List.flatMap_map, List.map_flatMap]
  | _ => simp [Marker.mapLines, parts, Expr.parts_mapLines]

theorem Name.eachParts_mapLines (names : List Name) :
    eachParts (names.map (mapLine f)) = (eachParts names).map (List.map (Part.mapLine f)) := by
  simp [eachParts]

mutual

theorem Stmt.parts_mapLines (s : Stmt β) : (s.mapLines f).parts = s.parts.map (Part.mapLine f) := by
  cases s with
  | var name initializer =>
    cases initializer <;> simp [Stmt.mapLines, Stmt.parts, Expr.parts_mapLines]
  | block body => simp [Stmt.mapLines, Stmt.parts, Stmt.allParts_mapLines body]
  | branch condition yes no =>
    cases no with
    | none => simp [Stmt.mapLines, Stmt.parts, Expr.parts_mapLines, yes.parts_mapLines]
    | some no =>
      simp [Stmt.mapLines, Stmt.parts, Expr.parts_mapLines, yes.parts_mapLines, no.parts_mapLines]
  | whileLoop condition body =>
    simp [Stmt.mapLines, Stmt.parts, Expr.parts_mapLines, body.parts_mapLines]
  | doWhile body condition =>
    simp [Stmt.mapLines, Stmt.parts, Expr.parts_mapLines, body.parts_mapLines]
  | returnValue line value =>
    cases value <;> simp [Stmt.mapLines, Stmt.parts, Expr.parts_mapLines]
  | function decl => simp [Stmt.mapLines, Stmt.parts, decl.parts_mapLines]
  | classDecl name superclass methods =>
    rcases superclass with _ | ⟨parent, mark⟩ <;>
      simp [Stmt.mapLines, Stmt.parts, Function.allParts_mapLines methods]
  | marker line m =>
    have hkeyword : (m.mapLines f).keyword = m.keyword := by cases m <;> rfl
    simp [Stmt.mapLines, Stmt.parts, m.parts_mapLines, hkeyword]
  | _ => simp [Stmt.mapLines, Stmt.parts, Expr.parts_mapLines]

theorem Stmt.allParts_mapLines (ss : List (Stmt β)) :
    Stmt.allParts (Stmt.mapAllLines f ss) = (Stmt.allParts ss).map (Part.mapLine f) := by
  cases ss with
  | nil => rfl
  | cons s ss => simp [Stmt.mapAllLines, Stmt.allParts, s.parts_mapLines, Stmt.allParts_mapLines ss]

theorem Function.parts_mapLines (g : Function β) :
    (g.mapLines f).parts = g.parts.map (Part.mapLine f) := by
  obtain ⟨name, params, body⟩ := g
  simp [Function.mapLines, Function.parts, Name.eachParts_mapLines, Stmt.allParts_mapLines body]

theorem Function.allParts_mapLines (gs : List (Function β)) :
    Function.allParts (Function.mapAllLines f gs) =
      (Function.allParts gs).map (Part.mapLine f) := by
  cases gs with
  | nil => rfl
  | cons g gs =>
    simp [Function.mapAllLines, Function.allParts, g.parts_mapLines, Function.allParts_mapLines gs]

end

theorem Program.parts_mapLines (program : Program β) :
    (program.mapLines f).parts = program.parts.map (Part.mapLine f) :=
  Stmt.allParts_mapLines program

/-! ### Which of the programs can be read -/

section

variable {fits : Nat → Prop}

@[simp] theorem Expr.rank_mapLines (e : Expr β) : (e.mapLines f).rank = e.rank := by
  cases e <;> rfl

@[simp] theorem Expr.length_mapAllLines (es : List (Expr β)) :
    (mapAllLines f es).length = es.length := by
  induction es with
  | nil => rfl
  | cons e es ih => simp [mapAllLines, ih]

@[simp] theorem Stmt.declared?_mapLines (s : Stmt β) :
    (s.mapLines f).declared? = s.declared?.map (Name.mapLine f) := by
  cases s with
  | branch condition yes no => cases no <;> rfl
  | function decl => cases decl; rfl
  | _ => rfl

@[simp] theorem Stmt.isOpen_mapLines (s : Stmt β) : (s.mapLines f).isOpen = s.isOpen := by
  cases s with
  | branch condition yes no =>
    cases no with
    | none => rfl
    | some no => exact no.isOpen_mapLines
  | whileLoop condition body => exact body.isOpen_mapLines
  | _ => rfl

mutual

theorem Expr.grammatical_mapLines (e : Expr β) :
    (e.mapLines f).Grammatical fits ↔ e.Grammatical fits := by
  cases e with
  | constant | var | thisRef | superRef => rfl
  | group inner => exact inner.grammatical_mapLines
  | unary op line operand =>
    simp [Expr.mapLines, Expr.Grammatical, operand.grammatical_mapLines]
  | binary left op line right =>
    simp [Expr.mapLines, Expr.Grammatical, left.grammatical_mapLines, right.grammatical_mapLines]
  | logical left op line right =>
    simp [Expr.mapLines, Expr.Grammatical, left.grammatical_mapLines, right.grammatical_mapLines]
  | assign name value mark => exact value.grammatical_mapLines
  | call callee arguments line =>
    simp [Expr.mapLines, Expr.Grammatical, callee.grammatical_mapLines,
      Expr.allGrammatical_mapLines arguments]
  | list elements line => exact Expr.allGrammatical_mapLines elements
  | map entries line => exact Expr.entriesGrammatical_mapLines entries
  | index container position line =>
    simp [Expr.mapLines, Expr.Grammatical, container.grammatical_mapLines,
      position.grammatical_mapLines]
  | setIndex container position value line =>
    simp [Expr.mapLines, Expr.Grammatical, container.grammatical_mapLines,
      position.grammatical_mapLines, value.grammatical_mapLines]
  | get object name => simp [Expr.mapLines, Expr.Grammatical, object.grammatical_mapLines]
  | set object name value =>
    simp [Expr.mapLines, Expr.Grammatical, object.grammatical_mapLines, value.grammatical_mapLines]

theorem Expr.allGrammatical_mapLines (es : List (Expr β)) :
    Expr.AllGrammatical fits (Expr.mapAllLines f es) ↔ Expr.AllGrammatical fits es := by
  cases es with
  | nil => rfl
  | cons e es => exact and_congr e.grammatical_mapLines (Expr.allGrammatical_mapLines es)

theorem Expr.entriesGrammatical_mapLines (entries : List (Expr β × Expr β)) :
    Expr.EntriesGrammatical fits (Expr.mapEntryLines f entries) ↔
      Expr.EntriesGrammatical fits entries := by
  cases entries with
  | nil => rfl
  | cons entry entries =>
    exact and_congr entry.1.grammatical_mapLines
      (and_congr entry.2.grammatical_mapLines (Expr.entriesGrammatical_mapLines entries))

end

theorem Expr.optionGrammatical_mapLines (e : Option (Expr β)) :
    OptionGrammatical fits (e.map (Expr.mapLines f)) ↔ OptionGrammatical fits e := by
  cases e with
  | none => rfl
  | some e => exact e.grammatical_mapLines

theorem Marker.grammatical_mapLines (m : Marker β) :
    (m.mapLines f).Grammatical fits ↔ m.Grammatical fits := by
  cases m with
  | build root mark path arguments => exact Expr.allGrammatical_mapLines arguments
  | otherwise => rfl
  | set name e | walk e | check e | thru e => exact e.grammatical_mapLines

mutual

theorem Stmt.grammatical_mapLines (s : Stmt β) :
    (s.mapLines f).Grammatical fits ↔ s.Grammatical fits := by
  cases s with
  | expression value =>
    simp [Stmt.mapLines, Stmt.Grammatical, Expr.grammatical_mapLines, Expr.parts_mapLines]
  | print value => exact value.grammatical_mapLines
  | var name initializer => exact Expr.optionGrammatical_mapLines initializer
  | block body => exact Stmt.allGrammatical_mapLines body
  | branch condition yes no =>
    cases no with
    | none =>
      simp [Stmt.mapLines, Stmt.Grammatical, Expr.grammatical_mapLines, yes.grammatical_mapLines]
    | some no =>
      simp [Stmt.mapLines, Stmt.Grammatical, Expr.grammatical_mapLines, yes.grammatical_mapLines,
        no.grammatical_mapLines]
  | whileLoop condition body =>
    simp [Stmt.mapLines, Stmt.Grammatical, Expr.grammatical_mapLines, body.grammatical_mapLines]
  | doWhile body condition =>
    simp [Stmt.mapLines, Stmt.Grammatical, Expr.grammatical_mapLines, body.grammatical_mapLines]
  | breakLoop | continueLoop => rfl
  | returnValue line value => exact Expr.optionGrammatical_mapLines value
  | function decl => exact decl.grammatical_mapLines
  | classDecl name superclass methods => exact Function.allGrammatical_mapLines methods
  | marker line m => exact m.grammatical_mapLines

theorem Stmt.allGrammatical_mapLines (ss : List (Stmt β)) :
    Stmt.AllGrammatical fits (Stmt.mapAllLines f ss) ↔ Stmt.AllGrammatical fits ss := by
  cases ss with
  | nil => rfl
  | cons s ss => exact and_congr s.grammatical_mapLines (Stmt.allGrammatical_mapLines ss)

theorem Function.grammatical_mapLines (g : Function β) :
    (g.mapLines f).Grammatical fits ↔ g.Grammatical fits := by
  obtain ⟨name, params, body⟩ := g
  simp [Function.mapLines, Function.Grammatical, Stmt.allGrammatical_mapLines body]

theorem Function.allGrammatical_mapLines (gs : List (Function β)) :
    Function.AllGrammatical fits (Function.mapAllLines f gs) ↔ Function.AllGrammatical fits gs := by
  cases gs with
  | nil => rfl
  | cons g gs => exact and_congr g.grammatical_mapLines (Function.allGrammatical_mapLines gs)

end

theorem Program.grammatical_mapLines (program : Program β) :
    (program.mapLines f).Grammatical fits ↔ program.Grammatical fits :=
  Stmt.allGrammatical_mapLines program

end

/-! ### Staying on the same lines -/

mutual

theorem Expr.mapLines_id (e : Expr β) : e.mapLines id = e := by
  cases e with
  | constant => rfl
  | group inner => simp only [mapLines, inner.mapLines_id]
  | unary op line operand => simp only [mapLines, operand.mapLines_id, id_eq]
  | binary left op line right => simp only [mapLines, left.mapLines_id, right.mapLines_id, id_eq]
  | logical left op line right => simp only [mapLines, left.mapLines_id, right.mapLines_id, id_eq]
  | var => rfl
  | assign name value mark => simp only [mapLines, value.mapLines_id, Name.mapLine, id_eq]
  | call callee arguments line =>
    simp only [mapLines, callee.mapLines_id, mapAllLines_id arguments, id_eq]
  | list elements line => simp only [mapLines, mapAllLines_id elements, id_eq]
  | map entries line => simp only [mapLines, mapEntryLines_id entries, id_eq]
  | index container position line =>
    simp only [mapLines, container.mapLines_id, position.mapLines_id, id_eq]
  | setIndex container position value line =>
    simp only [mapLines, container.mapLines_id, position.mapLines_id, value.mapLines_id, id_eq]
  | get object name => simp only [mapLines, object.mapLines_id, Name.mapLine, id_eq]
  | set object name value =>
    simp only [mapLines, object.mapLines_id, value.mapLines_id, Name.mapLine, id_eq]
  | thisRef => rfl
  | superRef => rfl

theorem Expr.mapAllLines_id (es : List (Expr β)) : mapAllLines id es = es := by
  cases es with
  | nil => rfl
  | cons e es => simp only [mapAllLines, e.mapLines_id, mapAllLines_id es]

theorem Expr.mapEntryLines_id (entries : List (Expr β × Expr β)) :
    mapEntryLines id entries = entries := by
  cases entries with
  | nil => rfl
  | cons entry entries =>
    obtain ⟨key, value⟩ := entry
    simp only [mapEntryLines, key.mapLines_id, value.mapLines_id, mapEntryLines_id entries]

end

theorem Name.map_mapLine_id (names : List Name) : names.map (mapLine id) = names :=
  List.map_id names

theorem Expr.map_mapLines_id (e : Option (Expr β)) : e.map (mapLines id) = e := by
  cases e with
  | none => rfl
  | some e => rw [Option.map_some, e.mapLines_id]

theorem Marker.mapLines_id (m : Marker β) : m.mapLines id = m := by
  cases m with
  | build root mark path arguments =>
    rw [mapLines, Name.map_mapLine_id, Expr.mapAllLines_id]
    rfl
  | set name value =>
    rw [mapLines, Expr.mapLines_id]
    rfl
  | _ => simp only [mapLines, Expr.mapLines_id]

mutual

theorem Stmt.mapLines_id (s : Stmt β) : s.mapLines id = s := by
  cases s with
  | var name initializer =>
    rw [Stmt.mapLines, Expr.map_mapLines_id]
    rfl
  | block body => rw [Stmt.mapLines, Stmt.mapAllLines_id body]
  | branch condition yes no =>
    cases no with
    | none => rw [Stmt.mapLines, Expr.mapLines_id, yes.mapLines_id]
    | some no => rw [Stmt.mapLines, Expr.mapLines_id, yes.mapLines_id, no.mapLines_id]
  | whileLoop condition body => rw [Stmt.mapLines, Expr.mapLines_id, body.mapLines_id]
  | doWhile body condition => rw [Stmt.mapLines, Expr.mapLines_id, body.mapLines_id]
  | returnValue line value => rw [Stmt.mapLines, Expr.map_mapLines_id, id_eq]
  | function decl => rw [Stmt.mapLines, decl.mapLines_id]
  | classDecl name superclass methods =>
    rw [Stmt.mapLines, Function.mapAllLines_id methods]
    cases superclass <;> rfl
  | marker line m => rw [Stmt.mapLines, m.mapLines_id, id_eq]
  | _ => simp only [Stmt.mapLines, Expr.mapLines_id, id_eq]

theorem Stmt.mapAllLines_id (ss : List (Stmt β)) : Stmt.mapAllLines id ss = ss := by
  cases ss with
  | nil => rfl
  | cons s ss => rw [Stmt.mapAllLines, s.mapLines_id, Stmt.mapAllLines_id ss]

theorem Function.mapLines_id (g : Function β) : g.mapLines id = g := by
  obtain ⟨name, params, body⟩ := g
  rw [Function.mapLines, Name.map_mapLine_id, Stmt.mapAllLines_id body]
  rfl

theorem Function.mapAllLines_id (gs : List (Function β)) : Function.mapAllLines id gs = gs := by
  cases gs with
  | nil => rfl
  | cons g gs => rw [Function.mapAllLines, g.mapLines_id, Function.mapAllLines_id gs]

end

theorem Program.mapLines_id (program : Program β) : program.mapLines id = program :=
  Stmt.mapAllLines_id program

end LoxLang
