import LoxLang.Proofs.Lookahead

/-!
# Writing and reading

Reading undoes writing (`Source.reads_back`). A program that is as the grammar has it is read from
its words again, on whichever lines they stand. What is reported is that there are too many
parameters or arguments, once for each beyond the largest count (`Program.excess`).
-/

namespace LoxLang

variable {β : Type}

/-! ### What is reported -/

mutual

/-- How many arguments of calls there are beyond the largest count. -/
def Expr.excess : Expr β → Nat
  | .constant _ | .var .. | .thisRef .. | .superRef .. => 0
  | .group inner => inner.excess
  | .unary _ _ operand => operand.excess
  | .binary left _ _ right => left.excess + right.excess
  | .logical left _ _ right => left.excess + right.excess
  | .assign _ value _ => value.excess
  | .call callee arguments _ =>
    callee.excess + (arguments.length - maxArguments + Expr.allExcess arguments)
  | .list elements _ => Expr.allExcess elements
  | .map entries _ => Expr.entryExcess entries
  | .index container position _ => container.excess + position.excess
  | .setIndex container position value _ => container.excess + (position.excess + value.excess)
  | .get object _ => object.excess
  | .set object _ value => object.excess + value.excess

/-- The excess of expressions. -/
def Expr.allExcess : List (Expr β) → Nat
  | [] => 0
  | e :: es => e.excess + Expr.allExcess es

/-- The excess of map entries. -/
def Expr.entryExcess : List (Expr β × Expr β) → Nat
  | [] => 0
  | (key, value) :: entries => key.excess + (value.excess + Expr.entryExcess entries)

end

/-- The excess of a marker, whose own arguments have no largest count. -/
def Marker.excess : Marker β → Nat
  | .set _ value => value.excess
  | .build _ _ _ arguments => Expr.allExcess arguments
  | .walk operand | .check operand | .thru operand => operand.excess
  | .otherwise => 0

mutual

/-- How many arguments and parameters there are beyond the largest count. -/
def Stmt.excess : Stmt β → Nat
  | .expression value | .print value => value.excess
  | .var _ none | .returnValue _ none | .breakLoop _ | .continueLoop _ => 0
  | .var _ (some value) | .returnValue _ (some value) => value.excess
  | .block body => Stmt.allExcess body
  | .branch condition yes none => condition.excess + yes.excess
  | .branch condition yes (some no) => condition.excess + (yes.excess + no.excess)
  | .whileLoop condition body => condition.excess + body.excess
  | .doWhile body condition => body.excess + condition.excess
  | .function decl => decl.excess
  | .classDecl _ _ methods => Function.allExcess methods
  | .marker _ m => m.excess

/-- The excess of statements. -/
def Stmt.allExcess : List (Stmt β) → Nat
  | [] => 0
  | s :: ss => s.excess + Stmt.allExcess ss

/-- The excess of a function. -/
def Function.excess : Function β → Nat
  | ⟨_, params, body⟩ => params.length - maxArguments + Stmt.allExcess body

/-- The excess of functions. -/
def Function.allExcess : List (Function β) → Nat
  | [] => 0
  | g :: gs => g.excess + Function.allExcess gs

end

/-- How many arguments and parameters of a program there are beyond the largest count. -/
def Program.excess (program : Program β) : Nat := Stmt.allExcess program

namespace Part

/-- It is reported at a word that there are too many. -/
def exceeds : Part → Bool
  | .word _ _ excess => excess.isSome
  | .parens => false

/-- How often it is reported that there are too many. -/
def excess (ps : List Part) : Nat := ps.countP exceeds

@[simp] theorem excess_nil : excess [] = 0 := rfl

@[simp] theorem excess_append (ps qs : List Part) : excess (ps ++ qs) = excess ps + excess qs :=
  List.countP_append

@[simp] theorem excess_word (w : Word) (line : Option Int) (ps : List Part) :
    excess (.word w line none :: ps) = excess ps := rfl

@[simp] theorem excess_report (w : Word) (line : Option Int) (what : String) (ps : List Part) :
    excess (.word w line (some what) :: ps) = excess ps + 1 := List.countP_cons_of_pos rfl

@[simp] theorem excess_symbol (s : Symbol) (ps : List Part) :
    excess (symbol s :: ps) = excess ps := rfl

@[simp] theorem excess_symbolAt (s : Symbol) (line : Int) (ps : List Part) :
    excess (symbolAt s line :: ps) = excess ps := rfl

@[simp] theorem excess_keyword (k : Keyword) (ps : List Part) :
    excess (keyword k :: ps) = excess ps := rfl

@[simp] theorem excess_keywordAt (k : Keyword) (line : Int) (ps : List Part) :
    excess (keywordAt k line :: ps) = excess ps := rfl

@[simp] theorem excess_name (n : Name) (ps : List Part) : excess (name n :: ps) = excess ps := rfl

@[simp] theorem excess_separated (pss : List (List Part)) :
    excess (separated pss) = excess pss.flatten := by
  induction pss with
  | nil => rfl
  | cons ps pss ih =>
    cases pss with
    | nil => simp [separated]
    | cons ps' pss => simp only [separated, excess_append, excess_symbol, ih, List.flatten_cons]

theorem excess_map_mapLine (f : Int → Int) (ps : List Part) :
    excess (ps.map (mapLine f)) = excess ps := by
  rw [excess, List.countP_map]
  refine List.countP_congr fun p _ => ?_
  cases p <;> rfl

/-- One report comes in for each phrase beyond the largest count. -/
theorem excess_capped {what : String} {position : Nat} {pss : List (List Part)}
    (hpss : ∀ ps ∈ pss, ∃ w line ps', ps = .word w line none :: ps') :
    excess (capped what position pss).flatten =
      position + pss.length - max position maxArguments + excess pss.flatten := by
  induction pss generalizing position with
  | nil => simp [capped, Nat.sub_eq_zero_of_le (Nat.le_max_left _ _)]
  | cons ps pss ih =>
    obtain ⟨w, line, ps', rfl⟩ := hpss ps List.mem_cons_self
    have hlater : excess (capped what (position + 1) pss).flatten =
        position + 1 + pss.length - max (position + 1) maxArguments + excess pss.flatten :=
      ih fun ps hps => hpss ps (List.mem_cons_of_mem _ hps)
    simp only [capped, List.flatten_cons, excess_append, excess_word, List.length_cons, hlater]
    split
    · rw [report, excess_report]
      omega
    · rw [excess_word]
      omega

end Part

/-- An expression begins with a word about which nothing is reported. -/
theorem Expr.begins_of_mem {es : List (Expr β)} :
    ∀ ps ∈ eachParts es, ∃ w line ps', ps = .word w line none :: ps' := by
  induction es with
  | nil => exact fun ps hps => nomatch hps
  | cons e es ih =>
    intro ps hps
    cases hps with
    | head =>
      obtain ⟨w, line, ps', hps, -⟩ := e.exists_parts fun _ => True
      exact ⟨w, line, ps', hps⟩
    | tail _ hps => exact ih ps hps

theorem Name.begins_of_mem {names : List Name} :
    ∀ ps ∈ eachParts names, ∃ w line ps', ps = .word w line none :: ps' := by
  intro ps hps
  obtain ⟨name, -, rfl⟩ := List.mem_map.1 hps
  exact ⟨_, _, _, rfl⟩

open LoxLang.Part

mutual

theorem Expr.excess_parts (e : Expr β) : Part.excess e.parts = e.excess := by
  cases e with
  | constant | var | thisRef | superRef => rfl
  | group inner => simp [parts, Expr.excess, inner.excess_parts]
  | unary op line operand => simp [parts, Expr.excess, operand.excess_parts]
  | binary left op line right => simp [parts, Expr.excess, left.excess_parts, right.excess_parts]
  | logical left op line right => simp [parts, Expr.excess, left.excess_parts, right.excess_parts]
  | assign name value mark => simp [parts, Expr.excess, value.excess_parts]
  | call callee arguments line =>
    simp [parts, Expr.excess, callee.excess_parts, excess_capped Expr.begins_of_mem,
      Expr.length_eachParts, Expr.excess_eachParts arguments]
  | list elements line => simp [parts, Expr.excess, Expr.excess_eachParts elements]
  | map entries line => simp [parts, Expr.excess, Expr.excess_entryParts entries]
  | index container position line =>
    simp [parts, Expr.excess, container.excess_parts, position.excess_parts]
  | setIndex container position value line =>
    simp [parts, Expr.excess, container.excess_parts, position.excess_parts, value.excess_parts]
  | get object name => simp [parts, Expr.excess, object.excess_parts]
  | set object name value => simp [parts, Expr.excess, object.excess_parts, value.excess_parts]

theorem Expr.excess_eachParts (es : List (Expr β)) :
    Part.excess (Expr.eachParts es).flatten = Expr.allExcess es := by
  cases es with
  | nil => rfl
  | cons e es => simp [eachParts, allExcess, e.excess_parts, Expr.excess_eachParts es]

theorem Expr.excess_entryParts (entries : List (Expr β × Expr β)) :
    Part.excess (Expr.entryParts entries).flatten = Expr.entryExcess entries := by
  cases entries with
  | nil => rfl
  | cons entry entries =>
    obtain ⟨key, value⟩ := entry
    simp [entryParts, entryExcess, key.excess_parts, value.excess_parts,
      Expr.excess_entryParts entries]

end

theorem Marker.excess_parts (m : Marker β) : Part.excess m.parts = m.excess := by
  cases m with
  | set name value => simp [parts, Marker.excess, value.excess_parts]
  | build root mark path arguments =>
    have hpath : Part.excess (path.flatMap fun name => [symbol .dot, .name name]) = 0 := by
      induction path with
      | nil => rfl
      | cons name path ih => exact ih
    have hoptional : Part.excess (Part.optional (Expr.eachParts arguments)) =
        Part.excess (Expr.eachParts arguments).flatten := by
      cases arguments with
      | nil => rfl
      | cons e es => simp [Expr.eachParts, Part.optional]
    simp [parts, Marker.excess, hpath, hoptional, Expr.excess_eachParts]
  | walk operand => exact operand.excess_parts
  | check operand => exact operand.excess_parts
  | thru operand => exact operand.excess_parts
  | otherwise => rfl

mutual

theorem Stmt.excess_parts (s : Stmt β) : Part.excess s.parts = s.excess := by
  cases s with
  | expression value => simp [Stmt.parts, Stmt.excess, value.excess_parts]
  | print value => simp [Stmt.parts, Stmt.excess, value.excess_parts]
  | var name initializer =>
    cases initializer <;> simp [Stmt.parts, Stmt.excess, Expr.excess_parts]
  | block body => simp [Stmt.parts, Stmt.excess, Stmt.excess_allParts body]
  | branch condition yes no =>
    cases no with
    | none => simp [Stmt.parts, Stmt.excess, Expr.excess_parts, yes.excess_parts]
    | some no =>
      simp [Stmt.parts, Stmt.excess, Expr.excess_parts, yes.excess_parts, no.excess_parts]
  | whileLoop condition body =>
    simp [Stmt.parts, Stmt.excess, Expr.excess_parts, body.excess_parts]
  | doWhile body condition =>
    simp [Stmt.parts, Stmt.excess, Expr.excess_parts, body.excess_parts]
  | breakLoop | continueLoop => rfl
  | returnValue line value =>
    cases value <;> simp [Stmt.parts, Stmt.excess, Expr.excess_parts]
  | function decl => simp [Stmt.parts, Stmt.excess, decl.excess_parts]
  | classDecl name superclass methods =>
    rcases superclass with _ | ⟨parent, mark⟩ <;>
      simp [Stmt.parts, Stmt.excess, Function.excess_allParts methods]
  | marker line m => simp [Stmt.parts, Stmt.excess, m.excess_parts]

theorem Stmt.excess_allParts (ss : List (Stmt β)) :
    Part.excess (Stmt.allParts ss) = Stmt.allExcess ss := by
  cases ss with
  | nil => rfl
  | cons s ss => simp [Stmt.allParts, Stmt.allExcess, s.excess_parts, Stmt.excess_allParts ss]

theorem Function.excess_parts (g : Function β) : Part.excess g.parts = g.excess := by
  obtain ⟨name, params, body⟩ := g
  have hparams : Part.excess (Name.eachParts params).flatten = 0 := by
    induction params with
    | nil => rfl
    | cons name params ih => exact ih
  have hlength : (Name.eachParts params).length = params.length := List.length_map _
  simp [Function.parts, Function.excess, excess_capped Name.begins_of_mem, hparams, hlength,
    Stmt.excess_allParts body]

theorem Function.excess_allParts (gs : List (Function β)) :
    Part.excess (Function.allParts gs) = Function.allExcess gs := by
  cases gs with
  | nil => rfl
  | cons g gs =>
    simp [Function.allParts, Function.allExcess, g.excess_parts, Function.excess_allParts gs]

end

theorem Program.excess_parts (program : Program β) : Part.excess program.parts = program.excess :=
  Stmt.excess_allParts program

/-- A report stands for a word that is one too many. -/
theorem Spans.reports {ps : List Part} {ts rest : List Token} {ds : List Diagnostic}
    (h : Spans ps ts rest ds) :
    ds.length = Part.excess ps ∧ ∀ d ∈ ds, ∃ t ∈ ts, ∃ what, d = .atToken t (.tooMany what) := by
  induction h with
  | nil => exact ⟨rfl, fun _ h => nomatch h⟩
  | @word w line excess ps t ts rest ds _ _ _ ih =>
    have hlater : ∀ d ∈ ds, ∃ u ∈ t :: ts, ∃ what, d = .atToken u (.tooMany what) := by
      intro d hd
      obtain ⟨u, hu, hd⟩ := ih.2 d hd
      exact ⟨u, List.mem_cons_of_mem _ hu, hd⟩
    cases excess with
    | none => exact ⟨ih.1, hlater⟩
    | some what =>
      refine ⟨?_, fun d hd => ?_⟩
      · rw [excess_report, ← ih.1]
        rfl
      · cases hd with
        | head => exact ⟨t, List.mem_cons_self, what, rfl⟩
        | tail _ hd => exact hlater d hd
  | noParens _ ih => exact ih
  | parens ht hu _ ih =>
    refine ⟨ih.1, fun d hd => ?_⟩
    obtain ⟨u, hu, hd⟩ := ih.2 d hd
    exact ⟨u, List.mem_cons_of_mem _ (List.mem_cons_of_mem _ hu), hd⟩

/-! ### Writing -/

namespace Part

/-- The tokens of a part, on the given line if the tree has none. -/
def tokens (line : Int) : Part → List Token
  | .word w own _ => [⟨w, own.getD line⟩]
  | .parens => []

/-- What is reported about the tokens of a part. -/
def reports (line : Int) : Part → List Diagnostic
  | .word w own excess =>
    (excess.map fun what => .atToken ⟨w, own.getD line⟩ (.tooMany what)).toList
  | .parens => []

end Part

/-- The tokens of a program, on the given line where it has none. -/
def Program.tokens (line : Int) (program : Program β) : List Token :=
  program.parts.flatMap (Part.tokens line)

/-- What is reported about the tokens of a program. -/
def Program.reports (line : Int) (program : Program β) : List Diagnostic :=
  program.parts.flatMap (Part.reports line)

theorem Program.spells_tokens (line : Int) (program : Program β) :
    program.Spells (program.tokens line) (program.reports line) := by
  unfold Spells tokens reports
  induction program.parts with
  | nil => exact .nil
  | cons p ps ih =>
    cases p with
    | word w own excess =>
      refine .word rfl ?_ ih
      rintro l rfl
      rfl
    | parens => exact .noParens ih

namespace Source

/-- Tokens of a grammatical program are read as that program. -/
theorem ofText_of_tokens {text : String} {program : Program Unit} {line endLine : Int}
    (hprogram : program.Grammatical fun _ => True)
    (hscan : Scan.ofText text = ⟨program.tokens line, endLine, []⟩) :
    ofText text = ⟨program, program.reports line⟩ := by
  rw [ofText, ofScan, hscan,
    ofTokens_of_spells endLine hprogram (program.spells_tokens line)]
  rfl

/-- **Programs are read back.** A program that is as the grammar has it is read from its tokens
again. Apart from what `f` forgets about lines, the same holds of all tokens that are its words. It
is reported once for each parameter and for each argument of a call beyond the largest count that
there are too many, and nothing else is. -/
theorem reads_back (endLine : Int) (program : Program Unit)
    (hprogram : program.Grammatical fun _ => True) :
    (∀ line, ofTokens endLine (program.tokens line) = ⟨program, program.reports line⟩) ∧
      ∀ (f : Int → Int) (ts : List Token) (ds : List Diagnostic),
        (program.mapLines f).Spells (ts.map (Token.mapLine f)) ds →
          let source := ofTokens endLine ts
          source.program.mapLines f = program.mapLines f ∧
            source.diagnostics.map (Diagnostic.mapLine f) = ds ∧
            source.diagnostics.length = program.excess ∧
            ∀ d ∈ source.diagnostics, ∃ t ∈ ts, ∃ what, d = .atToken t (.tooMany what) := by
  refine ⟨fun line => ofTokens_of_spells endLine hprogram (program.spells_tokens line), ?_⟩
  intro f ts ds h
  have hread : (ofTokens endLine ts).mapLines f = ⟨program.mapLines f, ds⟩ := by
    rw [← ofTokens_mapLine,
      ofTokens_of_spells _ ((Program.grammatical_mapLines program).2 hprogram) h]
  obtain ⟨hlines, rfl⟩ := Source.mk.inj hread
  obtain ⟨hlength, hreports⟩ := Spans.reports h
  refine ⟨hlines, rfl, ?_, fun d hd => ?_⟩
  · rwa [List.length_map, Program.parts_mapLines, Part.excess_map_mapLine, program.excess_parts]
      at hlength
  · -- What is reported on other lines is not about the end of the tokens, and so this is not
    -- either.
    obtain ⟨us, error, hus, rfl⟩ := complains_ofTokens endLine ts d hd
    obtain ⟨t', -, what, heq⟩ := hreports _ (List.mem_map_of_mem hd)
    obtain ⟨-, hplace, herror⟩ := Diagnostic.mk.inj heq
    cases us with
    | nil => cases hplace
    | cons t us =>
      obtain rfl : error = .tooMany what := herror
      exact ⟨t, hus.subset List.mem_cons_self, what, rfl⟩

/-- A function with one parameter too many, and a conditional that would be another one without its
braces. -/
theorem reads_back_excess :
    let inner : Stmt Unit :=
      .branch (.var ⟨"b", 2⟩ ()) (.print (.unary .negate 2 (.var ⟨"c", 2⟩ ()))) none
    let other : Stmt Unit :=
      .expression (.setIndex (.var ⟨"d", 3⟩ ()) (.constant .nil) (.list [] 3) 3)
    let body : List (Stmt Unit) := [.branch (.var ⟨"a", 1⟩ ()) (.block [inner]) (some other)]
    let program : Program Unit := [.function ⟨⟨"f", 1⟩, List.replicate 256 ⟨"x", 1⟩, body⟩]
    program.Grammatical (fun _ => True) ∧
      ofTokens 3 (program.tokens 1) = ⟨program, program.reports 1⟩ ∧
      (ofTokens 3 (program.tokens 1)).diagnostics.length = 1 := by
  intro inner other body program
  have hprogram : program.Grammatical fun _ => True := by
    simp [program, body, inner, other, Program.Grammatical, Stmt.AllGrammatical, Stmt.Grammatical,
      Function.Grammatical, Expr.Grammatical, Expr.AllGrammatical, Expr.rank, Stmt.declared?,
      Stmt.isOpen, Expr.parts, Part.first?, Part.name]
  obtain ⟨hread, hlines⟩ := reads_back 3 program hprogram
  -- All lines are forgotten, so the second part applies to the tokens of the program itself.
  have hspells := (program.spells_tokens 1).mapLine (f := fun _ => 0)
  rw [← Program.parts_mapLines] at hspells
  obtain ⟨-, -, hlength, -⟩ := hlines (fun _ => 0) (program.tokens 1) _ hspells
  have hexcess : program.excess = 1 := by decide +kernel
  exact ⟨hprogram, hread 1, hlength.trans hexcess⟩

end Source

end LoxLang
