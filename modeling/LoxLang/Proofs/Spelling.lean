import LoxLang.Proofs.Grammar

/-!
# How programs are written

`Program.parts` writes a program out as the words that a reader has to find for it, and `Spans` says
that tokens are those words. What the tree keeps of a token has to agree: the word, of a number only
the value, and the line where the tree has one. The parts also tell at which words something is
reported, which is the case for parameters and arguments beyond the largest count.

Not every tree can be read back. `Program.Grammatical` says which can: operands are at least as
strong as the operator needs them to be, and what stands in a branch does not take the `else` of
another one.
-/

namespace LoxLang

variable {β : Type}

/-- The word, with only the value of a number. -/
def Word.plain : Word → Word
  | number _ value => number "" value
  | w => w

theorem Word.plain_eq_symbol {w : Word} {s : Symbol} : w.plain = .symbol s ↔ w = .symbol s := by
  cases w <;> simp [plain]

theorem Word.plain_eq_keyword {w : Word} {k : Keyword} : w.plain = .keyword k ↔ w = .keyword k := by
  cases w <;> simp [plain]

theorem Word.plain_eq_identifier {w : Word} {x : String} :
    w.plain = .identifier x ↔ w = .identifier x := by
  cases w <;> simp [plain]

theorem Word.ne_symbol {v w : Word} (h : v.plain = w.plain) {s : Symbol} (hw : w ≠ .symbol s) :
    v ≠ .symbol s := by
  rintro rfl
  exact hw (plain_eq_symbol.1 h.symm)

theorem Word.ne_keyword {v w : Word} (h : v.plain = w.plain) {k : Keyword} (hw : w ≠ .keyword k) :
    v ≠ .keyword k := by
  rintro rfl
  exact hw (plain_eq_keyword.1 h.symm)

theorem Name.token_eq (n : Name) {t : Token} (hword : t.word.plain = .identifier n.text)
    (hline : t.line = n.line) : t = n.token := by
  obtain ⟨w, line⟩ := t
  cases Word.plain_eq_identifier.1 hword
  exact congrArg (Token.mk _) hline

/-- What a phrase is made of when it is written out. -/
inductive Part where
  /-- A word, with its line if the tree has it, and with what there are too many of when it
  comes. -/
  | word (w : Word) (line : Option Int) (excess : Option String)
  /-- A pair of parentheses with nothing in it, or nothing at all. -/
  | parens
deriving DecidableEq

namespace Part

/-- A symbol on any line. -/
def symbol (s : Symbol) : Part := .word (.symbol s) none none

/-- A symbol on the given line. -/
def symbolAt (s : Symbol) (line : Int) : Part := .word (.symbol s) (some line) none

/-- A keyword on any line. -/
def keyword (k : Keyword) : Part := .word (.keyword k) none none

/-- A keyword on the given line. -/
def keywordAt (k : Keyword) (line : Int) : Part := .word (.keyword k) (some line) none

/-- A name. -/
def name (n : Name) : Part := .word (.identifier n.text) (some n.line) none

/-- The word that a phrase begins with. -/
def first? : List Part → Option Word
  | .word w _ _ :: _ => some w
  | _ => none

/-- Report at the first word of a phrase that there are too many. -/
def report (what : String) : List Part → List Part
  | .word w line _ :: ps => .word w line (some what) :: ps
  | ps => ps

/-- Report the phrases beyond the largest count. The first of them has the given position. -/
def capped (what : String) (position : Nat) : List (List Part) → List (List Part)
  | [] => []
  | ps :: pss =>
    (if maxArguments ≤ position then report what ps else ps) ::
      capped what (position + 1) pss

/-- Phrases with commas between them. -/
def separated : List (List Part) → List Part
  | [] => []
  | [ps] => ps
  | ps :: qs :: pss => ps ++ symbol .comma :: separated (qs :: pss)

/-- Phrases in parentheses, which may be left out if there are none. -/
def optional : List (List Part) → List Part
  | [] => [.parens]
  | ps :: pss => symbol .leftParen :: (separated (ps :: pss) ++ [symbol .rightParen])

end Part

open LoxLang.Part

/-- The tokens `ts`, up to the tokens `rest`, are the given parts, and `ds` is what is reported
about them. -/
inductive Spans : List Part → (ts rest : List Token) → (ds : List Diagnostic) → Prop where
  | nil {ts : List Token} : Spans [] ts ts []
  | word {w : Word} {line : Option Int} {excess : Option String} {ps : List Part} {t : Token}
    {ts rest : List Token} {ds : List Diagnostic} (hword : t.word.plain = w.plain)
    (hline : ∀ l, line = some l → t.line = l) (h : Spans ps ts rest ds) :
    Spans (.word w line excess :: ps) (t :: ts) rest
      ((excess.map fun what => .atToken t (.tooMany what)).toList ++ ds)
  | noParens {ps : List Part} {ts rest : List Token} {ds : List Diagnostic}
    (h : Spans ps ts rest ds) : Spans (.parens :: ps) ts rest ds
  | parens {ps : List Part} {t u : Token} {ts rest : List Token} {ds : List Diagnostic}
    (ht : t.word = .symbol .leftParen) (hu : u.word = .symbol .rightParen)
    (h : Spans ps ts rest ds) : Spans (.parens :: ps) (t :: u :: ts) rest ds

namespace Spans

variable {ps qs : List Part} {t : Token} {ts mid rest : List Token} {ds ds' : List Diagnostic}

theorem append (h : Spans ps ts mid ds) (h' : Spans qs mid rest ds') :
    Spans (ps ++ qs) ts rest (ds ++ ds') := by
  induction h with
  | nil => exact h'
  | word hword hline _ ih =>
    rw [List.append_assoc]
    exact .word hword hline (ih h')
  | noParens _ ih => exact .noParens (ih h')
  | parens ht hu _ ih => exact .parens ht hu (ih h')

/-- The first token is the first word. -/
theorem first {w : Word} (h : Spans ps ts rest ds) (hw : first? ps = some w) :
    ∃ t later, ts = t :: later ∧ t.word.plain = w.plain := by
  cases h with
  | nil => cases hw
  | word hword => exact ⟨_, _, rfl, hword.trans (congrArg Word.plain (Option.some.inj hw))⟩
  | noParens => cases hw
  | parens => cases hw

theorem symbol {s : Symbol} (ht : t.word = .symbol s) (h : Spans ps ts rest ds) :
    Spans (.symbol s :: ps) (t :: ts) rest ds :=
  .word (by rw [ht]) (by simp) h

theorem symbolAt {s : Symbol} (ht : t.word = .symbol s) (h : Spans ps ts rest ds) :
    Spans (.symbolAt s t.line :: ps) (t :: ts) rest ds :=
  .word (by rw [ht]) (by simp) h

theorem name {n : Name} (ht : t = n.token) (h : Spans ps ts rest ds) :
    Spans (.name n :: ps) (t :: ts) rest ds :=
  .word (by rw [ht]; rfl) (by simp [ht, Name.token, Token.ofName]) h

/-! The other way around, tokens come apart as the parts do. -/

theorem of_nil (h : Spans [] ts rest ds) : ts = rest ∧ ds = [] := by
  cases h
  exact ⟨rfl, rfl⟩

theorem of_append (h : Spans (ps ++ qs) ts rest ds) :
    ∃ mid d₁ d₂, Spans ps ts mid d₁ ∧ Spans qs mid rest d₂ ∧ ds = d₁ ++ d₂ := by
  induction ps generalizing ts ds with
  | nil => exact ⟨ts, [], ds, .nil, h, rfl⟩
  | cons p ps ih =>
    cases h with
    | word hword hline h =>
      obtain ⟨mid, d₁, d₂, hps, hqs, rfl⟩ := ih h
      exact ⟨mid, _, d₂, .word hword hline hps, hqs, (List.append_assoc ..).symm⟩
    | noParens h =>
      obtain ⟨mid, d₁, d₂, hps, hqs, rfl⟩ := ih h
      exact ⟨mid, d₁, d₂, .noParens hps, hqs, rfl⟩
    | parens ht hu h =>
      obtain ⟨mid, d₁, d₂, hps, hqs, rfl⟩ := ih h
      exact ⟨mid, d₁, d₂, .parens ht hu hps, hqs, rfl⟩

theorem of_symbol {s : Symbol} (h : Spans (.symbol s :: ps) ts rest ds) :
    ∃ t later, ts = t :: later ∧ t.word = .symbol s ∧ Spans ps later rest ds := by
  cases h with
  | word hword _ h => exact ⟨_, _, rfl, Word.plain_eq_symbol.1 hword, h⟩

theorem of_lastSymbol {s : Symbol} (h : Spans [.symbol s] ts rest ds) :
    ∃ t, ts = t :: rest ∧ t.word = .symbol s ∧ ds = [] := by
  obtain ⟨t, later, rfl, ht, hnil⟩ := h.of_symbol
  obtain ⟨rfl, rfl⟩ := hnil.of_nil
  exact ⟨t, rfl, ht, rfl⟩

theorem of_symbolAt {s : Symbol} {line : Int} (h : Spans (.symbolAt s line :: ps) ts rest ds) :
    ∃ t later, ts = t :: later ∧ t.word = .symbol s ∧ line = t.line ∧ Spans ps later rest ds := by
  cases h with
  | word hword hline h =>
    exact ⟨_, _, rfl, Word.plain_eq_symbol.1 hword, (hline line rfl).symm, h⟩

theorem of_keyword {k : Keyword} (h : Spans (.keyword k :: ps) ts rest ds) :
    ∃ t later, ts = t :: later ∧ t.word = .keyword k ∧ Spans ps later rest ds := by
  cases h with
  | word hword _ h => exact ⟨_, _, rfl, Word.plain_eq_keyword.1 hword, h⟩

theorem of_keywordAt {k : Keyword} {line : Int} (h : Spans (.keywordAt k line :: ps) ts rest ds) :
    ∃ t later, ts = t :: later ∧ t.word = .keyword k ∧ line = t.line ∧ Spans ps later rest ds := by
  cases h with
  | word hword hline h =>
    exact ⟨_, _, rfl, Word.plain_eq_keyword.1 hword, (hline line rfl).symm, h⟩

theorem of_name {n : Name} (h : Spans (.name n :: ps) ts rest ds) :
    ∃ later, ts = n.token :: later ∧ Spans ps later rest ds := by
  cases h with
  | word hword hline h =>
    obtain rfl := n.token_eq hword (hline n.line rfl)
    exact ⟨_, rfl, h⟩

/-- There may be more tokens afterwards. -/
theorem append_tokens (h : Spans ps ts rest ds) (us : List Token) :
    Spans ps (ts ++ us) (rest ++ us) ds := by
  induction h with
  | nil => exact .nil
  | word hword hline _ ih => exact .word hword hline ih
  | noParens _ ih => exact .noParens ih
  | parens ht hu _ ih => exact .parens ht hu ih

end Spans

/-! ### Writing out -/

/-- The word of a constant. -/
def Constant.word : Constant → Word
  | nil => .keyword .nilWord
  | bool true => .keyword .trueWord
  | bool false => .keyword .falseWord
  | number x => .number "" x
  | string s => .string s

mutual

/-- Write out an expression. -/
def Expr.parts : Expr β → List Part
  | .constant value => [.word value.word none none]
  | .group inner => symbol .leftParen :: (inner.parts ++ [symbol .rightParen])
  | .unary op line operand => symbolAt op.symbol line :: operand.parts
  | .binary left op line right => left.parts ++ symbolAt op.symbol line :: right.parts
  | .logical left op line right => left.parts ++ keywordAt op.keyword line :: right.parts
  | .var name _ => [.name name]
  | .assign name value _ => .name name :: symbol .equal :: value.parts
  | .call callee arguments line =>
    callee.parts ++ symbol .leftParen ::
      (separated (capped "arguments" 0 (Expr.eachParts arguments)) ++ [symbolAt .rightParen line])
  | .list elements line =>
    symbolAt .leftBracket line :: (separated (Expr.eachParts elements) ++ [symbol .rightBracket])
  | .map entries line =>
    symbolAt .leftBrace line :: (separated (Expr.entryParts entries) ++ [symbol .rightBrace])
  | .index container position line =>
    container.parts ++ symbolAt .leftBracket line :: (position.parts ++ [symbol .rightBracket])
  | .setIndex container position value line =>
    container.parts ++ symbolAt .leftBracket line ::
      (position.parts ++ symbol .rightBracket :: symbol .equal :: value.parts)
  | .get object name => object.parts ++ [symbol .dot, .name name]
  | .set object name value =>
    object.parts ++ symbol .dot :: .name name :: symbol .equal :: value.parts
  | .thisRef line _ => [keywordAt .thisWord line]
  | .superRef line method _ => [keywordAt .superWord line, symbol .dot, .name method]

/-- Write out expressions one by one. -/
def Expr.eachParts : List (Expr β) → List (List Part)
  | [] => []
  | e :: es => e.parts :: Expr.eachParts es

/-- Write out the entries of a map one by one. -/
def Expr.entryParts : List (Expr β × Expr β) → List (List Part)
  | [] => []
  | (key, value) :: entries =>
    (key.parts ++ symbol .colon :: value.parts) :: Expr.entryParts entries

end

/-- Write out what is between the keyword of a marker and its end. Without arguments, the
parentheses of `build` may be left out. -/
def Marker.parts : Marker β → List Part
  | .set name value => .name name :: symbol .equal :: value.parts
  | .build root _ path arguments =>
    .name root :: (path.flatMap (fun name => [symbol .dot, .name name]) ++
      Part.optional (Expr.eachParts arguments))
  | .walk operand => operand.parts
  | .check operand => operand.parts
  | .thru operand => operand.parts
  | .otherwise => []

/-- Write out parameters one by one. -/
def Name.eachParts (names : List Name) : List (List Part) := names.map fun name => [.name name]

mutual

/-- Write out a statement. -/
def Stmt.parts : Stmt β → List Part
  | .expression value => value.parts ++ [symbol .semicolon]
  | .print value => keyword .printWord :: (value.parts ++ [symbol .semicolon])
  | .var name none => [keyword .varWord, .name name, symbol .semicolon]
  | .var name (some value) =>
    keyword .varWord :: .name name :: symbol .equal :: (value.parts ++ [symbol .semicolon])
  | .block body => symbol .leftBrace :: (Stmt.allParts body ++ [symbol .rightBrace])
  | .branch condition yes none =>
    keyword .ifWord :: symbol .leftParen :: (condition.parts ++ symbol .rightParen :: yes.parts)
  | .branch condition yes (some no) =>
    keyword .ifWord :: symbol .leftParen :: (condition.parts ++ symbol .rightParen ::
      (yes.parts ++ keyword .elseWord :: no.parts))
  | .whileLoop condition body =>
    keyword .whileWord :: symbol .leftParen :: (condition.parts ++ symbol .rightParen :: body.parts)
  | .doWhile body condition =>
    keyword .doWord :: (body.parts ++ keyword .whileWord :: symbol .leftParen ::
      (condition.parts ++ [symbol .rightParen, symbol .semicolon]))
  | .breakLoop line => [keywordAt .breakWord line, symbol .semicolon]
  | .continueLoop line => [keywordAt .continueWord line, symbol .semicolon]
  | .returnValue line none => [keywordAt .returnWord line, symbol .semicolon]
  | .returnValue line (some value) =>
    keywordAt .returnWord line :: (value.parts ++ [symbol .semicolon])
  | .function decl => keyword .funWord :: decl.parts
  | .classDecl name none methods =>
    keyword .classWord :: .name name :: symbol .leftBrace ::
      (Function.allParts methods ++ [symbol .rightBrace])
  | .classDecl name (some (parent, _)) methods =>
    keyword .classWord :: .name name :: symbol .less :: .name parent :: symbol .leftBrace ::
      (Function.allParts methods ++ [symbol .rightBrace])
  | .marker line m => keywordAt m.keyword line :: (m.parts ++ [symbol .semicolon])

/-- Write out statements one after the other. -/
def Stmt.allParts : List (Stmt β) → List Part
  | [] => []
  | s :: ss => s.parts ++ Stmt.allParts ss

/-- Write out a function from its name on. -/
def Function.parts : Function β → List Part
  | ⟨name, params, body⟩ =>
    .name name :: symbol .leftParen ::
      (separated (capped "parameters" 0 (Name.eachParts params)) ++ symbol .rightParen ::
        symbol .leftBrace :: (Stmt.allParts body ++ [symbol .rightBrace]))

/-- Write out methods one after the other. -/
def Function.allParts : List (Function β) → List Part
  | [] => []
  | f :: fs => f.parts ++ Function.allParts fs

end

/-- Write out a program. -/
def Program.parts (program : Program β) : List Part := Stmt.allParts program

/-- The tokens are the program as it is written, apart from lines that it does not have, and `ds` is
what is reported about them. -/
def Program.Spells (program : Program β) (ts : List Token) (ds : List Diagnostic) : Prop :=
  Spans program.parts ts [] ds

/-! ### Trees that can be read -/

/-- How strong an operator is, in the order of the ladder. -/
def Operator.rank : Operator → Nat
  | logical .or => 2
  | logical .and => 3
  | binary .equal | binary .notEqual => 4
  | binary .less | binary .lessEqual | binary .greater | binary .greaterEqual => 5
  | binary .add | binary .subtract => 6
  | binary .multiply | binary .divide | binary .remainder => 7

/-- How strong an expression is: 1 for assignments, from 2 to 7 for operators between operands, 8
for operators before an operand, and 9 for operands with what follows them. -/
def Expr.rank : Expr β → Nat
  | .assign .. | .set .. | .setIndex .. => 1
  | .logical _ op _ _ => (Operator.logical op).rank
  | .binary _ op _ _ => (Operator.binary op).rank
  | .unary .. => 8
  | _ => 9

section

variable (fits : Nat → Prop)

mutual

/-- An expression as it can be read: weaker expressions are operands of stronger ones only in
parentheses or brackets, and operators of one strength group to the left. `fits` holds of the counts
that arguments and parameters may have. -/
def Expr.Grammatical : Expr β → Prop
  | .constant _ => True
  | .group inner => inner.Grammatical
  | .unary _ _ operand => operand.Grammatical ∧ 8 ≤ operand.rank
  | .binary left op _ right =>
    left.Grammatical ∧ (Operator.binary op).rank ≤ left.rank ∧
      right.Grammatical ∧ (Operator.binary op).rank < right.rank
  | .logical left op _ right =>
    left.Grammatical ∧ (Operator.logical op).rank ≤ left.rank ∧
      right.Grammatical ∧ (Operator.logical op).rank < right.rank
  | .var .. => True
  | .assign _ value _ => value.Grammatical
  | .call callee arguments _ =>
    callee.Grammatical ∧ 9 ≤ callee.rank ∧ Expr.AllGrammatical arguments ∧ fits arguments.length
  | .list elements _ => Expr.AllGrammatical elements
  | .map entries _ => Expr.EntriesGrammatical entries
  | .index container position _ =>
    container.Grammatical ∧ 9 ≤ container.rank ∧ position.Grammatical
  | .setIndex container position value _ =>
    container.Grammatical ∧ 9 ≤ container.rank ∧ position.Grammatical ∧ value.Grammatical
  | .get object _ => object.Grammatical ∧ 9 ≤ object.rank
  | .set object _ value => object.Grammatical ∧ 9 ≤ object.rank ∧ value.Grammatical
  | .thisRef .. => True
  | .superRef .. => True

/-- All of the expressions are as they can be read. -/
def Expr.AllGrammatical : List (Expr β) → Prop
  | [] => True
  | e :: es => e.Grammatical ∧ Expr.AllGrammatical es

/-- All of the entries are as they can be read. -/
def Expr.EntriesGrammatical : List (Expr β × Expr β) → Prop
  | [] => True
  | (key, value) :: entries =>
    key.Grammatical ∧ value.Grammatical ∧ Expr.EntriesGrammatical entries

end

/-- The expression, if there is one, is as it can be read. -/
def Expr.OptionGrammatical : Option (Expr β) → Prop
  | none => True
  | some e => e.Grammatical fits

/-- The operands of a marker are as they can be read. -/
def Marker.Grammatical : Marker β → Prop
  | .set _ value => value.Grammatical fits
  | .build _ _ _ arguments => Expr.AllGrammatical fits arguments
  | .walk operand => operand.Grammatical fits
  | .check operand => operand.Grammatical fits
  | .thru operand => operand.Grammatical fits
  | .otherwise => True

/-- The statement ends in a conditional without `else`, which would take one that follows. -/
def Stmt.isOpen : Stmt β → Bool
  | .branch _ _ none => true
  | .branch _ _ (some no) => no.isOpen
  | .whileLoop _ body => body.isOpen
  | _ => false

mutual

/-- A statement as it can be read: what it contains can be read, what a branch or a loop contains is
not a declaration, each `else` belongs to the nearest `if`, and an expression that is a statement
does not begin like a block. -/
def Stmt.Grammatical : Stmt β → Prop
  | .expression value =>
    value.Grammatical fits ∧ first? value.parts ≠ some (.symbol .leftBrace)
  | .print value => value.Grammatical fits
  | .var _ initializer => Expr.OptionGrammatical fits initializer
  | .block body => Stmt.AllGrammatical body
  | .branch condition yes none =>
    condition.Grammatical fits ∧ yes.Grammatical ∧ yes.declared? = none
  | .branch condition yes (some no) =>
    condition.Grammatical fits ∧ yes.Grammatical ∧ yes.declared? = none ∧ yes.isOpen = false ∧
      no.Grammatical ∧ no.declared? = none
  | .whileLoop condition body =>
    condition.Grammatical fits ∧ body.Grammatical ∧ body.declared? = none
  | .doWhile body condition =>
    body.Grammatical ∧ body.declared? = none ∧ condition.Grammatical fits
  | .breakLoop _ => True
  | .continueLoop _ => True
  | .returnValue _ value => Expr.OptionGrammatical fits value
  | .function decl => decl.Grammatical
  | .classDecl _ _ methods => Function.AllGrammatical methods
  | .marker _ m => m.Grammatical fits

/-- All of the statements are as they can be read. -/
def Stmt.AllGrammatical : List (Stmt β) → Prop
  | [] => True
  | s :: ss => s.Grammatical ∧ Stmt.AllGrammatical ss

/-- The body of a function is as it can be read, and the count of its parameters fits. -/
def Function.Grammatical : Function β → Prop
  | ⟨_, params, body⟩ => fits params.length ∧ Stmt.AllGrammatical body

/-- All of the functions are as they can be read. -/
def Function.AllGrammatical : List (Function β) → Prop
  | [] => True
  | f :: fs => f.Grammatical ∧ Function.AllGrammatical fs

end

/-- A program as it can be read. -/
def Program.Grammatical (program : Program β) : Prop := Stmt.AllGrammatical fits program

end

/-- The count of arguments or parameters is not too large. -/
abbrev Fits (count : Nat) : Prop := count ≤ maxArguments

theorem Part.capped_of_fits {what : String} {position : Nat} {pss : List (List Part)}
    (h : Fits (position + pss.length)) : capped what position pss = pss := by
  induction pss generalizing position with
  | nil => rfl
  | cons ps pss ih =>
    simp only [Fits, List.length_cons] at h
    rw [capped, if_neg (by omega), ih (by show _ ≤ _; omega)]

theorem Expr.length_eachParts (es : List (Expr β)) : (eachParts es).length = es.length := by
  induction es with
  | nil => rfl
  | cons e es ih => rw [eachParts, List.length_cons, List.length_cons, ih]

/-- The tokens do not begin with `else`. -/
def NoElse (ts : List Token) : Prop := ∀ t rest, ts = t :: rest → t.word ≠ .keyword .elseWord

theorem noElse_nil : NoElse [] := by
  intro t rest h
  cases h

/-- A statement that would not take an `else` may be followed by one. -/
theorem Stmt.noElse_of_closed {s : Stmt β} {rest : List Token} (hs : s.isOpen = false)
    (hopen : s.isOpen = true) : NoElse rest :=
  absurd hopen (by simp [hs])

section

variable (first later : List (Stmt β))

theorem Stmt.allParts_append :
    Stmt.allParts (first ++ later) = Stmt.allParts first ++ Stmt.allParts later := by
  induction first with
  | nil => rfl
  | cons s ss ih => simp only [List.cons_append, Stmt.allParts, ih, List.append_assoc]

theorem Stmt.allGrammatical_append {fits : Nat → Prop} :
    Stmt.AllGrammatical fits (first ++ later) ↔
      Stmt.AllGrammatical fits first ∧ Stmt.AllGrammatical fits later := by
  induction first with
  | nil => simp [Stmt.AllGrammatical]
  | cons s ss ih => simp only [List.cons_append, Stmt.AllGrammatical, ih, and_assoc]

end

/-! ### Operators -/

namespace Operator

variable {left right : Expr Unit} {line : Int} (op : Operator)

theorem parts_apply :
    (op.apply left line right).parts =
      left.parts ++ .word op.word (some line) none :: right.parts := by
  cases op <;> simp [apply, Expr.parts, word, symbolAt, keywordAt]

theorem rank_apply : (op.apply left line right).rank = op.rank := by
  cases op <;> rfl

theorem grammatical_apply {fits : Nat → Prop} :
    (op.apply left line right).Grammatical fits ↔
      left.Grammatical fits ∧ op.rank ≤ left.rank ∧ right.Grammatical fits ∧
        op.rank < right.rank := by
  cases op <;> simp [apply, Expr.Grammatical]

end Operator

/-- The operators of the tiers have the ranks from `k` on, and there are none stronger. -/
def Rises (k : Nat) : List Tier → Prop
  | [] => k = 8
  | tier :: stronger => (∀ op, op ∈ tier ↔ op.rank = k) ∧ Rises (k + 1) stronger

theorem rises_ladder : Rises 2 ladder := by
  refine ⟨?_, ?_, ?_, ?_, ?_, ?_, rfl⟩ <;>
    (intro op; rcases op with op | op <;> cases op <;> decide)

end LoxLang
