import LoxLang.Diagnostic
import LoxLang.Tree.Basic

/-!
# Reading phrases

A phrase is read from the front of a list of tokens. `Reading limit α` is what comes of it: a
result with the tokens left over, fewer than `limit`, or the tokens at which reading got stuck; in
both cases with the diagnostics reported on the way. A phrase read from `ts` with at least one
token has the limit `ts.length`; one that may be empty has the limit `ts.length + 1`.

After a phrase got stuck, reading resumes at the next boundary between statements
(`Reading.recover`), so that one text can give several diagnostics. `resume` drops the token at
which reading got stuck, and then goes on until after a semicolon or in front of a keyword that
begins a statement.
-/

namespace LoxLang

/-- What comes of reading a phrase. -/
inductive Reading (limit : Nat) (α : Type) where
  | done (result : α) (rest : List Token) (shorter : rest.length < limit)
    (reports : List Diagnostic)
  | stuck (rest : List Token) (notLonger : rest.length ≤ limit) (reports : List Diagnostic)

/-- A keyword that begins a statement. -/
def Keyword.beginsStatement : Keyword → Bool
  | classWord | funWord | varWord | forWord | ifWord | whileWord | doWord | printWord | returnWord
  | breakWord | continueWord | setWord | buildWord | walkWord | checkWord | otherwiseWord
  | thruWord => true
  | _ => false

/-- A token that begins a statement. -/
def Token.beginsStatement (t : Token) : Bool :=
  match t.word with
  | .keyword k => k.beginsStatement
  | _ => false

/-- The tokens from the next boundary between statements on. -/
def resume : List Token → List Token
  | [] => []
  | t :: rest =>
    if t.word = .symbol .semicolon then rest
    else match rest with
      | [] => []
      | next :: _ => if next.beginsStatement then rest else resume rest

theorem length_resume_le (ts : List Token) : (resume ts).length ≤ ts.length - 1 := by
  fun_induction resume ts with
  | case1 => simp
  | case2 => simp
  | case3 => simp
  | case4 => simp
  | case5 t next rest _ _ ih => simp at ih ⊢; omega

/-- A result or nothing, with fewer than `limit` tokens left. -/
structure Recovered (limit : Nat) (α : Type) where
  result : Option α
  rest : List Token
  shorter : rest.length < limit
  reports : List Diagnostic

namespace Reading

variable {limit : Nat} {α β : Type}

/-- Nothing is read. -/
def pure (result : α) (ts : List Token) : Reading (ts.length + 1) α :=
  .done result ts (Nat.lt_succ_self _) []

/-- One token is read. -/
def single {t : Token} (result : α) (rest : List Token) : Reading (t :: rest).length α :=
  .done result rest (Nat.lt_succ_self _) []

/-- The diagnostic at the front of the tokens, of which the text ends on line `endLine`. -/
def complaint (endLine : Int) (ts : List Token) (error : StaticError) : Diagnostic :=
  match ts with
  | [] => ⟨endLine, .atEnd, error⟩
  | t :: _ => .atToken t error

/-- Reading gets stuck at the front of the tokens. -/
def fail (endLine : Int) (ts : List Token) (error : StaticError) : Reading ts.length α :=
  .stuck ts (Nat.le_refl _) [complaint endLine ts error]

/-- Read the given word. -/
def expect (endLine : Int) (word : Word) (what : String) (ts : List Token) :
    Reading ts.length Token :=
  match ts with
  | [] => fail endLine [] (.expected what)
  | t :: rest =>
    if t.word = word then single t rest else fail endLine (t :: rest) (.expected what)

/-- Read an identifier. -/
def expectName (endLine : Int) (what : String) (ts : List Token) : Reading ts.length Name :=
  match ts with
  | [] => fail endLine [] (.expected what)
  | t :: rest =>
    match t.word with
    | .identifier name => single ⟨name, t.line⟩ rest
    | _ => fail endLine (t :: rest) (.expected what)

/-- Allow more tokens to be left. -/
def weaken {larger : Nat} (h : limit ≤ larger) : Reading limit α → Reading larger α
  | .done result rest shorter reports => .done result rest (by omega) reports
  | .stuck rest notLonger reports => .stuck rest (by omega) reports

/-- A phrase after one token. -/
def after {t : Token} {ts : List Token} (r : Reading ts.length α) : Reading (t :: ts).length α :=
  r.weaken (Nat.le_succ _)

/-- A phrase after one token, where nothing has to be read. -/
def afterTail {t : Token} {ts : List Token} (r : Reading ts.length α) :
    Reading ((t :: ts).length + 1) α :=
  r.weaken (by simp only [List.length_cons]; omega)

/-- Apply a function to the result. -/
def map (f : α → β) : Reading limit α → Reading limit β
  | .done result rest shorter reports => .done (f result) rest shorter reports
  | .stuck rest notLonger reports => .stuck rest notLonger reports

/-- Report something before the phrase is read. -/
def reporting (earlier : List Diagnostic) : Reading limit α → Reading limit α
  | .done result rest shorter reports => .done result rest shorter (earlier ++ reports)
  | .stuck rest notLonger reports => .stuck rest notLonger (earlier ++ reports)

/-- Read a second phrase after a first. -/
def andThen (r : Reading limit α)
    (next : α → (rest : List Token) → rest.length < limit → Reading rest.length β) :
    Reading limit β :=
  match r with
  | .stuck rest notLonger reports => .stuck rest notLonger reports
  | .done result rest shorter reports =>
    ((next result rest shorter).weaken (Nat.le_of_lt shorter)).reporting reports

/-- Read a second phrase, which may be empty, after a first. -/
def andTail (r : Reading limit α)
    (next : α → (rest : List Token) → rest.length < limit → Reading (rest.length + 1) β) :
    Reading limit β :=
  match r with
  | .stuck rest notLonger reports => .stuck rest notLonger reports
  | .done result rest shorter reports =>
    ((next result rest shorter).weaken shorter).reporting reports

/-- Go on at the next boundary between statements if reading got stuck. -/
def recover (positive : 0 < limit) : Reading limit α → Recovered limit α
  | .done result rest shorter reports => ⟨some result, rest, shorter, reports⟩
  | .stuck rest notLonger reports =>
    ⟨none, resume rest, by have := length_resume_le rest; omega, reports⟩

end Reading

end LoxLang
