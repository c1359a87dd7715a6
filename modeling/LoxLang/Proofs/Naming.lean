import LoxLang.Proofs.Faithful

/-!
# Names in a text

The tokens that a tree tells of are among those that it was read from (`Spans.within`), with or
without reports. So what holds of all tokens of a text holds of the names in its program. The main
statement is `Source.proper_ofText`: a name that is declared or used as a variable is not a keyword.
-/

namespace LoxLang

open LoxLang.Part

/-! ### Tokens among the parts -/

/-- The parts that have a line are among the tokens, if they are not literals. -/
def Part.Within (tokens : Token → Prop) (ps : List Part) : Prop :=
  ∀ w line excess, .word w (some line) excess ∈ ps → w.literal = none → tokens ⟨w, line⟩

namespace Part

variable {tokens : Token → Prop} {ps qs : List Part}

@[simp] theorem within_nil : Within tokens [] := by
  simp [Within]

@[simp] theorem within_append :
    Within tokens (ps ++ qs) ↔ Within tokens ps ∧ Within tokens qs := by
  constructor
  · intro h
    exact ⟨fun w line excess hmem => h w line excess (List.mem_append_left _ hmem),
      fun w line excess hmem => h w line excess (List.mem_append_right _ hmem)⟩
  · rintro ⟨hps, hqs⟩ w line excess hmem
    exact (List.mem_append.1 hmem).elim (hps w line excess) (hqs w line excess)

theorem within_word {w : Word} {line : Option Int} {excess : Option String} :
    Within tokens (.word w line excess :: ps) ↔
      (∀ l, line = some l → w.literal = none → tokens ⟨w, l⟩) ∧ Within tokens ps := by
  constructor
  · intro h
    refine ⟨?_, fun w line excess hmem => h w line excess (List.mem_cons_of_mem _ hmem)⟩
    rintro l rfl
    exact h w l excess List.mem_cons_self
  · rintro ⟨hw, hps⟩ w' line' excess' hmem
    obtain heq | hmem := List.mem_cons.1 hmem
    · cases heq
      exact hw line' rfl
    · exact hps w' line' excess' hmem

@[simp] theorem within_parens : Within tokens (.parens :: ps) ↔ Within tokens ps := by
  simp [Within]

@[simp] theorem within_anywhere {w : Word} {excess : Option String} :
    Within tokens (.word w none excess :: ps) ↔ Within tokens ps := by
  simp [within_word]

@[simp] theorem within_symbol {s : Symbol} :
    Within tokens (symbol s :: ps) ↔ Within tokens ps := within_anywhere

@[simp] theorem within_keyword {k : Keyword} :
    Within tokens (keyword k :: ps) ↔ Within tokens ps := within_anywhere

@[simp] theorem within_symbolAt {s : Symbol} {line : Int} :
    Within tokens (symbolAt s line :: ps) ↔ tokens (.ofSymbol s line) ∧ Within tokens ps := by
  simp [symbolAt, within_word, Word.literal, Token.ofSymbol]

@[simp] theorem within_keywordAt {k : Keyword} {line : Int} :
    Within tokens (keywordAt k line :: ps) ↔ tokens (.ofKeyword k line) ∧ Within tokens ps := by
  simp [keywordAt, within_word, Word.literal, Token.ofKeyword]

@[simp] theorem within_name {n : Name} :
    Within tokens (name n :: ps) ↔ tokens n.token ∧ Within tokens ps := by
  simp [name, within_word, Word.literal, Name.token, Token.ofName]

@[simp] theorem within_report {what : String} :
    Within tokens (report what ps) ↔ Within tokens ps := by
  unfold report
  split
  · simp only [within_word]
  · rfl

@[simp] theorem within_capped {what : String} {position : Nat} {pss : List (List Part)} :
    (∀ ps ∈ capped what position pss, Within tokens ps) ↔ ∀ ps ∈ pss, Within tokens ps := by
  induction pss generalizing position with
  | nil => rfl
  | cons ps pss ih =>
    rw [capped, List.forall_mem_cons, List.forall_mem_cons, ih]
    split <;> simp

@[simp] theorem within_separated {pss : List (List Part)} :
    Within tokens (separated pss) ↔ ∀ ps ∈ pss, Within tokens ps := by
  fun_induction separated pss with
  | case1 => simp
  | case2 ps => simp
  | case3 ps qs pss ih => simp_all

end Part

/-- What is written has the tokens that the tree tells of. -/
theorem Spans.within {ps : List Part} {ts rest : List Token} {ds : List Diagnostic}
    (h : Spans ps ts rest ds) : Part.Within (· ∈ ts) ps := by
  have hmono {ps : List Part} {ts us : List Token} (hsub : ∀ t ∈ ts, t ∈ us)
      (h : Part.Within (· ∈ ts) ps) : Part.Within (· ∈ us) ps :=
    fun w line excess hmem hw => hsub _ (h w line excess hmem hw)
  induction h with
  | nil => exact Part.within_nil
  | @word w line excess ps t ts rest ds hword hline h ih =>
    refine Part.within_word.2 ⟨fun l hl hw => ?_, hmono (fun _ => List.mem_cons_of_mem _) ih⟩
    -- Words that are not literals are written in one way only.
    have ht : t.word = w := by
      cases w with
      | symbol s => exact Word.plain_eq_symbol.1 hword
      | keyword k => exact Word.plain_eq_keyword.1 hword
      | identifier x => exact Word.plain_eq_identifier.1 hword
      | string content => cases hw
      | number text value => cases hw
    obtain ⟨word, line'⟩ := t
    obtain rfl : word = w := ht
    obtain rfl : line' = l := hline l hl
    exact List.mem_cons_self
  | noParens _ ih => exact Part.within_parens.2 ih
  | parens _ _ _ ih =>
    exact Part.within_parens.2
      (hmono (fun _ h => List.mem_cons_of_mem _ (List.mem_cons_of_mem _ h)) ih)

/-! ### Uses and declarations -/

section

variable {β : Type} {tokens : Token → Prop}

/-- Tokens tell that `p` holds of uses with their names, and it holds of the names that a class
makes. -/
structure Use.ToldBy (tokens : Token → Prop) (p : Use → String → β → Prop) : Prop where
  name : ∀ (use : Use) (n : Name) (mark : β), tokens n.token → p use n.text mark
  this : ∀ mark, p .thisRef Keyword.thisWord.text mark
  super : ∀ mark, p .superRef Keyword.superWord.text mark

variable {p : Use → String → β → Prop}

mutual

/-- What the tokens tell of uses holds of those in an expression that is written with them. -/
theorem Expr.uses_of_within (h : Use.ToldBy tokens p) (e : Expr β)
    (he : Within tokens e.parts) : e.Uses p := by
  match e with
  | .constant value => trivial
  | .group inner => exact inner.uses_of_within h (by simpa [parts] using he)
  | .unary op line operand =>
    simp only [parts, within_symbolAt] at he
    exact operand.uses_of_within h he.2
  | .binary left op line right =>
    simp only [parts, within_append, within_symbolAt] at he
    exact ⟨left.uses_of_within h he.1, right.uses_of_within h he.2.2⟩
  | .logical left op line right =>
    simp only [parts, within_append, within_keywordAt] at he
    exact ⟨left.uses_of_within h he.1, right.uses_of_within h he.2.2⟩
  | .var name mark =>
    exact h.name .read name mark (within_name.1 he).1
  | .assign name value mark =>
    simp only [parts, within_name, within_symbol] at he
    exact ⟨h.name .assign name mark he.1, value.uses_of_within h he.2⟩
  | .call callee arguments line =>
    simp only [parts, within_append, within_symbol, within_separated,
      within_capped] at he
    exact ⟨callee.uses_of_within h he.1, Expr.allUses_of_within h arguments he.2.1⟩
  | .list elements line =>
    simp only [parts, within_symbolAt, within_append, within_separated] at he
    exact Expr.allUses_of_within h elements he.2.1
  | .map entries line =>
    simp only [parts, within_symbolAt, within_append, within_separated] at he
    exact Expr.entryUses_of_within h entries he.2.1
  | .index container position line =>
    simp only [parts, within_append, within_symbolAt] at he
    exact ⟨container.uses_of_within h he.1, position.uses_of_within h he.2.2.1⟩
  | .setIndex container position value line =>
    simp only [parts, within_append, within_symbolAt, within_symbol] at he
    exact ⟨container.uses_of_within h he.1, position.uses_of_within h he.2.2.1,
      value.uses_of_within h he.2.2.2⟩
  | .get object name =>
    simp only [parts, within_append] at he
    exact object.uses_of_within h he.1
  | .set object name value =>
    simp only [parts, within_append, within_symbol, within_name] at he
    exact ⟨object.uses_of_within h he.1, value.uses_of_within h he.2.2⟩
  | .thisRef line mark => exact h.this mark
  | .superRef line method mark => exact h.super mark

theorem Expr.allUses_of_within (h : Use.ToldBy tokens p) (es : List (Expr β))
    (hes : ∀ ps ∈ eachParts es, Within tokens ps) : Expr.AllUses p es := by
  match es with
  | [] => trivial
  | e :: es =>
    obtain ⟨he, hes⟩ := List.forall_mem_cons.1 hes
    exact ⟨e.uses_of_within h he, Expr.allUses_of_within h es hes⟩

theorem Expr.entryUses_of_within (h : Use.ToldBy tokens p) (entries : List (Expr β × Expr β))
    (hes : ∀ ps ∈ entryParts entries, Within tokens ps) :
    Expr.EntryUses p entries := by
  match entries with
  | [] => trivial
  | (key, value) :: entries =>
    obtain ⟨he, hes⟩ := List.forall_mem_cons.1 hes
    simp only [within_append, within_symbol] at he
    exact ⟨key.uses_of_within h he.1, value.uses_of_within h he.2,
      Expr.entryUses_of_within h entries hes⟩

end

end

/-- An identifier is not a keyword. -/
def Token.Proper (t : Token) : Prop := ∀ x, t.word = .identifier x → Keyword.ofText? x = none

theorem Piece.proper_letterWord {text : List Char} {x : String}
    (h : letterWord text = .identifier x) : Keyword.ofText? x = none := by
  unfold letterWord at h
  dsimp only at h
  split at h
  · cases h
  · cases h
    assumption

theorem Piece.proper_first {c : Char} {cs : List Char} {x : String}
    (h : first c cs = .lexeme (.identifier x)) : Keyword.ofText? x = none := by
  unfold first at h
  split at h
  · cases h
  split at h
  · cases h
  split at h
  · unfold stringPiece at h
    split at h <;> cases h
  split at h
  · cases h
  split at h
  · exact proper_letterWord (Piece.lexeme.inj h)
  split at h
  · unfold symbolWord at h
    split at h <;> cases h
  · cases h

theorem Piece.proper_all (cs : List Char) :
    ∀ p ∈ Piece.all cs, ∀ x, p = .lexeme (.identifier x) → Keyword.ofText? x = none := by
  fun_induction Piece.all cs with
  | case1 => simp
  | case2 c cs piece ih =>
    intro p hp x hx
    rcases List.mem_cons.1 hp with rfl | hp
    · exact proper_first hx
    · exact ih p hp x hx

theorem Scan.proper_ofPieces (line : Int) (pieces : List Piece)
    (hp : ∀ p ∈ pieces, ∀ x, p = .lexeme (.identifier x) → Keyword.ofText? x = none) :
    ∀ t ∈ (Scan.ofPieces line pieces).tokens, t.Proper := by
  induction pieces generalizing line with
  | nil => simp [ofPieces]
  | cons piece pieces ih =>
    have hlater := ih (line + piece.lineFeeds) fun p h => hp p (List.mem_cons_of_mem _ h)
    cases piece with
    | lexeme word =>
      intro t ht
      simp only [ofPieces, List.mem_cons] at ht
      rcases ht with rfl | ht
      · exact fun x hx => hp _ List.mem_cons_self x (congrArg Piece.lexeme hx)
      · exact hlater t ht
    | _ => exact hlater

theorem Scan.proper_ofText (text : String) : ∀ t ∈ (Scan.ofText text).tokens, t.Proper :=
  proper_ofPieces 1 _ (Piece.proper_all text.toList)

theorem Name.proper_of_token {n : Name} (h : n.token.Proper) : n.Proper := h n.text rfl

theorem Use.proper_toldBy : ToldBy Token.Proper Use.Proper where
  name use _ _ h := by
    cases use with
    | read | assign => exact Name.proper_of_token h
    | thisRef | superRef => trivial
  this _ := trivial
  super _ := trivial

section

variable {fits : Nat → Prop}

theorem Expr.proper_of_within {e : Expr Unit} (h : Within Token.Proper e.parts) :
    e.Uses Use.Proper := e.uses_of_within Use.proper_toldBy h

theorem Name.proper_of_within {names : List Name}
    (h : ∀ ps ∈ eachParts names, Within Token.Proper ps) : ∀ n ∈ names, n.Proper :=
  fun _ hn => Name.proper_of_token (within_name.1 (h _ (List.mem_map_of_mem hn))).1

mutual

/-- Names are proper if the tokens are, and the grammar takes care of the declarations. -/
theorem Stmt.proper_of_within (s : Stmt Unit) (hs : s.Grammatical fits)
    (h : Within Token.Proper s.parts) : s.Proper := by
  match s with
  | .expression value =>
    simp only [Stmt.parts, within_append] at h
    exact Expr.proper_of_within h.1
  | .print value =>
    simp only [Stmt.parts, within_keyword, within_append] at h
    exact Expr.proper_of_within h.1
  | .var name none =>
    simp only [Stmt.parts, within_keyword, within_name] at h
    exact ⟨Name.proper_of_token h.1, trivial⟩
  | .var name (some value) =>
    simp only [Stmt.parts, within_keyword, within_name, within_symbol, within_append] at h
    exact ⟨Name.proper_of_token h.1, Expr.proper_of_within h.2.1⟩
  | .block body =>
    simp only [Stmt.parts, within_symbol, within_append] at h
    exact Stmt.allProper_of_within body hs h.1
  | .branch condition yes none =>
    simp only [Stmt.parts, within_keyword, within_symbol, within_append] at h
    exact ⟨Expr.proper_of_within h.1, yes.proper_of_within hs.2.1 h.2, hs.2.2⟩
  | .branch condition yes (some no) =>
    simp only [Stmt.parts, within_keyword, within_symbol, within_append] at h
    obtain ⟨-, hyes, hplain, -, hno, hplain'⟩ := hs
    exact ⟨Expr.proper_of_within h.1, yes.proper_of_within hyes h.2.1, hplain,
      no.proper_of_within hno h.2.2, hplain'⟩
  | .whileLoop condition body =>
    simp only [Stmt.parts, within_keyword, within_symbol, within_append] at h
    exact ⟨Expr.proper_of_within h.1, body.proper_of_within hs.2.1 h.2, hs.2.2⟩
  | .doWhile body condition =>
    simp only [Stmt.parts, within_keyword, within_symbol, within_append] at h
    exact ⟨Expr.proper_of_within h.2.1, body.proper_of_within hs.1 h.1, hs.2.1⟩
  | .breakLoop line | .continueLoop line | .returnValue line none => trivial
  | .returnValue line (some value) =>
    simp only [Stmt.parts, within_keywordAt, within_append] at h
    exact Expr.proper_of_within h.2.1
  | .function decl => exact decl.proper_of_within hs (within_keyword.1 h)
  | .classDecl name none methods =>
    simp only [Stmt.parts, within_keyword, within_name, within_symbol, within_append] at h
    exact ⟨Name.proper_of_token h.1, Function.allProper_of_within methods hs h.2.1⟩
  | .classDecl name (some (parent, mark)) methods =>
    simp only [Stmt.parts, within_keyword, within_name, within_symbol, within_append] at h
    exact ⟨Name.proper_of_token h.1, Function.allProper_of_within methods hs h.2.2.1⟩
  | .marker line m => trivial

theorem Stmt.allProper_of_within (ss : List (Stmt Unit)) (hs : Stmt.AllGrammatical fits ss)
    (h : Within Token.Proper (Stmt.allParts ss)) : Stmt.AllProper ss := by
  match ss with
  | [] => trivial
  | s :: ss =>
    obtain ⟨h, hlater⟩ := within_append.1 h
    exact ⟨s.proper_of_within hs.1 h, Stmt.allProper_of_within ss hs.2 hlater⟩

theorem Function.proper_of_within (f : Function Unit) (hf : f.Grammatical fits)
    (h : Within Token.Proper f.parts) : f.Proper := by
  match f with
  | ⟨name, params, body⟩ =>
    simp only [Function.parts, within_name, within_symbol, within_append, within_separated,
      within_capped] at h
    exact ⟨Name.proper_of_token h.1, Name.proper_of_within h.2.1,
      Stmt.allProper_of_within body hf.2 h.2.2.1⟩

theorem Function.allProper_of_within (fs : List (Function Unit))
    (hfs : Function.AllGrammatical fits fs) (h : Within Token.Proper (Function.allParts fs)) :
    Function.AllProper fs := by
  match fs with
  | [] => trivial
  | f :: fs =>
    obtain ⟨h, hlater⟩ := within_append.1 h
    exact ⟨f.proper_of_within hfs.1 h, Function.allProper_of_within fs hfs.2 hlater⟩

end

end

namespace Source

theorem proper_ofTokens (endLine : Int) {ts : List Token} (hts : ∀ t ∈ ts, t.Proper) :
    Stmt.AllProper (ofTokens endLine ts).program := by
  have hloose (h : False) : (ofTokens endLine ts).diagnostics = [] := h.elim
  obtain ⟨hgrammatical, later, hskips, hdraws⟩ := drawn_ofTokens endLine hloose
  obtain ⟨us, ds, hsub, hspans⟩ := hdraws.exists_spans
  refine Stmt.allProper_of_within _ hgrammatical fun w line excess hmem hw => hts _ ?_
  exact hskips.1.subset (hsub.subset (hspans.within w line excess hmem hw))

/-- **The program of a text is proper**: its names are not keywords, and its declarations stand in
sequences of statements. -/
theorem proper_ofText (text : String) : Stmt.AllProper (ofText text).program :=
  proper_ofTokens _ (Scan.proper_ofText text)

end Source

end LoxLang
