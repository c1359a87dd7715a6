import LoxLang.Proofs.Faithful

/-!
# Recovery at the next statement

When a statement cannot be read, reading goes on after the next semicolon or in front of the next
keyword that begins a statement. Here the tokens that cannot be read are a *fragment*: they have no
semicolon and no such keyword, except in the first place.

If a semicolon stands after the fragment, then all is well (`Source.recovery_is_local`): the
statements before the fragment are read as if nothing came after them, what comes after the
semicolon is read as if nothing came before it, and the reports about the fragment are those that it
gives by itself.

If the semicolon is missing then all depends on where the mistake is noticed
(`Source.missing_semicolon`). At a token of the fragment, reading goes on in front of the next
statement. But at the keyword that begins the next statement, that keyword is dropped as well:
reading goes on at the boundary after it, and the statement is lost, whatever it is.
-/

namespace LoxLang

/-! ### Keywords that begin statements -/

/-- A word that begins a statement. -/
def Word.beginsStatement : Word → Bool
  | .keyword k => k.beginsStatement
  | _ => false

theorem Word.beginsStatement_plain (w : Word) : w.plain.beginsStatement = w.beginsStatement := by
  cases w <;> rfl

/-- How many of the tokens begin a statement. -/
def Token.starters (ts : List Token) : Nat := ts.countP beginsStatement

theorem Token.starters_cons (t : Token) (ts : List Token) :
    starters (t :: ts) = starters ts + if t.word.beginsStatement then 1 else 0 := List.countP_cons

theorem Token.starters_le_of_suffix {ts rest : List Token} (h : rest <:+ ts) :
    starters rest ≤ starters ts := h.sublist.countP_le

namespace Part

/-- A part that begins a statement. -/
def beginsStatement : Part → Bool
  | .word w _ _ => w.beginsStatement
  | .parens => false

/-- How many of the parts begin a statement. -/
def starters (ps : List Part) : Nat := ps.countP beginsStatement

theorem starters_word (w : Word) (line : Option Int) (excess : Option String) (ps : List Part) :
    starters (.word w line excess :: ps) = starters ps + if w.beginsStatement then 1 else 0 :=
  List.countP_cons

end Part

/-- Parts and the tokens that they span have the same number of keywords that begin statements. -/
theorem Spans.starters {ps : List Part} {ts rest : List Token} {ds : List Diagnostic}
    (h : Spans ps ts rest ds) : Token.starters ts = Part.starters ps + Token.starters rest := by
  induction h with
  | nil => exact (Nat.zero_add _).symm
  | word hword _ _ ih =>
    rw [Token.starters_cons, Part.starters_word, ih, ← Word.beginsStatement_plain, hword,
      Word.beginsStatement_plain]
    omega
  | noParens _ ih => exact ih
  | parens ht hu _ ih =>
    rw [Token.starters_cons, Token.starters_cons, ht, hu]
    exact ih

/-- A program that is read has no more keywords that begin statements than the tokens: some may be
dropped with their statements, but none are made up. -/
theorem Source.starters_ofTokens_le (endLine : Int) (ts : List Token) :
    Part.starters (ofTokens endLine ts).program.parts ≤ Token.starters ts := by
  have hloose (h : False) : (ofTokens endLine ts).diagnostics = [] := h.elim
  obtain ⟨-, later, hskips, hdraws⟩ := drawn_ofTokens endLine hloose
  obtain ⟨us, ds, hsub, hspans⟩ := hdraws.exists_spans
  calc Part.starters (ofTokens endLine ts).program.parts
      = Token.starters us := hspans.starters.symm
    _ ≤ Token.starters later := hsub.countP_le
    _ ≤ Token.starters ts := Token.starters_le_of_suffix hskips.1

/-! ### Fragments -/

/-- There is no semicolon in the tokens, and at most the first of them begins a statement. -/
structure Token.Fragment (ts : List Token) : Prop where
  noSemicolon : ∀ t ∈ ts, t.word ≠ .symbol .semicolon
  noStarter : ∀ t ∈ ts.tail, t.beginsStatement = false

instance (ts : List Token) : Decidable (Token.Fragment ts) :=
  decidable_of_iff ((∀ t ∈ ts, t.word ≠ .symbol .semicolon) ∧
    ∀ t ∈ ts.tail, t.beginsStatement = false) ⟨fun h => ⟨h.1, h.2⟩, fun h => ⟨h.1, h.2⟩⟩

theorem resume_of_boundary {t u : Token} {ts : List Token} (ht : t.word ≠ .symbol .semicolon)
    (hu : u.beginsStatement = true) : resume (t :: u :: ts) = u :: ts := by
  rw [resume, if_neg ht]
  simp only [hu, if_true]

theorem resume_skip {t u : Token} {ts : List Token} (ht : t.word ≠ .symbol .semicolon)
    (hu : u.beginsStatement = false) : resume (t :: u :: ts) = resume (u :: ts) := by
  rw [resume, if_neg ht]
  simp only [hu, Bool.false_eq_true, if_false]

namespace Token.Fragment

variable {ts rest later : List Token} {t : Token}

theorem tail (h : Fragment (t :: ts)) : Fragment ts :=
  ⟨fun u hu => h.noSemicolon u (List.mem_cons_of_mem _ hu),
    fun u hu => h.noStarter u (List.mem_of_mem_tail hu)⟩

theorem of_suffix (h : Fragment ts) (hrest : rest <:+ ts) : Fragment rest := by
  induction ts with
  | nil =>
    obtain rfl := List.suffix_nil.1 hrest
    exact h
  | cons t ts ih =>
    rcases List.suffix_cons_iff.1 hrest with rfl | hlater
    · exact h
    · exact ih h.tail hlater

/-- Reading resumes after the semicolon that ends a fragment. -/
theorem resume_semicolon (h : Fragment ts) (ht : t.word = .symbol .semicolon) :
    resume (ts ++ t :: later) = later := by
  induction ts with
  | nil => simp only [List.nil_append, resume, if_pos ht]
  | cons u ts ih =>
    have hu : u.word ≠ .symbol .semicolon := h.noSemicolon u List.mem_cons_self
    have hstarter : t.beginsStatement = false := by simp [beginsStatement, ht]
    cases ts with
    | nil => exact (resume_skip hu hstarter).trans (ih h.tail)
    | cons v ts => exact (resume_skip hu (h.noStarter v List.mem_cons_self)).trans (ih h.tail)

/-- Reading resumes in front of the keyword after a fragment, if there is a token that can be
dropped.
-/
theorem resume_starter (h : Fragment ts) (hts : ts ≠ []) (ht : t.beginsStatement = true) :
    resume (ts ++ t :: later) = t :: later := by
  induction ts with
  | nil => exact absurd rfl hts
  | cons u ts ih =>
    have hu : u.word ≠ .symbol .semicolon := h.noSemicolon u List.mem_cons_self
    cases ts with
    | nil => exact resume_of_boundary hu ht
    | cons v ts =>
      have hlater : resume (v :: ts ++ t :: later) = t :: later := ih h.tail (by simp)
      exact (resume_skip hu (h.noStarter v List.mem_cons_self)).trans hlater

end Token.Fragment

namespace Source

open Reading

variable {endLine : Int} {ts rest : List Token} {ds : List Diagnostic}

/-- A first statement that cannot be read is dropped. -/
theorem ofTokens_of_stuck (hts : ts ≠ [])
    (hstuck : (Stmt.readDeclaration endLine ts).result? = none)
    (hrest : (Stmt.readDeclaration endLine ts).rest = rest)
    (hds : (Stmt.readDeclaration endLine ts).reports = ds) :
    ofTokens endLine ts = ⟨(ofTokens endLine (resume rest)).program,
      ds ++ (ofTokens endLine (resume rest)).diagnostics⟩ := by
  cases ts with
  | nil => exact absurd rfl hts
  | cons t ts =>
    obtain ⟨_, hread⟩ := exists_stuck hstuck hrest hds
    rw [ofTokens, hread]
    rfl

/-- What is read without a report is read again in front of tokens that do not continue it. -/
theorem ofTokens_append {line : Int} {more : List Token} (h : (ofTokens line ts).diagnostics = [])
    (hmore : NoElse more) : ofTokens endLine (ts ++ more) =
      ⟨(ofTokens line ts).program ++ (ofTokens endLine more).program,
        (ofTokens endLine more).diagnostics⟩ := by
  obtain ⟨hgrammatical, hspells⟩ := found_ofTokens line h
  have hspans : Spans (ofTokens line ts).program.parts (ts ++ more) more [] := by
    simpa using hspells.append_tokens more
  simpa using ofTokens_of_spans endLine hgrammatical hspans hmore

/-- **Recovery is local.** Let `before` be tokens that are read without a report, and let `fragment`
be tokens in which no statement begins but at the front, and which get stuck at one of the tokens up
to the semicolon after them. Then what is read are the statements before them and the statements
after the semicolon, whatever those tokens `later` are, and the reports are those about the fragment
with its semicolon alone, and those about the tokens after it alone. -/
theorem recovery_is_local (line line' endLine : Int) (before fragment later : List Token)
    (semicolon : Token) (hbefore : (ofTokens line before).diagnostics = [])
    (hfragment : Token.Fragment fragment) (helse : NoElse fragment)
    (hsemicolon : semicolon.word = .symbol .semicolon)
    (hstuck : (Stmt.readDeclaration line' (fragment ++ [semicolon])).result? = none)
    (hplace : (Stmt.readDeclaration line' (fragment ++ [semicolon])).rest ≠ []) :
    ofTokens endLine (before ++ (fragment ++ semicolon :: later)) =
      ⟨(ofTokens line before).program ++ (ofTokens endLine later).program,
        (ofTokens line' (fragment ++ [semicolon])).diagnostics ++
          (ofTokens endLine later).diagnostics⟩ := by
  have hpersists := Stmt.persists_readDeclaration (.moving line' id) (fragment ++ [semicolon])
  obtain ⟨hresult, hrest, hreports⟩ := Stmt.readDeclaration_append line' endLine _ later hplace
  -- The place where reading gets stuck is in the fragment, or it is the semicolon.
  obtain ⟨left, hleft, hsuffix⟩ : ∃ left,
      (Stmt.readDeclaration line' (fragment ++ [semicolon])).rest = left ++ [semicolon] ∧
        left <:+ fragment := by
    rcases List.suffix_concat_iff.1 hpersists.suffix with hnil | ⟨left, hleft, hsuffix⟩
    · exact absurd hnil hplace
    · exact ⟨left, hleft, hsuffix⟩
  have hboundary (more : List Token) : resume (left ++ semicolon :: more) = more :=
    (hfragment.of_suffix hsuffix).resume_semicolon hsemicolon
  have halone : ofTokens line' (fragment ++ [semicolon]) =
      ⟨[], (Stmt.readDeclaration line' (fragment ++ [semicolon])).reports⟩ := by
    rw [ofTokens_of_stuck (by simp) hstuck hleft rfl, hboundary []]
    simp [ofTokens]
  have hfront : ofTokens endLine (fragment ++ semicolon :: later) =
      ⟨(ofTokens endLine later).program, (ofTokens line' (fragment ++ [semicolon])).diagnostics ++
        (ofTokens endLine later).diagnostics⟩ := by
    rw [List.append_cons, ofTokens_of_stuck (by simp) (hresult.trans hstuck) hrest hreports, hleft,
      ← List.append_cons, hboundary later, halone]
  have hnoElse : NoElse (fragment ++ semicolon :: later) := by
    intro t rest heq
    cases fragment with
    | nil =>
      cases heq
      simp [hsemicolon]
    | cons u fragment =>
      cases heq
      exact helse t fragment rfl
  rw [ofTokens_append hbefore hnoElse, hfront]

/-- A statement with a mistake in it, between a program and tokens that cannot be read either. -/
theorem recovery_is_local_twice :
    let before := (Scan.ofText "var a; if (a) print a;").tokens
    let fragment := (Scan.ofText "print a b").tokens
    let later := (Scan.ofText "while \x7d print a; (").tokens
    let semicolon : Token := ⟨.symbol .semicolon, 1⟩
    (ofTokens 1 (fragment ++ [semicolon])).diagnostics.length = 1 ∧
      (ofTokens 1 later).diagnostics.length = 2 ∧
      ofTokens 1 (before ++ (fragment ++ semicolon :: later)) =
        ⟨(ofTokens 1 before).program ++ (ofTokens 1 later).program,
          (ofTokens 1 (fragment ++ [semicolon])).diagnostics ++
            (ofTokens 1 later).diagnostics⟩ := by
  intro before fragment later semicolon
  have hstuck : (Stmt.readDeclaration 1 (fragment ++ [semicolon])).result?.isNone = true := by
    decide +kernel
  have hfirst : fragment.head?.map Token.word = some (.keyword .printWord) := by decide +kernel
  have helse : NoElse fragment := by
    intro t rest heq
    have hword : t.word = .keyword .printWord := by simpa [heq] using hfirst
    simp [hword]
  refine ⟨by decide +kernel, by decide +kernel, ?_⟩
  exact recovery_is_local 1 1 1 before fragment later semicolon (by decide +kernel)
    (by decide +kernel) helse rfl (Option.isNone_iff_eq_none.1 hstuck) (by decide +kernel)

/-- The first keyword that begins a statement is not in the tokens at which reading resumes. -/
theorem starters_resume_lt {t : Token} (ht : t.beginsStatement = true) :
    Token.starters (resume (t :: ts)) < Token.starters (t :: ts) := by
  have hle := Token.starters_le_of_suffix (resume_suffix (t :: ts))
  have hword : t.word.beginsStatement = true := ht
  rw [Token.starters_cons, hword]
  exact Nat.lt_succ_of_le hle

/-- **A missing semicolon.** Let `fragment` be tokens in which no statement begins but at the front,
let a keyword that begins a statement come after them, and let reading get stuck in front of `rest`
and that keyword. The complaint about this place is the last report about the fragment. If there is
a token left in `rest` then the statements that are read are those from the keyword on. If not, the
complaint is about the keyword, and what is read is what comes after the next boundary. If nothing
was wrong with the tokens from the keyword on, this is never what they would have been read as. -/
theorem missing_semicolon (endLine : Int) (fragment rest later : List Token) (starter : Token)
    (hfragment : Token.Fragment fragment) (hstarter : starter.beginsStatement = true)
    (hstuck : (Stmt.readDeclaration endLine (fragment ++ starter :: later)).result? = none)
    (hplace : (Stmt.readDeclaration endLine (fragment ++ starter :: later)).rest =
      rest ++ starter :: later) :
    let reports := (Stmt.readDeclaration endLine (fragment ++ starter :: later)).reports
    let source := ofTokens endLine (fragment ++ starter :: later)
    let alone := ofTokens endLine (starter :: later)
    let after := ofTokens endLine (resume (starter :: later))
    (∃ error, reports.getLast? = some (complaint endLine (rest ++ starter :: later) error)) ∧
      (rest ≠ [] → source = ⟨alone.program, reports ++ alone.diagnostics⟩) ∧
      (rest = [] → source = ⟨after.program, reports ++ after.diagnostics⟩ ∧
        (alone.diagnostics = [] → source.program ≠ alone.program)) := by
  intro reports source alone after
  have hpersists := Stmt.persists_readDeclaration (.moving endLine id)
    (fragment ++ starter :: later)
  have hsource : source = ⟨(ofTokens endLine (resume (rest ++ starter :: later))).program,
      reports ++ (ofTokens endLine (resume (rest ++ starter :: later))).diagnostics⟩ :=
    ofTokens_of_stuck (by simp) hstuck hplace rfl
  refine ⟨?_, fun hrest => ?_, fun hrest => ?_⟩
  · rw [← hplace]
    exact hpersists.blames hstuck
  · have hsuffix : rest <:+ fragment := by
      obtain ⟨used, hused⟩ := hplace ▸ hpersists.suffix
      rw [← List.append_assoc] at hused
      exact ⟨used, List.append_cancel_right hused⟩
    rw [hsource, (hfragment.of_suffix hsuffix).resume_starter hrest hstarter]
  · subst hrest
    refine ⟨hsource, fun halone heq => ?_⟩
    -- All keywords that begin statements are in the program of the tokens from the keyword on, and
    -- one of them is missing in the tokens at which reading resumes.
    obtain ⟨-, hspells⟩ := found_ofTokens endLine halone
    have hall : Token.starters (starter :: later) = Part.starters alone.program.parts := by
      simpa [Token.starters] using hspells.starters
    have hread : Part.starters after.program.parts ≤ Token.starters (resume (starter :: later)) :=
      starters_ofTokens_le endLine _
    have hfewer : Token.starters (resume (starter :: later)) < Token.starters (starter :: later) :=
      starters_resume_lt hstarter
    have hsame : after.program = alone.program := by
      rw [← heq, hsource]
      rfl
    rw [hsame] at hread
    omega

/-- The first of two statements is lost after a fragment, and reading resumes at the second one. -/
theorem missing_semicolon_two :
    let fragment := (Scan.ofText "x").tokens
    let starter : Token := ⟨.keyword .printWord, 1⟩
    let later := (Scan.ofText "1; print 2;").tokens
    let source := ofTokens 1 (fragment ++ starter :: later)
    (ofTokens 1 (starter :: later)).diagnostics = [] ∧
      source.program ≠ (ofTokens 1 (starter :: later)).program ∧
      source.program = (ofTokens 1 (Scan.ofText "print 2;").tokens).program := by
  intro fragment starter later source
  have hstuck : (Stmt.readDeclaration 1 (fragment ++ starter :: later)).result?.isNone = true := by
    decide +kernel
  obtain ⟨-, -, hlost⟩ := missing_semicolon 1 fragment [] later starter (by decide +kernel) rfl
    (Option.isNone_iff_eq_none.1 hstuck) (by decide +kernel)
  obtain ⟨hsource, hprogram⟩ := hlost rfl
  have halone : (ofTokens 1 (starter :: later)).diagnostics = [] := by decide +kernel
  have hresume : resume (starter :: later) = (Scan.ofText "print 2;").tokens := by decide +kernel
  refine ⟨halone, hprogram halone, ?_⟩
  rw [← hresume, show source = _ from hsource]

/-- In `x print 1;` the mistake is noticed at `print`, and no statement is read, although nothing is
wrong with `print 1;`. -/
theorem missing_semicolon_loses_next_statement :
    let fragment := (Scan.ofText "x").tokens
    let next := (Scan.ofText "print 1;").tokens
    fragment ≠ [] ∧ Token.Fragment fragment ∧ next.head?.any Token.beginsStatement = true ∧
      (Stmt.readDeclaration 1 (fragment ++ next)).result?.isNone = true ∧
      (Stmt.readDeclaration 1 (fragment ++ next)).rest = next ∧
      (ofTokens 1 next).diagnostics = [] ∧ (ofTokens 1 next).program.length = 1 ∧
      (ofTokens 1 (fragment ++ next)).program.length = 0 := by
  decide +kernel

end Source

end LoxLang
