import LoxLang.Proofs.Faithful
import LoxLang.Proofs.Lines
import LoxLang.Proofs.Marks
import LoxLang.Proofs.ReadBack
import LoxLang.Proofs.Reports
import Mathlib.Data.List.TakeWhile

/-!
# Texts on the lines after another text

A blank ends a word, and a line feed ends every piece of a text but a string that is not closed
(`Piece.StopsAt`). So if no string of the first text is left open, a text that follows on the next
line has the pieces that it has by itself (`Piece.all_append`), and its tokens are on later lines
(`Scan.ofText_joined`). If both texts can be read and bound without a report then so can the two
together, and the result is one program after the other (`Session.accepts_joined`).
-/

namespace LoxLang

/-- Two texts, the second from the next line on. -/
def joined (a b : String) : String := a ++ "\n" ++ b

/-- How far down the second of two texts gets to be. -/
def linesOf (a : String) : Nat := a.toList.count '\n' + 1

theorem toList_joined (a b : String) : (joined a b).toList = a.toList ++ '\n' :: b.toList := by
  simp [joined]

/-! ### Pieces -/

namespace Piece

section

variable {p : Char → Bool} {c : Char}

theorem takeWhile_append_stop (h : p c = false) (cs rest : List Char) :
    (cs ++ c :: rest).takeWhile p = cs.takeWhile p := by
  induction cs with
  | nil => simp [h]
  | cons d cs ih => simp only [List.cons_append, List.takeWhile_cons, ih]

theorem dropWhile_append_stop (h : p c = false) (cs rest : List Char) :
    (cs ++ c :: rest).dropWhile p = cs.dropWhile p ++ c :: rest := by
  induction cs with
  | nil => simp [h]
  | cons d cs ih =>
    simp only [List.cons_append, List.dropWhile_cons, ih]
    split <;> rfl

end

/-- A string whose end the text has. -/
theorem exists_of_contains_quote {cs : List Char} (h : cs.contains '"' = true) :
    ∃ rest, cs = cs.takeWhile (· ≠ '"') ++ '"' :: rest := by
  induction cs with
  | nil => simp at h
  | cons c cs ih =>
    by_cases hc : c = '"'
    · exact ⟨cs, by simp [hc]⟩
    · have hcs : cs.contains '"' = true := by simpa [Ne.symm hc] using h
      obtain ⟨rest, hrest⟩ := ih hcs
      exact ⟨rest, by simpa [hc] using hrest⟩

theorem takeWhile_append_of_contains_quote {cs : List Char} (h : cs.contains '"' = true)
    (rest : List Char) : (cs ++ rest).takeWhile (· ≠ '"') = cs.takeWhile (· ≠ '"') := by
  obtain ⟨tail, htail⟩ := exists_of_contains_quote h
  conv_lhs => rw [htail, List.append_assoc, List.cons_append, takeWhile_append_stop (by simp)]
  conv_rhs => rw [htail, takeWhile_append_stop (by simp)]

theorem text_letterWord (cs : List Char) : (letterWord cs).lexeme.toList = cs := by
  unfold letterWord
  dsimp only
  split
  · rename_i k hk
    have hk : k.text = String.ofList cs := by simpa using List.find?_some hk
    simp [Word.lexeme, hk]
  · simp [Word.lexeme]

theorem text_symbolWord {c : Char} {s : Symbol} (h : Symbol.ofChar? c = some s) (cs : List Char) :
    ∃ used, (symbolWord s cs).lexeme.toList = c :: used ∧ used <+: cs := by
  unfold Symbol.ofChar? at h
  unfold symbolWord
  split at h <;> cases h <;> split <;>
    simp [Symbol.withEqual?, Word.lexeme, Symbol.text]

theorem text_numberWord {c : Char} (h : c.isDigit = true) (cs : List Char) :
    ∃ used, (numberWord (c :: cs)).lexeme.toList = c :: used ∧ used <+: cs := by
  have hwhole : (c :: cs).takeWhile Char.isDigit = c :: cs.takeWhile Char.isDigit := by simp [h]
  have hrest : (c :: cs).dropWhile Char.isDigit = cs.dropWhile Char.isDigit := by simp [h]
  unfold numberWord
  rw [hwhole, hrest]
  dsimp only
  split
  · rename_i rest hdot
    split
    · exact ⟨cs.takeWhile Char.isDigit, by simp [Word.lexeme], List.takeWhile_prefix _⟩
    · refine ⟨cs.takeWhile Char.isDigit ++ '.' :: rest.takeWhile Char.isDigit,
        by simp [Word.lexeme], ?_⟩
      have hcs : cs.takeWhile Char.isDigit ++ '.' :: rest = cs := by
        rw [← hdot, List.takeWhile_append_dropWhile]
      conv_rhs => rw [← hcs]
      rw [List.prefix_append_right_inj, List.cons_prefix_cons]
      exact ⟨rfl, List.takeWhile_prefix _⟩
  · exact ⟨cs.takeWhile Char.isDigit, by simp [Word.lexeme], List.takeWhile_prefix _⟩

/-- The first piece is what the text begins with. -/
theorem text_first (c : Char) (cs : List Char) :
    ∃ used, (first c cs).text = c :: used ∧ used <+: cs := by
  unfold first
  split
  · exact ⟨[], rfl, List.nil_prefix⟩
  split
  · exact ⟨_, rfl, List.takeWhile_prefix _⟩
  split
  · rename_i hquote
    unfold stringPiece
    split
    · rename_i hend
      obtain ⟨rest, hrest⟩ := exists_of_contains_quote hend
      refine ⟨cs.takeWhile (· ≠ '"') ++ ['"'], by simp [text, Word.lexeme, hquote], ?_⟩
      exact ⟨rest, by simpa using hrest.symm⟩
    · exact ⟨cs, by simp [text, hquote], List.prefix_rfl⟩
  split
  · rename_i hdigit
    exact text_numberWord hdigit cs
  split
  · exact ⟨_, text_letterWord _, List.takeWhile_prefix _⟩
  split
  · rename_i s hs
    exact text_symbolWord hs cs
  · exact ⟨[], rfl, List.nil_prefix⟩

/-- The pieces of a text make it up. -/
theorem flatMap_text_all (cs : List Char) : (all cs).flatMap text = cs := by
  fun_induction all cs with
  | case1 => rfl
  | case2 c cs piece ih =>
    obtain ⟨used, htext, rest, hcs⟩ := text_first c cs
    have hpiece : piece.text = c :: used := htext
    rw [List.flatMap_cons, ih, hpiece, ← hcs]
    simp

/-- A blank after the piece is not taken into it. Only a line feed ends a comment, and a string that
is not closed takes all that follows. -/
def StopsAt (blank : Char) : Piece → Prop
  | comment _ => blank = '\n'
  | unclosed _ => False
  | _ => True

section

variable {c b : Char} {cs : List Char} (hb : isSpace b = true)
include hb

theorem not_mem_of_isSpace :
    b.isDigit = false ∧ isWordChar b = false ∧ b ≠ '.' ∧ b ≠ '=' ∧ b ≠ '/' := by
  obtain ((rfl | rfl) | rfl) | rfl : ((b = ' ' ∨ b = '\r') ∨ b = '\t') ∨ b = '\n' := by
    simpa [isSpace] using hb
  all_goals decide

theorem numberWord_append (cs rest : List Char) : numberWord (cs ++ b :: rest) = numberWord cs := by
  obtain ⟨hstop, -, hdot, -⟩ := not_mem_of_isSpace hb
  unfold numberWord
  rw [takeWhile_append_stop hstop, dropWhile_append_stop hstop]
  cases cs.dropWhile Char.isDigit with
  | nil => simp [hdot]
  | cons d ds =>
    by_cases hd : d = '.'
    · subst hd
      simp only [List.cons_append, takeWhile_append_stop hstop]
    · simp [hd]

theorem symbolWord_append (s : Symbol) (cs rest : List Char) :
    symbolWord s (cs ++ b :: rest) = symbolWord s cs := by
  obtain ⟨-, -, -, hequal, -⟩ := not_mem_of_isSpace hb
  cases cs with
  | nil => simp [symbolWord, hequal]
  | cons d ds =>
    by_cases hd : d = '='
    · subst hd
      rfl
    · simp [symbolWord, hd]

/-- The first piece is the same if a blank follows that it stops at. -/
theorem first_append (h : (first c cs).StopsAt b) (rest : List Char) :
    first c (cs ++ b :: rest) = first c cs := by
  obtain ⟨-, hword, -, -, hne⟩ := not_mem_of_isSpace hb
  -- A comment is told by the character after the slash, which may be the blank.
  have hslash : (cs ++ b :: rest).head? = some '/' ↔ cs.head? = some '/' := by
    cases cs <;> simp [hne]
  unfold first at h ⊢
  split
  · rfl
  rename_i hspace
  rw [if_neg hspace] at h
  by_cases hcomment : c = '/' ∧ cs.head? = some '/'
  · rw [if_pos hcomment] at h
    obtain rfl : b = '\n' := h
    rw [if_pos hcomment, if_pos ⟨hcomment.1, hslash.2 hcomment.2⟩,
      takeWhile_append_stop (by simp)]
  rw [if_neg hcomment] at h ⊢
  rw [if_neg fun h => hcomment ⟨h.1, hslash.1 h.2⟩]
  by_cases hquote : c = '"'
  · rw [if_pos hquote] at h
    rw [if_pos hquote, if_pos hquote]
    unfold stringPiece at h ⊢
    by_cases hend : cs.contains '"' = true
    · have hend' : (cs ++ b :: rest).contains '"' = true := by
        rw [List.contains_iff_mem] at hend ⊢
        exact List.mem_append_left _ hend
      rw [if_pos hend, if_pos hend', takeWhile_append_of_contains_quote hend]
    · -- Without its end the string would go on after the blank.
      rw [if_neg hend] at h
      exact h.elim
  rw [if_neg hquote, if_neg hquote]
  split
  · exact congrArg lexeme (numberWord_append hb (c :: cs) rest)
  split
  · rw [takeWhile_append_stop hword]
  split
  · rw [symbolWord_append hb]
  · rfl

/-- After a text whose pieces stop at the blank there are the pieces of the next one. -/
theorem all_append {a : List Char} (h : ∀ p ∈ all a, p.StopsAt b) (rest : List Char) :
    all (a ++ b :: rest) = all a ++ blank b :: all rest := by
  have hblank (cs : List Char) : first b cs = blank b := if_pos hb
  fun_induction all a with
  | case1 =>
    rw [List.nil_append, all, hblank]
    rfl
  | case2 c cs piece ih =>
    have hfirst : first c (cs ++ b :: rest) = piece := first_append hb (h _ List.mem_cons_self) rest
    -- What the piece uses is at the front of `cs`, so the same is dropped from both texts.
    obtain ⟨used, htext, after, rfl⟩ := text_first c cs
    have hpiece : piece.text = c :: used := htext
    rw [List.cons_append, all, hfirst, hpiece]
    have hrest := ih fun p hp => h p (List.mem_cons_of_mem _ hp)
    simpa [hpiece] using hrest

/-- No number has a blank in it. -/
theorem notMem_numberWord (cs : List Char) : b ∉ (numberWord cs).lexeme.toList := by
  obtain ⟨hdigit, -, hdot, -⟩ := not_mem_of_isSpace hb
  have hdigits (ds : List Char) : b ∉ ds.takeWhile Char.isDigit := by
    intro hmem
    rw [List.mem_takeWhile_imp hmem] at hdigit
    cases hdigit
  unfold numberWord
  simp only [Word.lexeme, String.toList_ofList]
  split
  · split
    · exact hdigits cs
    · rw [List.mem_append, List.mem_cons]
      rintro (h | h | h)
      · exact hdigits cs h
      · exact hdot h
      · exact hdigits _ h
  · exact hdigits cs

/-- No keyword and no identifier has a blank in it. -/
theorem notMem_letters (hc : isLetter c = true) : b ∉ c :: cs.takeWhile isWordChar := by
  obtain ⟨-, hword, -⟩ := not_mem_of_isSpace hb
  intro hmem
  have hb' : isWordChar b = true := by
    obtain rfl | hmem := List.mem_cons.1 hmem
    · simp [isWordChar, hc]
    · exact List.mem_takeWhile_imp hmem
  rw [hb'] at hword
  cases hword

end

/-- **Line feeds of a piece** are all counted: comments, words that are not strings and stray
characters have none. -/
theorem lineFeeds_first (c : Char) (cs : List Char) :
    (first c cs).lineFeeds = (first c cs).text.count '\n' := by
  have hnone {p : Piece} (hp : p.lineFeeds = 0) (h : '\n' ∉ p.text) :
      p.lineFeeds = p.text.count '\n' := hp.trans (List.count_eq_zero.2 h).symm
  unfold first
  split
  · by_cases hc : c = '\n' <;> simp [lineFeeds, text, hc]
  rename_i hspace
  have hne : '\n' ≠ c := by
    rintro rfl
    exact hspace rfl
  split
  · refine hnone rfl fun hmem => ?_
    obtain h | h := List.mem_cons.1 hmem
    · exact hne h
    · simpa using List.mem_takeWhile_imp h
  split
  · unfold stringPiece
    split
    · simp [lineFeeds, text, Word.lexeme]
    · rfl
  split
  · exact hnone rfl (notMem_numberWord rfl _)
  split
  · rename_i hletter
    have hword (cs : List Char) : (lexeme (letterWord cs)).lineFeeds = 0 := by
      unfold letterWord
      dsimp only
      split <;> rfl
    refine hnone (hword _) ?_
    rw [text, text_letterWord]
    exact notMem_letters rfl hletter
  split
  · have hword (s : Symbol) (cs : List Char) : ∃ t, symbolWord s cs = .symbol t := by
      unfold symbolWord
      split <;> exact ⟨_, rfl⟩
    rename_i s _
    obtain ⟨t, ht⟩ := hword s cs
    rw [ht]
    exact hnone rfl (by cases t <;> decide)
  · exact hnone rfl (by simpa [text] using hne)

theorem lineFeeds_of_mem_all {p : Piece} {cs : List Char} (h : p ∈ all cs) :
    p.lineFeeds = p.text.count '\n' := by
  fun_induction all cs with
  | case1 => cases h
  | case2 c cs piece ih =>
    obtain rfl | h := List.mem_cons.1 h
    · exact lineFeeds_first c cs
    · exact ih h

end Piece

/-! ### Scans -/

namespace Scan

theorem stopsAt_lineFeed {line : Int} {ps : List Piece} (h : (ofPieces line ps).diagnostics = []) :
    ∀ p ∈ ps, p.StopsAt '\n' := by
  induction ps generalizing line with
  | nil => simp
  | cons p ps ih =>
    have ih : (ofPieces (line + p.lineFeeds) ps).diagnostics = [] → ∀ p ∈ ps, p.StopsAt '\n' := ih
    cases p <;> simp_all [ofPieces, Piece.StopsAt]

theorem ofPieces_append {line : Int} {ps : List Piece} (h : (ofPieces line ps).diagnostics = [])
    (hlines : ∀ p ∈ ps, p.lineFeeds = p.text.count '\n') (qs : List Piece) :
    ofPieces line (ps ++ qs) =
      let later := ofPieces (line + (ps.flatMap Piece.text).count '\n') qs
      { later with tokens := (ofPieces line ps).tokens ++ later.tokens } := by
  induction ps generalizing line with
  | nil => simp [ofPieces]
  | cons p ps ih =>
    obtain ⟨hp, hlines⟩ := List.forall_mem_cons.1 hlines
    have hcount : line + ((p :: ps).flatMap Piece.text).count '\n' =
        line + p.lineFeeds + (ps.flatMap Piece.text).count '\n' := by
      rw [List.flatMap_cons, List.count_append, hp, Int.natCast_add, Int.add_assoc]
    rw [hcount]
    cases p <;> simp_all [ofPieces]

/-- A text that begins further down has its tokens further down. -/
theorem ofPieces_add (line : Int) (n : Nat) (ps : List Piece) :
    ofPieces (line + n) ps =
      let scan := ofPieces line ps
      ⟨scan.tokens.map (Token.mapLine (· + n)), scan.endLine + n,
        scan.diagnostics.map (Diagnostic.mapLine (· + n))⟩ := by
  induction ps generalizing line with
  | nil => rfl
  | cons p ps ih =>
    have hline : line + n + p.lineFeeds = line + p.lineFeeds + n := by omega
    cases p <;> simp [ofPieces, hline, ih, Token.mapLine, Diagnostic.mapLine]

theorem ofText_joined {a : String} (h : (ofText a).diagnostics = []) (b : String) :
    ofText (joined a b) =
      ⟨(ofText a).tokens ++ (ofText b).tokens.map (Token.mapLine (· + linesOf a)),
        (ofText b).endLine + linesOf a,
        (ofText b).diagnostics.map (Diagnostic.mapLine (· + linesOf a))⟩ := by
  have hfeed : (Piece.blank '\n').lineFeeds = 1 := rfl
  have hlines : 1 + (a.toList.count '\n' : Int) + (1 : Nat) = 1 + linesOf a := by
    rw [linesOf]
    omega
  unfold ofText
  rw [toList_joined, Piece.all_append rfl (stopsAt_lineFeed h),
    ofPieces_append h fun _ => Piece.lineFeeds_of_mem_all, Piece.flatMap_text_all]
  simp only [ofPieces, hfeed]
  rw [hlines, ofPieces_add]

end Scan

/-! ### Reading -/

/-- Two texts that can be read are read together as one program after the other. -/
theorem Source.ofText_joined {a b : String} (ha : (ofText a).diagnostics = [])
    (hb : (ofText b).diagnostics = []) :
    ofText (joined a b) =
      ⟨(ofText a).program ++ (ofText b).program.mapLines (· + linesOf a), []⟩ := by
  obtain ⟨hscan, hread⟩ := List.append_eq_nil_iff.1 ha
  obtain ⟨hscan', hread'⟩ := List.append_eq_nil_iff.1 hb
  obtain ⟨hgrammatical, hspells⟩ := found_ofTokens _ hread
  obtain ⟨hgrammatical', hspells'⟩ := found_ofTokens _ hread'
  have hjoined : ((ofText a).program ++ (ofText b).program.mapLines (· + linesOf a)).Spells
      ((Scan.ofText a).tokens ++
        (Scan.ofText b).tokens.map (Token.mapLine (· + linesOf a))) [] := by
    have hlater : Spans ((ofText b).program.mapLines (· + linesOf a)).parts
        ((Scan.ofText b).tokens.map (Token.mapLine (· + linesOf a))) [] [] := by
      rw [Program.parts_mapLines]
      exact hspells'.mapLine
    have hfirst := hspells.append_tokens
      ((Scan.ofText b).tokens.map (Token.mapLine (· + linesOf a)))
    unfold Program.Spells Program.parts
    rw [Stmt.allParts_append]
    exact hfirst.append hlater
  unfold ofText ofScan
  rw [Scan.ofText_joined hscan]
  dsimp only
  rw [ofTokens_of_spells _ ((Stmt.allGrammatical_append ..).2
    ⟨hgrammatical, (Program.grammatical_mapLines _).2 hgrammatical'⟩) hjoined, hscan']
  rfl

/-! ### Binding -/

instance : LawfulMonad Bound :=
  LawfulMonad.mk' Bound (fun x => by simp [Functor.map]) (fun _ _ => by simp [bind, pure])
    fun _ _ _ => by simp [bind]

@[simp]
theorem Bound.result_map {α β : Type} (f : α → β) (x : Bound α) :
    (f <$> x).result = f x.result := rfl

@[simp]
theorem Bound.diagnostics_map {α β : Type} (f : α → β) (x : Bound α) :
    (f <$> x).diagnostics = x.diagnostics := List.append_nil _

/-- Only the result of the first part matters to the second. -/
theorem Bound.bind_congr_result {α β : Type} {x : Bound α} {f g : α → Bound β}
    (h : f x.result = g x.result) : x >>= f = x >>= g := by
  simp only [bind, h]

section

variable {β : Type} (mark : Scopes → Hops → β) (context : Context)

/-- What comes later is bound in the same context, in the scopes that are left. -/
theorem Stmt.resolveAll_append (scopes : Scopes) (first later : List (Stmt Unit)) :
    Stmt.resolveAll mark context scopes (first ++ later) = do
      let (first, scopes) ← Stmt.resolveAll mark context scopes first
      let (later, scopes) ← Stmt.resolveAll mark context scopes later
      return (first ++ later, scopes) := by
  induction first generalizing scopes with
  | nil => simp [Stmt.resolveAll]
  | cons s ss ih => simp [Stmt.resolveAll, ih]

/-- Global names are not in any scope. -/
theorem Stmt.scopes_resolveAll_top {ss : List (Stmt Unit)} (hs : Stmt.AllProper ss) :
    (Stmt.resolveAll mark context [] ss).result.2 = [] := by
  induction ss with
  | nil => rfl
  | cons s ss ih =>
    have hafter : Scopes.after [] s = [] := by
      unfold Scopes.after
      split <;> rfl
    have hscopes : (s.resolve mark context []).result.2 = [] :=
      (Stmt.scopes_resolve hs.1 context).trans hafter
    simp only [Stmt.resolveAll, Bound.result_bind, Bound.result_pure, hscopes, ih hs.2]

end

/-- No scope is left open by a proper program, so what comes later is bound as if it came first. -/
theorem Program.resolve_append {program : Program Unit} (hp : Stmt.AllProper program)
    (later : Program Unit) :
    Program.resolve (program ++ later) = do
      let first ← Program.resolve program
      let rest ← Program.resolve later
      return first ++ rest := by
  have hscopes := Stmt.scopes_resolveAll_top (fun _ hops => hops) Context.program hp
  simp only [Program.resolve, Program.resolveWith, Stmt.resolveAll_append, bind_assoc, pure_bind]
  exact Bound.bind_congr_result (by rw [hscopes])

/-- Texts that are accepted are accepted together, and the program is the one of the first and then
the one of the second further down. -/
theorem Session.accepts_joined {a b : String} (ha : Accepts a) (hb : Accepts b) :
    Accepts (joined a b) ∧
      program (joined a b) = program a ++ (program b).mapLines (· + linesOf a) := by
  have hread := Source.ofText_joined ha.1 hb.1
  have hbound := Program.resolve_append (Source.proper_ofText a)
    ((Source.ofText b).program.mapLines (· + linesOf a))
  obtain ⟨hresult, hdiagnostics⟩ :=
    Program.resolve_mapLines (· + (linesOf a : Int)) (Source.ofText b).program
  refine ⟨⟨by rw [hread], ?_⟩, ?_⟩
  · rw [hread, hbound, Bound.diagnostics_bind, Bound.diagnostics_bind, ha.2, hdiagnostics, hb.2]
    rfl
  · unfold program
    rw [hread, hbound, Bound.result_bind, Bound.result_bind, hresult]
    rfl

end LoxLang
