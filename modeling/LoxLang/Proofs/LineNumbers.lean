import LoxLang.Proofs.LongestMatch

/-!
# Line numbers

A token is on the line that the text has come to at its end, and so is what is wrong with a text.
That line is one more than the count of line feeds from the beginning of the text, wherever they
are: in strings, after comments or between tokens (`Scan.ofText_counts_line_feeds`). Nothing else
ends a line.
-/

namespace LoxLang

/-- The line that the text has come to at its end. -/
def lineAfter (cs : List Char) : Int := 1 + cs.count '\n'

theorem lineAfter_append (cs ds : List Char) :
    lineAfter (cs ++ ds) = lineAfter cs + ds.count '\n' := by
  rw [lineAfter, lineAfter, List.count_append, Nat.cast_add, Int.add_assoc]

/-- A piece of a text, with all of the text up to its end. -/
structure Placed where
  piece : Piece
  upTo : List Char
deriving DecidableEq

namespace Placed

/-- The token that the piece is. -/
def token? (p : Placed) : Option Token := p.piece.word?.map fun word => ⟨word, lineAfter p.upTo⟩

/-- What is wrong with the piece. -/
def diagnostic? (p : Placed) : Option Diagnostic :=
  p.piece.error?.map fun error => ⟨lineAfter p.upTo, .line, error⟩

end Placed

namespace Piece

/-- Pieces one after the other, after the text `before`. -/
def place (before : List Char) : List Piece → List Placed
  | [] => []
  | p :: ps => ⟨p, before ++ p.text⟩ :: place (before ++ p.text) ps

/-- The pieces of a text where they stand. -/
def placed (cs : List Char) : List Placed := place [] (all cs)

theorem map_piece_place (before : List Char) (ps : List Piece) :
    (place before ps).map Placed.piece = ps := by
  induction ps generalizing before with
  | nil => rfl
  | cons p ps ih => rw [place, List.map_cons, ih]

theorem upTo_of_place {before : List Char} {ps : List Piece} {first later : List Placed}
    {p : Placed} (h : place before ps = first ++ p :: later) :
    p.upTo = before ++ first.flatMap (·.piece.text) ++ p.piece.text := by
  induction ps generalizing before first with
  | nil => simp [place] at h
  | cons q ps ih =>
    cases first with
    | nil =>
      obtain ⟨rfl, -⟩ := List.cons.inj h
      simp
    | cons r first =>
      obtain ⟨rfl, hlater⟩ := List.cons.inj h
      rw [ih hlater]
      simp

/-- An unclosed string is the last piece. -/
theorem CutUp.of_unclosed {first later : List Piece} {text cs : List Char}
    (h : CutUp (first ++ .unclosed text :: later) cs) : later = [] := by
  induction first generalizing cs with
  | nil =>
    cases h with
    | @cons _ _ rest hlongest hlater =>
      obtain ⟨hbegins, -⟩ := hlongest
      generalize hall : (unclosed text).text ++ rest = all at hbegins
      cases hbegins with
      | regular hregular => cases hregular
      | unclosed =>
        obtain rfl : rest = [] := by simpa [Piece.text] using hall
        exact (cutUp_iff.1 hlater).trans (by rw [Piece.all])
  | cons p first ih =>
    cases h with
    | cons _ hlater => exact ih hlater

end Piece

namespace Scan

theorem ofPieces_place (before : List Char) {ps : List Piece}
    (hlines : ∀ p ∈ ps, p.lineFeeds = p.text.count '\n') :
    ofPieces (lineAfter before) ps = ⟨(Piece.place before ps).filterMap Placed.token?,
      lineAfter (before ++ ps.flatMap Piece.text),
      (Piece.place before ps).filterMap Placed.diagnostic?⟩ := by
  induction ps generalizing before with
  | nil => simp [ofPieces, Piece.place]
  | cons p ps ih =>
    obtain ⟨hp, hrest⟩ := List.forall_mem_cons.1 hlines
    have hline : lineAfter before + p.lineFeeds = lineAfter (before ++ p.text) := by
      rw [lineAfter_append, hp]
    cases p <;>
      simp only [ofPieces, hline, ih _ hrest, Piece.place, List.filterMap_cons, Placed.token?,
        Placed.diagnostic?, Piece.word?, Piece.error?, Option.map, List.flatMap_cons,
        List.append_assoc]

/-- **Line numbers.** The pieces of a text are cut off by longest match, one after the other. The
line of a token, and of what is wrong with a piece, is that of the text up to the end of the piece,
which is all of the text if it is an unclosed string. The line of the end is that of the whole text.
A line feed counts once wherever it stands, and no other character counts. -/
theorem ofText_counts_line_feeds (source : String) :
    Piece.CutUp ((Piece.placed source.toList).map Placed.piece) source.toList ∧
    (∀ first p later, Piece.placed source.toList = first ++ p :: later →
      p.upTo = first.flatMap (·.piece.text) ++ p.piece.text ∧ p.upTo <+: source.toList ∧
        ∀ text, p.piece = .unclosed text → p.upTo = source.toList) ∧
    (ofText source).tokens = (Piece.placed source.toList).filterMap Placed.token? ∧
    (ofText source).diagnostics = (Piece.placed source.toList).filterMap Placed.diagnostic? ∧
    (ofText source).endLine = lineAfter source.toList ∧
    (ofText source).inspect = (ofText source).tokens.map Token.inspect ++
      [Token.listing "EOF" "" none (lineAfter source.toList)] ∧
    ∀ (cs ds : List Char) (c : Char),
      lineAfter (cs ++ c :: ds) = lineAfter (cs ++ ds) + if c = '\n' then 1 else 0 := by
  have hscan : ofText source = _ := ofPieces_place [] fun _ => Piece.lineFeeds_of_mem_all
  rw [List.nil_append, Piece.flatMap_text_all] at hscan
  have hpieces : (Piece.placed source.toList).map Placed.piece = Piece.all source.toList :=
    Piece.map_piece_place _ _
  have hcut : Piece.CutUp ((Piece.placed source.toList).map Placed.piece) source.toList :=
    Piece.cutUp_iff.2 hpieces
  refine ⟨hcut, ?_, by rw [hscan]; rfl, by rw [hscan]; rfl, by rw [hscan], by rw [hscan]; rfl, ?_⟩
  · intro first p later h
    have hupTo := Piece.upTo_of_place h
    have hsource : source.toList = p.upTo ++ later.flatMap (·.piece.text) := by
      rw [hupTo, ← Piece.flatMap_text_all source.toList, ← hpieces, h]
      simp [List.flatMap_map]
    refine ⟨hupTo, ⟨_, hsource.symm⟩, fun text htext => ?_⟩
    rw [h, List.map_append, List.map_cons, htext] at hcut
    obtain rfl := List.map_eq_nil_iff.1 hcut.of_unclosed
    simpa using hsource.symm
  · intro cs ds c
    rw [lineAfter_append, lineAfter_append, List.count_cons, Nat.cast_add, Int.add_assoc]
    simp

/-- A string over two lines, a comment, a return before the line feed, a separator of lines that is
not one here, and a string that is not closed. -/
theorem ofText_counts_line_feeds_mixed :
    let source := "\"a\nb\" // c\r\n\u2028 d \"e\n"
    ∃ first, Piece.placed source.toList = first ++ [⟨.unclosed ['"', 'e', '\n'], source.toList⟩] ∧
      source.toList = first.flatMap (·.piece.text) ++ ['"', 'e', '\n'] ∧
      (ofText source).tokens.map Token.line = [2, 3] ∧
      (ofText source).diagnostics.map Diagnostic.line = [3, 4] := by
  intro source
  have hplaced : Piece.placed source.toList = (Piece.placed source.toList).dropLast ++
      [⟨.unclosed ['"', 'e', '\n'], source.toList⟩] := by decide +kernel
  obtain ⟨-, hplaces, htokens, hdiagnostics, -⟩ := ofText_counts_line_feeds source
  refine ⟨_, hplaced, (hplaces _ _ _ hplaced).1, ?_, ?_⟩
  · rw [htokens]
    decide +kernel
  · rw [hdiagnostics]
    decide +kernel

end Scan

end LoxLang
