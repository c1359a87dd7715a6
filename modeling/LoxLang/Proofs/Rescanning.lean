import LoxLang.Proofs.LongestMatch

/-!
# Scanning lexemes again

A word is the longest piece of its own text, and a blank does not make it longer. So a text that has
the lexemes of some words with single blanks in between is cut up into these words and the blanks
(`Piece.all_spaced`), whatever the words would be if they stood next to each other. Any lexemes that
are of the right form are those of words (`Lexeme.exists_written`). Hence a text can be rewritten
with one blank between its tokens, and scanning it again finds the same (`Scan.ofText_spaced`).
-/

namespace LoxLang

/-- Lexemes with single blanks in between. -/
def spaced (lexemes : List String) : String := " ".intercalate lexemes

/-- The forms that lexemes have: symbols, names, which may be reserved, numerals and strings. -/
inductive Lexeme : String → Prop where
  | symbol (s : Symbol) : Lexeme s.text
  | name {c : Char} {cs : List Char} (hc : isLetter c = true)
    (hcs : ∀ d ∈ cs, isWordChar d = true) : Lexeme (String.ofList (c :: cs))
  | whole {digits : List Char} (hne : digits ≠ []) (hdigits : ∀ c ∈ digits, c.isDigit = true) :
    Lexeme (String.ofList digits)
  | fraction {whole fraction : List Char} (hne : whole ≠ [])
    (hwhole : ∀ c ∈ whole, c.isDigit = true) (hne' : fraction ≠ [])
    (hfraction : ∀ c ∈ fraction, c.isDigit = true) :
    Lexeme (String.ofList (whole ++ '.' :: fraction))
  | string {content : String} (h : '"' ∉ content.toList) : Lexeme ("\"" ++ content ++ "\"")

/-- Every lexeme is how some word is written. -/
theorem Lexeme.exists_written {text : String} (h : Lexeme text) :
    ∃ word : Word, word.Written ∧ word.lexeme = text := by
  cases h with
  | symbol s => exact ⟨.symbol s, .symbol s, rfl⟩
  | @name c cs hc hcs =>
    exact ⟨_, Piece.letterWord_written hc hcs, String.ext (by simp [Piece.text_letterWord])⟩
  | whole hne hdigits =>
    exact ⟨_, .whole hne hdigits (Number.parse?_digits hne hdigits), rfl⟩
  | fraction hne hwhole hne' hfraction =>
    exact ⟨_, .fraction hne hwhole hne' hfraction
      (Number.parse?_fraction hne hwhole hne' hfraction), rfl⟩
  | string h => exact ⟨.string _, .string h, rfl⟩

theorem exists_written_of_lexemes {lexemes : List String} (h : ∀ text ∈ lexemes, Lexeme text) :
    ∃ words : List Word, (∀ word ∈ words, word.Written) ∧ words.map Word.lexeme = lexemes := by
  induction lexemes with
  | nil => exact ⟨[], by simp, rfl⟩
  | cons text lexemes ih =>
    obtain ⟨htext, hlexemes⟩ := List.forall_mem_cons.1 h
    obtain ⟨word, hword, rfl⟩ := htext.exists_written
    obtain ⟨words, hwords, rfl⟩ := ih hlexemes
    exact ⟨word :: words, List.forall_mem_cons.2 ⟨hword, hwords⟩, rfl⟩

namespace Piece

theorem Begins.length_le {p : Piece} {cs : List Char} (h : p.Begins cs) :
    p.text.length ≤ cs.length := by
  cases h with
  | regular _ hfront => exact hfront.length_le
  | stray _ => simp [text]
  | unclosed _ => simp [text]

/-- No piece is longer than the text it stands in, so a word is all there is in its own. -/
theorem all_lexeme {word : Word} (h : word.Written) : all word.lexeme.toList = [lexeme word] := by
  have hlongest : (lexeme word).Longest ((lexeme word).text ++ []) :=
    ⟨.regular (.lexeme h) (List.prefix_append _ _), fun q hq => by simpa using hq.length_le⟩
  have hcut : CutUp [lexeme word] ((lexeme word).text ++ []) := .cons hlongest .nil
  rw [← text_lexeme, ← List.append_nil (lexeme word).text, ← cutUp_iff.1 hcut]

theorem CutUp.exists_begins {ps : List Piece} {cs : List Char} (h : CutUp ps cs) :
    ∀ p ∈ ps, ∃ ds, p.Begins ds := by
  induction h with
  | nil => simp
  | cons hp _ ih => exact List.forall_mem_cons.2 ⟨⟨_, hp.1⟩, ih⟩

/-- The words of a text are written as words are. -/
theorem written_of_mem_all {word : Word} {cs : List Char} (h : lexeme word ∈ all cs) :
    word.Written := by
  obtain ⟨ds, hbegins⟩ := (cutUp_iff.2 rfl).exists_begins _ h
  cases hbegins with
  | regular hregular _ =>
    cases hregular with
    | lexeme hword => exact hword

/-- A text of words with single blanks in between is cut up into just these. -/
theorem all_spaced {words : List Word} (h : ∀ word ∈ words, word.Written) :
    all (spaced (words.map Word.lexeme)).toList = (words.map lexeme).intersperse (blank ' ') := by
  induction words with
  | nil => simp [spaced, all]
  | cons word words ih =>
    obtain ⟨hword, hwords⟩ := List.forall_mem_cons.1 h
    cases words with
    | nil => simpa [spaced] using all_lexeme hword
    | cons next words =>
      have hstops : ∀ p ∈ all word.lexeme.toList, p.StopsAt ' ' := by
        simp [all_lexeme hword, StopsAt]
      have hsplit : (spaced ((word :: next :: words).map Word.lexeme)).toList =
          word.lexeme.toList ++ ' ' :: (spaced ((next :: words).map Word.lexeme)).toList := by
        simp [spaced]
      rw [hsplit, all_append rfl hstops, all_lexeme hword, ih hwords]
      rfl

end Piece

namespace Scan

/-- The scan has the words in order, and then the end of the text once. Nothing is wrong with it. -/
structure Finds (scan : Scan) (words : List Word) : Prop where
  words : scan.tokens.map Token.word = words
  ends : ∃ line, scan.inspect =
    scan.tokens.map Token.inspect ++ [Token.listing "EOF" "" none line]
  diagnostics : scan.diagnostics = []

theorem finds_spaced {words : List Word} (h : ∀ word ∈ words, word.Written) :
    (ofText (spaced (words.map Word.lexeme))).Finds words := by
  have hwords : ((words.map Piece.lexeme).intersperse (.blank ' ')).filterMap Piece.word? =
      words := by
    clear h
    induction words with
    | nil => rfl
    | cons word words ih =>
      cases words with
      | nil => rfl
      | cons next words => simpa [Piece.word?, List.filterMap_cons] using ih
  have herrors : ((words.map Piece.lexeme).intersperse (.blank ' ')).filterMap Piece.error? =
      [] := by
    clear h hwords
    induction words with
    | nil => rfl
    | cons word words ih =>
      cases words with
      | nil => rfl
      | cons next words => simpa [Piece.error?, List.filterMap_cons] using ih
  rw [← Piece.all_spaced h] at hwords herrors
  refine ⟨(words_ofPieces 1 _).trans hwords, ⟨_, rfl⟩, ?_⟩
  exact List.map_eq_nil_iff.1 ((errors_ofPieces 1 _).trans herrors)

/-- The words that a scan finds are written as words are. -/
theorem written_of_mem {source : String} {word : Word}
    (h : word ∈ (ofText source).tokens.map Token.word) : word.Written := by
  rw [ofText, words_ofPieces] at h
  obtain ⟨p, hp, hword⟩ := List.mem_filterMap.1 h
  cases p with
  | lexeme found =>
    obtain rfl : found = word := Option.some.inj hword
    exact Piece.written_of_mem_all hp
  | _ => cases hword

/-- **Scanning again finds the same.** If the lexemes of the tokens of any text are written with
single blanks in between, there is nothing wrong with that text and it has the same tokens, by kind,
lexeme and value, and then the end. The same goes for any lexemes, whether or not they have been
scanned before: there are words that are written so, and these are found. -/
theorem ofText_spaced :
    (∀ source : String, (ofText (spaced ((ofText source).tokens.map Token.lexeme))).Finds
      ((ofText source).tokens.map Token.word)) ∧
    ∀ lexemes : List String, (∀ text ∈ lexemes, Lexeme text) →
      ∃ words : List Word, (∀ word ∈ words, word.Written) ∧ words.map Word.lexeme = lexemes ∧
        (ofText (spaced lexemes)).Finds words := by
  constructor
  · intro source
    have hlexemes : (ofText source).tokens.map Token.lexeme =
        ((ofText source).tokens.map Token.word).map Word.lexeme := List.map_map.symm
    rw [hlexemes]
    exact finds_spaced fun _ => written_of_mem
  · intro lexemes h
    obtain ⟨words, hwords, rfl⟩ := exists_written_of_lexemes h
    exact ⟨words, hwords, rfl, finds_spaced hwords⟩

/-- Lexemes that would not be found if they stood next to each other: there would be a comparison, a
comment, a fraction and a longer name. -/
theorem ofText_spaced_apart :
    (∀ text ∈ ["<", "=", "/", "/", "1", ".", "5", "fun", "ny", "\"//\""], Lexeme text) ∧
      ∃ words : List Word, (∀ word ∈ words, word.Written) ∧
        words.map Word.lexeme = ["<", "=", "/", "/", "1", ".", "5", "fun", "ny", "\"//\""] ∧
        (ofText "< = / / 1 . 5 fun ny \"//\"").Finds words := by
  have hone : Lexeme (String.ofList ['1']) := .whole (by decide) (List.all_eq_true.1 (by decide))
  have hfive : Lexeme (String.ofList ['5']) := .whole (by decide) (List.all_eq_true.1 (by decide))
  have hfun : Lexeme (String.ofList ['f', 'u', 'n']) :=
    .name (by decide) (List.all_eq_true.1 (by decide))
  have hny : Lexeme (String.ofList ['n', 'y']) := .name (by decide) (List.all_eq_true.1 (by decide))
  have hstring : Lexeme ("\"" ++ "//" ++ "\"") := .string (by decide)
  have hlexemes : ∀ text ∈ ["<", "=", "/", "/", "1", ".", "5", "fun", "ny", "\"//\""],
      Lexeme text := by
    simp only [List.forall_mem_cons]
    exact ⟨.symbol .less, .symbol .equal, .symbol .slash, .symbol .slash, hone, .symbol .dot, hfive,
      hfun, hny, hstring, by simp⟩
  exact ⟨hlexemes, ofText_spaced.2 _ hlexemes⟩

end Scan

end LoxLang
