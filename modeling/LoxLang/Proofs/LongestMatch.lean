import LoxLang.Proofs.Joining
import Mathlib.Data.List.TakeWhile
import Mathlib.Tactic.IntervalCases

/-!
# Longest match

What the pieces of a program text can be is told here without telling how they are found:
`Word.Written` says how the words are written, `Piece.Begins` which pieces a text may begin with. A
text is cut up into pieces that are each as long as can be where they stand (`Piece.CutUp`). There
is one way to do that, and it is what the scan of a text goes by (`Scan.ofText_is_longest_match`).
-/

namespace LoxLang

/-! ### Numerals -/

namespace Number

theorem mem_digits {c : Char} (h : c.isDigit = true) :
    c ∈ ['0', '1', '2', '3', '4', '5', '6', '7', '8', '9'] := by
  have hrange : 48 ≤ c.toNat ∧ c.toNat ≤ 57 := by
    simpa [Char.isDigit, UInt32.le_iff_toNat_le] using h
  obtain ⟨hlow, hhigh⟩ := hrange
  rw [← Char.ofNat_toNat c]
  interval_cases c.toNat <;> decide

/-- What holds of every digit can be seen by going through the ten of them. -/
theorem of_isDigit (p : Char → Bool)
    (hp : ['0', '1', '2', '3', '4', '5', '6', '7', '8', '9'].all p = true) {c : Char}
    (h : c.isDigit = true) : p c = true :=
  List.all_eq_true.1 hp c (mem_digits h)

theorem joinDigits?_of_not_mem {cs : List Char} (h : '_' ∉ cs) (previous : Char) :
    joinDigits? previous cs = some cs := by
  induction cs generalizing previous with
  | nil => rfl
  | cons c cs ih =>
    obtain ⟨hc, hcs⟩ := not_or.1 (mt List.mem_cons.2 h)
    rw [joinDigits?, if_neg (Ne.symm hc), ih hcs]
    rfl

/-- The digits in front of a point. -/
theorem takeWhile_point {whole : List Char} (hwhole : ∀ c ∈ whole, c.isDigit = true)
    (rest : List Char) : (whole ++ '.' :: rest).takeWhile Char.isDigit = whole := by
  rw [Piece.takeWhile_append_stop rfl, List.takeWhile_eq_self_iff.2 hwhole]

theorem dropWhile_point {whole : List Char} (hwhole : ∀ c ∈ whole, c.isDigit = true)
    (rest : List Char) : (whole ++ '.' :: rest).dropWhile Char.isDigit = '.' :: rest := by
  rw [Piece.dropWhile_append_stop rfl, List.dropWhile_eq_nil_iff.2 hwhole, List.nil_append]

theorem parseMagnitude?_digits {whole : List Char} (hne : whole ≠ [])
    (hwhole : ∀ c ∈ whole, c.isDigit = true) :
    parseMagnitude? whole = some (ofNumeral whole []) := by
  have htake : whole.takeWhile Char.isDigit = whole := List.takeWhile_eq_self_iff.2 hwhole
  have hdrop : whole.dropWhile Char.isDigit = [] := List.dropWhile_eq_nil_iff.2 hwhole
  simp [parseMagnitude?, htake, hdrop, hne, ofNumeral]

theorem parseMagnitude?_fraction {whole fraction : List Char}
    (hwhole : ∀ c ∈ whole, c.isDigit = true) (hne : fraction ≠ [])
    (hfraction : ∀ c ∈ fraction, c.isDigit = true) :
    parseMagnitude? (whole ++ '.' :: fraction) = some (ofNumeral whole fraction) := by
  have htake : fraction.takeWhile Char.isDigit = fraction := List.takeWhile_eq_self_iff.2 hfraction
  have hdrop : fraction.dropWhile Char.isDigit = [] := List.dropWhile_eq_nil_iff.2 hfraction
  simp [parseMagnitude?, takeWhile_point hwhole, dropWhile_point hwhole, htake, hdrop, hne,
    ofNumeral]

/-- A numeral that has only plain digits and a point, and digits at both ends, is read as it is. -/
theorem parse?_eq_parseMagnitude? {c d : Char} {cs ds : List Char} (hc : c.isDigit = true)
    (hd : d.isDigit = true) (hends : c :: cs = ds ++ [d])
    (hcs : ∀ e ∈ c :: cs, e.isDigit = true ∨ e = '.') :
    parse? (String.ofList (c :: cs)) = parseMagnitude? (c :: cs) := by
  have hmargin {e : Char} (he : e.isDigit = true) : isMargin e = false := by
    simpa using of_isDigit (! isMargin ·) (by decide) he
  have hbare : Text.dropRightWhile isMargin ((c :: cs).dropWhile isMargin) = c :: cs := by
    rw [List.dropWhile_cons_of_neg (by simp [hmargin hc]), Text.dropRightWhile, hends,
      List.reverse_append, List.reverse_singleton, List.singleton_append,
      List.dropWhile_cons_of_neg (by simp [hmargin hd]), List.reverse_cons, List.reverse_reverse]
  have hplain : (c :: cs).map plainDigit = c :: cs := by
    refine (List.map_congr_left fun e he => ?_).trans (List.map_id _)
    obtain he | rfl := hcs e he
    · simpa using of_isDigit (fun e => plainDigit e == e) (by decide) he
    · decide
  have hjoined : '_' ∉ c :: cs := by
    intro hmem
    obtain h | h := hcs '_' hmem
    · cases h
    · exact absurd h (by decide)
  -- A digit in front is neither a sign nor the first letter of a name.
  have hsigned : parseSigned? (c :: cs) = parseMagnitude? (c :: cs) := by
    have hletter (name : String)
        (hname : ['0', '1', '2', '3', '4', '5', '6', '7', '8', '9'].all
          (fun e => name.toList.head? != some e.toLower) = true) :
        String.ofList ((c :: cs).map Char.toLower) ≠ name := by
      rintro rfl
      simpa using of_isDigit _ hname hc
    have hnan := hletter "nan" (by decide)
    have hinf := hletter "inf" (by decide)
    have hinfinity := hletter "infinity" (by decide)
    have hsign : parseSigned? (c :: cs) =
        (if String.ofList ((c :: cs).map Char.toLower) = "nan" then some notANumber
        else if String.ofList ((c :: cs).map Char.toLower) = "inf" ∨
            String.ofList ((c :: cs).map Char.toLower) = "infinity" then some infinity
        else parseMagnitude? (c :: cs)).map (withSign false) := by
      have hten := mem_digits hc
      simp only [List.mem_cons, List.not_mem_nil, or_false] at hten
      obtain rfl | rfl | rfl | rfl | rfl | rfl | rfl | rfl | rfl | rfl := hten <;> rfl
    rw [hsign, if_neg hnan, if_neg (not_or.2 ⟨hinf, hinfinity⟩)]
    cases parseMagnitude? (c :: cs) <;> rfl
  unfold parse?
  dsimp only
  rw [String.toList_ofList, hbare, hplain, joinDigits?_of_not_mem hjoined]
  exact hsigned

theorem parse?_digits {digits : List Char} (hne : digits ≠ [])
    (hdigits : ∀ c ∈ digits, c.isDigit = true) :
    parse? (String.ofList digits) = some (ofNumeral digits []) := by
  have hends := (List.dropLast_append_getLast hne).symm
  have hlast := hdigits _ (List.getLast_mem hne)
  rw [← parseMagnitude?_digits hne hdigits]
  obtain ⟨c, cs, rfl⟩ := List.exists_cons_of_ne_nil hne
  exact parse?_eq_parseMagnitude? (hdigits c List.mem_cons_self) hlast hends
    fun e he => .inl (hdigits e he)

theorem parse?_fraction {whole fraction : List Char} (hne : whole ≠ [])
    (hwhole : ∀ c ∈ whole, c.isDigit = true) (hne' : fraction ≠ [])
    (hfraction : ∀ c ∈ fraction, c.isDigit = true) :
    parse? (String.ofList (whole ++ '.' :: fraction)) = some (ofNumeral whole fraction) := by
  have hends := (List.dropLast_append_getLast hne').symm
  have hlast := hfraction _ (List.getLast_mem hne')
  rw [← parseMagnitude?_fraction hwhole hne' hfraction]
  obtain ⟨c, cs, rfl⟩ := List.exists_cons_of_ne_nil hne
  have hsplit : c :: (cs ++ '.' :: fraction) =
      (c :: cs ++ '.' :: fraction.dropLast) ++ [fraction.getLast hne'] := by
    conv_lhs => rw [hends]
    simp
  refine parse?_eq_parseMagnitude? (hwhole c List.mem_cons_self) hlast hsplit fun e he => ?_
  obtain he | rfl | he : e ∈ c :: cs ∨ e = '.' ∨ e ∈ fraction := by
    simpa [or_assoc] using he
  · exact .inl (hwhole e he)
  · exact .inr rfl
  · exact .inl (hfraction e he)

end Number

/-! ### What there is to find -/

/-- The words of the language with the texts they have. A name is not the text of a keyword, and a
number counts as what its text is read as. -/
inductive Word.Written : Word → Prop where
  | symbol (s : Symbol) : Written (.symbol s)
  | keyword (k : Keyword) : Written (.keyword k)
  | identifier {c : Char} {cs : List Char} (hc : isLetter c = true)
    (hcs : ∀ d ∈ cs, isWordChar d = true)
    (hname : ∀ k : Keyword, k.text ≠ String.ofList (c :: cs)) :
    Written (.identifier (String.ofList (c :: cs)))
  | string {content : String} (h : '"' ∉ content.toList) : Written (.string content)
  | whole {digits : List Char} {value : Number} (hne : digits ≠ [])
    (hdigits : ∀ c ∈ digits, c.isDigit = true)
    (hvalue : Number.parse? (String.ofList digits) = some value) :
    Written (.number (String.ofList digits) value)
  | fraction {whole fraction : List Char} {value : Number} (hne : whole ≠ [])
    (hwhole : ∀ c ∈ whole, c.isDigit = true) (hne' : fraction ≠ [])
    (hfraction : ∀ c ∈ fraction, c.isDigit = true)
    (hvalue : Number.parse? (String.ofList (whole ++ '.' :: fraction)) = some value) :
    Written (.number (String.ofList (whole ++ '.' :: fraction)) value)

namespace Piece

/-- The pieces that there is nothing wrong with. -/
inductive Regular : Piece → Prop where
  | blank {c : Char} (h : c = ' ' ∨ c = '\r' ∨ c = '\t' ∨ c = '\n') : Regular (blank c)
  | comment {text : List Char} (h : '\n' ∉ text) : Regular (comment ('/' :: '/' :: text))
  | lexeme {word : Word} (h : word.Written) : Regular (lexeme word)

/-- The text may begin with the piece. A character is stray if no other piece begins with it, and a
string is unclosed if the text ends before it does. -/
inductive Begins : Piece → List Char → Prop where
  | regular {p : Piece} {cs : List Char} (h : p.Regular) (hcs : p.text <+: cs) : Begins p cs
  | stray {c : Char} {cs : List Char} (h : ∀ p : Piece, p.Regular → p.text.head? ≠ some c) :
    Begins (stray c) (c :: cs)
  | unclosed {cs : List Char} (h : '"' ∉ cs) : Begins (unclosed ('"' :: cs)) ('"' :: cs)

/-- The text may begin with the piece, and with none that is longer. -/
def Longest (p : Piece) (cs : List Char) : Prop :=
  p.Begins cs ∧ ∀ q : Piece, q.Begins cs → q.text.length ≤ p.text.length

/-- The pieces make up the text, and each is the longest one where it stands. -/
inductive CutUp : List Piece → List Char → Prop where
  | nil : CutUp [] []
  | cons {p : Piece} {ps : List Piece} {cs : List Char} (h : p.Longest (p.text ++ cs))
    (hps : CutUp ps cs) : CutUp (p :: ps) (p.text ++ cs)

end Piece

/-! ### Letters, digits and symbols -/

theorem Keyword.ofText?_text (k : Keyword) : ofText? k.text = some k := by
  cases k <;> decide

/-- A keyword is written as a name would be. -/
theorem Keyword.exists_letters (k : Keyword) : ∃ c cs, k.text.toList = c :: cs ∧
    isLetter c = true ∧ ∀ d ∈ cs, isWordChar d = true := by
  cases k <;> exact ⟨_, _, rfl, by decide, List.all_eq_true.1 (by decide)⟩

/-- A symbol is a character that is one by itself, or such a character with an equals sign. -/
theorem Symbol.text_cases (s : Symbol) : ∃ c t, ofChar? c = some t ∧
    ((s = t ∧ s.text.toList = [c]) ∨ (t.withEqual? = some s ∧ s.text.toList = [c, '='])) := by
  cases s with
  | bangEqual => exact ⟨'!', bang, rfl, .inr ⟨rfl, rfl⟩⟩
  | equalEqual => exact ⟨'=', equal, rfl, .inr ⟨rfl, rfl⟩⟩
  | greaterEqual => exact ⟨'>', greater, rfl, .inr ⟨rfl, rfl⟩⟩
  | lessEqual => exact ⟨'<', less, rfl, .inr ⟨rfl, rfl⟩⟩
  | _ => exact ⟨_, _, rfl, .inl ⟨rfl, rfl⟩⟩

theorem Symbol.text_of_withEqual? {c : Char} {t s : Symbol} (h : ofChar? c = some t)
    (hs : t.withEqual? = some s) : s.text.toList = [c, '='] := by
  unfold ofChar? at h
  split at h <;> cases h <;> cases hs <;> rfl

theorem prefix_takeWhile {p : Char → Bool} {l cs : List Char} (hl : ∀ c ∈ l, p c = true)
    (h : l <+: cs) : l <+: cs.takeWhile p := by
  obtain ⟨rest, rfl⟩ := h
  rw [List.takeWhile_append_of_pos hl]
  exact List.prefix_append _ _

namespace Piece

variable {c : Char} {cs : List Char}

/-! ### The first piece by its first character -/

theorem first_blank (h : isSpace c = true) : first c cs = blank c := if_pos h

theorem first_comment :
    first '/' ('/' :: cs) = comment ('/' :: '/' :: cs.takeWhile (· ≠ '\n')) := rfl

theorem first_quote : first '"' cs = stringPiece cs := rfl

theorem first_digit (h : c.isDigit = true) : first c cs = lexeme (numberWord (c :: cs)) := by
  have hspace : isSpace c = false := by
    simpa using Number.of_isDigit (! isSpace ·) (by decide) h
  have hslash : c ≠ '/' := by simpa using Number.of_isDigit (· != '/') (by decide) h
  have hquote : c ≠ '"' := by simpa using Number.of_isDigit (· != '"') (by decide) h
  simp [first, hspace, hslash, hquote, h]

theorem first_letter (h : isLetter c = true) :
    first c cs = lexeme (letterWord (c :: cs.takeWhile isWordChar)) := by
  have hne (d : Char) (hd : isLetter d = false) : c ≠ d := by
    rintro rfl
    exact absurd h (by simp [hd])
  have hspace : isSpace c = false := by
    simp [isSpace, hne ' ' rfl, hne '\r' rfl, hne '\t' rfl, hne '\n' rfl]
  have hdigit : c.isDigit = false := by
    by_contra hdigit
    have hletter : isLetter c = false := by
      simpa using Number.of_isDigit (! isLetter ·) (by decide) (by simpa using hdigit)
    exact absurd h (by simp [hletter])
  simp [first, hspace, hne '/' rfl, hne '"' rfl, hdigit, h]

theorem first_symbol {t : Symbol} (h : Symbol.ofChar? c = some t)
    (hcomment : ¬ (c = '/' ∧ cs.head? = some '/')) : first c cs = lexeme (symbolWord t cs) := by
  -- No symbol begins like a piece of another kind, comments apart.
  have hothers : isSpace c = false ∧ c ≠ '"' ∧ c.isDigit = false ∧ isLetter c = false := by
    unfold Symbol.ofChar? at h
    split at h <;> cases h <;> decide
  obtain ⟨hspace, hquote, hdigit, hletter⟩ := hothers
  simp [first, hspace, hcomment, hquote, hdigit, hletter, h]

/-! ### The first piece is one that the text may begin with -/

theorem letterWord_written (hc : isLetter c = true) (hcs : ∀ d ∈ cs, isWordChar d = true) :
    (letterWord (c :: cs)).Written := by
  unfold letterWord
  dsimp only
  split
  · exact .keyword _
  · rename_i hname
    exact .identifier hc hcs (Keyword.text_ne_of_ofText? hname)

theorem symbolWord_eq (t : Symbol) (cs : List Char) : ∃ s, symbolWord t cs = .symbol s := by
  unfold symbolWord
  split <;> exact ⟨_, rfl⟩

theorem numberWord_written (h : c.isDigit = true) (cs : List Char) :
    (numberWord (c :: cs)).Written := by
  have hdigits (ds : List Char) : ∀ d ∈ ds.takeWhile Char.isDigit, d.isDigit = true :=
    fun _ => List.mem_takeWhile_imp
  have hne : (c :: cs).takeWhile Char.isDigit ≠ [] := by simp [h]
  have hwhole : (Word.number (String.ofList ((c :: cs).takeWhile Char.isDigit))
      (Number.ofNumeral ((c :: cs).takeWhile Char.isDigit) [])).Written :=
    .whole hne (hdigits _) (Number.parse?_digits hne (hdigits _))
  unfold numberWord
  dsimp only
  split
  · rename_i rest _
    split
    · rename_i hempty
      rw [List.isEmpty_iff.1 hempty]
      exact hwhole
    · rename_i hfraction
      have hne' : rest.takeWhile Char.isDigit ≠ [] := by simpa using hfraction
      exact .fraction hne (hdigits _) hne' (hdigits _)
        (Number.parse?_fraction hne (hdigits _) hne' (hdigits _))
  · exact hwhole

/-- What a regular piece begins with tells of what kind it is, comments apart. -/
theorem Regular.text_cons {p : Piece} (hp : p.Regular) : ∃ c cs, p.text = c :: cs ∧
    (isSpace c = true ∨ c = '"' ∨ c.isDigit = true ∨ isLetter c = true ∨
      (Symbol.ofChar? c).isSome = true) := by
  cases hp with
  | blank h => exact ⟨_, _, rfl, .inl (by simpa [isSpace, or_assoc] using h)⟩
  | comment h => exact ⟨'/', _, rfl, by decide⟩
  | lexeme h =>
    cases h with
    | symbol s =>
      obtain ⟨c, t, ht, ⟨-, htext⟩ | ⟨-, htext⟩⟩ := s.text_cases <;>
        exact ⟨c, _, htext, by simp [ht]⟩
    | keyword k =>
      obtain ⟨c, cs, htext, hc, -⟩ := k.exists_letters
      exact ⟨c, cs, htext, by simp [hc]⟩
    | @identifier c cs hc _ _ => exact ⟨c, cs, String.toList_ofList, by simp [hc]⟩
    | @string content _ =>
      exact ⟨'"', content.toList ++ ['"'], by simp [text, Word.lexeme], by simp⟩
    | whole hne hdigits _ =>
      obtain ⟨c, cs, rfl⟩ := List.exists_cons_of_ne_nil hne
      exact ⟨c, cs, String.toList_ofList, by simp [hdigits c List.mem_cons_self]⟩
    | fraction hne hwhole _ _ _ =>
      obtain ⟨c, cs, rfl⟩ := List.exists_cons_of_ne_nil hne
      exact ⟨c, _, String.toList_ofList, by simp [hwhole c List.mem_cons_self]⟩

theorem begins_first (c : Char) (cs : List Char) : (first c cs).Begins (c :: cs) := by
  have hfront : (first c cs).text <+: c :: cs := by
    obtain ⟨used, htext, hused⟩ := text_first c cs
    rw [htext]
    exact List.cons_prefix_cons.2 ⟨rfl, hused⟩
  -- If the piece is regular, it only has to be known to be at the front.
  have hregular {p : Piece} (hp : p.Regular) (h : first c cs = p) : (first c cs).Begins (c :: cs) :=
    .regular (h ▸ hp) hfront
  by_cases hspace : isSpace c = true
  · exact hregular (.blank (by simpa [isSpace, or_assoc] using hspace)) (first_blank hspace)
  by_cases hcomment : c = '/' ∧ cs.head? = some '/'
  · obtain ⟨rfl, hhead⟩ := hcomment
    obtain ⟨rest, rfl⟩ := List.head?_eq_some_iff.1 hhead
    exact hregular (.comment fun hmem => absurd (List.mem_takeWhile_imp hmem) (by simp))
      first_comment
  by_cases hquote : c = '"'
  · subst hquote
    by_cases hend : cs.contains '"' = true
    · refine hregular (.lexeme (.string ?_)) (first_quote.trans (if_pos hend))
      rw [String.toList_ofList]
      exact fun hmem => absurd (List.mem_takeWhile_imp hmem) (by simp)
    · have hfirst : first '"' cs = unclosed ('"' :: cs) := first_quote.trans (if_neg hend)
      rw [hfirst]
      exact .unclosed (by simpa using hend)
  by_cases hdigit : c.isDigit = true
  · exact hregular (.lexeme (numberWord_written hdigit cs)) (first_digit hdigit)
  by_cases hletter : isLetter c = true
  · exact hregular (.lexeme (letterWord_written hletter fun _ => List.mem_takeWhile_imp))
      (first_letter hletter)
  cases hsymbol : Symbol.ofChar? c with
  | some t =>
    obtain ⟨s, hs⟩ := symbolWord_eq t cs
    exact hregular (.lexeme (hs ▸ .symbol s)) (first_symbol hsymbol hcomment)
  | none =>
    have hfirst : first c cs = stray c := by
      simp [first, hspace, hcomment, hquote, hdigit, hletter, hsymbol]
    rw [hfirst]
    refine .stray fun p hp hhead => ?_
    obtain ⟨d, ds, htext, hd⟩ := hp.text_cons
    obtain rfl : d = c := by simpa [htext] using hhead
    simp [hspace, hquote, hdigit, hletter, hsymbol] at hd

/-! ### The first piece is the longest -/

/-- The second piece is as long as the first or longer, and if it is not longer it is the same. -/
def Covers (q p : Piece) : Prop := p.text <+: q.text ∧ (p.text = q.text → p = q)

theorem covers_self (p : Piece) : p.Covers p := ⟨List.prefix_rfl, fun _ => rfl⟩

theorem letterWord_keyword (k : Keyword) : letterWord k.text.toList = .keyword k := by
  simp [letterWord, Keyword.ofText?_text]

theorem letterWord_identifier {name : List Char}
    (h : ∀ k : Keyword, k.text ≠ String.ofList name) :
    letterWord name = .identifier (String.ofList name) := by
  have hname : Keyword.ofText? (String.ofList name) = none := by
    simpa [Keyword.ofText?] using fun k _ => h k
  simp [letterWord, hname]

theorem text_lexeme (word : Word) : (lexeme word).text = word.lexeme.toList := rfl

/-- Of words that are made up of letters, the longest one is found. -/
theorem covers_of_letters {name : List Char} (hc : isLetter c = true)
    (hname : ∀ d ∈ name, isWordChar d = true) (h : name <+: cs) :
    (first c cs).Covers (lexeme (letterWord (c :: name))) := by
  rw [first_letter hc]
  unfold Covers
  rw [text_lexeme, text_lexeme, text_letterWord, text_letterWord]
  refine ⟨List.cons_prefix_cons.2 ⟨rfl, prefix_takeWhile hname h⟩, fun heq => ?_⟩
  rw [heq]

/-- A symbol may be the beginning of a comment, or of a symbol with an equals sign. -/
theorem covers_of_symbol {s : Symbol} (h : s.text.toList <+: c :: cs) :
    (first c cs).Covers (lexeme (.symbol s)) := by
  have hlonger {word : Word} (hword : word.lexeme.toList = [c, '=']) (hs : s.text.toList = [c]) :
      (lexeme word).Covers (lexeme (.symbol s)) := by
    unfold Covers
    rw [text_lexeme, text_lexeme, hword, Word.lexeme, hs]
    exact ⟨⟨['='], rfl⟩, by simp⟩
  obtain ⟨d, t, ht, ⟨rfl, htext⟩ | ⟨hs, htext⟩⟩ := s.text_cases <;>
  rw [htext] at h <;>
  obtain ⟨rfl, hrest⟩ := List.cons_prefix_cons.1 h
  · by_cases hcomment : d = '/' ∧ cs.head? = some '/'
    · obtain ⟨rfl, hhead⟩ := hcomment
      obtain ⟨rest, rfl⟩ := List.head?_eq_some_iff.1 hhead
      rw [first_comment]
      unfold Covers
      rw [text_lexeme, Word.lexeme, htext]
      exact ⟨⟨_, rfl⟩, by simp [text]⟩
    · rw [first_symbol ht hcomment]
      unfold symbolWord
      split
      · cases hequal : s.withEqual? with
        | none => exact covers_self _
        | some s' => exact hlonger (Symbol.text_of_withEqual? ht hequal) htext
      · exact covers_self _
  · obtain ⟨rest, rfl⟩ := hrest
    rw [first_symbol ht (by simp)]
    simp only [List.cons_append, symbolWord, hs, Option.getD_some]
    exact covers_self _

theorem takeWhile_prefix_numberWord (cs : List Char) :
    cs.takeWhile Char.isDigit <+: (numberWord cs).lexeme.toList := by
  simp only [numberWord, Word.lexeme, String.toList_ofList]
  split
  · split
    · exact List.prefix_rfl
    · exact List.prefix_append _ _
  · exact List.prefix_rfl

theorem numberWord_fraction {whole fraction : List Char}
    (hwhole : ∀ d ∈ whole, d.isDigit = true) (hne : fraction ≠ [])
    (hfraction : ∀ d ∈ fraction, d.isDigit = true) (rest : List Char) :
    whole ++ '.' :: fraction <+:
      (numberWord (whole ++ '.' :: (fraction ++ rest))).lexeme.toList := by
  have htake : (fraction ++ rest).takeWhile Char.isDigit =
      fraction ++ rest.takeWhile Char.isDigit := List.takeWhile_append_of_pos hfraction
  simp only [numberWord, Number.dropWhile_point hwhole, Number.takeWhile_point hwhole, htake,
    Word.lexeme, String.toList_ofList]
  rw [if_neg (by simp [hne]), List.prefix_append_right_inj]
  exact List.cons_prefix_cons.2 ⟨rfl, List.prefix_append _ _⟩

/-- A number goes on as far as there are digits, and its text tells what it counts as. -/
theorem covers_of_number {name : String} {value : Number} (hword : (Word.number name value).Written)
    (h : name.toList <+: c :: cs) : (first c cs).Covers (lexeme (.number name value)) := by
  have hvalue {name : String} {value : Number} (hword : (Word.number name value).Written) :
      Number.parse? name = some value := by
    cases hword with
    | whole _ _ hvalue => exact hvalue
    | fraction _ _ _ _ hvalue => exact hvalue
  obtain ⟨hc, hfront⟩ : c.isDigit = true ∧
      name.toList <+: (numberWord (c :: cs)).lexeme.toList := by
    cases hword with
    | @whole digits _ hne hdigits _ =>
      rw [String.toList_ofList] at h ⊢
      refine ⟨?_, (prefix_takeWhile hdigits h).trans (takeWhile_prefix_numberWord _)⟩
      obtain ⟨d, ds, rfl⟩ := List.exists_cons_of_ne_nil hne
      obtain ⟨rfl, -⟩ := List.cons_prefix_cons.1 h
      exact hdigits d List.mem_cons_self
    | @fraction whole fraction _ hne hwhole hne' hfraction _ =>
      rw [String.toList_ofList] at h ⊢
      obtain ⟨rest, hrest⟩ := h
      rw [List.append_assoc, List.cons_append] at hrest
      refine ⟨?_, hrest ▸ numberWord_fraction hwhole hne' hfraction rest⟩
      obtain ⟨d, ds, rfl⟩ := List.exists_cons_of_ne_nil hne
      obtain ⟨rfl, -⟩ := List.cons.inj hrest
      exact hwhole d List.mem_cons_self
  rw [first_digit hc]
  refine ⟨hfront, fun heq => ?_⟩
  have hfound := numberWord_written hc cs
  obtain ⟨name', value', hnumber⟩ : ∃ name' value', numberWord (c :: cs) = .number name' value' :=
    ⟨_, _, rfl⟩
  rw [hnumber] at hfound heq ⊢
  obtain rfl : name = name' := String.ext heq
  obtain rfl : value = value' := Option.some.inj ((hvalue hword).symm.trans (hvalue hfound))
  rfl

/-- **Longest match**: the first piece is as long as any that the text may begin with, and no other
is as long as it. -/
theorem Begins.covers {q : Piece} (h : q.Begins (c :: cs)) : (first c cs).Covers q := by
  cases h with
  | regular hq hfront =>
    cases hq with
    | blank hblank =>
      obtain ⟨rfl, -⟩ := List.cons_prefix_cons.1 hfront
      rw [first_blank (by simpa [isSpace, or_assoc] using hblank)]
      exact covers_self _
    | comment hline =>
      obtain ⟨rfl, hslash⟩ := List.cons_prefix_cons.1 hfront
      obtain ⟨rest, rfl⟩ := hslash
      rw [List.cons_append, first_comment]
      refine ⟨?_, fun heq => congrArg comment heq⟩
      refine List.cons_prefix_cons.2 ⟨rfl, List.cons_prefix_cons.2 ⟨rfl, ?_⟩⟩
      refine prefix_takeWhile (fun e he => ?_) (List.prefix_append _ rest)
      simpa using fun hfeed : e = '\n' => hline (hfeed ▸ he)
    | lexeme hword =>
      cases hword with
      | symbol s => exact covers_of_symbol hfront
      | keyword k =>
        obtain ⟨d, ds, htext, hd, hds⟩ := k.exists_letters
        rw [text_lexeme, Word.lexeme, htext] at hfront
        obtain ⟨rfl, hname⟩ := List.cons_prefix_cons.1 hfront
        rw [← letterWord_keyword, htext]
        exact covers_of_letters hd hds hname
      | identifier hd hds hkeyword =>
        rw [text_lexeme, Word.lexeme, String.toList_ofList] at hfront
        obtain ⟨rfl, hname⟩ := List.cons_prefix_cons.1 hfront
        rw [← letterWord_identifier hkeyword]
        exact covers_of_letters hd hds hname
      | @string content hcontent =>
        obtain ⟨rest, hrest⟩ := hfront
        obtain ⟨rfl, rfl⟩ : '"' = c ∧ content.toList ++ '"' :: rest = cs := by
          simpa [text, Word.lexeme] using hrest
        have htake : (content.toList ++ '"' :: rest).takeWhile (· ≠ '"') = content.toList := by
          rw [takeWhile_append_stop (by simp), List.takeWhile_eq_self_iff]
          exact fun d hd => by simpa using fun hquote : d = '"' => hcontent (hquote ▸ hd)
        rw [first_quote, stringPiece, if_pos (by simp), htake, String.ofList_toList]
        exact covers_self _
      | whole hne hdigits hvalue => exact covers_of_number (.whole hne hdigits hvalue) hfront
      | fraction hne hwhole hne' hfraction hvalue =>
        exact covers_of_number (.fraction hne hwhole hne' hfraction hvalue) hfront
  | stray hstray =>
    -- Whatever else could be found would begin with the character.
    have hfirst := begins_first c cs
    obtain ⟨used, htext, -⟩ := text_first c cs
    generalize first c cs = p at hfirst htext ⊢
    cases hfirst with
    | regular hp _ => exact absurd (by rw [htext]; rfl) (hstray p hp)
    | stray _ => exact covers_self _
    | unclosed _ => exact absurd rfl (hstray (lexeme (.string "")) (.lexeme (.string (by simp))))
  | unclosed hopen =>
    rw [first_quote, stringPiece, if_neg (by simpa using hopen)]
    exact covers_self _

theorem longest_iff {p : Piece} : p.Longest (c :: cs) ↔ p = first c cs := by
  constructor
  · rintro ⟨hp, hlongest⟩
    obtain ⟨hfront, hsame⟩ := hp.covers
    exact hsame (hfront.eq_of_length_le (hlongest _ (begins_first c cs)))
  · rintro rfl
    exact ⟨begins_first c cs, fun q hq => hq.covers.1.length_le⟩

theorem Begins.text_cons {p : Piece} {cs : List Char} (h : p.Begins cs) :
    ∃ c ds, p.text = c :: ds := by
  cases h with
  | regular hp _ =>
    obtain ⟨c, ds, htext, -⟩ := hp.text_cons
    exact ⟨c, ds, htext⟩
  | stray _ => exact ⟨_, _, rfl⟩
  | unclosed _ => exact ⟨_, _, rfl⟩

theorem all_cons {c : Char} {cs used rest : List Char} (htext : (first c cs).text = c :: used)
    (hcs : used ++ rest = cs) : all (c :: cs) = first c cs :: all rest := by
  rw [all, htext, ← hcs]
  simp

/-- There is one way to cut up a text, and that is how it is scanned. -/
theorem cutUp_iff {ps : List Piece} {cs : List Char} : CutUp ps cs ↔ ps = all cs := by
  constructor
  · intro h
    induction h with
    | nil => rw [all]
    | @cons p ps rest hp _ ih =>
      obtain ⟨c, used, htext⟩ := hp.1.text_cons
      rw [htext, List.cons_append] at hp ⊢
      obtain rfl := longest_iff.1 hp
      rw [all_cons htext rfl, ih]
  · rintro rfl
    fun_induction all cs with
    | case1 => exact .nil
    | case2 c cs piece ih =>
      obtain ⟨used, htext, rest, hcs⟩ := text_first c cs
      have hpiece : piece.text = c :: used := htext
      have hrest : cs.drop (piece.text.length - 1) = rest := by
        rw [hpiece, ← hcs]
        simp
      have hsplit : c :: cs = piece.text ++ rest := by rw [hpiece, ← hcs]; rfl
      rw [hrest] at ih ⊢
      have hlongest : piece.Longest (c :: cs) := longest_iff.2 rfl
      rw [hsplit] at hlongest ⊢
      exact .cons hlongest ih

end Piece

/-! ### Scans -/

/-- The word that a piece is. -/
def Piece.word? : Piece → Option Word
  | lexeme word => some word
  | _ => none

/-- What is wrong with a piece. -/
def Piece.error? : Piece → Option StaticError
  | stray _ => some .unexpectedCharacter
  | unclosed _ => some .unterminatedString
  | _ => none

namespace Scan

theorem words_ofPieces (line : Int) (ps : List Piece) :
    (ofPieces line ps).tokens.map Token.word = ps.filterMap Piece.word? := by
  induction ps generalizing line with
  | nil => rfl
  | cons p ps ih => cases p <;> simp [ofPieces, List.filterMap_cons, Piece.word?, ih]

theorem errors_ofPieces (line : Int) (ps : List Piece) :
    (ofPieces line ps).diagnostics.map Diagnostic.error = ps.filterMap Piece.error? := by
  induction ps generalizing line with
  | nil => rfl
  | cons p ps ih => cases p <;> simp [ofPieces, List.filterMap_cons, Piece.error?, ih]

theorem kindName_ne_eof (word : Word) : word.kindName ≠ "EOF" := by
  cases word with
  | symbol s => cases s <;> decide
  | keyword k => cases k <;> decide +kernel
  | identifier name => exact (by decide : "IDENTIFIER" ≠ "EOF")
  | string content => exact (by decide : "STRING" ≠ "EOF")
  | number name value => exact (by decide : "NUMBER" ≠ "EOF")

/-- **Tokens are found by longest match.** A text can be cut up into pieces that are each the
longest where they stand, and there is one way to do so. The tokens are the pieces that are words,
in order, and then there is the end of the text, once. There is one diagnostic for each piece that
something is wrong with, in order. -/
theorem ofText_is_longest_match (source : String) :
    ∃ pieces, Piece.CutUp pieces source.toList ∧
      (∀ others, Piece.CutUp others source.toList → others = pieces) ∧
      (ofText source).tokens.map Token.word = pieces.filterMap Piece.word? ∧
      (∃ line, (ofText source).inspect =
        (ofText source).tokens.map Token.inspect ++ [Token.listing "EOF" "" none line]) ∧
      (∀ t ∈ (ofText source).tokens, t.word.kindName ≠ "EOF") ∧
      (ofText source).diagnostics.map Diagnostic.error = pieces.filterMap Piece.error? :=
  ⟨Piece.all source.toList, Piece.cutUp_iff.2 rfl, fun _ => Piece.cutUp_iff.1,
    words_ofPieces 1 _, ⟨_, rfl⟩, fun t _ => kindName_ne_eof t.word, errors_ofPieces 1 _⟩

end Scan

end LoxLang
