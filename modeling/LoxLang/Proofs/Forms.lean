import LoxLang.Proofs.Numerals
import LoxLang.Proofs.Rescanning

/-!
# Nested forms can be taken apart in one way

A form is a word, or forms in parentheses, brackets or braces (`Form`). Its text has no more
structure than characters do, but there is one form to a text (`Form.readable`): the first character
tells of what kind the form is, and a form that is followed by a blank, a mark or the end of what is
around it cannot go on (`Readable`).
-/

namespace LoxLang

/-- A word as it stands in a form: a number by its value. -/
def Word.form : Word → List Char
  | .number _ value => value.text.toList
  | w => w.lexeme.toList

/-- Nested forms. -/
inductive Form where
  | word (w : Word)
  | parens (items : List Form)
  | brackets (items : List Form)
  | braces (entries : List (Form × Form))

namespace Form

mutual

/-- The text of a form. -/
def text : Form → List Char
  | .word w => w.form
  | .parens items => '(' :: ([' '].intercalate (texts items) ++ [')'])
  | .brackets items => '[' :: ([',', ' '].intercalate (texts items) ++ [']'])
  | .braces entries => '\x7b' :: ([',', ' '].intercalate (entryTexts entries) ++ ['\x7d'])

/-- The texts of forms. -/
def texts : List Form → List (List Char)
  | [] => []
  | f :: fs => f.text :: texts fs

/-- The texts of entries. -/
def entryTexts : List (Form × Form) → List (List Char)
  | [] => []
  | (key, value) :: entries => (key.text ++ ':' :: ' ' :: value.text) :: entryTexts entries

end

end Form

/-! ### Texts that end before the next one -/

/-- What may follow a form. -/
def isEnd (c : Char) : Bool := c = ' ' || c = ')' || c = ']' || c = '\x7d' || c = ',' || c = ':'

/-- Nothing follows, or something that cannot belong to a form. -/
def Ends (rest : List Char) : Prop := ∀ c ∈ rest.head?, isEnd c = true

/-- What the text is followed by, and what it is the text of, can be told from it, among all that is
`ok`. -/
def Readable {α : Type} (ok : α → Prop) (text : α → List Char) (a : α) : Prop :=
  ∀ b rest rest', ok b → Ends rest → Ends rest' → text a ++ rest = text b ++ rest' →
    a = b ∧ rest = rest'

section

variable {α : Type} {ok : α → Prop} {text : α → List Char}

theorem ends_cons {c : Char} (h : isEnd c = true) (rest : List Char) : Ends (c :: rest) := by
  intro d hd
  obtain rfl : c = d := by simpa using hd
  exact h

/-- The texts from the second on, each with what separates it from the one before. -/
def separatedTail (separator : List Char) (texts : List (List Char)) : List Char :=
  texts.flatMap (separator ++ ·)

theorem intercalate_cons (separator first : List Char) (texts : List (List Char)) :
    separator.intercalate (first :: texts) = first ++ separatedTail separator texts := by
  induction texts generalizing first with
  | nil => simp [separatedTail]
  | cons next texts ih =>
    rw [List.intercalate_cons_cons, ih, separatedTail, separatedTail, List.flatMap_cons]
    simp

section

variable {mark close : Char} {blank : List Char} (hmark : isEnd mark = true)
  (hclose : isEnd close = true) (hne : mark ≠ close)
include hmark hclose

theorem ends_tail (texts : List (List Char)) (rest : List Char) :
    Ends (separatedTail (mark :: blank) texts ++ close :: rest) := by
  cases texts with
  | nil => exact ends_cons hclose rest
  | cons t ts => exact ends_cons hmark _

include hne

theorem tail_readable {as bs : List α} (has : ∀ a ∈ as, Readable ok text a) (hbs : ∀ b ∈ bs, ok b)
    {rest rest' : List Char}
    (h : separatedTail (mark :: blank) (as.map text) ++ close :: rest =
      separatedTail (mark :: blank) (bs.map text) ++ close :: rest') :
    as = bs ∧ rest = rest' := by
  induction as generalizing bs with
  | nil =>
    cases bs with
    | nil => exact ⟨rfl, by simpa [separatedTail] using h⟩
    | cons b bs => exact absurd (List.cons.inj h).1 (Ne.symm hne)
  | cons a as ih =>
    cases bs with
    | nil => exact absurd (List.cons.inj h).1 hne
    | cons b bs =>
      obtain ⟨ha, has⟩ := List.forall_mem_cons.1 has
      obtain ⟨hb, hlater⟩ := List.forall_mem_cons.1 hbs
      have hsplit (c : α) (cs : List α) (rest : List Char) :
          separatedTail (mark :: blank) ((c :: cs).map text) ++ close :: rest =
            mark :: blank ++
              (text c ++ (separatedTail (mark :: blank) (cs.map text) ++ close :: rest)) := by
        simp [separatedTail]
      rw [hsplit, hsplit] at h
      obtain ⟨rfl, htail⟩ := ha b _ _ hb (ends_tail hmark hclose _ _) (ends_tail hmark hclose _ _)
        (List.append_cancel_left h)
      obtain ⟨rfl, hrest⟩ := ih has hlater htail
      exact ⟨rfl, hrest⟩

/-- Texts with separators between them and a closing mark can be told apart. -/
theorem intercalate_readable {as bs : List α} (has : ∀ a ∈ as, Readable ok text a)
    (hbs : ∀ b ∈ bs, ok b) (hopen : ∀ a, ok a → ∃ c cs, text a = c :: cs ∧ isEnd c = false)
    (has' : ∀ a ∈ as, ok a) {rest rest' : List Char}
    (h : (mark :: blank).intercalate (as.map text) ++ close :: rest =
      (mark :: blank).intercalate (bs.map text) ++ close :: rest') :
    as = bs ∧ rest = rest' := by
  -- Nothing in a list is told from something by the first character.
  have hempty {a : α} {as : List α} {rest rest' : List Char} (ha : ok a)
      (h : close :: rest = (mark :: blank).intercalate ((a :: as).map text) ++ close :: rest') :
      False := by
    obtain ⟨c, cs, htext, hc⟩ := hopen a ha
    rw [List.map_cons, intercalate_cons, htext] at h
    obtain ⟨rfl, -⟩ := List.cons.inj h
    exact absurd hclose (by simp [hc])
  cases as with
  | nil =>
    cases bs with
    | nil => exact ⟨rfl, by simpa using h⟩
    | cons b bs => exact (hempty (hbs b List.mem_cons_self) (by simpa using h)).elim
  | cons a as =>
    cases bs with
    | nil => exact (hempty (has' a List.mem_cons_self) (by simpa using h.symm)).elim
    | cons b bs =>
      obtain ⟨ha, has⟩ := List.forall_mem_cons.1 has
      obtain ⟨hb, hlater⟩ := List.forall_mem_cons.1 hbs
      rw [List.map_cons, List.map_cons, intercalate_cons, intercalate_cons, List.append_assoc,
        List.append_assoc] at h
      obtain ⟨rfl, htail⟩ := ha b _ _ hb (ends_tail hmark hclose _ _) (ends_tail hmark hclose _ _) h
      obtain ⟨rfl, hrest⟩ := tail_readable hmark hclose hne has hlater htail
      exact ⟨rfl, hrest⟩

end

/-- A pair whose parts have a mark between them. -/
theorem readable_pair {a b : α} (ha : Readable ok text a) (hb : Readable ok text b) {mark : Char}
    (hmark : isEnd mark = true) (blank : List Char) :
    Readable (fun p : α × α => ok p.1 ∧ ok p.2) (fun p => text p.1 ++ mark :: (blank ++ text p.2))
      (a, b) := by
  rintro ⟨c, d⟩ rest rest' ⟨hc, hd⟩ hrest hrest' h
  dsimp only at h
  rw [List.append_assoc, List.append_assoc] at h
  obtain ⟨rfl, -⟩ := ha c _ _ hc (ends_cons hmark _) (ends_cons hmark _) h
  have hsecond : text b ++ rest = text d ++ rest' := by simpa using h
  obtain ⟨rfl, hafter⟩ := hb d _ _ hd hrest hrest' hsecond
  exact ⟨rfl, hafter⟩

end

/-! ### Words -/

/-- What a form of another kind than a word begins with, or a string. -/
def isOpening (c : Char) : Bool := c = '(' || c = '[' || c = '\x7b' || c = '"'

/-- A text that goes on to where a form may end. It does not begin as forms of other kinds do. -/
def isUnbroken (cs : List Char) : Bool := cs.head?.any (! isOpening ·) && cs.all (! isEnd ·)

theorem isUnbroken_cons {c : Char} {cs : List Char} :
    isUnbroken (c :: cs) = true ↔ isOpening c = false ∧ ∀ d ∈ c :: cs, isEnd d = false := by
  simp [isUnbroken]

theorem append_inj_of_isUnbroken {cs ds rest rest' : List Char} (hcs : isUnbroken cs = true)
    (hds : isUnbroken ds = true) (hrest : Ends rest) (hrest' : Ends rest')
    (h : cs ++ rest = ds ++ rest') : cs = ds ∧ rest = rest' := by
  have htake {cs rest : List Char} (hcs : isUnbroken cs = true) (hrest : Ends rest) :
      (cs ++ rest).takeWhile (! isEnd ·) = cs := by
    rw [List.takeWhile_append_of_pos (List.all_eq_true.1 (Bool.and_eq_true_iff.1 hcs).2)]
    cases rest with
    | nil => simp
    | cons c rest => simp [hrest c rfl]
  have hsame : cs = ds := by rw [← htake hcs hrest, h, htake hds hrest']
  exact ⟨hsame, List.append_cancel_left (hsame ▸ h)⟩

/-- Words that stand for themselves in a form: operators, keywords, finite numbers, strings, and
names and heads, which are not spelt as keywords. -/
def Word.Atom : Word → Prop
  | .symbol s => isUnbroken s.text.toList = true
  | .keyword _ => True
  | .identifier name => (∃ c cs, name.toList = c :: cs ∧ isLetter c = true ∧
      ∀ d ∈ cs, isWordChar d = true ∨ d = '=' ∨ d = '-') ∧ ∀ k : Keyword, k.text ≠ name
  | .string content => '"' ∉ content.toList
  | .number text value => text = "" ∧ value.isFinite = true

namespace Word

theorem isEnd_of_isWordChar {c : Char} (h : isWordChar c = true) : isEnd c = false := by
  have hne (d : Char) (hd : isWordChar d = false) : c ≠ d := by
    rintro rfl
    exact absurd h (by simp [hd])
  simp [isEnd, hne ' ' rfl, hne ')' rfl, hne ']' rfl, hne '\x7d' rfl, hne ',' rfl, hne ':' rfl]

theorem isOpening_of_isLetter {c : Char} (h : isLetter c = true) : isOpening c = false := by
  have hne (d : Char) (hd : isLetter d = false) : c ≠ d := by
    rintro rfl
    exact absurd h (by simp [hd])
  simp [isOpening, hne '(' rfl, hne '[' rfl, hne '\x7b' rfl, hne '"' rfl]

/-- Texts that begin with a letter. -/
theorem isUnbroken_of_letters {c : Char} {cs : List Char} (hc : isLetter c = true)
    (hcs : ∀ d ∈ cs, isWordChar d = true ∨ d = '=' ∨ d = '-') : isUnbroken (c :: cs) = true := by
  refine isUnbroken_cons.2 ⟨isOpening_of_isLetter hc, List.forall_mem_cons.2 ⟨?_, fun d hd => ?_⟩⟩
  · exact isEnd_of_isWordChar (by simp [isWordChar, hc])
  · obtain hd | rfl | rfl := hcs d hd
    · exact isEnd_of_isWordChar hd
    · rfl
    · rfl

/-- The text of a finite number has a digit, and in front of it at most a minus sign. -/
theorem exists_number_form {x : Number} (h : x.isFinite = true) : ∃ sign c cs,
    x.text.toList = sign ++ c :: cs ∧ (sign = [] ∨ sign = ['-']) ∧ c.isDigit = true ∧
      ∀ d ∈ cs, Number.isNumeral d = true := by
  obtain ⟨c, cs, htext, hc, hcs⟩ := Number.exists_magnitudeText (Number.magnitude x)
  refine ⟨if Number.isNegative x then ['-'] else [], c, cs, ?_, ?_, hc, hcs⟩
  · rw [Number.toList_text (Number.not_isNaN_of_isFinite h).1, Number.unsignedText_of_isFinite h,
      htext]
  · split
    · exact .inr rfl
    · exact .inl rfl

theorem isUnbroken_number {x : Number} (h : x.isFinite = true) :
    isUnbroken x.text.toList = true := by
  obtain ⟨sign, c, cs, htext, hsign, hc, hcs⟩ := exists_number_form h
  have hdigit {d : Char} (hd : d.isDigit = true) : isEnd d = false := by
    simpa using Number.of_isDigit (! isEnd ·) (by decide) hd
  have hopening : isOpening c = false := by
    simpa using Number.of_isDigit (! isOpening ·) (by decide) hc
  have hend : ∀ d ∈ c :: cs, isEnd d = false := by
    refine List.forall_mem_cons.2 ⟨hdigit hc, fun d hd => ?_⟩
    obtain (((hd | rfl) | rfl) | rfl) | rfl :
        (((d.isDigit = true ∨ d = '.') ∨ d = 'e') ∨ d = '+') ∨ d = '-' := by
      simpa [Number.isNumeral] using hcs d hd
    · exact hdigit hd
    all_goals rfl
  rw [htext]
  obtain rfl | rfl := hsign
  · exact isUnbroken_cons.2 ⟨hopening, hend⟩
  · exact isUnbroken_cons.2 ⟨rfl, List.forall_mem_cons.2 ⟨rfl, hend⟩⟩

/-- Every word in a form but a string is told by where a form may end. -/
theorem isUnbroken_form {w : Word} (h : w.Atom) (hstring : ∀ content, w ≠ .string content) :
    isUnbroken w.form = true := by
  cases w with
  | symbol s => exact h
  | keyword k =>
    obtain ⟨c, cs, htext, hc, hcs⟩ := k.exists_letters
    have hform : (Word.keyword k).form = c :: cs := htext
    rw [hform]
    exact isUnbroken_of_letters hc fun d hd => .inl (hcs d hd)
  | identifier name =>
    obtain ⟨⟨c, cs, htext, hc, hcs⟩, -⟩ := h
    have hform : (Word.identifier name).form = c :: cs := htext
    rw [hform]
    exact isUnbroken_of_letters hc hcs
  | string content => exact absurd rfl (hstring content)
  | number text value => exact isUnbroken_number h.2

/-- The kinds of words that are written differently. -/
inductive Kind where
  | symbol | letters | string | number
deriving DecidableEq

/-- The kind of a word. -/
def kind : Word → Kind
  | .symbol _ => .symbol
  | .keyword _ | .identifier _ => .letters
  | .string _ => .string
  | .number .. => .number

/-- The kind of word that a text is of. -/
def kindOf (cs : List Char) : Kind :=
  if cs.head?.any isLetter then .letters
  else if cs.head? = some '"' then .string
  else if cs.any Char.isDigit then .number
  else .symbol

theorem kindOf_form {w : Word} (h : w.Atom) : kindOf w.form = w.kind := by
  cases w with
  | symbol s => cases s <;> rfl
  | keyword k =>
    obtain ⟨c, cs, htext, hc, -⟩ := k.exists_letters
    have hform : (Word.keyword k).form = c :: cs := htext
    simp [kindOf, hform, hc, kind]
  | identifier name =>
    obtain ⟨⟨c, cs, htext, hc, -⟩, -⟩ := h
    have hform : (Word.identifier name).form = c :: cs := htext
    simp [kindOf, hform, hc, kind]
  | string content =>
    have hform : (Word.string content).form = '"' :: (content.toList ++ ['"']) := by
      simp [form, lexeme]
    rw [hform]
    rfl
  | number text value =>
    obtain ⟨sign, c, cs, htext, hsign, hc, -⟩ := exists_number_form h.2
    have hform : (Word.number text value).form = sign ++ c :: cs := htext
    have hletter : isLetter c = false := by
      simpa using Number.of_isDigit (! isLetter ·) (by decide) hc
    have hquote : c ≠ '"' := by simpa using Number.of_isDigit (· != '"') (by decide) hc
    rw [hform]
    obtain rfl | rfl := hsign
    · simp [kindOf, hletter, hquote, hc, kind]
    · simp [kindOf, hc, kind, isLetter, Char.isAlpha]

theorem eq_of_lexeme_eq {w w' : Word} (h : w.Written) (h' : w'.Written)
    (heq : w.lexeme = w'.lexeme) : w = w' := by
  have hall := Piece.all_lexeme h
  rw [heq, Piece.all_lexeme h'] at hall
  simpa using hall.symm

/-- There is one word to a text. -/
theorem eq_of_form_eq {w w' : Word} (h : w.Atom) (h' : w'.Atom) (hform : w.form = w'.form) :
    w = w' := by
  have hkind : w.kind = w'.kind := by rw [← kindOf_form h, ← kindOf_form h', hform]
  cases w with
  | symbol s =>
    cases w' with
    | symbol s' => exact eq_of_lexeme_eq (.symbol s) (.symbol s') (String.ext hform)
    | _ => cases hkind
  | keyword k =>
    cases w' with
    | keyword k' => exact eq_of_lexeme_eq (.keyword k) (.keyword k') (String.ext hform)
    | identifier name => exact absurd (String.ext hform) (h'.2 k)
    | _ => cases hkind
  | identifier name =>
    cases w' with
    | keyword k => exact absurd (String.ext hform.symm) (h.2 k)
    | identifier name' => exact congrArg Word.identifier (String.ext hform)
    | _ => cases hkind
  | string content =>
    cases w' with
    | string content' =>
      have hcontent : content.toList = content'.toList := by simpa [form, lexeme] using hform
      exact congrArg Word.string (String.ext hcontent)
    | _ => cases hkind
  | number text value =>
    cases w' with
    | number text' value' =>
      obtain ⟨rfl, hfinite⟩ := h
      obtain ⟨rfl, hfinite'⟩ := h'
      exact congrArg (Word.number "") (Number.eq_of_text_eq (Number.not_isNaN_of_isFinite hfinite).1
        (Number.not_isNaN_of_isFinite hfinite').1 (String.ext hform))
    | _ => cases hkind

end Word

/-! ### Forms -/

namespace Form

mutual

/-- All words of the form stand for themselves. -/
def Legible : Form → Prop
  | .word w => w.Atom
  | .parens items => AllLegible items
  | .brackets items => AllLegible items
  | .braces entries => EntriesLegible entries

/-- All of the forms are legible. -/
def AllLegible : List Form → Prop
  | [] => True
  | f :: fs => f.Legible ∧ AllLegible fs

/-- All of the entries are legible. -/
def EntriesLegible : List (Form × Form) → Prop
  | [] => True
  | (key, value) :: entries => key.Legible ∧ value.Legible ∧ EntriesLegible entries

end

theorem texts_eq_map (fs : List Form) : texts fs = fs.map text := by
  induction fs with
  | nil => rfl
  | cons f fs ih => rw [texts, ih, List.map_cons]

/-- The text of an entry. -/
def entryText (entry : Form × Form) : List Char := entry.1.text ++ ':' :: ([' '] ++ entry.2.text)

theorem entryTexts_eq_map (entries : List (Form × Form)) :
    entryTexts entries = entries.map entryText := by
  induction entries with
  | nil => rfl
  | cons entry entries ih => rw [entryTexts, ih, List.map_cons]; rfl

theorem allLegible_iff {fs : List Form} : AllLegible fs ↔ ∀ f ∈ fs, f.Legible := by
  induction fs with
  | nil => simp [AllLegible]
  | cons f fs ih => simp [AllLegible, ih]

theorem entriesLegible_iff {entries : List (Form × Form)} :
    EntriesLegible entries ↔ ∀ entry ∈ entries, entry.1.Legible ∧ entry.2.Legible := by
  induction entries with
  | nil => simp [EntriesLegible]
  | cons entry entries ih => simp [EntriesLegible, ih, and_assoc]

/-- What the text of a form begins with. -/
inductive Opens : Form → Char → Prop where
  | parens {items : List Form} : Opens (.parens items) '('
  | brackets {items : List Form} : Opens (.brackets items) '['
  | braces {entries : List (Form × Form)} : Opens (.braces entries) '\x7b'
  | string {content : String} : Opens (.word (.string content)) '"'
  | word {w : Word} {c : Char} (hstring : ∀ content, w ≠ .string content)
    (hc : isOpening c = false) (hend : isEnd c = false) : Opens (.word w) c

theorem exists_opens {f : Form} (h : f.Legible) : ∃ c cs, f.text = c :: cs ∧ f.Opens c := by
  cases f with
  | parens items => exact ⟨_, _, by rw [text], .parens⟩
  | brackets items => exact ⟨_, _, by rw [text], .brackets⟩
  | braces entries => exact ⟨_, _, by rw [text], .braces⟩
  | word w =>
    by_cases hstring : ∃ content, w = .string content
    · obtain ⟨content, rfl⟩ := hstring
      exact ⟨'"', content.toList ++ ['"'], by simp [text, Word.form, Word.lexeme], .string⟩
    · rw [not_exists] at hstring
      have hunbroken := Word.isUnbroken_form (by rwa [Legible] at h) hstring
      rw [text]
      cases hform : w.form with
      | nil => simp [hform, isUnbroken] at hunbroken
      | cons c cs =>
        rw [hform, isUnbroken_cons] at hunbroken
        exact ⟨c, cs, rfl, .word hstring hunbroken.1 (hunbroken.2 c List.mem_cons_self)⟩

theorem exists_first {f : Form} (h : f.Legible) : ∃ c cs, f.text = c :: cs ∧ isEnd c = false := by
  obtain ⟨c, cs, htext, hopens⟩ := exists_opens h
  refine ⟨c, cs, htext, ?_⟩
  cases hopens with
  | word _ _ hend => exact hend
  | _ => rfl

/-- Forms with the same text begin with the same character. -/
theorem opens_of_text_eq {f g : Form} {rest rest' : List Char} (hf : f.Legible) (hg : g.Legible)
    (h : f.text ++ rest = g.text ++ rest') : ∃ c, f.Opens c ∧ g.Opens c := by
  obtain ⟨c, cs, hc, hfc⟩ := exists_opens hf
  obtain ⟨d, ds, hd, hgd⟩ := exists_opens hg
  rw [hc, hd] at h
  obtain ⟨rfl, -⟩ := List.cons.inj h
  exact ⟨c, hfc, hgd⟩

theorem readable_string {content : String} (hcontent : '"' ∉ content.toList) :
    Readable Legible text (.word (.string content)) := by
  intro g rest rest' hg _ _ h
  have hf : (Form.word (.string content)).Legible := by rwa [Legible]
  obtain ⟨c, hfc, hgc⟩ := opens_of_text_eq hf hg h
  have htext (content : String) : (Form.word (.string content)).text =
      '"' :: (content.toList ++ ['"']) := by simp [text, Word.form, Word.lexeme]
  have htake {content : String} (hcontent : '"' ∉ content.toList) (rest : List Char) :
      (content.toList ++ '"' :: rest).takeWhile (· ≠ '"') = content.toList := by
    rw [Piece.takeWhile_append_stop (by simp), List.takeWhile_eq_self_iff]
    intro d hd
    simpa using fun hquote : d = '"' => hcontent (hquote ▸ hd)
  cases hfc with
  | word hstring _ _ => exact absurd rfl (hstring content)
  | string =>
    cases hgc with
    | word _ hopening _ => cases hopening
    | @string content' =>
      rw [Legible] at hg
      rw [htext, htext] at h
      have hinner : content.toList ++ '"' :: rest = content'.toList ++ '"' :: rest' := by
        simpa using h
      have hsame : content.toList = content'.toList := by
        rw [← htake hcontent rest, hinner, htake hg rest']
      obtain rfl : content = content' := String.ext hsame
      exact ⟨rfl, by simpa using hinner⟩

theorem readable_word {w : Word} (hw : w.Atom) : Readable Legible text (.word w) := by
  by_cases hstring : ∃ content, w = .string content
  · obtain ⟨content, rfl⟩ := hstring
    exact readable_string hw
  rw [not_exists] at hstring
  intro g rest rest' hg hrest hrest' h
  have hf : (Form.word w).Legible := by rwa [Legible]
  obtain ⟨c, hfc, hgc⟩ := opens_of_text_eq hf hg h
  cases hfc with
  | string => exact absurd rfl (hstring _)
  | word _ hopening _ =>
    cases hgc with
    | @word w' _ hstring' _ _ =>
      rw [text, text] at h
      rw [Legible] at hg
      obtain ⟨hform, hrest⟩ := append_inj_of_isUnbroken (Word.isUnbroken_form hw hstring)
        (Word.isUnbroken_form hg hstring') hrest hrest' h
      exact ⟨congrArg Form.word (Word.eq_of_form_eq hw hg hform), hrest⟩
    | _ => cases hopening

/-- Lists of forms, if each of them is readable. -/
theorem items_readable {mark close : Char} {blank : List Char} (hmark : isEnd mark = true)
    (hclose : isEnd close = true) (hne : mark ≠ close) {fs gs : List Form}
    (hreadable : ∀ f ∈ fs, Readable Legible text f) (hfs : AllLegible fs) (hgs : AllLegible gs)
    {rest rest' : List Char}
    (h : (mark :: blank).intercalate (texts fs) ++ [close] ++ rest =
      (mark :: blank).intercalate (texts gs) ++ [close] ++ rest') : fs = gs ∧ rest = rest' := by
  rw [texts_eq_map, texts_eq_map, List.append_assoc, List.append_assoc] at h
  exact intercalate_readable hmark hclose hne hreadable (allLegible_iff.1 hgs)
    (fun _ => exists_first) (allLegible_iff.1 hfs) h

mutual

/-- **Unique readability**: a form and what follows it can be told from the text. -/
theorem readable (f : Form) (hf : f.Legible) : Readable Legible text f := by
  cases f with
  | word w => exact readable_word (by rwa [Legible] at hf)
  | parens items =>
    intro g rest rest' hg _ _ h
    obtain ⟨c, hfc, hgc⟩ := opens_of_text_eq hf hg h
    cases hfc
    cases hgc with
    | word _ hopening _ => cases hopening
    | @parens items' =>
      rw [Legible] at hf hg
      rw [text, text] at h
      obtain ⟨rfl, hrest⟩ := items_readable rfl rfl (by decide) (all_readable items hf) hf hg
        (List.cons.inj h).2
      exact ⟨rfl, hrest⟩
  | brackets items =>
    intro g rest rest' hg _ _ h
    obtain ⟨c, hfc, hgc⟩ := opens_of_text_eq hf hg h
    cases hfc
    cases hgc with
    | word _ hopening _ => cases hopening
    | @brackets items' =>
      rw [Legible] at hf hg
      rw [text, text] at h
      obtain ⟨rfl, hrest⟩ := items_readable rfl rfl (by decide) (all_readable items hf) hf hg
        (List.cons.inj h).2
      exact ⟨rfl, hrest⟩
  | braces entries =>
    intro g rest rest' hg _ _ h
    obtain ⟨c, hfc, hgc⟩ := opens_of_text_eq hf hg h
    cases hfc
    cases hgc with
    | word _ hopening _ => cases hopening
    | @braces entries' =>
      rw [Legible] at hf hg
      rw [text, text, entryTexts_eq_map, entryTexts_eq_map, List.cons_append, List.cons_append,
        List.append_assoc, List.append_assoc] at h
      have hopen (entry : Form × Form) (hentry : entry.1.Legible ∧ entry.2.Legible) :
          ∃ c cs, entryText entry = c :: cs ∧ isEnd c = false := by
        obtain ⟨c, cs, htext, hc⟩ := exists_first hentry.1
        exact ⟨c, _, by rw [entryText, htext]; rfl, hc⟩
      obtain ⟨rfl, hrest⟩ := intercalate_readable rfl rfl (by decide) (entries_readable entries hf)
        (entriesLegible_iff.1 hg) hopen (entriesLegible_iff.1 hf) (List.cons.inj h).2
      exact ⟨rfl, hrest⟩

theorem all_readable (fs : List Form) (hfs : AllLegible fs) :
    ∀ f ∈ fs, Readable Legible text f := by
  cases fs with
  | nil => simp
  | cons f fs =>
    rw [AllLegible] at hfs
    exact List.forall_mem_cons.2 ⟨f.readable hfs.1, all_readable fs hfs.2⟩

theorem entries_readable (entries : List (Form × Form)) (h : EntriesLegible entries) :
    ∀ entry ∈ entries, Readable (fun entry : Form × Form => entry.1.Legible ∧ entry.2.Legible)
      entryText entry := by
  cases entries with
  | nil => simp
  | cons entry entries =>
    obtain ⟨key, value⟩ := entry
    rw [EntriesLegible] at h
    exact List.forall_mem_cons.2 ⟨readable_pair (key.readable h.1) (value.readable h.2.1) rfl [' '],
      entries_readable entries h.2.2⟩

end

/-- There is one list of forms to a text in which they have blanks in between. -/
theorem eq_of_intercalate_eq {fs gs : List Form} (hfs : AllLegible fs) (hgs : AllLegible gs)
    (h : [' '].intercalate (texts fs) = [' '].intercalate (texts gs)) : fs = gs := by
  have hclosed : [' '].intercalate (texts fs) ++ [')'] ++ [] =
      [' '].intercalate (texts gs) ++ [')'] ++ [] := by rw [h]
  exact (items_readable rfl rfl (by decide) (all_readable fs hfs) hfs hgs hclosed).1

end Form

end LoxLang
