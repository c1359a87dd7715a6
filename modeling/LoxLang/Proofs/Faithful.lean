import LoxLang.Proofs.Lookahead

/-!
# Reading is faithful

If nothing is reported while tokens are read, then the tree is one that the grammar has, and writing
it out gives the tokens again (`Source.reading_is_faithful`): nothing is dropped, made up, moved or
grouped in another way.

Reading is followed one phrase at a time. A reading that reports nothing has found its phrase at the
front of the tokens (`Reading.Finds`), and one that gets stuck reports something.
-/

namespace LoxLang

/-! ### Phrases -/

namespace Reading

variable {strict : Prop} {limit : Nat} {α β : Type} {P : α → List Token → Prop}
  {Q : β → List Token → Prop} {endLine : Int}

/-- `P` holds of what is read and the tokens that are left. Reading is strict if it matters that
nothing is reported: then `P` needs to hold only in this case. -/
def Finds (strict : Prop) (P : α → List Token → Prop) : Reading limit α → Prop
  | .done result rest _ reports => (strict → reports = []) → P result rest
  | .stuck _ _ reports => strict → reports ≠ []

theorem Finds.mono {P' : α → List Token → Prop} {r : Reading limit α} (hr : r.Finds strict P)
    (hP : ∀ a rest, P a rest → P' a rest) : r.Finds strict P' := by
  cases r with
  | done result rest _ _ => exact fun h => hP _ _ (hr h)
  | stuck rest _ _ => exact hr

theorem Finds.weaken {larger : Nat} {h : limit ≤ larger} {r : Reading limit α}
    (hr : r.Finds strict P) : (r.weaken h).Finds strict P := by
  cases r <;> exact hr

theorem Finds.after {t : Token} {ts : List Token} {r : Reading ts.length α}
    (hr : r.Finds strict P) : (r.after (t := t)).Finds strict P := hr.weaken

theorem Finds.afterTail {t : Token} {ts : List Token} {r : Reading ts.length α}
    (hr : r.Finds strict P) : (r.afterTail (t := t)).Finds strict P := hr.weaken

theorem Finds.map {r : Reading limit α} {f : α → β} (hr : r.Finds strict P)
    (hf : ∀ a rest, P a rest → Q (f a) rest) : (r.map f).Finds strict Q := by
  cases r with
  | done result rest _ _ => exact fun h => hf _ _ (hr h)
  | stuck rest _ _ => exact hr

theorem Finds.reporting {r : Reading limit α} {earlier : List Diagnostic}
    (hr : (strict → earlier = []) → r.Finds strict P) : (r.reporting earlier).Finds strict P := by
  cases r with
  | done result rest _ _ =>
    intro h
    exact hr (fun hs => (List.append_eq_nil_iff.1 (h hs)).1)
      fun hs => (List.append_eq_nil_iff.1 (h hs)).2
  | stuck rest _ _ =>
    intro hs h
    obtain ⟨hearlier, hreports⟩ := List.append_eq_nil_iff.1 h
    exact hr (fun _ => hearlier) hs hreports

theorem Finds.andThen {r : Reading limit α}
    {next : α → (rest : List Token) → rest.length < limit → Reading rest.length β}
    (hr : r.Finds strict P) (hnext : ∀ a rest h, P a rest → (next a rest h).Finds strict Q) :
    (r.andThen next).Finds strict Q := by
  cases r with
  | done result rest h _ => exact .reporting fun hreports => (hnext _ _ h (hr hreports)).weaken
  | stuck rest _ _ => exact hr

theorem Finds.andTail {r : Reading limit α}
    {next : α → (rest : List Token) → rest.length < limit → Reading (rest.length + 1) β}
    (hr : r.Finds strict P) (hnext : ∀ a rest h, P a rest → (next a rest h).Finds strict Q) :
    (r.andTail next).Finds strict Q := by
  cases r with
  | done result rest h _ => exact .reporting fun hreports => (hnext _ _ h (hr hreports)).weaken
  | stuck rest _ _ => exact hr

theorem finds_pure {a : α} {ts : List Token} (h : P a ts) : (pure a ts).Finds strict P := fun _ => h

theorem finds_single {a : α} {t : Token} {rest : List Token} (h : P a rest) :
    (single a rest : Reading (t :: rest).length α).Finds strict P := fun _ => h

theorem finds_fail {ts : List Token} {error : StaticError} :
    (fail endLine ts error : Reading ts.length α).Finds strict P := fun _ => List.cons_ne_nil _ _

theorem finds_expect {word : Word} {what : String} {ts : List Token} :
    (expect endLine word what ts).Finds strict fun t rest => ts = t :: rest ∧ t.word = word := by
  cases ts with
  | nil => exact finds_fail
  | cons t rest =>
    unfold expect
    dsimp only
    split
    · exact finds_single ⟨rfl, ‹_›⟩
    · exact finds_fail

theorem finds_expectName {what : String} {ts : List Token} :
    (expectName endLine what ts).Finds strict fun name rest => ts = name.token :: rest := by
  cases ts with
  | nil => exact finds_fail
  | cons t rest =>
    unfold expectName
    dsimp only
    split
    · rename_i name hword
      refine finds_single ?_
      show t :: rest = ⟨.identifier name, t.line⟩ :: rest
      rw [← hword]
    · exact finds_fail

end Reading

open Reading LoxLang.Part

/-! ### Tokens that phrases are drawn from -/

namespace Part

/-- A part without what is reported about it. -/
def silent : Part → Part
  | .word w line _ => .word w line none
  | .parens => .parens

theorem silent_capped (what : String) (position : Nat) (pss : List (List Part)) :
    (separated (capped what position pss)).map silent = (separated pss).map silent := by
  have hfirst (position : Nat) (ps : List Part) :
      (if maxArguments ≤ position then report what ps else ps).map silent = ps.map silent := by
    unfold report
    split
    · split <;> rfl
    · rfl
  induction pss generalizing position with
  | nil => rfl
  | cons ps pss ih =>
    cases pss with
    | nil => exact hfirst position ps
    | cons qs pss =>
      have hlater := ih (position + 1)
      simp only [capped] at hlater
      simp only [capped, separated, List.map_append, List.map_cons, hfirst, hlater]

end Part

/-- The part is at the front of the tokens, with the tokens `rest` left. If reading is strict, then
nothing is reported about it. -/
inductive Part.Heads (strict : Prop) : Part → (ts rest : List Token) → Prop where
  | word {w : Word} {line : Option Int} {excess : Option String} {t : Token} {ts : List Token}
    (hword : t.word.plain = w.plain) (hline : ∀ l, line = some l → t.line = l)
    (hexcess : strict → excess = none) : Heads strict (.word w line excess) (t :: ts) ts
  | noParens {ts : List Token} : Heads strict .parens ts ts
  | parens {t u : Token} {ts : List Token} (ht : t.word = .symbol .leftParen)
    (hu : u.word = .symbol .rightParen) : Heads strict .parens (t :: u :: ts) ts

/-- Tokens are skipped, but not if reading is strict. -/
def Skips (strict : Prop) (ts later : List Token) : Prop := later <:+ ts ∧ (strict → later = ts)

/-- The parts are drawn from the tokens `ts` up to the tokens `rest`: they are found there in order,
and after each of them tokens may have been skipped. -/
inductive Draws (strict : Prop) : List Part → (ts rest : List Token) → Prop where
  | nil {ts : List Token} : Draws strict [] ts ts
  | cons {p : Part} {ps : List Part} {ts mid later rest : List Token} (hp : p.Heads strict ts mid)
    (hskips : Skips strict mid later) (h : Draws strict ps later rest) :
    Draws strict (p :: ps) ts rest

/-- The parts are drawn from the tokens after some that were skipped. -/
def Follows (strict : Prop) (ps : List Part) (ts rest : List Token) : Prop :=
  ∃ later, Skips strict ts later ∧ Draws strict ps later rest

section

variable {strict : Prop} {ps qs : List Part} {t : Token} {ts mid rest : List Token}

theorem skips_self : Skips strict ts ts := ⟨List.suffix_rfl, fun _ => rfl⟩

theorem Skips.trans (h : Skips strict ts mid) (h' : Skips strict mid rest) : Skips strict ts rest :=
  ⟨h'.1.trans h.1, fun hs => (h'.2 hs).trans (h.2 hs)⟩

namespace Draws

theorem single {p : Part} (hp : p.Heads strict ts rest) : Draws strict [p] ts rest :=
  .cons hp skips_self .nil

theorem append (h : Draws strict ps ts mid) (h' : Draws strict qs mid rest) :
    Draws strict (ps ++ qs) ts rest := by
  induction h with
  | nil => exact h'
  | cons hp hskips _ ih => exact .cons hp hskips (ih h')

/-- Tokens may be skipped after the last part. -/
theorem skip (h : Draws strict ps ts mid) (hps : ps ≠ []) (hskips : Skips strict mid rest) :
    Draws strict ps ts rest := by
  induction h with
  | nil => exact absurd rfl hps
  | @cons p ps _ _ _ _ hp hskips' h ih =>
    by_cases hnil : ps = []
    · subst hnil
      cases h
      exact .cons hp (hskips'.trans hskips) .nil
    · exact .cons hp hskips' (ih hnil hskips)

/-- The first token is the first word. -/
theorem first {w : Word} (h : Draws strict ps ts rest) (hw : first? ps = some w) :
    ∃ t later, ts = t :: later ∧ t.word.plain = w.plain := by
  cases h with
  | nil => cases hw
  | cons hp =>
    cases hp with
    | word hword => exact ⟨_, _, rfl, hword.trans (congrArg Word.plain (Option.some.inj hw))⟩
    | _ => cases hw

theorem word {w : Word} {line : Option Int} (hword : t.word.plain = w.plain)
    (hline : ∀ l, line = some l → t.line = l) (h : Draws strict ps ts rest) :
    Draws strict (.word w line none :: ps) (t :: ts) rest :=
  .cons (.word hword hline fun _ => rfl) skips_self h

theorem symbol {s : Symbol} (ht : t.word = .symbol s) (h : Draws strict ps ts rest) :
    Draws strict (.symbol s :: ps) (t :: ts) rest :=
  .word (by rw [ht]) (by simp) h

theorem symbolAt {s : Symbol} (ht : t.word = .symbol s) (h : Draws strict ps ts rest) :
    Draws strict (.symbolAt s t.line :: ps) (t :: ts) rest :=
  .word (by rw [ht]) (by simp) h

theorem keyword {k : Keyword} (ht : t.word = .keyword k) (h : Draws strict ps ts rest) :
    Draws strict (.keyword k :: ps) (t :: ts) rest :=
  .word (by rw [ht]) (by simp) h

theorem keywordAt {k : Keyword} (ht : t.word = .keyword k) (h : Draws strict ps ts rest) :
    Draws strict (.keywordAt k t.line :: ps) (t :: ts) rest :=
  .word (by rw [ht]) (by simp) h

theorem name {n : Name} (h : Draws strict ps ts rest) :
    Draws strict (.name n :: ps) (n.token :: ts) rest :=
  .word rfl (by simp [Name.token, Token.ofName]) h

/-- It does not matter what is reported if reading is not strict. -/
theorem congr (hstrict : ¬ strict) (h : Draws strict ps ts rest)
    (heq : qs.map Part.silent = ps.map Part.silent) : Draws strict qs ts rest := by
  induction h generalizing qs with
  | nil =>
    obtain rfl := List.map_eq_nil_iff.1 heq
    exact .nil
  | cons hp hskips _ ih =>
    obtain ⟨q, qs, rfl, hq, hqs⟩ := List.map_eq_cons_iff.1 heq
    refine .cons ?_ hskips (ih hqs)
    cases hp <;> cases q <;> cases hq
    · exact .word ‹_› ‹_› (absurd · hstrict)
    · exact .noParens
    · exact .parens ‹_› ‹_›

theorem capped (what : String) (position : Nat) {pss : List (List Part)}
    (hfits : strict → Fits (position + pss.length)) (h : Draws strict (separated pss) ts rest) :
    Draws strict (separated (capped what position pss)) ts rest := by
  by_cases hstrict : strict
  · rwa [capped_of_fits (hfits hstrict)]
  · exact h.congr hstrict (silent_capped what position pss)

/-- What is drawn strictly is all there is. -/
theorem spans (h : Draws strict ps ts rest) (hstrict : strict) : Spans ps ts rest [] := by
  induction h with
  | nil => exact .nil
  | cons hp hskips _ ih =>
    obtain rfl := hskips.2 hstrict
    cases hp with
    | word hword hline hexcess =>
      obtain rfl := hexcess hstrict
      exact .word hword hline ih
    | noParens => exact .noParens ih
    | parens ht hu => exact .parens ht hu ih

/-- In any case there are tokens among those that were read that are the parts. -/
theorem exists_spans (h : Draws strict ps ts rest) :
    ∃ us ds, us.Sublist ts ∧ Spans ps us [] ds := by
  induction h with
  | nil => exact ⟨[], [], List.nil_sublist _, .nil⟩
  | cons hp hskips _ ih =>
    obtain ⟨us, ds, hsub, hspans⟩ := ih
    have hsub := hsub.trans hskips.1.sublist
    cases hp with
    | word hword hline => exact ⟨_, _, hsub.cons_cons _, .word hword hline hspans⟩
    | noParens => exact ⟨us, ds, hsub, .noParens hspans⟩
    | parens ht hu => exact ⟨_, ds, (hsub.cons_cons _).cons_cons _, .parens ht hu hspans⟩

end Draws

theorem Follows.append (h : Follows strict ps ts mid) (h' : Draws strict qs mid rest) :
    Follows strict (ps ++ qs) ts rest := h.imp fun _ h => ⟨h.1, h.2.append h'⟩

/-- A phrase with tokens that are skipped after it. -/
theorem Draws.follows (h : Draws strict ps ts mid) (hps : ps ≠ [])
    (h' : Follows strict qs mid rest) : Draws strict (ps ++ qs) ts rest := by
  obtain ⟨later, hskips, h'⟩ := h'
  exact (h.skip hps hskips).append h'

theorem Follows.symbol {s : Symbol} (ht : t.word = .symbol s) (h : Follows strict ps ts rest) :
    Draws strict (.symbol s :: ps) (t :: ts) rest :=
  .follows (.symbol ht .nil) (List.cons_ne_nil _ _) h

end

/-- The count fits if reading is strict. -/
abbrev MayFit (strict : Prop) (count : Nat) : Prop := strict → Fits count

/-! ### Expressions -/

namespace Expr

variable {strict : Prop} {endLine : Int} {n k : Nat}

theorem one_le_rank {β : Type} (e : Expr β) : 1 ≤ e.rank := by
  cases e with
  | binary left op line right => cases op <;> simp [rank, Operator.rank]
  | logical left op line right => cases op <;> simp [rank, Operator.rank]
  | _ => simp [rank]

theorem parts_ne_nil {β : Type} (e : Expr β) : e.parts ≠ [] := by
  cases e <;> simp [parts]

/-- The expression has been found at the front of the tokens `ts`, with the tokens `rest` left, and
is at least as strong as `k`. -/
structure Found (strict : Prop) (k : Nat) (ts : List Token) (e : Expr Unit) (rest : List Token) :
    Prop where
  grammatical : e.Grammatical (MayFit strict)
  rank : k ≤ e.rank
  spans : Draws strict e.parts ts rest

/-- Expressions that are read from fewer than `n` tokens are found there. As in the proof that names
are proper, the induction is on `n`. -/
def FindsBelow (strict : Prop) (endLine : Int) (n : Nat) : Prop :=
  ∀ ts, ts.length < n → (read endLine ts).Finds strict (Found strict 1 ts)

/-- The items have been found, with what closes them. -/
structure FoundItems (strict : Prop) (closing : Closing) (position : Nat) (ts : List Token)
    (items : List (Expr Unit) × Int) (rest : List Token) : Prop where
  grammatical : AllGrammatical (MayFit strict) items.1
  fits : closing.limited = true → MayFit strict (position + items.1.length)
  spans : ∃ last : Token, last.word = .symbol closing.symbol ∧ last.line = items.2 ∧
    Draws strict (separated (eachParts items.1)) ts (last :: rest)

theorem finds_readItemsFrom (hn : FindsBelow strict endLine n) {closing : Closing} {position : Nat}
    {ts : List Token} (hlen : ts.length < n) :
    (readItemsFrom endLine closing position ts).Finds strict fun items rest =>
      items.1 ≠ [] ∧ FoundItems strict closing position ts items rest := by
  rw [readItemsFrom]
  refine .reporting fun hcount => (hn ts hlen).andThen fun item rest hrest hitem => ?_
  -- There is a report for each item past the limit, so without one this item is within it.
  have hposition : closing.limited = true → strict → position < maxArguments := by
    intro hlimited hstrict
    have hcount := hcount hstrict
    rw [countReports, hlimited] at hcount
    by_contra hge
    simp [Nat.not_lt.1 hge] at hcount
  cases rest with
  | nil => exact finds_fail
  | cons t after =>
    have hlt : after.length < ts.length := Nat.lt_of_succ_lt hrest
    dsimp only
    split
    · rename_i hcomma
      refine ((finds_readItemsFrom hn (Nat.lt_trans hlt hlen)).map ?_).after
      rintro ⟨items, line⟩ rest ⟨hne, hitems⟩
      obtain ⟨second, items, rfl⟩ := List.exists_cons_of_ne_nil hne
      refine ⟨List.cons_ne_nil _ _, ⟨hitem.grammatical, hitems.grammatical⟩,
        fun hlimited hstrict => ?_, ?_⟩
      · have := hitems.fits hlimited hstrict
        simp only [Fits, List.length_cons] at this ⊢
        omega
      · obtain ⟨last, hlast, hline, hspans⟩ := hitems.spans
        refine ⟨last, hlast, hline, ?_⟩
        exact hitem.spans.append (.symbol hcomma hspans)
    · refine finds_expect.map ?_
      rintro last rest ⟨heq, hlast⟩
      cases heq
      exact ⟨List.cons_ne_nil _ _, ⟨hitem.grammatical, trivial⟩, hposition, t, hlast, rfl,
        hitem.spans⟩
termination_by ts.length

theorem finds_readItems (hn : FindsBelow strict endLine n) {closing : Closing} {ts : List Token}
    (hlen : ts.length < n) :
    (readItems endLine closing ts).Finds strict (FoundItems strict closing 0 ts) := by
  cases ts with
  | nil =>
    rw [readItems]
    exact (finds_readItemsFrom hn hlen).mono fun _ _ h => h.2
  | cons t rest =>
    rw [readItems]
    split
    · rename_i hclosing
      exact finds_single ⟨trivial, fun _ _ => Nat.zero_le _, t, hclosing, rfl, .nil⟩
    · exact (finds_readItemsFrom hn hlen).mono fun _ _ h => h.2

theorem finds_readEntries (hn : FindsBelow strict endLine n) {ts : List Token}
    (hlen : ts.length < n) :
    (readEntries endLine ts).Finds strict fun entries rest =>
      entries ≠ [] ∧ EntriesGrammatical (MayFit strict) entries ∧
        ∃ last : Token, last.word = .symbol .rightBrace ∧
          Draws strict (separated (entryParts entries)) ts (last :: rest) := by
  rw [readEntries]
  refine (hn ts hlen).andThen fun key rest hkeyRest hkey => ?_
  refine finds_expect.andThen ?_
  rintro colon rest hcolonRest ⟨rfl, hcolon⟩
  refine (hn rest (by omega)).andThen fun value rest hvalueRest hvalue => ?_
  have hspans := hkey.spans.append (.symbol hcolon hvalue.spans)
  cases rest with
  | nil => exact finds_fail
  | cons t after =>
    have hlt : after.length < ts.length := by
      simp only [List.length_cons] at hvalueRest
      omega
    dsimp only
    split
    · rename_i hcomma
      refine ((finds_readEntries hn (Nat.lt_trans hlt hlen)).map ?_).after
      rintro entries rest ⟨hne, hentries, last, hlast, hafter⟩
      obtain ⟨second, entries, rfl⟩ := List.exists_cons_of_ne_nil hne
      refine ⟨List.cons_ne_nil _ _, ⟨hkey.grammatical, hvalue.grammatical, hentries⟩, last,
        hlast, ?_⟩
      exact hspans.append (.symbol hcomma hafter)
    · refine finds_expect.map ?_
      rintro last rest ⟨heq, hlast⟩
      cases heq
      exact ⟨List.cons_ne_nil _ _, ⟨hkey.grammatical, hvalue.grammatical, trivial⟩, t, hlast,
        hspans⟩
termination_by ts.length

theorem finds_readPrimary (hn : FindsBelow strict endLine n) {ts : List Token}
    (hlen : ts.length ≤ n) : (readPrimary endLine ts).Finds strict (Found strict 9 ts) := by
  cases ts with
  | nil =>
    rw [readPrimary.eq_def]
    exact finds_fail
  | cons t rest =>
    have hrest : rest.length < n := hlen
    rw [readPrimary.eq_def]
    dsimp only
    have hconstant {value : Constant} (hword : t.word.plain = value.word.plain) :
        Found strict 9 (t :: rest) (.constant value) rest :=
      ⟨trivial, Nat.le_refl 9, .word hword (by simp) .nil⟩
    split
    · rename_i hword
      exact finds_single (hconstant (by rw [hword]; rfl))
    · rename_i hword
      exact finds_single (hconstant (by rw [hword]; rfl))
    · rename_i hword
      exact finds_single (hconstant (by rw [hword]; rfl))
    · rename_i hword
      exact finds_single (hconstant (by rw [hword]; rfl))
    · rename_i hword
      exact finds_single (hconstant (by rw [hword]; rfl))
    · rename_i hword
      exact finds_single ⟨trivial, Nat.le_refl 9, .keywordAt hword .nil⟩
    · rename_i hword
      refine (finds_expect.andThen ?_).after
      rintro dot rest - ⟨rfl, hdot⟩
      refine finds_expectName.map ?_
      rintro method rest rfl
      exact ⟨trivial, Nat.le_refl 9, .keywordAt hword (.symbol hdot (.name .nil))⟩
    · rename_i name hword
      exact finds_single ⟨trivial, Nat.le_refl 9, .word (congrArg _ hword) (by simp) .nil⟩
    · rename_i hword
      refine ((hn rest hrest).andThen fun inner rest _ hinner => ?_).after
      refine finds_expect.map ?_
      rintro closing rest ⟨rfl, hclosing⟩
      exact ⟨hinner.grammatical, Nat.le_refl 9,
        .symbol hword (hinner.spans.append (.symbol hclosing .nil))⟩
    · rename_i hword
      refine ((finds_readItems hn hrest).map ?_).after
      rintro ⟨elements, line⟩ rest hitems
      obtain ⟨last, hlast, -, hspans⟩ := hitems.spans
      exact ⟨hitems.grammatical, Nat.le_refl 9,
        .symbolAt hword (hspans.append (.symbol hlast .nil))⟩
    · rename_i hword
      have hentries : (readEntries endLine rest).Finds strict fun entries later =>
          Found strict 9 (t :: rest) (.map entries t.line) later := by
        refine (finds_readEntries hn hrest).mono ?_
        rintro entries later ⟨-, hentries, last, hlast, hspans⟩
        exact ⟨hentries, Nat.le_refl 9, .symbolAt hword (hspans.append (.symbol hlast .nil))⟩
      split
      · split
        · rename_i hclosing
          exact fun _ => ⟨trivial, Nat.le_refl 9, .symbolAt hword (.symbol hclosing .nil)⟩
        · exact (hentries.map fun _ _ h => h).after
      · exact (hentries.map fun _ _ h => h).after
    · exact finds_fail

theorem finds_readPostfixTail (hn : FindsBelow strict endLine n) {operand : Expr Unit}
    {start ts : List Token} (hlen : ts.length ≤ n) (ho : operand.Found strict 9 start ts) :
    (readPostfixTail endLine operand ts).Finds strict (Found strict 9 start) := by
  cases ts with
  | nil =>
    rw [readPostfixTail]
    exact finds_pure ho
  | cons t rest =>
    have hrest : rest.length < n := hlen
    rw [readPostfixTail]
    split
    · rename_i hparen
      refine ((finds_readItems hn hrest).andTail ?_).afterTail
      rintro ⟨arguments, line⟩ later h hitems
      obtain ⟨last, hlast, rfl, hspans⟩ := hitems.spans
      have hfits : MayFit strict arguments.length := by simpa using hitems.fits rfl
      have hcapped := hspans.capped "arguments" 0 (by rwa [length_eachParts, Nat.zero_add])
      refine finds_readPostfixTail hn (by omega)
        ⟨⟨ho.grammatical, ho.rank, hitems.grammatical, hfits⟩, Nat.le_refl 9, ?_⟩
      exact ho.spans.append (.symbol hparen (hcapped.append (.symbolAt hlast .nil)))
    split
    · rename_i hdot
      refine (finds_expectName.andTail ?_).afterTail
      rintro name later h rfl
      simp only [List.length_cons] at h hrest
      refine finds_readPostfixTail hn (by omega) ⟨⟨ho.grammatical, ho.rank⟩, Nat.le_refl 9, ?_⟩
      exact ho.spans.append (.symbol hdot (.name .nil))
    split
    · rename_i hbracket
      refine ((hn rest hrest).andThen fun position inner h hposition => ?_).afterTail
      refine finds_expect.andTail ?_
      rintro closing later h' ⟨rfl, hclosing⟩
      refine finds_readPostfixTail hn (by omega)
        ⟨⟨ho.grammatical, ho.rank, hposition.grammatical⟩, Nat.le_refl 9, ?_⟩
      exact ho.spans.append (.symbolAt hbracket (hposition.spans.append (.symbol hclosing .nil)))
    · exact finds_pure ho
termination_by ts.length
decreasing_by all_goals grind

theorem finds_readPostfix (hn : FindsBelow strict endLine n) {ts : List Token}
    (hlen : ts.length ≤ n) : (readPostfix endLine ts).Finds strict (Found strict 9 ts) := by
  rw [readPostfix]
  refine (finds_readPrimary hn hlen).andTail fun operand rest h ho => ?_
  exact finds_readPostfixTail hn (by omega) ho

theorem word_of_ofToken? {t : Token} {op : UnaryOp} (h : UnaryOp.ofToken? t = some op) :
    t.word = .symbol op.symbol := by
  unfold UnaryOp.ofToken? at h
  split at h
  · cases h
    assumption
  · split at h
    · cases h
      assumption
    · cases h

theorem finds_readUnary (hn : FindsBelow strict endLine n) {ts : List Token}
    (hlen : ts.length ≤ n) : (readUnary endLine ts).Finds strict (Found strict 8 ts) := by
  have hpostfix (ts : List Token) (hlen : ts.length ≤ n) :
      (readPostfix endLine ts).Finds strict (Found strict 8 ts) :=
    (finds_readPostfix hn hlen).mono fun _ _ h => ⟨h.grammatical, Nat.le_of_succ_le h.rank, h.spans⟩
  induction ts with
  | nil =>
    rw [readUnary]
    exact hpostfix [] hlen
  | cons t rest ih =>
    rw [readUnary]
    split
    · rename_i op hop
      refine ((ih (Nat.le_of_succ_le hlen)).map fun operand later ho => ?_).after
      exact ⟨⟨ho.grammatical, ho.rank⟩, Nat.le_refl 8, .symbolAt (word_of_ofToken? hop) ho.spans⟩
    · exact hpostfix (t :: rest) hlen

theorem finds_readTierTail {tier : Tier} {stronger : List Tier}
    (htier : ∀ op, op ∈ tier ↔ op.rank = k)
    (hstronger : ∀ ts, ts.length ≤ n →
      (readTiers endLine stronger ts).Finds strict (Found strict (k + 1) ts))
    {left : Expr Unit} {start ts : List Token} (hlen : ts.length ≤ n)
    (hl : left.Found strict k start ts) :
    (readTierTail endLine tier stronger left ts).Finds strict (Found strict k start) := by
  cases ts with
  | nil =>
    rw [readTierTail]
    exact finds_pure hl
  | cons t rest =>
    have hrest : rest.length < n := hlen
    rw [readTierTail]
    split
    · exact finds_pure hl
    · rename_i op hop
      have hrank : op.rank = k := (htier op).1 (List.mem_of_find?_eq_some hop)
      have hword : op.word = t.word := by simpa using List.find?_some hop
      refine ((hstronger rest (Nat.le_of_lt hrest)).andTail fun right later h hr => ?_).afterTail
      refine finds_readTierTail htier hstronger (by omega) ⟨?_, ?_, ?_⟩
      · rw [op.grammatical_apply]
        exact ⟨hl.grammatical, hrank ▸ hl.rank, hr.grammatical, hrank ▸ hr.rank⟩
      · exact Nat.le_of_eq (op.rank_apply.trans hrank).symm
      · rw [op.parts_apply]
        exact hl.spans.append (.word (by rw [hword]) (by simp) hr.spans)
termination_by ts.length
decreasing_by grind

theorem finds_readTiers (hn : FindsBelow strict endLine n) {tiers : List Tier}
    (htiers : Rises k tiers) {ts : List Token} (hlen : ts.length ≤ n) :
    (readTiers endLine tiers ts).Finds strict (Found strict k ts) := by
  induction tiers generalizing k ts with
  | nil =>
    rw [readTiers]
    exact htiers ▸ finds_readUnary hn hlen
  | cons tier stronger ih =>
    rw [readTiers]
    have hstronger (ts : List Token) (hlen : ts.length ≤ n) :
        (readTiers endLine stronger ts).Finds strict (Found strict (k + 1) ts) := ih htiers.2 hlen
    refine (hstronger ts hlen).andTail fun left rest h hl => ?_
    exact finds_readTierTail htiers.1 hstronger (by omega)
      ⟨hl.grammatical, Nat.le_of_succ_le hl.rank, hl.spans⟩

/-- An assignment is written as its target, an equals sign and the value. -/
theorem found_assignment {target value assigned : Expr Unit} {ts rest after : List Token}
    {t : Token} (ht : t.word = .symbol .equal) (htarget : target.Found strict k ts (t :: after))
    (hvalue : value.Found strict 1 after rest) (h : target.assignment? value = some assigned) :
    assigned.Found strict 1 ts rest := by
  have hspans := htarget.spans.append (.symbol ht hvalue.spans)
  have hgrammatical := htarget.grammatical
  unfold assignment? at h
  split at h
  · cases h
    exact ⟨hvalue.grammatical, Nat.le_refl 1, hspans⟩
  · cases h
    refine ⟨⟨hgrammatical.1, hgrammatical.2, hvalue.grammatical⟩, Nat.le_refl 1, ?_⟩
    simpa [parts] using hspans
  · cases h
    refine ⟨⟨hgrammatical.1, hgrammatical.2.1, hgrammatical.2.2, hvalue.grammatical⟩,
      Nat.le_refl 1, ?_⟩
    simpa [parts] using hspans
  · cases h

theorem findsBelow (endLine : Int) (n : Nat) : FindsBelow strict endLine n := by
  induction n with
  | zero => exact fun ts h => absurd h (Nat.not_lt_zero _)
  | succ n hn =>
    intro ts hlen
    rw [read]
    refine (finds_readTiers hn rises_ladder (by omega)).andTail fun target rest h ht => ?_
    have htarget : target.Found strict 1 ts rest := ⟨ht.grammatical, target.one_le_rank, ht.spans⟩
    cases rest with
    | nil => exact finds_pure htarget
    | cons t after =>
      dsimp only
      split
      · rename_i hequal
        simp only [List.length_cons] at h
        have hvalue := hn after (by omega)
        refine .afterTail ?_
        cases hread : read endLine after with
        | stuck later _ _ =>
          rw [hread] at hvalue
          exact hvalue
        | done value later _ reports =>
          rw [hread] at hvalue
          unfold assigning
          dsimp only
          split
          · exact fun hreports => found_assignment hequal ht (hvalue hreports) ‹_›
          · -- A target that nothing can be assigned to has been reported, and the value is skipped.
            intro hreports
            have hsuffix : (read endLine after).rest <:+ after :=
              (persistsBelow (.moving endLine id) _ True after (Nat.lt_succ_self _)).suffix
            rw [hread] at hsuffix
            refine ⟨htarget.grammatical, htarget.rank, htarget.spans.skip target.parts_ne_nil
              ⟨hsuffix.trans (List.suffix_cons _ _), fun hstrict => ?_⟩⟩
            have := hreports hstrict
            simp at this
      · exact finds_pure htarget

theorem finds_read (ts : List Token) : (read endLine ts).Finds strict (Found strict 1 ts) :=
  findsBelow endLine _ ts (Nat.lt_succ_self _)

end Expr

/-! ### Statements -/

namespace Stmt

variable {strict : Prop} {endLine : Int} {n : Nat}

theorem finds_readParamsFrom {position : Nat} {ts : List Token} :
    (readParamsFrom endLine position ts).Finds strict fun names rest =>
      names ≠ [] ∧ MayFit strict (position + names.length) ∧ ∃ last : Token,
        last.word = .symbol .rightParen ∧
          Draws strict (separated (Name.eachParts names)) ts (last :: rest) := by
  rw [readParamsFrom]
  refine .reporting fun hcount => finds_expectName.andThen ?_
  rintro name rest h rfl
  have hposition (hstrict : strict) : position < maxArguments := by
    have hcount := hcount hstrict
    by_contra hge
    simp [Nat.not_lt.1 hge] at hcount
  cases rest with
  | nil => exact finds_fail
  | cons t after =>
    dsimp only
    split
    · rename_i hcomma
      refine (finds_readParamsFrom.map ?_).after
      rintro names rest ⟨hne, hfits, last, hlast, hspans⟩
      obtain ⟨second, names, rfl⟩ := List.exists_cons_of_ne_nil hne
      refine ⟨List.cons_ne_nil _ _, fun hstrict => ?_, last, hlast, .name (.symbol hcomma hspans)⟩
      have := hfits hstrict
      simp only [Fits, List.length_cons] at this ⊢
      omega
    · refine finds_expect.map ?_
      rintro last rest ⟨heq, hlast⟩
      cases heq
      exact ⟨List.cons_ne_nil _ _, hposition, t, hlast, .name .nil⟩
termination_by ts.length

theorem finds_readParams {ts : List Token} :
    (readParams endLine ts).Finds strict fun names rest =>
      MayFit strict names.length ∧ ∃ last : Token, last.word = .symbol .rightParen ∧ Draws strict
        (separated (capped "parameters" 0 (Name.eachParts names))) ts (last :: rest) := by
  have hfrom (ts : List Token) : (readParamsFrom endLine 0 ts).Finds strict fun names rest =>
      MayFit strict names.length ∧ ∃ last : Token, last.word = .symbol .rightParen ∧ Draws strict
        (separated (capped "parameters" 0 (Name.eachParts names))) ts (last :: rest) := by
    refine finds_readParamsFrom.mono ?_
    rintro names rest ⟨-, hfits, last, hlast, hspans⟩
    rw [Nat.zero_add] at hfits
    exact ⟨hfits, last, hlast, hspans.capped _ _ (by simpa [Name.eachParts] using hfits)⟩
  cases ts with
  | nil => exact hfrom []
  | cons t rest =>
    unfold readParams
    dsimp only
    split
    · exact finds_single ⟨fun _ => Nat.zero_le _, t, ‹_›, .nil⟩
    · exact hfrom (t :: rest)

theorem finds_readEnd {what : String} {s : Stmt Unit} {ts : List Token} :
    (readEnd endLine what s ts).Finds strict fun s' rest => s' = s ∧ ∃ t, ts = t :: rest ∧
      t.word = .symbol .semicolon :=
  finds_expect.map fun t _ h => ⟨rfl, t, h⟩

theorem finds_readOperand {what : String} {make : Expr Unit → Stmt Unit} {ts : List Token} :
    (readOperand endLine what make ts).Finds strict fun s rest => ∃ e t, s = make e ∧
      e.Found strict 1 ts (t :: rest) ∧ t.word = .symbol .semicolon := by
  refine (Expr.finds_read ts).andThen fun e rest _ he => finds_readEnd.mono ?_
  rintro s rest ⟨rfl, t, rfl, ht⟩
  exact ⟨e, t, rfl, he, ht⟩

theorem finds_readCondition {word : Keyword} {what : String} {ts : List Token} :
    (readCondition endLine word what ts).Finds strict fun e rest => e.Grammatical (MayFit strict) ∧
      Draws strict (symbol .leftParen :: e.parts ++ [symbol .rightParen]) ts rest := by
  refine finds_expect.andThen ?_
  rintro t rest - ⟨rfl, ht⟩
  refine (Expr.finds_read rest).andThen fun e rest _ he => finds_expect.map ?_
  rintro u rest ⟨rfl, hu⟩
  exact ⟨he.grammatical, .symbol ht (he.spans.append (.symbol hu .nil))⟩

/-- The statement has been found at the front of the tokens `ts`, with the tokens `rest` left. If
they begin with `else`, then the statement could not have taken it. -/
structure Found (strict : Prop) (ts : List Token) (s : Stmt Unit) (rest : List Token) : Prop where
  grammatical : s.Grammatical (MayFit strict)
  spans : Draws strict s.parts ts rest
  noElse : s.isOpen = true → NoElse rest

/-- A statement that declares nothing has been found. -/
def FoundPlain (strict : Prop) (ts : List Token) (s : Stmt Unit) (rest : List Token) : Prop :=
  s.Found strict ts rest ∧ s.declared? = none

theorem parts_ne_nil {β : Type} (s : Stmt β) : s.parts ≠ [] := by
  fun_cases Stmt.parts s <;> simp

theorem finds_readVar {t : Token} (ht : t.word = .keyword .varWord) {ts : List Token} :
    (readVar endLine ts).Finds strict (Found strict (t :: ts)) := by
  refine finds_expectName.andThen ?_
  rintro name rest - rfl
  have hnone (ts : List Token) :
      (readEnd endLine "variable declaration" (.var name none) ts).Finds strict
        (Found strict (t :: name.token :: ts)) := by
    refine finds_readEnd.mono ?_
    rintro _ rest ⟨rfl, u, rfl, hu⟩
    exact ⟨trivial, .keyword ht (.name (.symbol hu .nil)), noElse_of_closed rfl⟩
  cases rest with
  | nil => exact hnone []
  | cons u after =>
    dsimp only
    split
    · rename_i hequal
      refine (finds_readOperand.mono ?_).after
      rintro _ rest ⟨e, v, rfl, he, hv⟩
      exact ⟨he.grammatical,
        .keyword ht (.name (.symbol hequal (he.spans.append (.symbol hv .nil)))),
        noElse_of_closed rfl⟩
    · exact hnone (u :: after)

theorem finds_readReturn {t : Token} (ht : t.word = .keyword .returnWord) {ts : List Token} :
    (readReturn endLine t.line ts).Finds strict (FoundPlain strict (t :: ts)) := by
  have hsome (ts : List Token) :
      (readOperand endLine "return value" (fun e => .returnValue t.line (some e)) ts).Finds strict
        (FoundPlain strict (t :: ts)) := by
    refine finds_readOperand.mono ?_
    rintro _ rest ⟨e, u, rfl, he, hu⟩
    exact ⟨⟨he.grammatical, .keywordAt ht (he.spans.append (.symbol hu .nil)),
      noElse_of_closed rfl⟩, rfl⟩
  cases ts with
  | nil => exact hsome []
  | cons u rest =>
    unfold readReturn
    dsimp only
    split
    · rename_i hu
      exact finds_single ⟨⟨trivial, .keywordAt ht (.symbol hu .nil), noElse_of_closed rfl⟩, rfl⟩
    · exact hsome (u :: rest)

/-- A marker is closed by a semicolon. -/
theorem found_marker {m : Marker Unit} {t u : Token} {ts rest : List Token}
    (ht : t.word = .keyword m.keyword) (hm : m.Grammatical (MayFit strict))
    (hspans : Draws strict m.parts ts (u :: rest)) (hu : u.word = .symbol .semicolon) :
    FoundPlain strict (t :: ts) (.marker t.line m) rest :=
  ⟨⟨hm, .keywordAt ht (hspans.append (.symbol hu .nil)), noElse_of_closed rfl⟩, rfl⟩

theorem finds_readSet {t : Token} (ht : t.word = .keyword .setWord) {ts : List Token} :
    (readSet endLine t.line ts).Finds strict (FoundPlain strict (t :: ts)) := by
  refine finds_expectName.andThen ?_
  rintro name rest - rfl
  refine finds_expect.andThen ?_
  rintro equal rest - ⟨rfl, hequal⟩
  refine finds_readOperand.mono ?_
  rintro _ rest ⟨e, u, rfl, he, hu⟩
  exact found_marker (m := .set name e) ht he.grammatical (.name (.symbol hequal he.spans)) hu

/-- The path of a `build` marker grows at its end, so the tokens are told from its name on. -/
theorem finds_readBuildTail {t : Token} (ht : t.word = .keyword .buildWord) {root : Name}
    {path : List Name} {start ts : List Token}
    (hpath : Draws strict (.name root :: path.flatMap fun name => [symbol .dot, .name name])
      start ts) :
    (readBuildTail endLine t.line root path ts).Finds strict (FoundPlain strict (t :: start)) := by
  have hnone {s : Stmt Unit} {rest : List Token} (h : s = .marker t.line (.build root () path []) ∧
      ∃ u, ts = u :: rest ∧ u.word = .symbol .semicolon) :
    FoundPlain strict (t :: start) s rest := by
    obtain ⟨rfl, u, rfl, hu⟩ := h
    exact found_marker (m := .build root () path []) ht trivial
      (hpath.append (.single .noParens)) hu
  cases ts with
  | nil =>
    rw [readBuildTail]
    exact finds_readEnd.mono fun _ _ => hnone
  | cons u rest =>
    rw [readBuildTail]
    split
    · rename_i hdot
      refine (finds_expectName.andThen ?_).after
      rintro name rest - rfl
      refine finds_readBuildTail ht ?_
      simpa [List.flatMap_append] using hpath.append (.symbol hdot (.name .nil))
    split
    · rename_i hparen
      refine ((Expr.finds_readItems (Expr.findsBelow endLine _) (Nat.lt_succ_self _)).andThen
        ?_).after
      rintro ⟨arguments, line⟩ rest - hitems
      obtain ⟨last, hlast, -, hspans⟩ := hitems.spans
      refine finds_readEnd.mono ?_
      rintro _ rest ⟨rfl, v, rfl, hv⟩
      refine found_marker (m := .build root () path arguments) ht hitems.grammatical ?_ hv
      refine hpath.append ?_
      cases arguments with
      | nil =>
        cases hspans
        exact .single (.parens hparen hlast)
      | cons e es => exact .symbol hparen (hspans.append (.symbol hlast .nil))
    · exact finds_readEnd.mono fun _ _ => hnone
termination_by ts.length
decreasing_by grind

/-- Statements and declarations that are read from fewer than `n` tokens are found there. -/
structure FindsBelow (strict : Prop) (endLine : Int) (n : Nat) : Prop where
  statement : ∀ ts, ts.length < n → (read endLine ts).Finds strict (FoundPlain strict ts)
  declaration : ∀ ts, ts.length < n → (readDeclaration endLine ts).Finds strict (Found strict ts)

theorem finds_readBranch (hn : FindsBelow strict endLine n) {t : Token}
    (ht : t.word = .keyword .ifWord) {ts : List Token} (hlen : ts.length < n) :
    (readBranch endLine ts).Finds strict (FoundPlain strict (t :: ts)) := by
  rw [readBranch]
  refine finds_readCondition.andThen fun condition rest h hcondition => ?_
  refine (hn.statement rest (by omega)).andTail fun yes rest h' hyes => ?_
  have hspans := (Draws.keyword ht hcondition.2).append hyes.1.spans
  have hnone (helse : NoElse rest) :
      FoundPlain strict (t :: ts) (.branch condition yes none) rest := by
    refine ⟨⟨⟨hcondition.1, hyes.1.grammatical, hyes.2⟩, ?_, fun _ => helse⟩, rfl⟩
    simpa [parts] using hspans
  cases rest with
  | nil => exact finds_pure (hnone noElse_nil)
  | cons u after =>
    simp only [List.length_cons] at h'
    dsimp only
    split
    · rename_i helse
      refine ((hn.statement after (by omega)).map fun no rest hno => ?_).afterTail
      -- An `else` follows, so the first branch was closed.
      have hclosed : yes.isOpen = false := by
        by_contra hopen
        exact hyes.1.noElse (by simpa using hopen) u after rfl helse
      refine ⟨⟨⟨hcondition.1, hyes.1.grammatical, hyes.2, hclosed, hno.1.grammatical, hno.2⟩, ?_,
        hno.1.noElse⟩, rfl⟩
      simpa [parts] using hspans.append (.keyword helse hno.1.spans)
    · rename_i helse
      refine finds_pure (hnone fun v later hv => ?_)
      cases hv
      exact helse

theorem finds_readWhile (hn : FindsBelow strict endLine n) {t : Token}
    (ht : t.word = .keyword .whileWord)
    {ts : List Token} (hlen : ts.length < n) :
    (readWhile endLine ts).Finds strict (FoundPlain strict (t :: ts)) := by
  rw [readWhile]
  refine finds_readCondition.andThen fun condition rest h hcondition => ?_
  refine (hn.statement rest (by omega)).map fun body rest hbody => ?_
  refine ⟨⟨⟨hcondition.1, hbody.1.grammatical, hbody.2⟩, ?_, hbody.1.noElse⟩, rfl⟩
  simpa [parts] using (Draws.keyword ht hcondition.2).append hbody.1.spans

theorem finds_readDoWhile (hn : FindsBelow strict endLine n) {t : Token}
    (ht : t.word = .keyword .doWord)
    {ts : List Token} (hlen : ts.length < n) :
    (readDoWhile endLine ts).Finds strict (FoundPlain strict (t :: ts)) := by
  rw [readDoWhile]
  refine (hn.statement ts hlen).andThen fun body rest _ hbody => ?_
  refine finds_expect.andThen ?_
  rintro u rest - ⟨rfl, hu⟩
  refine finds_readCondition.andThen fun condition rest _ hcondition => finds_readEnd.mono ?_
  rintro _ rest ⟨rfl, v, rfl, hv⟩
  refine ⟨⟨⟨hbody.1.grammatical, hbody.2, hcondition.1⟩, ?_, noElse_of_closed rfl⟩, rfl⟩
  have hspans := (hbody.1.spans.append (.keyword hu hcondition.2)).append (.symbol hv .nil)
  simpa [parts] using Draws.keyword ht hspans

/-- What follows a declaration is drawn from the tokens after it. If reading got stuck, the tokens
up to where it was resumed are skipped. -/
theorem found_recover {limit : Nat} {r : Reading limit (Stmt Unit)} (positive : 0 < limit)
    {ts : List Token} (hr : r.Finds strict (Found strict ts)) (hsuffix : r.rest <:+ ts)
    (hreports : strict → (r.recover positive).reports = []) :
    AllGrammatical (MayFit strict) (r.recover positive).result.toList ∧ ∀ {ps : List Part}
      {rest : List Token}, Follows strict ps (r.recover positive).rest rest →
        Follows strict (allParts (r.recover positive).result.toList ++ ps) ts rest := by
  cases r with
  | done s rest _ reports =>
    have hs := hr hreports
    refine ⟨⟨hs.grammatical, trivial⟩, fun h => ⟨ts, skips_self, ?_⟩⟩
    simpa [recover, allParts] using hs.spans.follows s.parts_ne_nil h
  | stuck rest _ reports =>
    refine ⟨trivial, ?_⟩
    rintro ps rest' ⟨later, hskips, h⟩
    have hresume : Skips strict ts (resume rest) :=
      ⟨((resume_suffix rest).trans (List.tail_suffix rest)).trans hsuffix,
        fun hstrict => absurd (hreports hstrict) (hr hstrict)⟩
    exact ⟨later, hresume.trans hskips, h⟩

theorem finds_readBlock (hn : FindsBelow strict endLine n) {ts : List Token}
    (hlen : ts.length < n) :
    (readBlock endLine ts).Finds strict fun body rest => AllGrammatical (MayFit strict) body ∧
      ∃ last : Token, last.word = .symbol .rightBrace ∧
        Follows strict (allParts body) ts (last :: rest) := by
  cases ts with
  | nil =>
    rw [readBlock]
    exact finds_fail
  | cons t rest =>
    rw [readBlock]
    split
    · exact finds_single ⟨trivial, t, ‹_›, _, skips_self, .nil⟩
    · refine .reporting fun hreports => ?_
      obtain ⟨hgrammatical, hfollows⟩ := found_recover (Nat.succ_pos _)
        (hn.declaration (t :: rest) hlen)
        (persists_readDeclaration (.moving endLine id) (t :: rest)).suffix hreports
      have hshorter :=
        ((readDeclaration endLine (t :: rest)).recover (Nat.succ_pos _)).shorter
      refine (finds_readBlock hn (Nat.lt_trans hshorter hlen)).weaken.map ?_
      rintro body later ⟨hbody, last, hlast, hspans⟩
      rw [allParts_append, allGrammatical_append]
      exact ⟨⟨hgrammatical, hbody⟩, last, hlast, hfollows hspans⟩
termination_by ts.length
decreasing_by grind

theorem finds_readFunction (hn : FindsBelow strict endLine n) {what : String} {ts : List Token}
    (hlen : ts.length < n) : (readFunction endLine what ts).Finds strict fun f rest =>
      f.Grammatical (MayFit strict) ∧ Draws strict f.parts ts rest := by
  rw [readFunction]
  refine finds_expectName.andThen ?_
  rintro name rest _ rfl
  refine finds_expect.andThen ?_
  rintro opening rest _ ⟨rfl, hopening⟩
  refine finds_readParams.andThen ?_
  rintro params rest _ ⟨hfits, closing, hclosing, hparams⟩
  refine finds_expect.andThen ?_
  rintro brace rest _ ⟨rfl, hbrace⟩
  refine (finds_readBlock hn (by grind)).map ?_
  rintro body rest ⟨hbody, last, hlast, hspans⟩
  refine ⟨⟨hfits, hbody⟩, ?_⟩
  have hbody := (hspans.append (.symbol hlast .nil)).symbol hbrace
  have hrest := hparams.append (.symbol hclosing hbody)
  simpa [Function.parts] using Draws.name (.symbol hopening hrest)

theorem finds_readMethods (hn : FindsBelow strict endLine n) {ts : List Token}
    (hlen : ts.length < n) :
    (readMethods endLine ts).Finds strict fun methods rest =>
      Function.AllGrammatical (MayFit strict) methods ∧
      ∃ last : Token, last.word = .symbol .rightBrace ∧
        Draws strict (Function.allParts methods) ts (last :: rest) := by
  cases ts with
  | nil =>
    rw [readMethods]
    exact finds_fail
  | cons t rest =>
    rw [readMethods]
    split
    · exact finds_single ⟨trivial, t, ‹_›, .nil⟩
    · refine (finds_readFunction hn hlen).andThen fun method rest' h hmethod => ?_
      refine (finds_readMethods hn (by omega)).map ?_
      rintro methods later ⟨hmethods, last, hlast, hspans⟩
      exact ⟨⟨hmethod.1, hmethods⟩, last, hlast, hmethod.2.append hspans⟩
termination_by ts.length
decreasing_by grind

theorem finds_readClassBody (hn : FindsBelow strict endLine n) {name : Name}
    {superclass : Option (Name × Unit)} {ts : List Token} (hlen : ts.length < n) :
    (readClassBody endLine name superclass ts).Finds strict fun s rest => ∃ methods,
      s = .classDecl name superclass methods ∧ Function.AllGrammatical (MayFit strict) methods ∧
        Draws strict (symbol .leftBrace :: Function.allParts methods ++ [symbol .rightBrace]) ts
          rest := by
  rw [readClassBody]
  refine finds_expect.andThen ?_
  rintro brace rest h ⟨rfl, hbrace⟩
  refine (finds_readMethods hn (by omega)).map ?_
  rintro methods rest ⟨hmethods, last, hlast, hspans⟩
  exact ⟨methods, rfl, hmethods, .symbol hbrace (hspans.append (.symbol hlast .nil))⟩

theorem finds_readClass (hn : FindsBelow strict endLine n) {t : Token}
    (ht : t.word = .keyword .classWord)
    {ts : List Token} (hlen : ts.length < n) :
    (readClass endLine ts).Finds strict (Found strict (t :: ts)) := by
  rw [readClass]
  refine finds_expectName.andThen ?_
  rintro name rest h rfl
  have hnone (ts : List Token) (hlen : ts.length < n) :
      (readClassBody endLine name none ts).Finds strict (Found strict (t :: name.token :: ts)) := by
    refine (finds_readClassBody hn hlen).mono ?_
    rintro _ rest ⟨methods, rfl, hmethods, hspans⟩
    exact ⟨hmethods, .keyword ht (.name hspans), noElse_of_closed rfl⟩
  cases rest with
  | nil => exact hnone [] (by omega)
  | cons u after =>
    simp only [List.length_cons] at h hlen
    dsimp only
    split
    · rename_i hless
      refine (finds_expectName.andThen ?_).after
      rintro parent rest _ rfl
      refine (finds_readClassBody hn (by grind)).mono ?_
      rintro _ rest ⟨methods, rfl, hmethods, hspans⟩
      exact ⟨hmethods, .keyword ht (.name (.symbol hless (.name hspans))),
        noElse_of_closed rfl⟩
    · exact hnone (u :: after) (by simpa using Nat.lt_of_succ_lt hlen)

theorem finds_read_of_le (hn : FindsBelow strict endLine n) {ts : List Token}
    (hlen : ts.length ≤ n) : (read endLine ts).Finds strict (FoundPlain strict ts) := by
  -- An opening brace begins a block, so no expression that stands by itself begins with one.
  have hexpression (ts : List Token) (hbrace : ∀ t rest, ts = t :: rest →
      t.word ≠ .symbol .leftBrace) :
      (readOperand endLine "expression" .expression ts).Finds strict (FoundPlain strict ts) := by
    refine finds_readOperand.mono ?_
    rintro _ rest ⟨e, u, rfl, he, hu⟩
    refine ⟨⟨⟨he.grammatical, fun hfirst => ?_⟩, he.spans.append (.symbol hu .nil),
      noElse_of_closed rfl⟩, rfl⟩
    obtain ⟨t, later, rfl, ht⟩ := he.spans.first hfirst
    exact hbrace t later rfl (Word.plain_eq_symbol.1 ht)
  cases ts with
  | nil =>
    rw [read.eq_def]
    refine hexpression [] fun t rest h => ?_
    cases h
  | cons t rest =>
    have hrest : rest.length < n := hlen
    have hmarker {word : Keyword} {what : String} (make : Expr Unit → Marker Unit)
        (ht : t.word = .keyword word) (hword : ∀ e, (make e).keyword = word)
        (hmake : ∀ e : Expr Unit, e.Grammatical (MayFit strict) →
          (make e).Grammatical (MayFit strict))
        (hparts : ∀ e, (make e).parts = e.parts) :
        (readOperand endLine what (fun e => .marker t.line (make e)) rest).Finds strict
          (FoundPlain strict (t :: rest)) := by
      refine finds_readOperand.mono ?_
      rintro _ rest ⟨e, u, rfl, he, hu⟩
      exact found_marker ((hword e).symm ▸ ht) (hmake e he.grammatical) (hparts e ▸ he.spans) hu
    rw [read.eq_def]
    dsimp only
    split
    · rename_i ht
      refine (finds_readOperand.mono ?_).after
      rintro _ rest ⟨e, u, rfl, he, hu⟩
      exact ⟨⟨he.grammatical, .keyword ht (he.spans.append (.symbol hu .nil)),
        noElse_of_closed rfl⟩, rfl⟩
    · exact (finds_readBranch hn ‹_› hrest).after
    · exact (finds_readWhile hn ‹_› hrest).after
    · exact (finds_readDoWhile hn ‹_› hrest).after
    · rename_i ht
      refine (finds_readEnd.mono ?_).after
      rintro _ rest ⟨rfl, u, rfl, hu⟩
      exact ⟨⟨trivial, .keywordAt ht (.symbol hu .nil), noElse_of_closed rfl⟩, rfl⟩
    · rename_i ht
      refine (finds_readEnd.mono ?_).after
      rintro _ rest ⟨rfl, u, rfl, hu⟩
      exact ⟨⟨trivial, .keywordAt ht (.symbol hu .nil), noElse_of_closed rfl⟩, rfl⟩
    · exact (finds_readReturn ‹_›).after
    · exact (finds_readSet ‹_›).after
    · rename_i ht
      refine .after (finds_expectName.andThen ?_)
      rintro root rest - rfl
      exact finds_readBuildTail ht (.name .nil)
    · exact (hmarker .walk ‹_› (fun _ => rfl) (fun _ _ => ‹_›) fun _ => rfl).after
    · exact (hmarker .check ‹_› (fun _ => rfl) (fun _ _ => ‹_›) fun _ => rfl).after
    · exact (hmarker .thru ‹_› (fun _ => rfl) (fun _ _ => ‹_›) fun _ => rfl).after
    · rename_i ht
      refine (finds_readEnd.mono ?_).after
      rintro _ rest ⟨rfl, u, rfl, hu⟩
      exact found_marker (m := .otherwise) ht trivial .nil hu
    · rename_i ht
      refine ((finds_readBlock hn hrest).map ?_).after
      rintro body rest ⟨hbody, last, hlast, hspans⟩
      exact ⟨⟨hbody, (hspans.append (.symbol hlast .nil)).symbol ht, noElse_of_closed rfl⟩, rfl⟩
    · rename_i hbrace
      refine hexpression (t :: rest) fun u later hu => ?_
      cases hu
      exact hbrace

theorem finds_readDeclaration_of_le (hn : FindsBelow strict endLine n) {ts : List Token}
    (hlen : ts.length ≤ n) : (readDeclaration endLine ts).Finds strict (Found strict ts) := by
  have hread : (read endLine ts).Finds strict (Found strict ts) :=
    (finds_read_of_le hn hlen).mono fun _ _ h => h.1
  cases ts with
  | nil =>
    rw [readDeclaration.eq_def]
    exact hread
  | cons t rest =>
    have hrest : rest.length < n := hlen
    rw [readDeclaration.eq_def]
    dsimp only
    split
    · exact (finds_readClass hn ‹_› hrest).after
    · rename_i ht
      refine ((finds_readFunction hn hrest).map fun f rest hf => ?_).after
      exact ⟨hf.1, .keyword ht hf.2, noElse_of_closed rfl⟩
    · exact (finds_readVar ‹_›).after
    · exact hread

theorem findsBelow (endLine : Int) (n : Nat) : FindsBelow strict endLine n := by
  induction n with
  | zero =>
    exact ⟨fun ts h => absurd h (Nat.not_lt_zero _), fun ts h => absurd h (Nat.not_lt_zero _)⟩
  | succ n hn =>
    exact ⟨fun ts hlen => finds_read_of_le hn (Nat.le_of_lt_succ hlen),
      fun ts hlen => finds_readDeclaration_of_le hn (Nat.le_of_lt_succ hlen)⟩

end Stmt

/-! ### Programs -/

namespace Source

/-- What is read has been found in the tokens, down to the last of them. -/
theorem drawn_ofTokens (endLine : Int) {strict : Prop} {ts : List Token}
    (h : strict → (ofTokens endLine ts).diagnostics = []) :
    (ofTokens endLine ts).program.Grammatical (MayFit strict) ∧
      Follows strict (ofTokens endLine ts).program.parts ts [] := by
  cases ts with
  | nil =>
    rw [ofTokens]
    exact ⟨trivial, [], skips_self, .nil⟩
  | cons t rest =>
    rw [ofTokens] at h ⊢
    obtain ⟨hgrammatical, hfollows⟩ := Stmt.found_recover (Nat.succ_pos _)
      ((Stmt.findsBelow endLine _).declaration (t :: rest) (Nat.lt_succ_self _))
      (Stmt.persists_readDeclaration (.moving endLine id) (t :: rest)).suffix
      fun hstrict => (List.append_eq_nil_iff.1 (h hstrict)).1
    have hshorter :=
      ((Stmt.readDeclaration endLine (t :: rest)).recover (Nat.succ_pos _)).shorter
    obtain ⟨hlater, hspells⟩ := drawn_ofTokens endLine
      fun hstrict => (List.append_eq_nil_iff.1 (h hstrict)).2
    rw [Program.parts, Stmt.allParts_append, Program.Grammatical, Stmt.allGrammatical_append]
    exact ⟨⟨hgrammatical, hlater⟩, hfollows hspells⟩
termination_by ts.length
decreasing_by grind

/-- What is read without a report is all there is. -/
theorem found_ofTokens (endLine : Int) {ts : List Token}
    (h : (ofTokens endLine ts).diagnostics = []) :
    (ofTokens endLine ts).program.Grammatical Fits ∧
      (ofTokens endLine ts).program.Spells ts [] := by
  have hdrawn (_ : True) := h
  obtain ⟨hgrammatical, later, hskips, hdraws⟩ := drawn_ofTokens endLine hdrawn
  obtain rfl := hskips.2 trivial
  rw [show MayFit True = Fits from funext fun n => by simp [MayFit]] at hgrammatical
  exact ⟨hgrammatical, hdraws.spans trivial⟩

/-- **Reading is faithful.** If nothing is reported about tokens, then the program that is read from
them is as the grammar has it, with at most `maxArguments` parameters and arguments, and the tokens
are that program as it is written. -/
theorem reading_is_faithful (endLine : Int) (ts : List Token)
    (h : (ofTokens endLine ts).diagnostics = []) :
    (ofTokens endLine ts).program.Grammatical (· ≤ maxArguments) ∧
      (ofTokens endLine ts).program.Spells ts [] :=
  found_ofTokens endLine h

/-- Two conditionals with one `else`, operators of one strength, and a marker with parentheses that
could be left out. -/
theorem reading_is_faithful_else :
    let ts := (Scan.ofText "if (a) if (b) build c.d(); else e[f] = g - 1 - -2;").tokens
    (ofTokens 1 ts).diagnostics = [] ∧ (ofTokens 1 ts).program.Grammatical (· ≤ maxArguments) ∧
      (ofTokens 1 ts).program.Spells ts [] := by
  intro ts
  have h : (ofTokens 1 ts).diagnostics = [] := by decide +kernel
  exact ⟨h, reading_is_faithful 1 ts h⟩

end Source

end LoxLang
