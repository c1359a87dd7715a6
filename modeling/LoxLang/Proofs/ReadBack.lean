import LoxLang.Proofs.Spelling

/-!
# Programs are read back

Tokens that a program is written with are read as that program (`Source.ofTokens_of_spells`), if it
is as the grammar has it.

Where a phrase ends depends on what comes after it. `Word.strength` tells how a word holds on to the
operand before it, on the scale of `Expr.rank`: an expression of some rank is read as a whole if the
word after it is weaker.
-/

namespace LoxLang

/-! ### Phrases -/

namespace Reading

variable {limit : Nat} {α β : Type} {a : α} {b : β} {t : Token} {ts mid rest : List Token}
  {ds ds' : List Diagnostic} {endLine : Int}

/-- The phrase is read with the given result, with the tokens `rest` left, and `ds` is reported. -/
def Gives (r : Reading limit α) (a : α) (rest : List Token) (ds : List Diagnostic) : Prop :=
  ∃ shorter, r = .done a rest shorter ds

theorem gives_pure : (pure a ts).Gives a ts [] := ⟨_, rfl⟩

theorem gives_single : (single a ts : Reading (t :: ts).length α).Gives a ts [] := ⟨_, rfl⟩

theorem Gives.weaken {larger : Nat} {h : limit ≤ larger} {r : Reading limit α}
    (hr : r.Gives a rest ds) : (r.weaken h).Gives a rest ds := by
  obtain ⟨_, rfl⟩ := hr
  exact ⟨_, rfl⟩

theorem Gives.after {r : Reading ts.length α} (hr : r.Gives a rest ds) :
    (r.after (t := t)).Gives a rest ds := hr.weaken

theorem Gives.afterTail {r : Reading ts.length α} (hr : r.Gives a rest ds) :
    (r.afterTail (t := t)).Gives a rest ds := hr.weaken

theorem Gives.map {r : Reading limit α} {f : α → β} (hr : r.Gives a rest ds) :
    (r.map f).Gives (f a) rest ds := by
  obtain ⟨_, rfl⟩ := hr
  exact ⟨_, rfl⟩

theorem Gives.reporting {r : Reading limit α} (hr : r.Gives a rest ds') :
    (r.reporting ds).Gives a rest (ds ++ ds') := by
  obtain ⟨_, rfl⟩ := hr
  exact ⟨_, rfl⟩

theorem Gives.andThen {r : Reading limit α}
    {next : α → (rest : List Token) → rest.length < limit → Reading rest.length β}
    (hr : r.Gives a mid ds) (hnext : ∀ h, (next a mid h).Gives b rest ds') :
    (r.andThen next).Gives b rest (ds ++ ds') := by
  obtain ⟨h, rfl⟩ := hr
  exact (hnext h).weaken.reporting

theorem Gives.andTail {r : Reading limit α}
    {next : α → (rest : List Token) → rest.length < limit → Reading (rest.length + 1) β}
    (hr : r.Gives a mid ds) (hnext : ∀ h, (next a mid h).Gives b rest ds') :
    (r.andTail next).Gives b rest (ds ++ ds') := by
  obtain ⟨h, rfl⟩ := hr
  exact (hnext h).weaken.reporting

theorem gives_expect {word : Word} {what : String} (ht : t.word = word) :
    (expect endLine word what (t :: ts)).Gives t ts [] := by
  unfold expect
  simp only [ht, ↓reduceIte]
  exact gives_single

theorem gives_expectName {what : String} {n : Name} :
    (expectName endLine what (n.token :: ts)).Gives n ts [] := gives_single

end Reading

open Reading LoxLang.Part

/-! ### Words -/

/-- How strongly a word holds on to the operand before it, on the scale of `Expr.rank`: not at all,
as an equals sign, as an operator between operands, or as what follows an operand. -/
def Word.strength : Word → Nat
  | .symbol .equal => 1
  | .keyword .orWord => 2
  | .keyword .andWord => 3
  | .symbol .equalEqual | .symbol .bangEqual => 4
  | .symbol .less | .symbol .lessEqual | .symbol .greater | .symbol .greaterEqual => 5
  | .symbol .plus | .symbol .minus => 6
  | .symbol .star | .symbol .slash | .symbol .percent => 7
  | .symbol .leftParen | .symbol .dot | .symbol .leftBracket => 9
  | _ => 0

/-- How strongly the first of the tokens holds on to the operand before it. -/
def strength : List Token → Nat
  | [] => 0
  | t :: _ => t.word.strength

theorem Operator.strength_word (op : Operator) : op.word.strength = op.rank := by
  rcases op with op | op <;> cases op <;> rfl

theorem Operator.word_injective {op op' : Operator} (h : op.word = op'.word) : op = op' := by
  rcases op with op | op <;> rcases op' with op' | op' <;> cases op <;> cases op' <;>
    first
    | rfl
    | cases h

/-- Operands are smaller than the expression. -/
theorem Operator.sizeOf_lt_apply (op : Operator) (left : Expr Unit) (line : Int)
    (right : Expr Unit) : sizeOf left < sizeOf (op.apply left line right) ∧
      sizeOf right < sizeOf (op.apply left line right) := by
  cases op <;> simp only [apply, Expr.binary.sizeOf_spec, Expr.logical.sizeOf_spec] <;> omega

/-- A word that an expression begins with. -/
def Word.beginsExpr : Word → Bool
  | .symbol .bang | .symbol .minus | .symbol .leftParen | .symbol .leftBracket
  | .symbol .leftBrace => true
  | .keyword .falseWord | .keyword .trueWord | .keyword .nilWord | .keyword .thisWord
  | .keyword .superWord => true
  | .identifier _ | .string _ | .number .. => true
  | _ => false

theorem Word.beginsExpr_plain (w : Word) : w.plain.beginsExpr = w.beginsExpr := by
  cases w <;> rfl

/-! ### Expressions -/

/-- The first of the phrases comes first. -/
theorem Part.exists_separated_cons (ps : List Part) (pss : List (List Part)) :
    ∃ qs, separated (ps :: pss) = ps ++ qs := by
  cases pss with
  | nil => exact ⟨[], (List.append_nil ps).symm⟩
  | cons qs pss => exact ⟨_, rfl⟩

namespace Closing

/-- The phrases of items, the first of them at the given position. Those beyond the largest count
are reported if there is one. -/
def phrases (closing : Closing) (position : Nat) (pss : List (List Part)) : List (List Part) :=
  if closing.limited then capped "arguments" position pss else pss

theorem phrases_nil (closing : Closing) (position : Nat) : closing.phrases position [] = [] := by
  unfold phrases
  split <;> rfl

theorem phrases_cons (closing : Closing) (position : Nat) (ps : List Part)
    (pss : List (List Part)) : closing.phrases position (ps :: pss) =
      (if closing.limited && maxArguments ≤ position then report "arguments" ps else ps) ::
        closing.phrases (position + 1) pss := by
  unfold phrases
  cases closing.limited <;> simp [capped]

end Closing

namespace Expr

variable {β : Type}

/-- An expression begins with a word about which nothing is reported, and an operand does not begin
with an operator. -/
theorem exists_parts (fits : Nat → Prop) (e : Expr β) :
    ∃ w line ps, e.parts = .word w line none :: ps ∧ w.beginsExpr = true ∧
      (e.Grammatical fits → 9 ≤ e.rank → w ≠ .symbol .bang ∧ w ≠ .symbol .minus) := by
  have hleft {left : Expr β} {qs : List Part}
      (hparts : e.parts = left.parts ++ qs)
      (hrank : e.Grammatical fits → 9 ≤ e.rank → left.Grammatical fits ∧ 9 ≤ left.rank)
      (h : ∃ w line ps, left.parts = .word w line none :: ps ∧ w.beginsExpr = true ∧
        (left.Grammatical fits → 9 ≤ left.rank → w ≠ .symbol .bang ∧ w ≠ .symbol .minus)) :
      ∃ w line ps, e.parts = .word w line none :: ps ∧ w.beginsExpr = true ∧
        (e.Grammatical fits → 9 ≤ e.rank → w ≠ .symbol .bang ∧ w ≠ .symbol .minus) := by
    obtain ⟨w, line, ps, hps, hw, hop⟩ := h
    refine ⟨w, line, ps ++ qs, by rw [hparts, hps]; rfl, hw, fun he hr => ?_⟩
    exact hop (hrank he hr).1 (hrank he hr).2
  have hweak {k : Nat} (hk : k < 9) {P : Prop} (h : 9 ≤ k) : P := absurd h (Nat.not_le_of_lt hk)
  cases e with
  | constant value =>
    refine ⟨value.word, none, [], rfl, ?_, fun _ _ => ?_⟩
    · rcases value with _ | (_ | _) | _ | _ <;> rfl
    · rcases value with _ | (_ | _) | _ | _ <;> exact ⟨nofun, nofun⟩
  | group inner => exact ⟨_, _, _, rfl, rfl, fun _ _ => ⟨nofun, nofun⟩⟩
  | unary op line operand =>
    exact ⟨_, _, _, rfl, by cases op <;> rfl, fun _ => hweak (Nat.lt_succ_self 8)⟩
  | binary left op line right =>
    refine hleft rfl (fun _ => hweak ?_) (exists_parts fits left)
    cases op <;> simp [rank, Operator.rank]
  | logical left op line right =>
    refine hleft rfl (fun _ => hweak ?_) (exists_parts fits left)
    cases op <;> simp [rank, Operator.rank]
  | var name mark => exact ⟨_, _, _, rfl, rfl, fun _ _ => ⟨nofun, nofun⟩⟩
  | assign name value mark => exact ⟨_, _, _, rfl, rfl, fun _ _ => ⟨nofun, nofun⟩⟩
  | call callee arguments line =>
    exact hleft rfl (fun he _ => ⟨he.1, he.2.1⟩) (exists_parts fits callee)
  | list elements line => exact ⟨_, _, _, rfl, rfl, fun _ _ => ⟨nofun, nofun⟩⟩
  | map entries line => exact ⟨_, _, _, rfl, rfl, fun _ _ => ⟨nofun, nofun⟩⟩
  | index container position line =>
    exact hleft rfl (fun he _ => ⟨he.1, he.2.1⟩) (exists_parts fits container)
  | setIndex container position value line =>
    exact hleft rfl (fun _ => hweak (by simp [rank])) (exists_parts fits container)
  | get object name => exact hleft rfl (fun he _ => he) (exists_parts fits object)
  | set object name value =>
    exact hleft rfl (fun _ => hweak (by simp [rank])) (exists_parts fits object)
  | thisRef line mark => exact ⟨_, _, _, rfl, rfl, fun _ _ => ⟨nofun, nofun⟩⟩
  | superRef line method mark => exact ⟨_, _, _, rfl, rfl, fun _ _ => ⟨nofun, nofun⟩⟩

variable (endLine : Int)

/-- The expression is read as a whole in front of what does not hold on to it. -/
def ReadsBack (e : Expr Unit) : Prop :=
  ∀ ts rest ds, Spans e.parts ts rest ds → strength rest = 0 → (read endLine ts).Gives e rest ds

/-- The expressions with a size below `n` are read as a whole. -/
def ReadsBackBelow (fits : Nat → Prop) (n : Nat) : Prop :=
  ∀ e : Expr Unit, sizeOf e < n → e.Grammatical fits → ReadsBack endLine e

variable {endLine} {fits : Nat → Prop} {n k : Nat} {ts mid rest : List Token}
  {ds ds' : List Diagnostic}

theorem beginsExpr_of_spans {e : Expr Unit} (h : Spans e.parts ts rest ds) :
    ∃ t later, ts = t :: later ∧ t.word.beginsExpr = true := by
  obtain ⟨w, line, ps, hps, hw, -⟩ := exists_parts (fun _ => True) e
  obtain ⟨t, later, rfl, ht⟩ := h.first (by rw [hps]; rfl)
  exact ⟨t, later, rfl, by rw [← t.word.beginsExpr_plain, ht, w.beginsExpr_plain, hw]⟩

variable (endLine) in
/-- What is reported about an item because of its position comes first. -/
theorem exists_of_spans_item {closing : Closing} {position : Nat} {e : Expr Unit}
    (h : Spans (if closing.limited && maxArguments ≤ position then
      report "arguments" e.parts else e.parts) ts rest ds) :
    ∃ ds', Spans e.parts ts rest ds' ∧ ds = countReports endLine closing position ts ++ ds' := by
  obtain ⟨w, line, ps, hps, -⟩ := exists_parts (fun _ => True) e
  unfold countReports
  split at h
  · rename_i hlimited
    rw [hps] at h ⊢
    cases h with
    | word hword hline h => exact ⟨_, .word hword hline h, by simp [hlimited, complaint]⟩
  · rename_i hlimited
    exact ⟨ds, h, by simp [hlimited]⟩

/-- A symbol that closes items does not go on with them. -/
structure Closes (closing : Closing) (last : Token) : Prop where
  word : last.word = .symbol closing.symbol
  strength : last.word.strength = 0
  comma : last.word ≠ .symbol .comma
  begins : last.word.beginsExpr = false

theorem closes_rightParen {closing : Closing} {last : Token}
    (hclosing : closing.symbol = .rightParen)
    (h : last.word = .symbol .rightParen) : Closes closing last := by
  constructor <;> simp [h, hclosing, Word.strength, Word.beginsExpr]

theorem closes_rightBracket {closing : Closing} {last : Token}
    (hclosing : closing.symbol = .rightBracket) (h : last.word = .symbol .rightBracket) :
    Closes closing last := by
  constructor <;> simp [h, hclosing, Word.strength, Word.beginsExpr]

theorem gives_readItemsFrom {closing : Closing} {last : Token} (hlast : Closes closing last)
    {position : Nat} {e : Expr Unit} {es : List (Expr Unit)}
    (hread : ∀ e' ∈ e :: es, ReadsBack endLine e')
    (h : Spans (separated (closing.phrases position (eachParts (e :: es)))) ts (last :: rest) ds) :
    (readItemsFrom endLine closing position ts).Gives (e :: es, last.line) rest ds := by
  induction es generalizing e position ts ds with
  | nil =>
    rw [eachParts, eachParts, closing.phrases_cons, closing.phrases_nil] at h
    obtain ⟨d, hspans, rfl⟩ := exists_of_spans_item endLine h
    have hitem := hread e List.mem_cons_self _ _ _ hspans hlast.strength
    rw [readItemsFrom, ← List.append_nil d]
    refine .reporting (hitem.andThen fun _ => ?_)
    simp only [hlast.comma, ↓reduceIte]
    exact (gives_expect hlast.word).map
  | cons second es ih =>
    rw [eachParts, eachParts, closing.phrases_cons, closing.phrases_cons, separated] at h
    obtain ⟨mid, d₁, d₂, hfirst, hrest, rfl⟩ := h.of_append
    obtain ⟨t, later, rfl, ht, hlater⟩ := hrest.of_symbol
    obtain ⟨d, hspans, rfl⟩ := exists_of_spans_item endLine hfirst
    have hitem := hread e List.mem_cons_self _ _ _ hspans (by rw [strength, ht]; rfl)
    rw [← closing.phrases_cons, ← eachParts] at hlater
    have hitems := ih (fun e' he' => hread e' (List.mem_cons_of_mem _ he')) hlater
    rw [readItemsFrom, List.append_assoc]
    refine .reporting (hitem.andThen fun _ => ?_)
    simp only [ht, ↓reduceIte]
    exact hitems.map.after

theorem gives_readItems {closing : Closing} {last : Token} (hlast : Closes closing last)
    {es : List (Expr Unit)} (hread : ∀ e ∈ es, ReadsBack endLine e)
    (h : Spans (separated (closing.phrases 0 (eachParts es))) ts (last :: rest) ds) :
    (readItems endLine closing ts).Gives (es, last.line) rest ds := by
  cases es with
  | nil =>
    rw [eachParts, closing.phrases_nil] at h
    obtain ⟨rfl, rfl⟩ := h.of_nil
    rw [readItems, if_pos hlast.word]
    exact gives_single
  | cons e es =>
    have hitems := gives_readItemsFrom hlast hread h
    -- An item begins with a word that begins an expression, and no such word closes a list.
    rw [eachParts, closing.phrases_cons] at h
    obtain ⟨qs, hqs⟩ := exists_separated_cons _ (closing.phrases 1 (eachParts es))
    rw [hqs] at h
    obtain ⟨mid, d₁, d₂, hfirst, -, -⟩ := h.of_append
    obtain ⟨d, hspans, -⟩ := exists_of_spans_item endLine hfirst
    obtain ⟨t, later, rfl, ht⟩ := beginsExpr_of_spans hspans
    have hnot : t.word ≠ .symbol closing.symbol := by
      intro h
      rw [h, ← hlast.word, hlast.begins] at ht
      cases ht
    rw [readItems, if_neg hnot]
    exact hitems

theorem gives_readEntries {last : Token} (hlast : last.word = .symbol .rightBrace)
    {entry : Expr Unit × Expr Unit} {entries : List (Expr Unit × Expr Unit)}
    (hread : ∀ e ∈ entry :: entries, ReadsBack endLine e.1 ∧ ReadsBack endLine e.2)
    (h : Spans (separated (entryParts (entry :: entries))) ts (last :: rest) ds) :
    (readEntries endLine ts).Gives (entry :: entries) rest ds := by
  obtain ⟨key, value⟩ := entry
  obtain ⟨hkey, hvalue⟩ := hread (key, value) List.mem_cons_self
  induction entries generalizing key value ts ds with
  | nil =>
    obtain ⟨mid, d₁, d₂, hkeySpans, hrest, rfl⟩ := Spans.of_append h
    obtain ⟨colon, later, rfl, hcolon, hvalueSpans⟩ := hrest.of_symbol
    have hstrength : strength (last :: rest) = 0 := by rw [strength, hlast]; rfl
    rw [readEntries]
    refine (hkey _ _ _ hkeySpans (by rw [strength, hcolon]; rfl)).andThen fun _ => ?_
    rw [← List.nil_append d₂, ← List.append_nil d₂]
    refine (gives_expect hcolon).andThen fun _ =>
      (hvalue _ _ _ hvalueSpans hstrength).andThen fun _ => ?_
    have hnot : last.word ≠ .symbol .comma := by simp [hlast]
    simp only [hnot, ↓reduceIte]
    exact (gives_expect hlast).map
  | cons second entries ih =>
    obtain ⟨key', value'⟩ := second
    obtain ⟨mid, d₁, d₂, hentry, hrest, rfl⟩ := Spans.of_append h
    obtain ⟨comma, later, rfl, hcomma, hlater⟩ := hrest.of_symbol
    obtain ⟨mid, d₃, d₄, hkeySpans, hrest, rfl⟩ := Spans.of_append hentry
    obtain ⟨colon, later', rfl, hcolon, hvalueSpans⟩ := hrest.of_symbol
    have hread' : ∀ e ∈ (key', value') :: entries, ReadsBack endLine e.1 ∧ ReadsBack endLine e.2 :=
      fun e he => hread e (List.mem_cons_of_mem _ he)
    obtain ⟨hkey', hvalue'⟩ := hread' (key', value') List.mem_cons_self
    have hentries := ih key' value' hread' hlater hkey' hvalue'
    rw [readEntries, List.append_assoc]
    refine (hkey _ _ _ hkeySpans (by rw [strength, hcolon]; rfl)).andThen fun _ => ?_
    rw [← List.nil_append d₄, List.append_assoc]
    refine (gives_expect hcolon).andThen fun _ =>
      (hvalue _ _ _ hvalueSpans (by rw [strength, hcomma]; rfl)).andThen fun _ => ?_
    simp only [hcomma, ↓reduceIte]
    exact hentries.map.after

theorem ReadsBackBelow.of_mem (hn : ReadsBackBelow endLine fits n) {es : List (Expr Unit)}
    (hsize : sizeOf es ≤ n) (hes : AllGrammatical fits es) : ∀ e ∈ es, ReadsBack endLine e := by
  induction es with
  | nil => exact fun e he => nomatch he
  | cons e es ih =>
    simp only [List.cons.sizeOf_spec] at hsize
    intro e' he'
    cases he' with
    | head => exact hn e (by omega) hes.1
    | tail _ he' => exact ih (by omega) hes.2 e' he'

theorem ReadsBackBelow.of_mem_entries (hn : ReadsBackBelow endLine fits n)
    {entries : List (Expr Unit × Expr Unit)} (hsize : sizeOf entries ≤ n)
    (hentries : EntriesGrammatical fits entries) :
    ∀ e ∈ entries, ReadsBack endLine e.1 ∧ ReadsBack endLine e.2 := by
  induction entries with
  | nil => exact fun e he => nomatch he
  | cons entry entries ih =>
    obtain ⟨key, value⟩ := entry
    simp only [List.cons.sizeOf_spec, Prod.mk.sizeOf_spec] at hsize
    intro e he
    cases he with
    | head => exact ⟨hn key (by omega) hentries.1, hn value (by omega) hentries.2.1⟩
    | tail _ he => exact ih (by omega) hentries.2.2 e he

/-- An operand without anything after it. -/
def isPrimary : Expr β → Bool
  | .constant _ | .group _ | .var .. | .list .. | .map .. | .thisRef .. | .superRef .. => true
  | _ => false

theorem gives_readPrimary_constant {t : Token} {value : Constant}
    (h : t.word.plain = value.word.plain) :
    (readPrimary endLine (t :: rest)).Gives (.constant value) rest [] := by
  have hkeyword {k : Keyword} (h : t.word.plain = .keyword k) : t.word = .keyword k :=
    Word.plain_eq_keyword.1 h
  rw [readPrimary.eq_def]
  cases value with
  | nil =>
    simp only [hkeyword h]
    exact gives_single
  | bool b =>
    cases b with
    | true =>
      simp only [hkeyword h]
      exact gives_single
    | false =>
      simp only [hkeyword h]
      exact gives_single
  | number x =>
    obtain ⟨w, line⟩ := t
    cases w <;> cases h
    exact gives_single
  | string x =>
    obtain ⟨w, line⟩ := t
    cases w <;> cases h
    exact gives_single

theorem gives_readPrimary (hn : ReadsBackBelow endLine fits n) {e : Expr Unit}
    (hsize : sizeOf e ≤ n)
    (he : e.Grammatical fits) (hprimary : e.isPrimary = true) (h : Spans e.parts ts rest ds) :
    (readPrimary endLine ts).Gives e rest ds := by
  cases e with
  | constant value =>
    cases h with
    | word hword _ h =>
      obtain ⟨rfl, rfl⟩ := h.of_nil
      exact gives_readPrimary_constant hword
  | group inner =>
    simp only [group.sizeOf_spec] at hsize
    obtain ⟨t, later, rfl, ht, hlater⟩ := h.of_symbol
    obtain ⟨mid, d₁, d₂, hinner, hrest, rfl⟩ := hlater.of_append
    obtain ⟨last, rfl, hlast, rfl⟩ := hrest.of_lastSymbol
    rw [readPrimary.eq_def]
    simp only [ht]
    refine .after ((hn inner (by omega) he _ _ _ hinner (by rw [strength, hlast]; rfl)).andThen
      fun _ => (gives_expect hlast).map)
  | var name mark =>
    obtain ⟨later, rfl, hnil⟩ := h.of_name
    obtain ⟨rfl, rfl⟩ := hnil.of_nil
    rw [readPrimary.eq_def]
    exact gives_single
  | list elements line =>
    simp only [list.sizeOf_spec] at hsize
    obtain ⟨t, later, rfl, ht, rfl, hlater⟩ := h.of_symbolAt
    obtain ⟨mid, d₁, d₂, helements, hrest, rfl⟩ := hlater.of_append
    obtain ⟨last, rfl, hlast, rfl⟩ := hrest.of_lastSymbol
    rw [readPrimary.eq_def, List.append_nil]
    simp only [ht]
    have hitems : (readItems endLine .elements _).Gives _ _ _ :=
      gives_readItems (closes_rightBracket rfl hlast) (hn.of_mem (by omega) he) helements
    exact hitems.map.after
  | map entries line =>
    simp only [map.sizeOf_spec] at hsize
    obtain ⟨t, later, rfl, ht, rfl, hlater⟩ := h.of_symbolAt
    obtain ⟨mid, d₁, d₂, hentries, hrest, rfl⟩ := hlater.of_append
    obtain ⟨last, rfl, hlast, rfl⟩ := hrest.of_lastSymbol
    rw [readPrimary.eq_def, List.append_nil]
    simp only [ht]
    cases entries with
    | nil =>
      obtain ⟨rfl, rfl⟩ := Spans.of_nil hentries
      simp only [hlast, ↓reduceIte]
      exact ⟨_, rfl⟩
    | cons entry entries =>
      have hread := gives_readEntries hlast (hn.of_mem_entries (by omega) he) hentries
      obtain ⟨key, value⟩ := entry
      obtain ⟨qs, hqs⟩ := exists_separated_cons (key.parts ++ symbol .colon :: value.parts)
        (entryParts entries)
      rw [entryParts, hqs, List.append_assoc] at hentries
      obtain ⟨_, _, _, hkey, -, -⟩ := hentries.of_append
      obtain ⟨first, later, rfl, hfirst⟩ := beginsExpr_of_spans hkey
      have hnot : first.word ≠ .symbol .rightBrace := by
        intro h
        rw [h] at hfirst
        cases hfirst
      simp only [hnot, ↓reduceIte]
      exact hread.map.after
  | thisRef line mark =>
    obtain ⟨t, later, rfl, ht, rfl, hnil⟩ := h.of_keywordAt
    obtain ⟨rfl, rfl⟩ := hnil.of_nil
    rw [readPrimary.eq_def]
    simp only [ht]
    exact gives_single
  | superRef line method mark =>
    obtain ⟨t, later, rfl, ht, rfl, hlater⟩ := h.of_keywordAt
    obtain ⟨dot, later, rfl, hdot, hmethod⟩ := hlater.of_symbol
    obtain ⟨later, rfl, hnil⟩ := hmethod.of_name
    obtain ⟨rfl, rfl⟩ := hnil.of_nil
    rw [readPrimary.eq_def]
    simp only [ht]
    exact .after ((gives_expect hdot).andThen fun _ => gives_expectName.map)
  | _ => cases hprimary

/-- An operand is read with what follows it, one step after the other: reading goes on behind it. -/
theorem gives_readPostfix (hn : ReadsBackBelow endLine fits n) {e result : Expr Unit}
    {ts mid rest : List Token} {ds ds' : List Diagnostic} (hsize : sizeOf e ≤ n)
    (he : e.Grammatical fits) (hrank : 9 ≤ e.rank)
    (h : Spans e.parts ts mid ds) (htail : (readPostfixTail endLine e mid).Gives result rest ds') :
    (readPostfix endLine ts).Gives result rest (ds ++ ds') := by
  have hprimary (hprimary : e.isPrimary = true) :
      (readPostfix endLine ts).Gives result rest (ds ++ ds') := by
    rw [readPostfix]
    exact (gives_readPrimary hn hsize he hprimary h).andTail fun _ => htail
  cases e with
  | call callee arguments line =>
    simp only [call.sizeOf_spec] at hsize
    obtain ⟨_, d₁, d₂, hcallee, hcall, rfl⟩ := h.of_append
    obtain ⟨t, later, rfl, ht, hlater⟩ := hcall.of_symbol
    obtain ⟨_, d₃, d₄, harguments, hrest, rfl⟩ := hlater.of_append
    obtain ⟨last, later, rfl, hlast, rfl, hnil⟩ := hrest.of_symbolAt
    obtain ⟨rfl, rfl⟩ := hnil.of_nil
    rw [List.append_assoc]
    -- The callee is what is read first, and the call is the first step behind it.
    refine gives_readPostfix hn (by omega) he.1 he.2.1 hcallee ?_
    rw [readPostfixTail, if_pos ht, List.append_nil]
    have hitems : (readItems endLine .arguments _).Gives _ _ _ :=
      gives_readItems (closes_rightParen rfl hlast) (hn.of_mem (by omega) he.2.2.1) harguments
    exact .afterTail (hitems.andTail fun _ => htail)
  | index container position line =>
    simp only [index.sizeOf_spec] at hsize
    obtain ⟨_, d₁, d₂, hcontainer, hindex, rfl⟩ := h.of_append
    obtain ⟨t, later, rfl, ht, rfl, hlater⟩ := hindex.of_symbolAt
    obtain ⟨_, d₃, d₄, hposition, hrest, rfl⟩ := hlater.of_append
    obtain ⟨last, rfl, hlast, rfl⟩ := hrest.of_lastSymbol
    rw [List.append_assoc]
    refine gives_readPostfix hn (by omega) he.1 he.2.1 hcontainer ?_
    rw [readPostfixTail, if_neg (by simp [ht]), if_neg (by simp [ht]), if_pos ht, List.append_assoc]
    refine .afterTail ((hn position (by omega) he.2.2 _ _ _ hposition
      (by rw [strength, hlast]; rfl)).andThen fun _ => ?_)
    exact (gives_expect hlast).andTail fun _ => htail
  | get object name =>
    simp only [get.sizeOf_spec] at hsize
    obtain ⟨_, d₁, d₂, hobject, hget, rfl⟩ := h.of_append
    obtain ⟨t, later, rfl, ht, hlater⟩ := hget.of_symbol
    obtain ⟨later, rfl, hnil⟩ := hlater.of_name
    obtain ⟨rfl, rfl⟩ := hnil.of_nil
    rw [List.append_assoc]
    refine gives_readPostfix hn (by omega) he.1 he.2 hobject ?_
    rw [readPostfixTail, if_neg (by simp [ht]), if_pos ht]
    exact .afterTail (gives_expectName.andTail fun _ => htail)
  | constant | group | var | list | map | thisRef | superRef => exact hprimary rfl
  | binary left op line right => cases op <;> simp [rank, Operator.rank] at hrank
  | logical left op line right => cases op <;> simp [rank, Operator.rank] at hrank
  | _ => simp [rank] at hrank

/-- Nothing follows an operand in front of a word that is weaker. -/
theorem gives_readPostfixTail {e : Expr Unit} (h : strength ts < 9) :
    (readPostfixTail endLine e ts).Gives e ts [] := by
  cases ts with
  | nil =>
    rw [readPostfixTail]
    exact gives_pure
  | cons t rest =>
    have hnot {s : Symbol} (hs : (Word.symbol s).strength = 9) : t.word ≠ .symbol s := by
      intro ht
      rw [strength, ht, hs] at h
      exact absurd h (Nat.lt_irrefl 9)
    rw [readPostfixTail, if_neg (hnot rfl), if_neg (hnot rfl), if_neg (hnot rfl)]
    exact gives_pure

theorem gives_readUnary (hn : ReadsBackBelow endLine fits n) {e : Expr Unit}
    {ts rest : List Token} {ds : List Diagnostic} (hsize : sizeOf e ≤ n) (he : e.Grammatical fits)
    (hrank : 8 ≤ e.rank) (h : Spans e.parts ts rest ds) (hrest : strength rest < 9) :
    (readUnary endLine ts).Gives e rest ds := by
  have hpostfix (hrank : 9 ≤ e.rank) : (readUnary endLine ts).Gives e rest ds := by
    -- At this rank the first word is no operator, or it would be taken for a unary one.
    obtain ⟨w, line, ps, hps, -, hw⟩ := exists_parts fits e
    obtain ⟨t, later, rfl, ht⟩ := h.first (by rw [hps]; rfl)
    have hnot : UnaryOp.ofToken? t = none := by
      obtain ⟨hbang, hminus⟩ := hw he hrank
      unfold UnaryOp.ofToken?
      rw [if_neg (Word.ne_symbol ht hbang), if_neg (Word.ne_symbol ht hminus)]
    rw [readUnary, hnot]
    rw [← List.append_nil ds]
    exact gives_readPostfix hn hsize he hrank h (gives_readPostfixTail hrest)
  cases e with
  | unary op line operand =>
    simp only [unary.sizeOf_spec] at hsize
    obtain ⟨t, later, rfl, ht, rfl, hlater⟩ := h.of_symbolAt
    have hop : UnaryOp.ofToken? t = some op := by
      unfold UnaryOp.ofToken?
      cases op <;> simp [ht, UnaryOp.symbol]
    rw [readUnary, hop]
    exact .after (gives_readUnary hn (by omega) he.1 he.2 hlater hrest).map
  | binary left op line right => cases op <;> simp [rank, Operator.rank] at hrank
  | logical left op line right => cases op <;> simp [rank, Operator.rank] at hrank
  | assign | set | setIndex => simp [rank] at hrank
  | _ => exact hpostfix (Nat.le_refl 9)

/-- An expression between the ranks of assignments and of single operands is an operator with its
operands. -/
theorem exists_operator {e : Expr Unit} (he : 2 ≤ e.rank) (he' : e.rank < 8) :
    ∃ left op line right, e = Operator.apply left line right op ∧ op.rank = e.rank := by
  cases e with
  | binary left op line right => exact ⟨left, .binary op, line, right, rfl, rfl⟩
  | logical left op line right => exact ⟨left, .logical op, line, right, rfl, rfl⟩
  | _ => simp [rank] at he he'

theorem operator?_eq_some {tier : Tier} {op : Operator} {t : Token} (hop : op ∈ tier)
    (ht : t.word = op.word) : tier.operator? t = some op := by
  cases h : tier.operator? t with
  | none =>
    have := List.find?_eq_none.1 h op hop
    simp [ht] at this
  | some op' =>
    have hword : op'.word = t.word := by simpa using List.find?_some h
    rw [Operator.word_injective (hword.trans ht)]

/-- An operator of one tier is not found in front of a word that is weaker. -/
theorem gives_readTierTail {tier : Tier} {stronger : List Tier}
    (htier : ∀ op, op ∈ tier ↔ op.rank = k) {e : Expr Unit} (h : strength ts < k) :
    (readTierTail endLine tier stronger e ts).Gives e ts [] := by
  cases ts with
  | nil =>
    rw [readTierTail]
    exact gives_pure
  | cons t rest =>
    have hnone : tier.operator? t = none := by
      refine List.find?_eq_none.2 fun op hop => ?_
      have hrank := (htier op).1 hop
      simp only [decide_eq_true_eq]
      intro hword
      rw [strength, ← hword, op.strength_word, hrank] at h
      exact Nat.lt_irrefl k h
    rw [readTierTail, hnone]
    exact gives_pure

/-- Operators of one tier group to the left, so reading goes on behind what has been read so far. -/
theorem gives_readTiers_cons {tier : Tier} {stronger : List Tier}
    (htier : ∀ op, op ∈ tier ↔ op.rank = k) (hk : 2 ≤ k) (hk' : k < 8)
    (hstronger : ∀ {e : Expr Unit} {ts rest ds}, sizeOf e ≤ n → e.Grammatical fits →
      k + 1 ≤ e.rank → Spans e.parts ts rest ds → strength rest < k + 1 →
      (readTiers endLine stronger ts).Gives e rest ds)
    {e result : Expr Unit} {ts mid rest : List Token} {ds ds' : List Diagnostic}
    (hsize : sizeOf e ≤ n) (he : e.Grammatical fits) (hrank : k ≤ e.rank)
    (h : Spans e.parts ts mid ds) (hmid : strength mid ≤ k)
    (htail : (readTierTail endLine tier stronger e mid).Gives result rest ds') :
    (readTiers endLine (tier :: stronger) ts).Gives result rest (ds ++ ds') := by
  -- By induction on the size, since what is read behind grows while the left operand gets smaller.
  induction hm : sizeOf e using Nat.strongRecOn generalizing e mid ds ds' with | _ m ih
  obtain hlt | heq := Nat.lt_or_eq_of_le hrank
  · rw [readTiers]
    exact (hstronger hsize he hlt h (Nat.lt_succ_of_le hmid)).andTail fun _ => htail
  · obtain ⟨left, op, line, right, rfl, hop⟩ := exists_operator (heq ▸ hk) (heq ▸ hk')
    rw [← heq] at hop
    rw [op.grammatical_apply] at he
    rw [op.parts_apply] at h
    obtain ⟨_, d₁, d₂, hleft, hright, rfl⟩ := h.of_append
    cases hright with
    | word hword hline hright =>
      rename_i t later d
      have ht : t.word = op.word := by
        cases op with
        | binary op => exact Word.plain_eq_symbol.1 hword
        | logical op => exact Word.plain_eq_keyword.1 hword
      obtain rfl : line = t.line := (hline line rfl).symm
      obtain ⟨hleftSize, hrightSize⟩ := op.sizeOf_lt_apply left t.line right
      rw [List.append_assoc]
      refine ih _ (hm ▸ hleftSize) (by omega) he.1 (hop ▸ he.2.1) hleft ?_ ?_ rfl
      · exact Nat.le_of_eq ((congrArg Word.strength ht).trans (op.strength_word.trans hop))
      · rw [readTierTail, operator?_eq_some ((htier op).2 hop) ht]
        exact .afterTail ((hstronger (by omega) he.2.2.1 (hop ▸ he.2.2.2) hright
          (Nat.lt_succ_of_le hmid)).andTail fun _ => htail)

theorem gives_readTiers (hn : ReadsBackBelow endLine fits n) {tiers : List Tier} (hk : 2 ≤ k)
    (htiers : Rises k tiers) {e : Expr Unit} {ts rest : List Token} {ds : List Diagnostic}
    (hsize : sizeOf e ≤ n) (he : e.Grammatical fits) (hrank : k ≤ e.rank)
    (h : Spans e.parts ts rest ds) (hrest : strength rest < k) :
    (readTiers endLine tiers ts).Gives e rest ds := by
  induction tiers generalizing k e ts rest ds with
  | nil =>
    obtain rfl : k = 8 := htiers
    rw [readTiers]
    exact gives_readUnary hn hsize he hrank h (Nat.lt_succ_of_lt hrest)
  | cons tier stronger ih =>
    have hk' : k < 8 := by
      have hle {k : Nat} {tiers : List Tier} (h : Rises k tiers) : k ≤ 8 := by
        induction tiers generalizing k with
        | nil => exact Nat.le_of_eq h
        | cons tier stronger ih => exact Nat.le_of_succ_le (ih h.2)
      exact hle htiers.2
    rw [← List.append_nil ds]
    exact gives_readTiers_cons htiers.1 hk hk' (ih (Nat.le_succ_of_le hk) htiers.2) hsize he hrank h
      (Nat.le_of_lt hrest) (gives_readTierTail htiers.1 hrest)

/-- The targets of assignments are read like other expressions. -/
theorem gives_read_assignment {target value assigned : Expr Unit} {t : Token} {later : List Token}
    (htarget : (readTiers endLine ladder ts).Gives target (t :: later) ds)
    (ht : t.word = .symbol .equal) (hvalue : (read endLine later).Gives value rest ds')
    (h : target.assignment? value = some assigned) :
    (read endLine ts).Gives assigned rest (ds ++ ds') := by
  rw [read]
  refine htarget.andTail fun _ => ?_
  simp only [ht, ↓reduceIte]
  refine .afterTail ?_
  obtain ⟨_, hvalue⟩ := hvalue
  rw [hvalue, assigning]
  simp only [h]
  exact ⟨_, rfl⟩

theorem readsBackBelow (endLine : Int) (fits : Nat → Prop) (n : Nat) :
    ReadsBackBelow endLine fits n := by
  induction n with
  | zero => exact fun e h => absurd h (Nat.not_lt_zero _)
  | succ n hn =>
    intro e hsize he ts rest ds h hrest
    have hsize : sizeOf e ≤ n := Nat.le_of_lt_succ hsize
    have htiers {e : Expr Unit} {ts rest : List Token} {ds : List Diagnostic} (hsize : sizeOf e ≤ n)
        (he : e.Grammatical fits) (hrank : 2 ≤ e.rank) (h : Spans e.parts ts rest ds)
        (hrest : strength rest < 2) : (readTiers endLine ladder ts).Gives e rest ds :=
      gives_readTiers hn (Nat.le_refl 2) rises_ladder hsize he hrank h hrest
    have hplain (hrank : 2 ≤ e.rank) : (read endLine ts).Gives e rest ds := by
      rw [read, ← List.append_nil ds]
      refine (htiers hsize he hrank h (by omega)).andTail fun _ => ?_
      cases rest with
      | nil => exact gives_pure
      | cons t later =>
        have hnot : t.word ≠ .symbol .equal := by
          intro ht
          rw [strength, ht] at hrest
          cases hrest
        simp only [hnot, ↓reduceIte]
        exact gives_pure
    cases e with
    | assign name value mark =>
      simp only [assign.sizeOf_spec] at hsize
      obtain ⟨later, rfl, hlater⟩ := h.of_name
      obtain ⟨t, later, rfl, ht, hvalue⟩ := hlater.of_symbol
      -- What is assigned to has been read as a variable when the equals sign is found.
      have htarget : (readTiers endLine ladder (name.token :: t :: later)).Gives (.var name mark)
          (t :: later) [] :=
        htiers (by simp only [var.sizeOf_spec]; omega) trivial (by simp [rank]) (.name rfl .nil)
          (by rw [strength, ht]; decide)
      exact gives_read_assignment htarget ht (hn value (by omega) he _ _ _ hvalue hrest) rfl
    | set object name value =>
      simp only [set.sizeOf_spec] at hsize
      obtain ⟨_, d₁, d₂, hobject, hset, rfl⟩ := h.of_append
      obtain ⟨dot, later, rfl, hdot, hname⟩ := hset.of_symbol
      obtain ⟨later, rfl, hequal⟩ := hname.of_name
      obtain ⟨t, later, rfl, ht, hvalue⟩ := hequal.of_symbol
      have htarget : (readTiers endLine ladder ts).Gives (.get object name) (t :: later)
          (d₁ ++ []) :=
        htiers (by simp only [get.sizeOf_spec]; omega) ⟨he.1, he.2.1⟩ (by simp [rank])
          (hobject.append (.symbol hdot (.name rfl .nil))) (by rw [strength, ht]; decide)
      rw [List.append_nil] at htarget
      exact gives_read_assignment htarget ht (hn value (by omega) he.2.2 _ _ _ hvalue hrest) rfl
    | setIndex container position value line =>
      simp only [setIndex.sizeOf_spec] at hsize
      obtain ⟨_, d₁, d₂, hcontainer, hindex, rfl⟩ := h.of_append
      obtain ⟨bracket, later, rfl, hbracket, rfl, hlater⟩ := hindex.of_symbolAt
      obtain ⟨_, d₃, d₄, hposition, hassign, rfl⟩ := hlater.of_append
      obtain ⟨closing, later, rfl, hclosing, hequal⟩ := hassign.of_symbol
      obtain ⟨t, later, rfl, ht, hvalue⟩ := hequal.of_symbol
      have htarget : (readTiers endLine ladder ts).Gives (.index container position bracket.line)
          (t :: later) (d₁ ++ (d₃ ++ [])) :=
        htiers (by simp only [index.sizeOf_spec]; omega) ⟨he.1, he.2.1, he.2.2.1⟩ (by simp [rank])
          (hcontainer.append (.symbolAt hbracket (hposition.append (.symbol hclosing .nil))))
          (by rw [strength, ht]; decide)
      rw [List.append_nil] at htarget
      rw [← List.append_assoc]
      exact gives_read_assignment htarget ht (hn value (by omega) he.2.2.2 _ _ _ hvalue hrest) rfl
    | binary left op line right => exact hplain (by cases op <;> simp [rank, Operator.rank])
    | logical left op line right => exact hplain (by cases op <;> simp [rank, Operator.rank])
    | _ => exact hplain (by simp [rank])

/-- **Expressions are read back,** in front of what does not hold on to them. -/
theorem gives_read {e : Expr Unit} (he : e.Grammatical fits) (h : Spans e.parts ts rest ds)
    (hrest : strength rest = 0) : (read endLine ts).Gives e rest ds :=
  readsBackBelow endLine fits _ e (Nat.lt_succ_self _) he ts rest ds h hrest

end Expr

/-! ### Statements -/

namespace Stmt

variable {endLine : Int} {fits : Nat → Prop} {n : Nat} {t : Token} {ts rest : List Token}
  {ds : List Diagnostic}

variable (endLine) in
theorem exists_of_spans_param {position : Nat} {name : Name}
    (h : Spans (if maxArguments ≤ position then report "parameters" [.name name]
      else [.name name]) ts rest ds) :
    ts = name.token :: rest ∧ ds = if maxArguments ≤ position then
      [complaint endLine ts (.tooMany "parameters")] else [] := by
  split at h
  · rename_i hposition
    cases h with
    | word hword hline h =>
      obtain rfl := name.token_eq hword (hline _ rfl)
      obtain ⟨rfl, rfl⟩ := h.of_nil
      exact ⟨rfl, (if_pos hposition).symm⟩
  · rename_i hposition
    obtain ⟨later, rfl, hnil⟩ := h.of_name
    obtain ⟨rfl, rfl⟩ := hnil.of_nil
    exact ⟨rfl, (if_neg hposition).symm⟩

theorem gives_readParamsFrom {last : Token} (hlast : last.word = .symbol .rightParen)
    {position : Nat} {name : Name} {names : List Name}
    (h : Spans (separated (capped "parameters" position (Name.eachParts (name :: names)))) ts
      (last :: rest) ds) :
    (readParamsFrom endLine position ts).Gives (name :: names) rest ds := by
  induction names generalizing name position ts ds with
  | nil =>
    obtain ⟨rfl, hds⟩ := exists_of_spans_param endLine h
    have hnot : last.word ≠ .symbol .comma := by simp [hlast]
    rw [readParamsFrom, ← List.append_nil ds, hds]
    refine .reporting (gives_expectName.andThen fun _ => ?_)
    simp only [hnot, ↓reduceIte]
    exact (gives_expect hlast).map
  | cons second names ih =>
    obtain ⟨mid, d₁, d₂, hname, hrest, rfl⟩ := Spans.of_append h
    obtain ⟨t, later, rfl, ht, hlater⟩ := hrest.of_symbol
    obtain ⟨rfl, hds⟩ := exists_of_spans_param endLine hname
    rw [readParamsFrom, hds]
    refine .reporting (gives_expectName.andThen fun _ => ?_)
    simp only [ht, ↓reduceIte]
    exact (ih hlater).map.after

theorem gives_readParams {last : Token} (hlast : last.word = .symbol .rightParen)
    {names : List Name} (h : Spans (separated (capped "parameters" 0 (Name.eachParts names))) ts
      (last :: rest) ds) : (readParams endLine ts).Gives names rest ds := by
  cases names with
  | nil =>
    obtain ⟨rfl, rfl⟩ := h.of_nil
    unfold readParams
    simp only [hlast, ↓reduceIte]
    exact gives_single
  | cons name names =>
    have hnames : (readParamsFrom endLine 0 ts).Gives (name :: names) rest ds :=
      gives_readParamsFrom hlast h
    obtain ⟨qs, hqs⟩ := exists_separated_cons [.name name]
      (capped "parameters" 1 (Name.eachParts names))
    obtain ⟨later, rfl, -⟩ : ∃ later, ts = name.token :: later ∧ _ := (hqs ▸ h).of_name
    exact hnames

theorem gives_readEnd {what : String} {s : Stmt Unit} (ht : t.word = .symbol .semicolon) :
    (readEnd endLine what s (t :: rest)).Gives s rest [] := (gives_expect ht).map

theorem gives_readOperand {what : String} {make : Expr Unit → Stmt Unit} {e : Expr Unit}
    (he : e.Grammatical fits) (h : Spans (e.parts ++ [symbol .semicolon]) ts rest ds) :
    (readOperand endLine what make ts).Gives (make e) rest ds := by
  obtain ⟨mid, d₁, d₂, he', hrest, rfl⟩ := h.of_append
  obtain ⟨t, rfl, ht, rfl⟩ := hrest.of_lastSymbol
  exact (Expr.gives_read he he' (by rw [strength, ht]; rfl)).andThen fun _ => gives_readEnd ht

/-- A condition is read up to its closing parenthesis. -/
theorem exists_of_spans_condition {word : Keyword} {what : String} {e : Expr Unit}
    {qs : List Part} (he : e.Grammatical fits)
    (h : Spans (symbol .leftParen :: (e.parts ++ symbol .rightParen :: qs)) ts rest ds) :
    ∃ mid d₁ d₂, (readCondition endLine word what ts).Gives e mid d₁ ∧ Spans qs mid rest d₂ ∧
      ds = d₁ ++ d₂ := by
  obtain ⟨t, later, rfl, ht, hlater⟩ := h.of_symbol
  obtain ⟨_, d₁, d₂, he', hrest, rfl⟩ := hlater.of_append
  obtain ⟨u, later, rfl, hu, hqs⟩ := hrest.of_symbol
  refine ⟨later, d₁, d₂, ?_, hqs, rfl⟩
  rw [← List.nil_append d₁, ← List.append_nil d₁]
  refine (gives_expect ht).andThen fun _ => ?_
  exact (Expr.gives_read he he' (by rw [strength, hu]; rfl)).andThen fun _ => (gives_expect hu).map

variable (endLine) in
theorem gives_readVar {name : Name} {initializer : Option (Expr Unit)}
    (he : Expr.OptionGrammatical fits initializer)
    (h : Spans (var name initializer).parts ts rest ds) :
    ∃ t later, ts = t :: later ∧ t.word = .keyword .varWord ∧
      (readVar endLine later).Gives (.var name initializer) rest ds := by
  cases initializer with
  | none =>
    obtain ⟨t, later, rfl, ht, hname⟩ := h.of_keyword
    obtain ⟨later, rfl, hend⟩ := hname.of_name
    obtain ⟨u, rfl, hu, rfl⟩ := hend.of_lastSymbol
    refine ⟨t, _, rfl, ht, gives_expectName.andThen fun _ => ?_⟩
    have hnot : u.word ≠ .symbol .equal := by simp [hu]
    simp only [hnot, ↓reduceIte]
    exact gives_readEnd hu
  | some e =>
    obtain ⟨t, later, rfl, ht, hname⟩ := h.of_keyword
    obtain ⟨later, rfl, hequal⟩ := hname.of_name
    obtain ⟨u, later, rfl, hu, hvalue⟩ := hequal.of_symbol
    refine ⟨t, _, rfl, ht, gives_expectName.andThen fun _ => ?_⟩
    simp only [hu, ↓reduceIte]
    exact .after (gives_readOperand he hvalue)

variable (endLine) in
theorem gives_readReturn {line : Int} {value : Option (Expr Unit)}
    (he : Expr.OptionGrammatical fits value) (h : Spans (returnValue line value).parts ts rest ds) :
    ∃ t later, ts = t :: later ∧ t.word = .keyword .returnWord ∧
      (readReturn endLine t.line later).Gives (.returnValue line value) rest ds := by
  cases value with
  | none =>
    obtain ⟨t, later, rfl, ht, rfl, hend⟩ := h.of_keywordAt
    obtain ⟨u, rfl, hu, rfl⟩ := hend.of_lastSymbol
    refine ⟨t, _, rfl, ht, ?_⟩
    unfold readReturn
    simp only [hu, ↓reduceIte]
    exact gives_single
  | some e =>
    obtain ⟨t, later, rfl, ht, rfl, hvalue⟩ := h.of_keywordAt
    refine ⟨t, _, rfl, ht, ?_⟩
    obtain ⟨_, _, _, hfirst, -, -⟩ := hvalue.of_append
    obtain ⟨u, later, rfl, hu⟩ := Expr.beginsExpr_of_spans hfirst
    have hnot : u.word ≠ .symbol .semicolon := by
      intro h
      rw [h] at hu
      cases hu
    unfold readReturn
    simp only [hnot, ↓reduceIte]
    exact gives_readOperand he hvalue

/-- The properties are read one after the other, so reading goes on behind those that are known. -/
theorem gives_readBuildTail {line : Int} {root : Name} {path names : List Name}
    {arguments : List (Expr Unit)} (he : Expr.AllGrammatical fits arguments)
    (h : Spans (names.flatMap (fun name => [symbol .dot, .name name]) ++
      (Part.optional (Expr.eachParts arguments) ++ [symbol .semicolon])) ts rest ds) :
    (readBuildTail endLine line root path ts).Gives
      (.marker line (.build root () (path ++ names) arguments)) rest ds := by
  induction names generalizing path ts with
  | nil =>
    rw [List.append_nil]
    cases arguments with
    | nil =>
      cases h with
      | noParens h =>
        obtain ⟨u, rfl, hu, rfl⟩ := Spans.of_lastSymbol h
        rw [readBuildTail, if_neg (by simp [hu]), if_neg (by simp [hu])]
        exact gives_readEnd hu
      | parens ht hlast h =>
        obtain ⟨u, rfl, hu, rfl⟩ := Spans.of_lastSymbol h
        rw [readBuildTail, if_neg (by simp [ht]), if_pos ht, Expr.readItems,
          if_pos (show _ = Word.symbol Closing.buildArguments.symbol from hlast)]
        exact .after (gives_single.andThen fun _ => gives_readEnd hu)
    | cons e es =>
      rw [List.flatMap_nil, List.nil_append, Expr.eachParts, Part.optional, List.cons_append,
        List.append_assoc] at h
      obtain ⟨t, later, rfl, ht, hlater⟩ := h.of_symbol
      obtain ⟨_, d₁, d₂, hes, hclose, rfl⟩ := hlater.of_append
      obtain ⟨last, later, rfl, hlast, hend⟩ := hclose.of_symbol
      obtain ⟨u, rfl, hu, rfl⟩ := hend.of_lastSymbol
      rw [readBuildTail, if_neg (by simp [ht]), if_pos ht]
      have hread : ∀ e' ∈ e :: es, Expr.ReadsBack endLine e' :=
        (Expr.readsBackBelow endLine fits _).of_mem (Nat.le_refl _) he
      have hitems : (Expr.readItems endLine .buildArguments _).Gives _ _ _ :=
        Expr.gives_readItems (Expr.closes_rightParen rfl hlast) hread hes
      exact .after (hitems.andThen fun _ => gives_readEnd hu)
  | cons name names ih =>
    obtain ⟨t, later, rfl, ht, hname⟩ := Spans.of_symbol h
    obtain ⟨later, rfl, hlater⟩ := hname.of_name
    rw [readBuildTail, if_pos ht, List.append_cons]
    exact .after (gives_expectName.andThen fun _ => ih hlater)

/-- A statement begins with a word about which nothing is reported. It does not close a block and
does not go on with a conditional, and only declarations begin like one. -/
theorem exists_parts {β : Type} (s : Stmt β) : ∃ w line ps, s.parts = .word w line none :: ps ∧
    w ≠ .symbol .rightBrace ∧ w ≠ .keyword .elseWord ∧ (s.declared? = none →
      w ≠ .keyword .classWord ∧ w ≠ .keyword .funWord ∧ w ≠ .keyword .varWord) := by
  cases s with
  | expression value =>
    obtain ⟨w, line, ps, hps, hw, -⟩ := value.exists_parts (fun _ => True)
    refine ⟨w, line, ps ++ [symbol .semicolon], by rw [parts, hps]; rfl, ?_⟩
    refine ⟨?_, ?_, fun _ => ⟨?_, ?_, ?_⟩⟩ <;>
      (rintro rfl; cases hw)
  | var name initializer =>
    cases initializer <;> exact ⟨_, _, _, rfl, by simp, by simp, by simp [declared?]⟩
  | branch condition yes no =>
    cases no <;> exact ⟨_, _, _, rfl, by simp, by simp, by simp⟩
  | returnValue line value =>
    cases value <;> exact ⟨_, _, _, rfl, by simp, by simp, by simp⟩
  | classDecl name superclass methods =>
    rcases superclass with _ | ⟨parent, _⟩ <;>
      exact ⟨_, _, _, rfl, by simp, by simp, by simp [declared?]⟩
  | function decl => exact ⟨_, _, _, rfl, by simp, by simp, by simp [declared?]⟩
  | marker line m =>
    cases m <;> exact ⟨_, _, _, rfl, by simp [Marker.keyword], by simp [Marker.keyword],
      by simp [Marker.keyword]⟩
  | _ => exact ⟨_, _, _, rfl, by simp, by simp, by simp⟩

/-- The same about the tokens of a statement. -/
theorem first_of_spans {s : Stmt Unit} (h : Spans s.parts ts rest ds) :
    ∃ t later, ts = t :: later ∧ t.word ≠ .symbol .rightBrace ∧ t.word ≠ .keyword .elseWord ∧
      (s.declared? = none → t.word ≠ .keyword .classWord ∧ t.word ≠ .keyword .funWord ∧
        t.word ≠ .keyword .varWord) := by
  obtain ⟨w, line, ps, hps, hbrace, helse, hdeclared⟩ := s.exists_parts
  obtain ⟨t, later, rfl, ht⟩ := h.first (by rw [hps]; rfl)
  refine ⟨t, later, rfl, Word.ne_symbol ht hbrace, Word.ne_keyword ht helse, fun hs => ?_⟩
  obtain ⟨hclass, hfun, hvar⟩ := hdeclared hs
  exact ⟨Word.ne_keyword ht hclass, Word.ne_keyword ht hfun, Word.ne_keyword ht hvar⟩

theorem noElse_of_spans {body : List (Stmt Unit)} (h : Spans (allParts body) ts rest ds)
    (hrest : NoElse rest) : NoElse ts := by
  cases body with
  | nil =>
    obtain ⟨rfl, -⟩ := h.of_nil
    exact hrest
  | cons s body =>
    obtain ⟨_, _, _, hs, -, -⟩ := Spans.of_append h
    obtain ⟨t, later, rfl, -, helse, -⟩ := first_of_spans hs
    rintro u _ heq
    cases heq
    exact helse

/-- The statement is written at the front of the tokens `ts`, and the tokens `rest` after it do not
begin with an `else` that it would take. -/
structure Written (fits : Nat → Prop) (s : Stmt Unit) (ts rest : List Token)
    (ds : List Diagnostic) : Prop where
  grammatical : s.Grammatical fits
  spans : Spans s.parts ts rest ds
  noElse : s.isOpen = true → NoElse rest

/-- Statements with a size below `n` are read where they are written. -/
def ReadsBackBelow (endLine : Int) (fits : Nat → Prop) (n : Nat) : Prop :=
  ∀ s : Stmt Unit, sizeOf s < n → ∀ ts rest ds, s.Written fits ts rest ds →
    (readDeclaration endLine ts).Gives s rest ds ∧
      (s.declared? = none → (read endLine ts).Gives s rest ds)

theorem gives_recover {limit : Nat} {r : Reading limit (Stmt Unit)} {positive : 0 < limit}
    {s : Stmt Unit} {body : List (Stmt Unit)} {mid : List Token} {ds' : List Diagnostic}
    (hs : r.Gives s mid ds) (hbody : (readBlock endLine mid).Gives body rest ds') :
    ((((readBlock endLine (r.recover positive).rest).weaken
      (Nat.le_of_lt (r.recover positive).shorter)).map
        ((r.recover positive).result.toList ++ ·)).reporting (r.recover positive).reports).Gives
      (s :: body) rest (ds ++ ds') := by
  obtain ⟨_, rfl⟩ := hs
  exact hbody.weaken.map.reporting

theorem gives_readBlock (hn : ReadsBackBelow endLine fits n) {last : Token}
    (hlast : last.word = .symbol .rightBrace) {body : List (Stmt Unit)} (hsize : sizeOf body ≤ n)
    (hbody : AllGrammatical fits body) (h : Spans (allParts body) ts (last :: rest) ds) :
    (readBlock endLine ts).Gives body rest ds := by
  induction body generalizing ts ds with
  | nil =>
    obtain ⟨rfl, rfl⟩ := h.of_nil
    rw [readBlock, if_pos hlast]
    exact gives_single
  | cons s body ih =>
    simp only [List.cons.sizeOf_spec] at hsize
    obtain ⟨mid, d₁, d₂, hs, hlater, rfl⟩ := Spans.of_append h
    obtain ⟨t, later, rfl, hbrace, -⟩ := first_of_spans hs
    have hnoElse : NoElse mid := by
      refine noElse_of_spans hlater fun t later heq => ?_
      cases heq
      simp [hlast]
    rw [readBlock, if_neg hbrace]
    exact gives_recover (hn s (by omega) _ _ _ ⟨hbody.1, hs, fun _ => hnoElse⟩).1
      (ih (by omega) hbody.2 hlater)

theorem gives_readFunction (hn : ReadsBackBelow endLine fits n) {what : String} {f : Function Unit}
    (hsize : sizeOf f ≤ n) (hf : f.Grammatical fits) (h : Spans f.parts ts rest ds) :
    (readFunction endLine what ts).Gives f rest ds := by
  obtain ⟨name, params, body⟩ := f
  simp only [Function.mk.sizeOf_spec] at hsize
  obtain ⟨later, rfl, hname⟩ := Spans.of_name h
  obtain ⟨opening, later, rfl, hopening, hlater⟩ := hname.of_symbol
  obtain ⟨_, d₁, d₂, hparams, hclose, rfl⟩ := hlater.of_append
  obtain ⟨closing, later, rfl, hclosing, hopen⟩ := hclose.of_symbol
  obtain ⟨brace, later, rfl, hbrace, hblock⟩ := hopen.of_symbol
  obtain ⟨_, d₃, d₄, hbody, hend, rfl⟩ := hblock.of_append
  obtain ⟨last, rfl, hlast, rfl⟩ := hend.of_lastSymbol
  rw [readFunction, List.append_nil]
  refine gives_expectName.andThen fun _ => (gives_expect hopening).andThen fun _ => ?_
  refine (gives_readParams hclosing hparams).andThen fun _ =>
    (gives_expect hbrace).andThen fun _ => ?_
  exact (gives_readBlock hn hlast (by omega) hf.2 hbody).map

theorem gives_readMethods (hn : ReadsBackBelow endLine fits n) {last : Token}
    (hlast : last.word = .symbol .rightBrace) {methods : List (Function Unit)}
    (hsize : sizeOf methods ≤ n) (hmethods : Function.AllGrammatical fits methods)
    (h : Spans (Function.allParts methods) ts (last :: rest) ds) :
    (readMethods endLine ts).Gives methods rest ds := by
  induction methods generalizing ts ds with
  | nil =>
    obtain ⟨rfl, rfl⟩ := h.of_nil
    rw [readMethods, if_pos hlast]
    exact gives_single
  | cons f methods ih =>
    simp only [List.cons.sizeOf_spec] at hsize
    obtain ⟨mid, d₁, d₂, hf, hlater, rfl⟩ := Spans.of_append h
    have hmethod : (readFunction endLine "method" ts).Gives f mid d₁ :=
      gives_readFunction hn (by omega) hmethods.1 hf
    obtain ⟨name, params, body⟩ := f
    obtain ⟨later, rfl, -⟩ := Spans.of_name hf
    have hbrace : name.token.word ≠ .symbol .rightBrace := by simp [Name.token, Token.ofName]
    rw [readMethods, if_neg hbrace]
    exact hmethod.andThen fun _ => (ih (by omega) hmethods.2 hlater).map

theorem gives_readClassBody (hn : ReadsBackBelow endLine fits n) {name : Name}
    {superclass : Option (Name × Unit)} {methods : List (Function Unit)}
    (hsize : sizeOf methods ≤ n) (hmethods : Function.AllGrammatical fits methods)
    (h : Spans (symbol .leftBrace :: (Function.allParts methods ++ [symbol .rightBrace]))
      ts rest ds) :
    (readClassBody endLine name superclass ts).Gives (.classDecl name superclass methods)
      rest ds := by
  obtain ⟨brace, later, rfl, hbrace, hlater⟩ := h.of_symbol
  obtain ⟨_, d₁, d₂, hspans, hrest, rfl⟩ := hlater.of_append
  obtain ⟨last, rfl, hlast, rfl⟩ := hrest.of_lastSymbol
  rw [readClassBody, List.append_nil]
  exact (gives_expect hbrace).andThen fun _ =>
    (gives_readMethods hn hlast hsize hmethods hspans).map

theorem gives_readClass (hn : ReadsBackBelow endLine fits n) {name : Name}
    {superclass : Option (Name × Unit)} {methods : List (Function Unit)}
    (hsize : sizeOf methods ≤ n) (hmethods : Function.AllGrammatical fits methods)
    (h : Spans (classDecl name superclass methods).parts ts rest ds) :
    ∃ t later, ts = t :: later ∧ t.word = .keyword .classWord ∧
      (readClass endLine later).Gives (.classDecl name superclass methods) rest ds := by
  rcases superclass with _ | ⟨parent, mark⟩
  · obtain ⟨t, later, rfl, ht, hname⟩ := h.of_keyword
    obtain ⟨later, rfl, hbody⟩ := hname.of_name
    have hclass : (readClassBody endLine name none later).Gives _ _ _ :=
      gives_readClassBody hn hsize hmethods hbody
    obtain ⟨brace, later, rfl, hbrace, -⟩ := hbody.of_symbol
    refine ⟨t, _, rfl, ht, ?_⟩
    rw [readClass]
    refine gives_expectName.andThen fun _ => ?_
    have hnot : brace.word ≠ .symbol .less := by simp [hbrace]
    simp only [hnot, ↓reduceIte]
    exact hclass
  · obtain ⟨t, later, rfl, ht, hname⟩ := h.of_keyword
    obtain ⟨later, rfl, hheader⟩ := hname.of_name
    obtain ⟨less, later, rfl, hless, hparent⟩ := hheader.of_symbol
    obtain ⟨later, rfl, hbody⟩ := hparent.of_name
    refine ⟨t, _, rfl, ht, ?_⟩
    rw [readClass]
    refine gives_expectName.andThen fun _ => ?_
    simp only [hless, ↓reduceIte]
    exact .after (gives_expectName.andThen fun _ => gives_readClassBody hn hsize hmethods hbody)

theorem gives_readBranch (hn : ReadsBackBelow endLine fits n) {condition : Expr Unit}
    {yes : Stmt Unit} {no : Option (Stmt Unit)} (hsize : sizeOf yes + sizeOf no < n)
    (h : (branch condition yes no).Written fits ts rest ds) :
    ∃ t later, ts = t :: later ∧ t.word = .keyword .ifWord ∧
      (readBranch endLine later).Gives (.branch condition yes no) rest ds := by
  obtain ⟨hs, hspans, hnoElse⟩ := h
  cases no with
  | none =>
    obtain ⟨t, later, rfl, ht, hlater⟩ := hspans.of_keyword
    obtain ⟨mid, d₁, d₂, hcondition, hyes, rfl⟩ := exists_of_spans_condition hs.1 hlater
    have hnoElse := hnoElse rfl
    have hread := (hn yes (by omega) _ _ _ ⟨hs.2.1, hyes, fun _ => hnoElse⟩).2 hs.2.2
    refine ⟨t, later, rfl, ht, ?_⟩
    rw [readBranch, ← List.append_nil d₂]
    refine hcondition.andThen fun _ => hread.andTail fun _ => ?_
    cases rest with
    | nil => exact gives_pure
    | cons u after =>
      simp only [hnoElse u after rfl, ↓reduceIte]
      exact gives_pure
  | some no =>
    simp only [Option.some.sizeOf_spec] at hsize
    obtain ⟨hcond, hyesG, hyesPlain, hclosed, hnoG, hnoPlain⟩ := hs
    obtain ⟨t, later, rfl, ht, hlater⟩ := hspans.of_keyword
    obtain ⟨mid, d₁, _, hcondition, hbranches, rfl⟩ := exists_of_spans_condition hcond hlater
    obtain ⟨_, d₂, d₃, hyes, helse, rfl⟩ := hbranches.of_append
    obtain ⟨u, after, rfl, hu, hno⟩ := helse.of_keyword
    have hreadYes := (hn yes (by omega) _ _ _ ⟨hyesG, hyes, by simp [hclosed]⟩).2 hyesPlain
    have hreadNo := (hn no (by omega) _ _ _ ⟨hnoG, hno, hnoElse⟩).2 hnoPlain
    refine ⟨t, later, rfl, ht, ?_⟩
    rw [readBranch]
    refine hcondition.andThen fun _ => hreadYes.andTail fun _ => ?_
    simp only [hu, ↓reduceIte]
    exact hreadNo.map.afterTail

theorem gives_readWhile (hn : ReadsBackBelow endLine fits n) {condition : Expr Unit}
    {body : Stmt Unit} (hsize : sizeOf body < n)
    (h : (whileLoop condition body).Written fits ts rest ds) :
    ∃ t later, ts = t :: later ∧ t.word = .keyword .whileWord ∧
      (readWhile endLine later).Gives (.whileLoop condition body) rest ds := by
  obtain ⟨hs, hspans, hnoElse⟩ := h
  obtain ⟨t, later, rfl, ht, hlater⟩ := hspans.of_keyword
  obtain ⟨mid, d₁, d₂, hcondition, hbody, rfl⟩ := exists_of_spans_condition hs.1 hlater
  have hread := (hn body hsize _ _ _ ⟨hs.2.1, hbody, hnoElse⟩).2 hs.2.2
  refine ⟨t, later, rfl, ht, ?_⟩
  rw [readWhile]
  exact hcondition.andThen fun _ => hread.map

theorem gives_readDoWhile (hn : ReadsBackBelow endLine fits n) {condition : Expr Unit}
    {body : Stmt Unit} (hsize : sizeOf body < n)
    (h : (doWhile body condition).Written fits ts rest ds) :
    ∃ t later, ts = t :: later ∧ t.word = .keyword .doWord ∧
      (readDoWhile endLine later).Gives (.doWhile body condition) rest ds := by
  obtain ⟨hs, hspans, -⟩ := h
  obtain ⟨t, later, rfl, ht, hlater⟩ := hspans.of_keyword
  obtain ⟨_, d₁, d₂, hbody, hwhile, rfl⟩ := hlater.of_append
  obtain ⟨u, after, rfl, hu, hcond⟩ := hwhile.of_keyword
  obtain ⟨mid, d₃, d₄, hcondition, hend, rfl⟩ := exists_of_spans_condition hs.2.2 hcond
  obtain ⟨v, rfl, hv, rfl⟩ := hend.of_lastSymbol
  have hnoElse : NoElse (u :: after) := by
    rintro _ _ ⟨⟩
    simp [hu]
  have hread := (hn body hsize _ _ _ ⟨hs.1, hbody, fun _ => hnoElse⟩).2 hs.2.1
  refine ⟨t, later, rfl, ht, ?_⟩
  rw [readDoWhile]
  refine hread.andThen fun _ => (gives_expect hu).andThen fun _ => ?_
  exact hcondition.andThen fun _ => gives_readEnd hv

theorem gives_read_marker {line : Int} {m : Marker Unit} (hm : m.Grammatical fits)
    (h : Spans (marker line m).parts ts rest ds) :
    (read endLine ts).Gives (.marker line m) rest ds := by
  obtain ⟨t, later, rfl, ht, rfl, hlater⟩ := h.of_keywordAt
  rw [read.eq_def]
  cases m with
  | set name value =>
    simp only [ht, Marker.keyword]
    obtain ⟨later, rfl, hname⟩ := Spans.of_name hlater
    obtain ⟨equal, later, rfl, hequal, hvalue⟩ := Spans.of_symbol hname
    refine .after (gives_expectName.andThen fun _ => (gives_expect hequal).andThen fun _ => ?_)
    exact gives_readOperand hm hvalue
  | build root mark path arguments =>
    simp only [ht, Marker.keyword]
    obtain ⟨later, rfl, hpath⟩ := Spans.of_name hlater
    refine .after (gives_expectName.andThen fun _ => ?_)
    have hread : (readBuildTail endLine t.line root [] later).Gives
        (.marker t.line (.build root () ([] ++ path) arguments)) rest ds :=
      gives_readBuildTail hm (by simpa using hpath)
    exact hread
  | walk operand =>
    simp only [ht, Marker.keyword]
    exact .after (gives_readOperand hm hlater)
  | check operand =>
    simp only [ht, Marker.keyword]
    exact .after (gives_readOperand hm hlater)
  | thru operand =>
    simp only [ht, Marker.keyword]
    exact .after (gives_readOperand hm hlater)
  | otherwise =>
    simp only [ht, Marker.keyword]
    obtain ⟨u, rfl, hu, rfl⟩ := Spans.of_lastSymbol hlater
    exact .after (gives_readEnd hu)

theorem gives_read_expression {value : Expr Unit} (hs : (expression value).Grammatical fits)
    (h : Spans (expression value).parts ts rest ds) :
    (read endLine ts).Gives (.expression value) rest ds := by
  obtain ⟨hvalue, hbrace⟩ := hs
  have hoperand : (readOperand endLine "expression" .expression ts).Gives _ _ _ :=
    gives_readOperand hvalue h
  obtain ⟨w, line, ps, hps, hw, -⟩ := value.exists_parts fits
  obtain ⟨t, later, rfl, ht⟩ := h.first (w := w) (by rw [parts, hps]; rfl)
  have hnot {v : Word} (hv : v.beginsExpr = false) : t.word ≠ v := by
    rintro rfl
    rw [← w.beginsExpr_plain, ← ht, t.word.beginsExpr_plain, hv] at hw
    cases hw
  have hnotBrace : t.word ≠ .symbol .leftBrace := by
    refine Word.ne_symbol ht fun hw => hbrace ?_
    rw [hps, hw]
    rfl
  rw [read.eq_def]
  dsimp only
  split
  any_goals exact absurd ‹_› (hnot rfl)
  · exact absurd ‹_› hnotBrace
  · exact hoperand

theorem gives_read_of_le (hn : ReadsBackBelow endLine fits n) {s : Stmt Unit} (hsize : sizeOf s ≤ n)
    (hs : s.declared? = none) (h : s.Written fits ts rest ds) :
    (read endLine ts).Gives s rest ds := by
  cases s with
  | expression value => exact gives_read_expression h.grammatical h.spans
  | print value =>
    obtain ⟨t, later, rfl, ht, hlater⟩ := h.spans.of_keyword
    rw [read.eq_def]
    simp only [ht]
    exact .after (gives_readOperand h.grammatical hlater)
  | block body =>
    simp only [block.sizeOf_spec] at hsize
    obtain ⟨t, later, rfl, ht, hlater⟩ := h.spans.of_symbol
    obtain ⟨_, d₁, d₂, hbody, hend, rfl⟩ := hlater.of_append
    obtain ⟨last, rfl, hlast, rfl⟩ := hend.of_lastSymbol
    rw [read.eq_def, List.append_nil]
    simp only [ht]
    exact .after (gives_readBlock hn hlast (by omega) h.grammatical hbody).map
  | branch condition yes no =>
    simp only [branch.sizeOf_spec] at hsize
    obtain ⟨t, later, rfl, ht, hread⟩ := gives_readBranch hn (by omega) h
    rw [read.eq_def]
    simp only [ht]
    exact hread.after
  | whileLoop condition body =>
    simp only [whileLoop.sizeOf_spec] at hsize
    obtain ⟨t, later, rfl, ht, hread⟩ := gives_readWhile hn (by omega) h
    rw [read.eq_def]
    simp only [ht]
    exact hread.after
  | doWhile body condition =>
    simp only [doWhile.sizeOf_spec] at hsize
    obtain ⟨t, later, rfl, ht, hread⟩ := gives_readDoWhile hn (by omega) h
    rw [read.eq_def]
    simp only [ht]
    exact hread.after
  | breakLoop line =>
    obtain ⟨t, later, rfl, ht, rfl, hlater⟩ := h.spans.of_keywordAt
    obtain ⟨u, rfl, hu, rfl⟩ := hlater.of_lastSymbol
    rw [read.eq_def]
    simp only [ht]
    exact .after (gives_readEnd hu)
  | continueLoop line =>
    obtain ⟨t, later, rfl, ht, rfl, hlater⟩ := h.spans.of_keywordAt
    obtain ⟨u, rfl, hu, rfl⟩ := hlater.of_lastSymbol
    rw [read.eq_def]
    simp only [ht]
    exact .after (gives_readEnd hu)
  | returnValue line value =>
    obtain ⟨t, later, rfl, ht, hread⟩ := gives_readReturn endLine h.grammatical h.spans
    rw [read.eq_def]
    simp only [ht]
    exact hread.after
  | marker line m => exact gives_read_marker h.grammatical h.spans
  | var | function | classDecl => cases hs

theorem gives_readDeclaration_of_le (hn : ReadsBackBelow endLine fits n) {s : Stmt Unit}
    (hsize : sizeOf s ≤ n) (h : s.Written fits ts rest ds) :
    (readDeclaration endLine ts).Gives s rest ds := by
  have hplain (hs : s.declared? = none) : (readDeclaration endLine ts).Gives s rest ds := by
    have hread : (read endLine ts).Gives s rest ds := gives_read_of_le hn hsize hs h
    obtain ⟨t, later, rfl, -, -, hwords⟩ := first_of_spans h.spans
    obtain ⟨hclass, hfun, hvar⟩ := hwords hs
    rw [readDeclaration.eq_def]
    dsimp only
    split
    · exact absurd ‹_› hclass
    · exact absurd ‹_› hfun
    · exact absurd ‹_› hvar
    · exact hread
  cases s with
  | var name initializer =>
    obtain ⟨t, later, rfl, ht, hread⟩ := gives_readVar endLine h.grammatical h.spans
    rw [readDeclaration.eq_def]
    simp only [ht]
    exact hread.after
  | function decl =>
    simp only [function.sizeOf_spec] at hsize
    obtain ⟨t, later, rfl, ht, hlater⟩ := h.spans.of_keyword
    rw [readDeclaration.eq_def]
    simp only [ht]
    exact .after (gives_readFunction hn (by omega) h.grammatical hlater).map
  | classDecl name superclass methods =>
    simp only [classDecl.sizeOf_spec] at hsize
    obtain ⟨t, later, rfl, ht, hread⟩ := gives_readClass hn (by omega) h.grammatical h.spans
    rw [readDeclaration.eq_def]
    simp only [ht]
    exact hread.after
  | _ => exact hplain rfl

theorem readsBackBelow (endLine : Int) (fits : Nat → Prop) (n : Nat) :
    ReadsBackBelow endLine fits n := by
  induction n with
  | zero => exact fun s h => absurd h (Nat.not_lt_zero _)
  | succ n hn =>
    intro s hsize ts rest ds h
    exact ⟨gives_readDeclaration_of_le hn (Nat.le_of_lt_succ hsize) h,
      fun hs => gives_read_of_le hn (Nat.le_of_lt_succ hsize) hs h⟩

end Stmt

/-! ### Programs -/

namespace Source

/-- A program that is written in front of other tokens is read, and then those tokens are. -/
theorem ofTokens_of_spans {fits : Nat → Prop} {program : Program Unit} (endLine : Int)
    (hprogram : program.Grammatical fits) {ts more : List Token} {ds : List Diagnostic}
    (h : Spans program.parts ts more ds) (hmore : NoElse more) :
    ofTokens endLine ts = ⟨program ++ (ofTokens endLine more).program,
      ds ++ (ofTokens endLine more).diagnostics⟩ := by
  induction program generalizing ts ds with
  | nil =>
    obtain ⟨rfl, rfl⟩ := h.of_nil
    rfl
  | cons s program ih =>
    obtain ⟨mid, d₁, d₂, hs, hlater, rfl⟩ := Spans.of_append h
    have hnoElse : NoElse mid := Stmt.noElse_of_spans hlater hmore
    obtain ⟨hread, -⟩ := Stmt.readsBackBelow endLine fits _ s (Nat.lt_succ_self _) _ _ _
      ⟨hprogram.1, hs, fun _ => hnoElse⟩
    obtain ⟨t, later, rfl, -⟩ := Stmt.first_of_spans hs
    obtain ⟨_, hread⟩ := hread
    rw [ofTokens, hread]
    simp only [recover, ih hprogram.2 hlater, List.append_assoc]
    rfl

theorem ofTokens_of_spells {fits : Nat → Prop} {program : Program Unit} (endLine : Int)
    (hprogram : program.Grammatical fits) {ts : List Token} {ds : List Diagnostic}
    (h : program.Spells ts ds) : ofTokens endLine ts = ⟨program, ds⟩ := by
  rw [ofTokens_of_spans endLine hprogram h noElse_nil, ofTokens]
  simp only [List.append_nil]

end Source

end LoxLang
