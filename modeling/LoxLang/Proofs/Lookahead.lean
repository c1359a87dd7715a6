import LoxLang.Proofs.Lines
import LoxLang.Proofs.ReadBack

/-!
# What readings do not look at

What a reading leaves is an end of the tokens that it was given, everything that it reports is a
complaint at such an end, and if it got stuck then its last report is a complaint at just the place
where it did. A reading does not look at lines, other than to note them: with all lines moved it is
the same reading again, on the moved lines. If it leaves anything at all, it has not seen where the
tokens end either: with other tokens after them, and with another last line, it is still the same
reading, and leaves those other tokens in addition (`Reading.Persists`).

Every reader has this property (`Stmt.persists_readDeclaration`). It holds of blocks too, in which
reading is resumed after it got stuck, since `resume` does not go beyond the token that it stops at.
All in all, a program on other lines is read on other lines (`Source.ofTokens_mapLine`).
-/

namespace LoxLang

/-! ### Reading again -/

/-- How tokens are read again: on the lines that `move` makes of theirs, and with `more` tokens
after them. The text ends on line `endLine` at first, and on line `newEnd` then. -/
structure Rereading where
  endLine : Int
  move : Int → Int
  more : List Token
  newEnd : Int

namespace Rereading

/-- Only the lines are moved. -/
def moving (endLine : Int) (move : Int → Int) : Rereading := ⟨endLine, move, [], move endLine⟩

/-- Tokens follow. -/
def extending (endLine : Int) (more : List Token) (newEnd : Int) : Rereading :=
  ⟨endLine, id, more, newEnd⟩

variable (c : Rereading)

/-- The tokens that are read again. -/
def tokens (ts : List Token) : List Token := ts.map (Token.mapLine c.move) ++ c.more

theorem tokens_cons (t : Token) (ts : List Token) :
    c.tokens (t :: ts) = t.mapLine c.move :: c.tokens ts := rfl

theorem tokens_moving (endLine : Int) (move : Int → Int) (ts : List Token) :
    (moving endLine move).tokens ts = ts.map (Token.mapLine move) := List.append_nil _

theorem tokens_extending (endLine : Int) (more : List Token) (newEnd : Int) (ts : List Token) :
    (extending endLine more newEnd).tokens ts = ts ++ more :=
  congrArg (· ++ more) (List.map_id ts)

/-- Nothing but lines is changed, at the end of the tokens too. -/
def MovesOnly : Prop := ∃ endLine move, c = moving endLine move

end Rereading

theorem resume_suffix (ts : List Token) : resume ts <:+ ts.tail := by
  fun_induction resume ts with
  | case1 => exact List.suffix_rfl
  | case2 => exact List.suffix_rfl
  | case3 => exact List.suffix_rfl
  | case4 => exact List.suffix_rfl
  | case5 t next rest _ _ ih => exact ih.trans (List.suffix_cons _ _)

theorem resume_tokens (c : Rereading) {ts : List Token} (h : resume ts = [] → c.MovesOnly) :
    resume (c.tokens ts) = c.tokens (resume ts) := by
  fun_induction resume ts with
  | case1 =>
    obtain ⟨_, _, rfl⟩ := h rfl
    rfl
  | case2 t rest hsemi => exact if_pos hsemi
  | case3 t hsemi =>
    obtain ⟨_, _, rfl⟩ := h rfl
    exact if_neg hsemi
  | case4 t hsemi next rest hnext => exact (if_neg hsemi).trans (if_pos hnext)
  | case5 t hsemi next rest hnext ih => exact (if_neg hsemi).trans ((if_neg hnext).trans (ih h))

/-! ### Phrases -/

namespace Reading

section

variable {limit : Nat} {α β : Type}

/-- What is read, unless reading got stuck. -/
def result? : Reading limit α → Option α
  | .done result _ _ _ => some result
  | .stuck _ _ _ => none

/-- The tokens that are left. -/
def rest : Reading limit α → List Token
  | .done _ rest _ _ => rest
  | .stuck rest _ _ => rest

/-- What is reported. -/
def reports : Reading limit α → List Diagnostic
  | .done _ _ _ reports => reports
  | .stuck _ _ reports => reports

variable {r : Reading limit α} {larger : Nat} {h : limit ≤ larger} {f : α → β}
  {earlier : List Diagnostic}

@[simp] theorem result?_weaken : (r.weaken h).result? = r.result? := by cases r <;> rfl

@[simp] theorem rest_weaken : (r.weaken h).rest = r.rest := by cases r <;> rfl

@[simp] theorem reports_weaken : (r.weaken h).reports = r.reports := by cases r <;> rfl

@[simp] theorem result?_map : (r.map f).result? = r.result?.map f := by cases r <;> rfl

@[simp] theorem rest_map : (r.map f).rest = r.rest := by cases r <;> rfl

@[simp] theorem reports_map : (r.map f).reports = r.reports := by cases r <;> rfl

@[simp] theorem result?_reporting : (r.reporting earlier).result? = r.result? := by cases r <;> rfl

@[simp] theorem rest_reporting : (r.reporting earlier).rest = r.rest := by cases r <;> rfl

@[simp] theorem reports_reporting : (r.reporting earlier).reports = earlier ++ r.reports := by
  cases r <;> rfl

theorem exists_done {a : α} {rest : List Token} {ds : List Diagnostic}
    (hresult : r.result? = some a)
    (hrest : r.rest = rest) (hreports : r.reports = ds) :
    ∃ shorter, r = .done a rest shorter ds := by
  cases r with
  | stuck => cases hresult
  | done a' rest' shorter ds' =>
    cases hresult
    cases hrest
    cases hreports
    exact ⟨shorter, rfl⟩

theorem exists_stuck {rest : List Token} {ds : List Diagnostic} (hresult : r.result? = none)
    (hrest : r.rest = rest) (hreports : r.reports = ds) :
    ∃ notLonger, r = .stuck rest notLonger ds := by
  cases r with
  | done => cases hresult
  | stuck rest' notLonger ds' =>
    cases hrest
    cases hreports
    exact ⟨notLonger, rfl⟩

variable {target : Expr Unit} {equals : Token} {e : Reading limit (Expr Unit)}

theorem result?_assigning : (e.assigning target equals).result? =
    e.result?.map fun value => (target.assignment? value).getD target := by
  cases e with
  | stuck => rfl
  | done value rest h ds =>
    unfold assigning
    dsimp only [result?, Option.map_some]
    cases target.assignment? value <;> rfl

@[simp] theorem rest_assigning : (e.assigning target equals).rest = e.rest := by
  cases e with
  | stuck => rfl
  | done value rest h ds =>
    unfold assigning
    dsimp only
    cases target.assignment? value <;> rfl

theorem reports_assigning : (e.assigning target equals).reports =
    e.reports ++ if e.result?.all fun value => (target.assignment? value).isSome then []
      else [Diagnostic.atToken equals .invalidAssignmentTarget] := by
  cases e with
  | stuck => simp [assigning, reports, result?]
  | done value rest h ds =>
    unfold assigning
    dsimp only
    cases hvalue : target.assignment? value <;> simp [reports, result?, hvalue]

end

variable {limit limit' : Nat} {α β : Type} {ts : List Token} {c : Rereading}
  {ds ds' : List Diagnostic}

theorem andThen_eq_andTail {r : Reading limit α}
    {next : α → (rest : List Token) → rest.length < limit → Reading rest.length β} :
    r.andThen next = r.andTail fun a rest h => (next a rest h).weaken (Nat.le_succ _) := by
  cases r with
  | stuck => rfl
  | done a rest h ds =>
    unfold andThen andTail
    dsimp only
    cases next a rest h <;> rfl

/-- Nothing is left of no tokens. -/
theorem rest_eq_nil {r : Reading ts.length α} (h : ts = []) : r.rest = [] := by
  subst h
  cases r with
  | done _ rest hlen _ => exact absurd hlen (Nat.not_lt_zero _)
  | stuck rest hlen _ => exact List.eq_nil_of_length_eq_zero (Nat.le_zero.1 hlen)

theorem complaint_tokens {error : StaticError} (h : ts = [] → c.MovesOnly) :
    complaint c.newEnd (c.tokens ts) error = (complaint c.endLine ts error).mapLine c.move := by
  cases ts with
  | nil =>
    obtain ⟨_, _, rfl⟩ := h rfl
    rfl
  | cons t ts => rfl

/-- The diagnostics are complaints at the front of the tokens or further on. -/
def Complains (endLine : Int) (ts : List Token) (ds : List Diagnostic) : Prop :=
  ∀ d ∈ ds, ∃ us error, us <:+ ts ∧ d = complaint endLine us error

namespace Complains

variable {endLine : Int}

theorem nil : Complains endLine ts [] := by simp [Complains]

theorem single {us : List Token} {error : StaticError} (h : us <:+ ts) :
    Complains endLine ts [complaint endLine us error] := by
  rintro d hd
  exact ⟨us, error, h, List.mem_singleton.1 hd⟩

theorem append (h : Complains endLine ts ds) (h' : Complains endLine ts ds') :
    Complains endLine ts (ds ++ ds') := fun d hd => (List.mem_append.1 hd).elim (h d) (h' d)

theorem mono {longer : List Token} (h : Complains endLine ts ds) (hts : ts <:+ longer) :
    Complains endLine longer ds := by
  intro d hd
  obtain ⟨us, error, hus, rfl⟩ := h d hd
  exact ⟨us, error, hus.trans hts, rfl⟩

end Complains

/-- The reading `r'` is `r` made again, where `move` is what becomes of a result. -/
structure Repeats (c : Rereading) (move : α → α) (r : Reading limit α) (r' : Reading limit' α) :
    Prop where
  result : r'.result? = r.result?.map move
  rest : r'.rest = c.tokens r.rest
  reports : r'.reports = r.reports.map (Diagnostic.mapLine c.move)

/-- The reading `r` of the tokens `ts` is made again, as `r'`. If nothing is left, this holds only
if nothing follows the second time either. A reading that follows another one is only made if that
one left few enough tokens, so `r'` may depend on this. -/
structure Persists {p : Prop} (c : Rereading) (move : α → α) (ts : List Token) (r : Reading limit α)
    (r' : p → Reading limit' α) : Prop where
  suffix : r.rest <:+ ts
  blames : r.result? = none → ∃ error, r.reports.getLast? = some (complaint c.endLine r.rest error)
  complains : Complains c.endLine ts r.reports
  continues : ∀ h, (r.rest = [] → c.MovesOnly) → Repeats c move r (r' h)

namespace Persists

variable {p : Prop} {g : α → α} {g₂ : β → β} {r : Reading limit α} {r' : p → Reading limit' α}

theorem pure {a a' : α} (ha : g a = a') :
    Persists c g ts (Reading.pure a ts) fun _ : p => Reading.pure a' (c.tokens ts) :=
  ⟨List.suffix_rfl, by simp [Reading.pure, result?], .nil,
    fun _ _ => ⟨congrArg some ha.symm, rfl, rfl⟩⟩

theorem single {t u : Token} {a a' : α} (ha : g a = a') :
    Persists c g (t :: ts) (Reading.single a ts : Reading (t :: ts).length α)
      fun _ : p => (Reading.single a' (c.tokens ts) : Reading (u :: c.tokens ts).length α) :=
  ⟨List.suffix_cons _ _, by simp [Reading.single, result?], .nil,
    fun _ _ => ⟨congrArg some ha.symm, rfl, rfl⟩⟩

theorem fail {error : StaticError} : Persists c g ts (Reading.fail c.endLine ts error)
    fun _ : p => Reading.fail c.newEnd (c.tokens ts) error :=
  ⟨List.suffix_rfl, fun _ => ⟨error, rfl⟩, .single List.suffix_rfl,
    fun _ h => ⟨rfl, rfl, congrArg (fun d => [d]) (complaint_tokens h)⟩⟩

/-- If nothing is left, the other reading matters only if nothing but lines is changed. -/
theorem of_rest_nil {s' : p → Reading limit' α} (hr : Persists c g ts r r') (h : r.rest = [])
    (hs : c.MovesOnly → s' = r') : Persists c g ts r s' := by
  refine ⟨hr.suffix, hr.blames, hr.complains, fun hp hrest => ?_⟩
  rw [hs (hrest h)]
  exact hr.continues hp hrest

theorem of_nil {s' : p → Reading limit' α} (hr : Persists c g [] r r')
    (hs : c.MovesOnly → s' = r') : Persists c g [] r s' :=
  hr.of_rest_nil (List.suffix_nil.1 hr.suffix) hs

/-- Readers that agree where there are no tokens. -/
theorem of_reader_nil {size : List Token → Nat} {R S : (us : List Token) → Reading (size us) α}
    (hr : Persists c g [] r fun _ : p => R (c.tokens [])) (h : S [] = R []) :
    Persists c g [] r fun _ : p => S (c.tokens []) := by
  refine hr.of_nil ?_
  rintro ⟨_, _, rfl⟩
  exact funext fun _ => h

theorem fail_nil {error : StaticError} {R : (us : List Token) → Reading us.length α}
    (h : R [] = Reading.fail c.newEnd [] error) :
    Persists c g [] (Reading.fail c.endLine [] error) fun _ : p => R (c.tokens []) :=
  of_reader_nil (R := fun us => Reading.fail c.newEnd us error) .fail h

theorem pure_nil {a a' : α} {R : (us : List Token) → Reading (us.length + 1) α} (ha : g a = a')
    (h : R [] = Reading.pure a' []) :
    Persists c g [] (Reading.pure a []) fun _ : p => R (c.tokens []) :=
  of_reader_nil (R := Reading.pure a') (.pure ha) h

theorem mono {longer : List Token} (hr : Persists c g ts r r') (h : ts <:+ longer) :
    Persists c g longer r r' :=
  ⟨hr.suffix.trans h, hr.blames, hr.complains.mono h, hr.continues⟩

theorem weaken {larger larger' : Nat} {h : limit ≤ larger} {k : limit' ≤ larger'}
    (hr : Persists c g ts r r') : Persists c g ts (r.weaken h) fun hp => (r' hp).weaken k := by
  refine ⟨by simpa using hr.suffix, by simpa using hr.blames, by simpa using hr.complains,
    fun hp h => ?_⟩
  obtain ⟨hresult, hrest, hreports⟩ := hr.continues hp (by simpa using h)
  exact ⟨by simpa using hresult, by simpa using hrest, by simpa using hreports⟩

theorem after {t u : Token} {ts' : List Token} {r : Reading ts.length α}
    {r' : p → Reading ts'.length α} (hr : Persists c g ts r r') :
    Persists c g (t :: ts) (r.after (t := t)) fun h => (r' h).after (t := u) :=
  hr.weaken.mono (List.suffix_cons _ _)

theorem afterTail {t u : Token} {ts' : List Token} {r : Reading ts.length α}
    {r' : p → Reading ts'.length α} (hr : Persists c g ts r r') :
    Persists c g (t :: ts) (r.afterTail (t := t)) fun h => (r' h).afterTail (t := u) :=
  hr.weaken.mono (List.suffix_cons _ _)

theorem map {f f' : α → β} (hr : Persists c g ts r r') (hf : ∀ a, g₂ (f a) = f' (g a)) :
    Persists c g₂ ts (r.map f) fun h => (r' h).map f' := by
  refine ⟨by simpa using hr.suffix, by simpa using hr.blames, by simpa using hr.complains,
    fun hp h => ?_⟩
  obtain ⟨hresult, hrest, hreports⟩ := hr.continues hp (by simpa using h)
  refine ⟨?_, by simpa using hrest, by simpa using hreports⟩
  rw [result?_map, result?_map, hresult, Option.map_map, Option.map_map]
  exact congrArg (Option.map · r.result?) (funext fun a => (hf a).symm)

/-- What is reported before is the same on the other lines. -/
theorem reporting (hr : Persists c g ts r r') (hcomplains : Complains c.endLine ts ds)
    (hds : (r.rest = [] → c.MovesOnly) → ds' = ds.map (Diagnostic.mapLine c.move)) :
    Persists c g ts (r.reporting ds) fun h => (r' h).reporting ds' := by
  refine ⟨by simpa using hr.suffix, fun h => ?_, ?_, fun hp h => ?_⟩
  · obtain ⟨error, herror⟩ := hr.blames (by simpa using h)
    exact ⟨error, by simp [List.getLast?_append, herror]⟩
  · rw [reports_reporting]
    exact hcomplains.append hr.complains
  · have hleft : r.rest = [] → c.MovesOnly := by simpa using h
    obtain ⟨hresult, hrest, hreports⟩ := hr.continues hp hleft
    exact ⟨by simpa using hresult, by simpa using hrest, by simp [hreports, hds hleft]⟩

theorem andTail {next : α → (rest : List Token) → rest.length < limit → Reading (rest.length + 1) β}
    {next' : α → (rest : List Token) → rest.length < limit' → Reading (rest.length + 1) β}
    (hr : Persists c g ts r r')
    (hnext : ∀ a rest h, rest <:+ ts → Persists c g₂ rest (next a rest h) fun h' =>
      next' (g a) (c.tokens rest) h') :
    Persists c g₂ ts (r.andTail next) fun h => (r' h).andTail next' := by
  cases r with
  | stuck rest hlen ds =>
    refine ⟨hr.suffix, fun _ => hr.blames rfl, hr.complains, fun hp h => ?_⟩
    obtain ⟨hresult, hrest, hreports⟩ := hr.continues hp h
    obtain ⟨hlen', hr'⟩ := exists_stuck hresult hrest hreports
    rw [hr']
    exact ⟨rfl, rfl, rfl⟩
  | done a rest hlen ds =>
    have hlater := hnext a rest hlen hr.suffix
    have hboth {limit' : Nat} (k : (c.tokens rest).length + 1 ≤ limit') :=
      ((hlater.weaken (h := hlen) (k := k)).mono hr.suffix).reporting hr.complains fun _ => rfl
    refine ⟨(hboth (Nat.le_refl _)).suffix, (hboth (Nat.le_refl _)).blames,
      (hboth (Nat.le_refl _)).complains, fun hp h => ?_⟩
    -- If the first phrase leaves nothing, then neither does the second one.
    have hnil (hrest : rest = []) : c.MovesOnly := by
      subst hrest
      exact h (by simpa [Reading.andTail] using hlater.suffix)
    obtain ⟨hresult, hrest, hreports⟩ := hr.continues hp hnil
    obtain ⟨hlen', hr'⟩ := exists_done hresult hrest hreports
    rw [hr']
    exact (hboth hlen').continues hlen' h

theorem andThen {next : α → (rest : List Token) → rest.length < limit → Reading rest.length β}
    {next' : α → (rest : List Token) → rest.length < limit' → Reading rest.length β}
    (hr : Persists c g ts r r')
    (hnext : ∀ a rest h, rest <:+ ts → Persists c g₂ rest (next a rest h) fun h' =>
      next' (g a) (c.tokens rest) h') :
    Persists c g₂ ts (r.andThen next) fun h => (r' h).andThen next' := by
  simp only [andThen_eq_andTail]
  exact hr.andTail fun a rest hlen hsuffix => (hnext a rest hlen hsuffix).weaken

end Persists

section

variable {p : Prop} {what : String}

theorem persists_expect {word : Word} :
    Persists c (Token.mapLine c.move) ts (expect c.endLine word what ts)
      fun _ : p => expect c.newEnd word what (c.tokens ts) := by
  cases ts with
  | nil => exact .fail_nil rfl
  | cons t rest =>
    simp only [Rereading.tokens_cons, expect, Token.mapLine]
    split
    · exact .single rfl
    · exact .fail

theorem persists_expectName : Persists c (Name.mapLine c.move) ts (expectName c.endLine what ts)
    fun _ : p => expectName c.newEnd what (c.tokens ts) := by
  cases ts with
  | nil => exact .fail_nil rfl
  | cons t rest =>
    simp only [Rereading.tokens_cons, expectName, Token.mapLine]
    split
    · exact .single rfl
    · exact .fail

end

end Reading

/-! ### Expressions -/

namespace Expr

open Reading

variable {c : Rereading} {n : Nat}

/-- What becomes of expressions in brackets, and of the line of the closing bracket. -/
abbrev mapItemLines (f : Int → Int) : List (Expr Unit) × Int → List (Expr Unit) × Int :=
  Prod.map (mapAllLines f) f

theorem assignment?_mapLines (f : Int → Int) (target value : Expr Unit) :
    (target.mapLines f).assignment? (value.mapLines f) =
      (target.assignment? value).map (mapLines f) := by
  cases target <;> rfl

theorem mapLines_apply (f : Int → Int) (op : Operator) (left : Expr Unit) (line : Int)
    (right : Expr Unit) :
    (op.apply left line right).mapLines f =
      op.apply (left.mapLines f) (f line) (right.mapLines f) := by
  cases op <;> rfl

theorem persists_assigning {p : Prop} {target : Expr Unit} {equals equals' : Token}
    {ts ts' : List Token} {r : Reading ts.length (Expr Unit)}
    {r' : p → Reading ts'.length (Expr Unit)}
    (hr : Persists c (mapLines c.move) ts r r') (hequals : equals' = equals.mapLine c.move) :
    Persists c (mapLines c.move) (equals :: ts)
      ((r.assigning target equals).afterTail (t := equals))
      fun h => ((r' h).assigning (target.mapLines c.move) equals').afterTail (t := equals') := by
  subst hequals
  refine Persists.weaken ⟨?_, fun h => ?_, ?_, fun hp h => ?_⟩
  · rw [rest_assigning]
    exact hr.suffix.trans (List.suffix_cons _ _)
  · cases r with
    | stuck rest _ ds => exact hr.blames rfl
    | done value rest _ ds =>
      simp only [assigning] at h
      split at h <;> cases h
  · rw [reports_assigning]
    refine (hr.complains.mono (List.suffix_cons _ _)).append ?_
    split
    · exact .nil
    · exact .single (List.suffix_refl (equals :: ts))
  · obtain ⟨hresult, hrest, hreports⟩ := hr.continues hp (by simpa using h)
    refine ⟨?_, by simpa using hrest, ?_⟩
    · rw [result?_assigning, result?_assigning, hresult]
      cases r.result? with
      | none => rfl
      | some value =>
        simp only [Option.map_some, assignment?_mapLines]
        cases target.assignment? value <;> rfl
    · rw [reports_assigning, reports_assigning, hresult, hreports, List.map_append]
      congr 1
      cases r.result? with
      | none => rfl
      | some value =>
        simp only [Option.map_some, Option.all_some, assignment?_mapLines, Option.isSome_map]
        split <;> rfl

/-- Expressions that are read from fewer than `n` tokens are read again. The induction is on `n`,
since reading an expression goes around through operands, arguments and entries to expressions
again. -/
def PersistsBelow (c : Rereading) (n : Nat) : Prop :=
  ∀ (p : Prop) (ts : List Token), ts.length < n →
    Persists c (mapLines c.move) ts (read c.endLine ts) fun _ : p => read c.newEnd (c.tokens ts)

theorem complains_countReports {closing : Closing} {position : Nat} {ts : List Token} :
    Complains c.endLine ts (countReports c.endLine closing position ts) := by
  unfold countReports
  split
  · exact .single List.suffix_rfl
  · exact .nil

theorem persists_readItemsFrom {p : Prop} (hn : PersistsBelow c n) {closing : Closing}
    {position : Nat} {ts : List Token} (hlen : ts.length < n) :
    Persists c (mapItemLines c.move) ts (readItemsFrom c.endLine closing position ts)
      fun _ : p => readItemsFrom c.newEnd closing position (c.tokens ts) := by
  rw [readItemsFrom, readItemsFrom]
  refine ((hn p ts hlen).andThen fun item rest hrest _ => ?_).reporting complains_countReports
    fun h => ?_
  · cases rest with
    | nil => exact Persists.fail.of_nil (by rintro ⟨_, _, rfl⟩; rfl)
    | cons t after =>
      have hlt : after.length < ts.length := Nat.lt_of_succ_lt hrest
      simp only [Rereading.tokens_cons, Token.mapLine]
      split
      · exact ((persists_readItemsFrom hn (Nat.lt_trans hlt hlen)).map fun _ => by rfl).after
      · exact persists_expect.map fun _ => by rfl
  · unfold countReports
    rw [complaint_tokens fun hts => h (rest_eq_nil hts)]
    split <;> rfl
termination_by ts.length

theorem persists_readItems {p : Prop} (hn : PersistsBelow c n) {closing : Closing}
    {ts : List Token} (hlen : ts.length < n) :
    Persists c (mapItemLines c.move) ts (readItems c.endLine closing ts)
      fun _ : p => readItems c.newEnd closing (c.tokens ts) := by
  have hfrom : Persists c (mapItemLines c.move) ts (readItemsFrom c.endLine closing 0 ts)
      fun _ : p => readItemsFrom c.newEnd closing 0 (c.tokens ts) := persists_readItemsFrom hn hlen
  cases ts with
  | nil =>
    rw [readItems]
    exact hfrom.of_reader_nil (by rw [readItems])
  | cons t rest =>
    simp only [Rereading.tokens_cons, readItems, Token.mapLine]
    split
    · exact .single rfl
    · exact hfrom

theorem persists_readEntries {p : Prop} (hn : PersistsBelow c n) {ts : List Token}
    (hlen : ts.length < n) :
    Persists c (mapEntryLines c.move) ts (readEntries c.endLine ts)
      fun _ : p => readEntries c.newEnd (c.tokens ts) := by
  rw [readEntries, readEntries]
  refine (hn p ts hlen).andThen fun key rest hkey _ => ?_
  refine persists_expect.andThen fun _ rest hcolon _ => ?_
  refine (hn _ rest (by omega)).andThen fun value rest hvalue _ => ?_
  cases rest with
  | nil => exact Persists.fail.of_nil (by rintro ⟨_, _, rfl⟩; rfl)
  | cons t after =>
    have hlt : after.length < ts.length := by
      simp only [List.length_cons] at hvalue
      omega
    simp only [Rereading.tokens_cons, Token.mapLine]
    split
    · exact ((persists_readEntries hn (Nat.lt_trans hlt hlen)).map fun _ => by rfl).after
    · exact persists_expect.map fun _ => by rfl
termination_by ts.length

theorem persists_readPrimary {p : Prop} (hn : PersistsBelow c n) {ts : List Token}
    (hlen : ts.length ≤ n) :
    Persists c (mapLines c.move) ts (readPrimary c.endLine ts)
      fun _ : p => readPrimary c.newEnd (c.tokens ts) := by
  cases ts with
  | nil =>
    rw [readPrimary.eq_def]
    exact .fail_nil (by rw [readPrimary.eq_def])
  | cons t rest =>
    have hrest : rest.length < n := hlen
    rw [readPrimary.eq_def, Rereading.tokens_cons, readPrimary.eq_def]
    dsimp only [Token.mapLine]
    split
    · exact .single rfl
    · exact .single rfl
    · exact .single rfl
    · exact .single rfl
    · exact .single rfl
    · exact .single rfl
    · exact (persists_expect.andThen fun _ _ _ _ => persists_expectName.map fun _ => by rfl).after
    · exact .single rfl
    · exact ((hn p rest hrest).andThen fun _ _ _ _ => persists_expect.map fun _ => by rfl).after
    · exact ((persists_readItems hn hrest).map fun _ => by rfl).after
    · have hentries : Persists c (mapLines c.move) rest
          ((readEntries c.endLine rest).map fun entries => .map entries t.line) fun _ : p =>
            (readEntries c.newEnd (c.tokens rest)).map fun entries =>
              .map entries (c.move t.line) :=
        (persists_readEntries hn hrest).map fun _ => by rfl
      cases rest with
      | nil =>
        refine (hentries.after (u := t)).of_rest_nil ?_ ?_
        · simpa [Reading.after] using hentries.suffix
        · rintro ⟨_, _, rfl⟩
          rfl
      | cons closing others =>
        dsimp only [Rereading.tokens_cons, Token.mapLine]
        split
        · refine ⟨?_, by simp [result?], .nil, fun _ _ => ⟨rfl, rfl, rfl⟩⟩
          exact (List.suffix_cons _ _).trans (List.suffix_cons _ _)
        · exact hentries.after
    · exact .fail

theorem persists_readPostfixTail {p : Prop} (hn : PersistsBelow c n) {operand : Expr Unit}
    {ts : List Token} (hlen : ts.length ≤ n) :
    Persists c (mapLines c.move) ts (readPostfixTail c.endLine operand ts)
      fun _ : p => readPostfixTail c.newEnd (operand.mapLines c.move) (c.tokens ts) := by
  cases ts with
  | nil =>
    rw [readPostfixTail]
    exact .pure_nil rfl (by rw [readPostfixTail])
  | cons t rest =>
    have hrest : rest.length < n := hlen
    simp only [Rereading.tokens_cons, readPostfixTail, Token.mapLine]
    split
    · refine ((persists_readItems hn hrest).andTail fun items later h _ => ?_).afterTail
      exact persists_readPostfixTail hn (by omega)
    split
    · refine (persists_expectName.andTail fun name later h _ => ?_).afterTail
      exact persists_readPostfixTail hn (by omega)
    split
    · refine ((hn p rest hrest).andThen fun position inner h _ => ?_).afterTail
      refine persists_expect.andTail fun _ later h' _ => ?_
      exact persists_readPostfixTail hn (by omega)
    · exact .pure rfl
termination_by ts.length
decreasing_by all_goals grind

theorem persists_readPostfix {p : Prop} (hn : PersistsBelow c n) {ts : List Token}
    (hlen : ts.length ≤ n) :
    Persists c (mapLines c.move) ts (readPostfix c.endLine ts)
      fun _ : p => readPostfix c.newEnd (c.tokens ts) := by
  rw [readPostfix, readPostfix]
  refine (persists_readPrimary hn hlen).andTail fun operand rest h _ => ?_
  exact persists_readPostfixTail hn (by omega)

theorem persists_readUnary {p : Prop} (hn : PersistsBelow c n) {ts : List Token}
    (hlen : ts.length ≤ n) :
    Persists c (mapLines c.move) ts (readUnary c.endLine ts)
      fun _ : p => readUnary c.newEnd (c.tokens ts) := by
  induction ts with
  | nil =>
    have hpostfix : Persists c (mapLines c.move) [] (readPostfix c.endLine [])
        fun _ : p => readPostfix c.newEnd (c.tokens []) := persists_readPostfix hn hlen
    rw [readUnary]
    exact hpostfix.of_reader_nil (by rw [readUnary])
  | cons t rest ih =>
    have hop : UnaryOp.ofToken? (t.mapLine c.move) = UnaryOp.ofToken? t := rfl
    simp only [Rereading.tokens_cons, readUnary, hop]
    split
    · exact ((ih (Nat.le_of_succ_le hlen)).map fun _ => by rfl).after
    · exact persists_readPostfix hn hlen

theorem persists_readTierTail {p : Prop} {tier : Tier} {stronger : List Tier}
    (hstronger : ∀ (p : Prop) (ts : List Token), ts.length ≤ n →
      Persists c (mapLines c.move) ts (readTiers c.endLine stronger ts)
        fun _ : p => readTiers c.newEnd stronger (c.tokens ts))
    {left : Expr Unit} {ts : List Token} (hlen : ts.length ≤ n) :
    Persists c (mapLines c.move) ts (readTierTail c.endLine tier stronger left ts)
      fun _ : p => readTierTail c.newEnd tier stronger (left.mapLines c.move) (c.tokens ts) := by
  cases ts with
  | nil =>
    rw [readTierTail]
    exact .pure_nil rfl (by rw [readTierTail])
  | cons t rest =>
    have hrest : rest.length < n := hlen
    have hop : tier.operator? (t.mapLine c.move) = tier.operator? t := rfl
    simp only [Rereading.tokens_cons, readTierTail, hop]
    split
    · exact .pure rfl
    · refine ((hstronger p rest (Nat.le_of_lt hrest)).andTail fun right later h _ => ?_).afterTail
      rw [Token.mapLine, ← mapLines_apply]
      exact persists_readTierTail hstronger (by omega)
termination_by ts.length
decreasing_by grind

theorem persists_readTiers {p : Prop} (hn : PersistsBelow c n) {tiers : List Tier}
    {ts : List Token} (hlen : ts.length ≤ n) :
    Persists c (mapLines c.move) ts (readTiers c.endLine tiers ts)
      fun _ : p => readTiers c.newEnd tiers (c.tokens ts) := by
  induction tiers generalizing p ts with
  | nil =>
    rw [readTiers, readTiers]
    exact persists_readUnary hn hlen
  | cons tier stronger ih =>
    rw [readTiers, readTiers]
    refine (ih hlen).andTail fun left rest h _ => ?_
    exact persists_readTierTail (fun p ts hlen => ih hlen) (by omega)

theorem persistsBelow (c : Rereading) (n : Nat) : PersistsBelow c n := by
  induction n with
  | zero => exact fun p ts h => absurd h (Nat.not_lt_zero _)
  | succ n hn =>
    intro p ts hlen
    rw [read, read]
    refine (persists_readTiers hn (by omega)).andTail fun target rest h _ => ?_
    cases rest with
    | nil => exact (Persists.pure rfl).of_nil (by rintro ⟨_, _, rfl⟩; rfl)
    | cons t after =>
      simp only [List.length_cons] at h
      simp only [Rereading.tokens_cons, Token.mapLine]
      split
      · exact persists_assigning (hn _ after (by omega)) rfl
      · exact .pure rfl

theorem persists_read {p : Prop} {ts : List Token} :
    Persists c (mapLines c.move) ts (read c.endLine ts) fun _ : p => read c.newEnd (c.tokens ts) :=
  persistsBelow c _ p ts (Nat.lt_succ_self _)

end Expr

/-! ### Statements -/

theorem Stmt.mapAllLines_append {β : Type} (f : Int → Int) (ss later : List (Stmt β)) :
    mapAllLines f (ss ++ later) = mapAllLines f ss ++ mapAllLines f later := by
  induction ss with
  | nil => rfl
  | cons s ss ih => rw [List.cons_append, mapAllLines, ih, mapAllLines, List.cons_append]

theorem Stmt.mapAllLines_toList {β : Type} (f : Int → Int) (s : Option (Stmt β)) :
    mapAllLines f s.toList = (s.map (mapLines f)).toList := by
  cases s <;> rfl

namespace Stmt

open Reading

variable {c : Rereading} {n : Nat}

theorem persists_readParamsFrom {p : Prop} {position : Nat} {ts : List Token} :
    Persists c (List.map (Name.mapLine c.move)) ts (readParamsFrom c.endLine position ts)
      fun _ : p => readParamsFrom c.newEnd position (c.tokens ts) := by
  rw [readParamsFrom, readParamsFrom]
  refine (persists_expectName.andThen fun name rest hrest _ => ?_).reporting ?_ fun h => ?_
  · cases rest with
    | nil => exact Persists.fail.of_nil (by rintro ⟨_, _, rfl⟩; rfl)
    | cons t after =>
      have hlt : after.length < ts.length := Nat.lt_of_succ_lt hrest
      simp only [Rereading.tokens_cons, Token.mapLine]
      split
      · exact (persists_readParamsFrom.map fun _ => by rfl).after
      · exact persists_expect.map fun _ => by rfl
  · split
    · exact .single List.suffix_rfl
    · exact .nil
  · rw [complaint_tokens fun hts => h (rest_eq_nil hts)]
    split <;> rfl
termination_by ts.length

section

variable {p : Prop} {ts : List Token} {what : String} {line : Int}

theorem persists_readParams :
    Persists c (List.map (Name.mapLine c.move)) ts (readParams c.endLine ts)
    fun _ : p => readParams c.newEnd (c.tokens ts) := by
  have hfrom : Persists c (List.map (Name.mapLine c.move)) ts (readParamsFrom c.endLine 0 ts)
      fun _ : p => readParamsFrom c.newEnd 0 (c.tokens ts) := persists_readParamsFrom
  cases ts with
  | nil => exact hfrom.of_reader_nil rfl
  | cons t rest =>
    simp only [Rereading.tokens_cons, readParams, Token.mapLine]
    split
    · exact .single rfl
    · exact hfrom

theorem persists_readEnd {s : Stmt Unit} :
    Persists c (mapLines c.move) ts (readEnd c.endLine what s ts)
    fun _ : p => readEnd c.newEnd what (s.mapLines c.move) (c.tokens ts) :=
  persists_expect.map fun _ => by rfl

theorem persists_readOperand {make make' : Expr Unit → Stmt Unit}
    (hmake : ∀ e, (make e).mapLines c.move = make' (e.mapLines c.move)) :
    Persists c (mapLines c.move) ts (readOperand c.endLine what make ts)
      fun _ : p => readOperand c.newEnd what make' (c.tokens ts) := by
  refine Expr.persists_read.andThen fun e _ _ _ => ?_
  rw [← hmake]
  exact persists_readEnd

theorem persists_readCondition {keyword : Keyword} :
    Persists c (Expr.mapLines c.move) ts (readCondition c.endLine keyword what ts)
      fun _ : p => readCondition c.newEnd keyword what (c.tokens ts) := by
  refine persists_expect.andThen fun _ _ _ _ => ?_
  exact Expr.persists_read.andThen fun _ _ _ _ => persists_expect.map fun _ => by rfl

theorem persists_readVar : Persists c (mapLines c.move) ts (readVar c.endLine ts)
    fun _ : p => readVar c.newEnd (c.tokens ts) := by
  refine persists_expectName.andThen fun name rest _ _ => ?_
  cases rest with
  | nil => exact persists_readEnd.of_nil (by rintro ⟨_, _, rfl⟩; rfl)
  | cons t after =>
    dsimp only [Rereading.tokens_cons, Token.mapLine]
    split
    · exact (persists_readOperand fun _ => by rfl).after
    · exact persists_readEnd

theorem persists_readReturn : Persists c (mapLines c.move) ts (readReturn c.endLine line ts)
    fun _ : p => readReturn c.newEnd (c.move line) (c.tokens ts) := by
  have hvalue (ts : List Token) : Persists c (mapLines c.move) ts
      (readOperand c.endLine "return value" (fun value => .returnValue line (some value)) ts)
      fun _ : p => readOperand c.newEnd "return value"
        (fun value => .returnValue (c.move line) (some value)) (c.tokens ts) :=
    persists_readOperand fun _ => rfl
  cases ts with
  | nil => exact (hvalue []).of_reader_nil rfl
  | cons t rest =>
    simp only [Rereading.tokens_cons, readReturn, Token.mapLine]
    split
    · exact .single rfl
    · exact hvalue (t :: rest)

theorem persists_readSet : Persists c (mapLines c.move) ts (readSet c.endLine line ts)
    fun _ : p => readSet c.newEnd (c.move line) (c.tokens ts) := by
  refine persists_expectName.andThen fun _ _ _ _ => ?_
  exact persists_expect.andThen fun _ _ _ _ => persists_readOperand fun _ => by rfl

end

theorem persists_readBuildTail {p : Prop} {line : Int} {root : Name} {path : List Name}
    {ts : List Token} : Persists c (mapLines c.move) ts (readBuildTail c.endLine line root path ts)
      fun _ : p => readBuildTail c.newEnd (c.move line) (root.mapLine c.move)
        (path.map (Name.mapLine c.move)) (c.tokens ts) := by
  have hend (ts : List Token) (arguments : List (Expr Unit)) : Persists c (mapLines c.move) ts
      (readEnd c.endLine (markerEnd .buildWord) (.marker line (.build root () path arguments)) ts)
      fun _ : p => readEnd c.newEnd (markerEnd .buildWord) (.marker (c.move line) (.build
        (root.mapLine c.move) () (path.map (Name.mapLine c.move))
        (Expr.mapAllLines c.move arguments))) (c.tokens ts) := persists_readEnd
  cases ts with
  | nil =>
    rw [readBuildTail]
    exact (hend [] []).of_reader_nil (by rw [readBuildTail]; rfl)
  | cons t rest =>
    simp only [Rereading.tokens_cons, readBuildTail, Token.mapLine]
    split
    · refine (persists_expectName.andThen fun name _ _ _ => ?_).after
      have hpath : path.map (Name.mapLine c.move) ++ [name.mapLine c.move] =
          (path ++ [name]).map (Name.mapLine c.move) := by
        simp
      rw [hpath]
      exact persists_readBuildTail
    split
    · exact ((Expr.persists_readItems (Expr.persistsBelow c _) (Nat.lt_succ_self _)).andThen
        fun _ _ _ _ => persists_readEnd).after
    · exact hend (t :: rest) []
termination_by ts.length
decreasing_by grind

theorem persists_readBuild {p : Prop} {line : Int} {ts : List Token} :
    Persists c (mapLines c.move) ts (readBuild c.endLine line ts)
      fun _ : p => readBuild c.newEnd (c.move line) (c.tokens ts) :=
  persists_expectName.andThen fun _ _ _ _ => persists_readBuildTail

/-- Statements and declarations that are read from fewer than `n` tokens are read again. -/
structure PersistsBelow (c : Rereading) (n : Nat) : Prop where
  statement : ∀ (p : Prop) (ts : List Token), ts.length < n →
    Persists c (mapLines c.move) ts (read c.endLine ts) fun _ : p => read c.newEnd (c.tokens ts)
  declaration : ∀ (p : Prop) (ts : List Token), ts.length < n →
    Persists c (mapLines c.move) ts (readDeclaration c.endLine ts)
      fun _ : p => readDeclaration c.newEnd (c.tokens ts)

theorem persists_readBranch {p : Prop} (hn : PersistsBelow c n) {ts : List Token}
    (hlen : ts.length < n) : Persists c (mapLines c.move) ts (readBranch c.endLine ts)
      fun _ : p => readBranch c.newEnd (c.tokens ts) := by
  rw [readBranch, readBranch]
  refine persists_readCondition.andThen fun condition rest h _ => ?_
  refine (hn.statement _ rest (by omega)).andTail fun yes rest h' _ => ?_
  cases rest with
  | nil => exact (Persists.pure (by rfl)).of_nil (by rintro ⟨_, _, rfl⟩; rfl)
  | cons t after =>
    simp only [List.length_cons] at h'
    simp only [Rereading.tokens_cons, Token.mapLine]
    split
    · exact ((hn.statement _ after (by omega)).map fun _ => by rfl).afterTail
    · exact .pure rfl

theorem persists_readWhile {p : Prop} (hn : PersistsBelow c n) {ts : List Token}
    (hlen : ts.length < n) : Persists c (mapLines c.move) ts (readWhile c.endLine ts)
      fun _ : p => readWhile c.newEnd (c.tokens ts) := by
  rw [readWhile, readWhile]
  refine persists_readCondition.andThen fun condition rest h _ => ?_
  exact (hn.statement _ rest (by omega)).map fun _ => by rfl

theorem persists_readDoWhile {p : Prop} (hn : PersistsBelow c n)
    {ts : List Token} (hlen : ts.length < n) :
    Persists c (mapLines c.move) ts (readDoWhile c.endLine ts)
      fun _ : p => readDoWhile c.newEnd (c.tokens ts) := by
  rw [readDoWhile, readDoWhile]
  refine (hn.statement p ts hlen).andThen fun body rest _ _ => ?_
  refine persists_expect.andThen fun _ _ _ _ => ?_
  exact persists_readCondition.andThen fun _ _ _ _ => persists_readEnd

/-- The statement that `f` has, if any, is read again, and reading resumes at the same place. -/
structure Resumes (c : Rereading) (ts : List Token) {limit limit' : Nat}
    (f : Recovered limit (Stmt Unit)) (f' : Recovered limit' (Stmt Unit)) : Prop where
  suffix : f.rest <:+ ts
  complains : Complains c.endLine ts f.reports
  continues : (f.rest = [] → c.MovesOnly) → f'.result = f.result.map (mapLines c.move) ∧
    f'.rest = c.tokens f.rest ∧ f'.reports = f.reports.map (Diagnostic.mapLine c.move)

theorem resumes_recover {limit limit' : Nat} {ts : List Token} {r : Reading limit (Stmt Unit)}
    {r' : Reading limit' (Stmt Unit)} (positive : 0 < limit) (positive' : 0 < limit')
    (hr : Persists c (mapLines c.move) ts r fun _ : True => r') :
    Resumes c ts (r.recover positive) (r'.recover positive') := by
  cases r with
  | done a rest hlen ds =>
    refine ⟨hr.suffix, hr.complains, fun h => ?_⟩
    obtain ⟨hresult, hrest, hreports⟩ := hr.continues trivial h
    obtain ⟨hlen', rfl⟩ := exists_done hresult hrest hreports
    exact ⟨rfl, rfl, rfl⟩
  | stuck rest hlen ds =>
    have hsuffix : resume rest <:+ rest := (resume_suffix rest).trans (List.tail_suffix rest)
    refine ⟨hsuffix.trans hr.suffix, hr.complains, fun h => ?_⟩
    have hnil (hrest : rest = []) : c.MovesOnly := by
      subst hrest
      exact h rfl
    obtain ⟨hresult, hrest, hreports⟩ := hr.continues trivial hnil
    obtain ⟨hlen', rfl⟩ := exists_stuck hresult hrest hreports
    exact ⟨rfl, resume_tokens c h, rfl⟩

theorem persists_readBlock_of_resumes {p : Prop} {limit limit' : Nat} {ts : List Token}
    {f : Recovered limit (Stmt Unit)} {f' : Recovered limit' (Stmt Unit)} (hf : Resumes c ts f f')
    (hlater : Persists c (mapAllLines c.move) f.rest (readBlock c.endLine f.rest)
      fun _ : p => readBlock c.newEnd (c.tokens f.rest)) :
    Persists c (mapAllLines c.move) ts
      ((((readBlock c.endLine f.rest).weaken (Nat.le_of_lt f.shorter)).map
        (f.result.toList ++ ·)).reporting f.reports)
      fun _ : p => ((((readBlock c.newEnd f'.rest).weaken (Nat.le_of_lt f'.shorter)).map
        (f'.result.toList ++ ·)).reporting f'.reports) := by
  have hresults (ss : List (Stmt Unit)) : mapAllLines c.move (f.result.toList ++ ss) =
      (f.result.map (mapLines c.move)).toList ++ mapAllLines c.move ss := by
    rw [mapAllLines_append, mapAllLines_toList]
  have hblock {limit' : Nat} (k : (c.tokens f.rest).length ≤ limit') :=
    (((hlater.weaken (h := Nat.le_of_lt f.shorter) (k := k)).mono hf.suffix).map hresults).reporting
      hf.complains fun _ => rfl
  refine ⟨(hblock (Nat.le_refl _)).suffix, (hblock (Nat.le_refl _)).blames,
    (hblock (Nat.le_refl _)).complains, fun hp h => ?_⟩
  -- If nothing is left where reading resumes, then nothing is left of the block.
  have hnil (hrest : f.rest = []) : c.MovesOnly := h (by simpa [hrest] using hlater.suffix)
  obtain ⟨hresult, hleft, hreports⟩ := hf.continues hnil
  obtain ⟨result', rest', shorter', reports'⟩ := f'
  cases hresult
  cases hleft
  cases hreports
  exact (hblock (Nat.le_of_lt shorter')).continues hp h

theorem persists_readBlock {p : Prop} (hn : PersistsBelow c n) {ts : List Token}
    (hlen : ts.length < n) : Persists c (mapAllLines c.move) ts (readBlock c.endLine ts)
      fun _ : p => readBlock c.newEnd (c.tokens ts) := by
  cases ts with
  | nil =>
    rw [readBlock]
    exact .fail_nil (by rw [readBlock])
  | cons t rest =>
    simp only [Rereading.tokens_cons, readBlock, Token.mapLine]
    split
    · exact .single rfl
    · have hfirst := resumes_recover (Nat.succ_pos _) (Nat.succ_pos _)
        (hn.declaration True (t :: rest) hlen)
      have hshorter :=
        ((readDeclaration c.endLine (t :: rest)).recover (Nat.succ_pos _)).shorter
      exact persists_readBlock_of_resumes hfirst
        (persists_readBlock hn (Nat.lt_trans hshorter hlen))
termination_by ts.length
decreasing_by grind

theorem persists_readFunction {p : Prop} (hn : PersistsBelow c n) {what : String}
    {ts : List Token} (hlen : ts.length < n) :
    Persists c (Function.mapLines c.move) ts (readFunction c.endLine what ts)
      fun _ : p => readFunction c.newEnd what (c.tokens ts) := by
  rw [readFunction, readFunction]
  refine persists_expectName.andThen fun name rest _ _ => ?_
  refine persists_expect.andThen fun _ rest _ _ => ?_
  refine persists_readParams.andThen fun params rest _ _ => ?_
  refine persists_expect.andThen fun _ rest _ _ => ?_
  exact (persists_readBlock hn (by omega)).map fun _ => by rfl

theorem persists_readMethods {p : Prop} (hn : PersistsBelow c n) {ts : List Token}
    (hlen : ts.length < n) : Persists c (Function.mapAllLines c.move) ts (readMethods c.endLine ts)
      fun _ : p => readMethods c.newEnd (c.tokens ts) := by
  cases ts with
  | nil =>
    rw [readMethods]
    exact .fail_nil (by rw [readMethods])
  | cons t rest =>
    simp only [Rereading.tokens_cons, readMethods, Token.mapLine]
    split
    · exact .single rfl
    · refine (persists_readFunction hn hlen).andThen fun method rest' h _ => ?_
      exact (persists_readMethods hn (by omega)).map fun _ => by rfl
termination_by ts.length
decreasing_by grind

theorem persists_readClassBody {p : Prop} (hn : PersistsBelow c n) {name : Name}
    {superclass superclass' : Option (Name × Unit)} {ts : List Token} (hlen : ts.length < n)
    (hparent : superclass' = superclass.map fun (parent, mark) => (parent.mapLine c.move, mark)) :
    Persists c (mapLines c.move) ts (readClassBody c.endLine name superclass ts)
      fun _ : p => readClassBody c.newEnd (name.mapLine c.move) superclass' (c.tokens ts) := by
  subst hparent
  rw [readClassBody, readClassBody]
  refine persists_expect.andThen fun _ rest _ _ => ?_
  exact (persists_readMethods hn (by omega)).map fun _ => by rfl

theorem persists_readClass {p : Prop} (hn : PersistsBelow c n) {ts : List Token}
    (hlen : ts.length < n) : Persists c (mapLines c.move) ts (readClass c.endLine ts)
      fun _ : p => readClass c.newEnd (c.tokens ts) := by
  rw [readClass, readClass]
  refine persists_expectName.andThen fun name rest h _ => ?_
  cases rest with
  | nil =>
    refine (persists_readClassBody hn (by omega) rfl).of_nil ?_
    rintro ⟨_, _, rfl⟩
    rfl
  | cons t after =>
    have hafter : after.length < n := Nat.lt_trans (Nat.lt_of_succ_lt h) hlen
    dsimp only [Rereading.tokens_cons, Token.mapLine]
    split
    · refine (persists_expectName.andThen fun parent rest _ _ => ?_).after
      exact persists_readClassBody hn (by omega) rfl
    · exact persists_readClassBody hn (by omega) rfl

theorem persists_read_of_le {p : Prop} (hn : PersistsBelow c n) {ts : List Token}
    (hlen : ts.length ≤ n) :
    Persists c (mapLines c.move) ts (read c.endLine ts)
      fun _ : p => read c.newEnd (c.tokens ts) := by
  have hexpression :
      Persists c (mapLines c.move) ts (readOperand c.endLine "expression" .expression ts)
      fun _ : p => readOperand c.newEnd "expression" .expression (c.tokens ts) :=
    persists_readOperand fun _ => rfl
  cases ts with
  | nil =>
    rw [read.eq_def]
    exact hexpression.of_reader_nil (by rw [read.eq_def])
  | cons t rest =>
    have hrest : rest.length < n := hlen
    rw [read.eq_def, Rereading.tokens_cons, read.eq_def]
    dsimp only [Token.mapLine]
    split
    · exact (persists_readOperand fun _ => by rfl).after
    · exact (persists_readBranch hn hrest).after
    · exact (persists_readWhile hn hrest).after
    · exact (persists_readDoWhile hn hrest).after
    · exact persists_readEnd.after
    · exact persists_readEnd.after
    · exact persists_readReturn.after
    · exact persists_readSet.after
    · exact persists_readBuild.after
    · exact (persists_readOperand fun _ => by rfl).after
    · exact (persists_readOperand fun _ => by rfl).after
    · exact (persists_readOperand fun _ => by rfl).after
    · exact persists_readEnd.after
    · exact ((persists_readBlock hn hrest).map fun _ => by rfl).after
    · exact hexpression

theorem persists_readDeclaration_of_le {p : Prop} (hn : PersistsBelow c n)
    {ts : List Token} (hlen : ts.length ≤ n) :
    Persists c (mapLines c.move) ts (readDeclaration c.endLine ts)
      fun _ : p => readDeclaration c.newEnd (c.tokens ts) := by
  have hread : Persists c (mapLines c.move) ts (read c.endLine ts)
      fun _ : p => read c.newEnd (c.tokens ts) := persists_read_of_le hn hlen
  cases ts with
  | nil =>
    rw [readDeclaration.eq_def]
    exact hread.of_reader_nil (by rw [readDeclaration.eq_def])
  | cons t rest =>
    have hrest : rest.length < n := hlen
    rw [readDeclaration.eq_def, Rereading.tokens_cons, readDeclaration.eq_def]
    dsimp only [Token.mapLine]
    split
    · exact (persists_readClass hn hrest).after
    · exact ((persists_readFunction hn hrest).map fun _ => by rfl).after
    · exact persists_readVar.after
    · exact hread

theorem persistsBelow (c : Rereading) (n : Nat) : PersistsBelow c n := by
  induction n with
  | zero =>
    exact ⟨fun p ts h => absurd h (Nat.not_lt_zero _), fun p ts h => absurd h (Nat.not_lt_zero _)⟩
  | succ n hn =>
    exact ⟨fun p ts hlen => persists_read_of_le hn (Nat.le_of_lt_succ hlen),
      fun p ts hlen => persists_readDeclaration_of_le hn (Nat.le_of_lt_succ hlen)⟩

/-- A declaration is read again on other lines. With more tokens after it, it is read in the same
way unless it has used up all that there were. -/
theorem persists_readDeclaration (c : Rereading) (ts : List Token) :
    Persists c (mapLines c.move) ts (readDeclaration c.endLine ts)
      fun _ : True => readDeclaration c.newEnd (c.tokens ts) :=
  (persistsBelow c _).declaration True ts (Nat.lt_succ_self _)

/-- What a declaration does not use up of its tokens can be followed by others. -/
theorem readDeclaration_append (endLine newEnd : Int) (ts more : List Token)
    (h : (readDeclaration endLine ts).rest ≠ []) :
    (readDeclaration newEnd (ts ++ more)).result? = (readDeclaration endLine ts).result? ∧
      (readDeclaration newEnd (ts ++ more)).rest = (readDeclaration endLine ts).rest ++ more ∧
      (readDeclaration newEnd (ts ++ more)).reports = (readDeclaration endLine ts).reports := by
  obtain ⟨hresult, hrest, hreports⟩ := (persists_readDeclaration (.extending endLine more newEnd)
    ts).continues trivial fun hnil => absurd hnil h
  rw [Rereading.tokens_extending] at hresult hrest hreports
  rw [Rereading.tokens_extending] at hrest
  refine ⟨hresult.trans ?_, hrest, hreports.trans (List.map_id _)⟩
  rw [show mapLines (Rereading.extending endLine more newEnd).move = id from funext mapLines_id]
  exact congrFun Option.map_id _

end Stmt

/-! ### Programs -/

namespace Source

open Reading

variable (endLine : Int)

/-- What is read, on other lines. -/
def mapLines (f : Int → Int) (source : Source) : Source :=
  ⟨source.program.mapLines f, source.diagnostics.map (Diagnostic.mapLine f)⟩

/-- Everything that is reported is a complaint at one of the tokens or at their end. -/
theorem complains_ofTokens (ts : List Token) :
    Complains endLine ts (ofTokens endLine ts).diagnostics := by
  cases ts with
  | nil =>
    rw [ofTokens]
    exact .nil
  | cons t rest =>
    have hfirst := Stmt.resumes_recover (Nat.succ_pos _) (Nat.succ_pos _)
      (Stmt.persists_readDeclaration (.moving endLine id) (t :: rest))
    have hshorter :=
      ((Stmt.readDeclaration endLine (t :: rest)).recover (Nat.succ_pos _)).shorter
    rw [ofTokens]
    exact hfirst.complains.append ((complains_ofTokens _).mono hfirst.suffix)
termination_by ts.length
decreasing_by grind

/-- Programs are read on other lines if their first statements are. -/
theorem ofTokens_of_resumes {c : Rereading} (hc : c.MovesOnly) {limit limit' : Nat}
    {ts : List Token}
    {f : Recovered limit (Stmt Unit)} {f' : Recovered limit' (Stmt Unit)}
    (hf : Stmt.Resumes c ts f f')
    (hlater : ofTokens c.newEnd (c.tokens f.rest) =
      (ofTokens c.endLine f.rest).mapLines c.move) :
    (⟨f'.result.toList ++ (ofTokens c.newEnd f'.rest).program,
        f'.reports ++ (ofTokens c.newEnd f'.rest).diagnostics⟩ : Source) =
      mapLines c.move ⟨f.result.toList ++ (ofTokens c.endLine f.rest).program,
        f.reports ++ (ofTokens c.endLine f.rest).diagnostics⟩ := by
  obtain ⟨hresult, hrest, hreports⟩ := hf.continues fun _ => hc
  rw [hresult, hrest, hreports, hlater]
  simp only [mapLines, Program.mapLines, Stmt.mapAllLines_append, Stmt.mapAllLines_toList,
    List.map_append]

theorem ofTokens_tokens {c : Rereading} (hc : c.MovesOnly) (ts : List Token) :
    ofTokens c.newEnd (c.tokens ts) = (ofTokens c.endLine ts).mapLines c.move := by
  cases ts with
  | nil =>
    obtain ⟨endLine, move, rfl⟩ := hc
    show ofTokens (move endLine) [] = mapLines move (ofTokens endLine [])
    rw [ofTokens, ofTokens]
    rfl
  | cons t rest =>
    have hfirst := Stmt.resumes_recover (Nat.succ_pos _) (Nat.succ_pos _)
      (Stmt.persists_readDeclaration c (t :: rest))
    have hshorter :=
      ((Stmt.readDeclaration c.endLine (t :: rest)).recover (Nat.succ_pos _)).shorter
    rw [Rereading.tokens_cons, ofTokens, ofTokens]
    exact ofTokens_of_resumes hc hfirst (ofTokens_tokens hc _)
termination_by ts.length
decreasing_by grind

/-- **Reading does not look at lines.** Tokens on other lines are read as the same program on other
lines, and what is reported about them is the same on other lines. -/
theorem ofTokens_mapLine (f : Int → Int) (ts : List Token) :
    ofTokens (f endLine) (ts.map (Token.mapLine f)) = (ofTokens endLine ts).mapLines f := by
  have hmoved := ofTokens_tokens ⟨endLine, f, rfl⟩ ts
  rwa [Rereading.tokens_moving] at hmoved

end Source

end LoxLang
