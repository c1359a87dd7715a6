import LoxLang.Proofs.Lookahead

/-!
# Reading comes to an end

The declarations of a program, those of a block and the methods of a class are read in a loop, one
phrase in each round. A round takes the tokens that the rounds before it have left and uses up a
part of them: those of its phrase or, if it gets stuck, those up to the boundary at which reading
resumes (`Reading.onward`). `Rounds` says how such a loop goes, whatever the phrases are and
whenever it is over.

Every round uses up at least one token, so that there are no more rounds than tokens, and a round
whose phrase is dropped reports something (`Round.Advances`). It follows how each of the three loops
ends (`Source.reading_comes_to_an_end`): that over a program at the end of the tokens, that over a
block or a class at a closing brace or at the end, and that over a class also where a method gets
stuck.
-/

namespace LoxLang

/-- One round of a loop in which phrases are read. -/
structure Round (α : Type) where
  /-- The tokens that are used up. -/
  used : List Token
  /-- What is read, unless it is dropped. -/
  result : Option α
  reports : List Diagnostic

/-- The round uses up a token, and if it drops its phrase then it reports something. -/
structure Round.Advances {α : Type} (r : Round α) : Prop where
  uses : r.used ≠ []
  blames : r.result = none → r.reports ≠ []

/-- The tokens at which reading goes on: those that are left or, if reading got stuck, those from
the next boundary between statements on. -/
def Reading.onward {limit : Nat} {α : Type} : Reading limit α → List Token
  | .done _ rest _ _ => rest
  | .stuck rest _ _ => resume rest

/-- The loop that reads a phrase in each round goes from `ts` through the given rounds, and is over
in front of `rest`. -/
inductive Rounds {α : Type} (ended : List Token → Prop)
    (read : (ts : List Token) → Reading ts.length α) :
    List Token → List (Round α) → List Token → Prop where
  | ended {ts : List Token} (h : ended ts) : Rounds ended read ts [] ts
  | next {ts later rest : List Token} {r : Round α} {rounds : List (Round α)} (going : ¬ ended ts)
    (split : ts = r.used ++ later) (result : (read ts).result? = r.result)
    (reports : (read ts).reports = r.reports) (onward : (read ts).onward = later)
    (others : Rounds ended read later rounds rest) : Rounds ended read ts (r :: rounds) rest

namespace Reading

variable {limit : Nat} {α β : Type} {endLine : Int} {ts : List Token}

theorem result_recover (r : Reading limit α) (positive : 0 < limit) :
    (r.recover positive).result = r.result? := by
  cases r <;> rfl

theorem rest_recover (r : Reading limit α) (positive : 0 < limit) :
    (r.recover positive).rest = r.onward := by
  cases r <;> rfl

theorem reports_recover (r : Reading limit α) (positive : 0 < limit) :
    (r.recover positive).reports = r.reports := by
  cases r <;> rfl

theorem length_onward_lt (r : Reading limit α) (positive : 0 < limit) : r.onward.length < limit :=
  r.rest_recover positive ▸ (r.recover positive).shorter

theorem onward_of_result? {r : Reading limit α} {a : α} (h : r.result? = some a) :
    r.onward = r.rest := by
  cases r with
  | done => rfl
  | stuck => cases h

theorem onward_suffix {r : Reading limit α} (h : r.rest <:+ ts) : r.onward <:+ ts := by
  cases r with
  | done => exact h
  | stuck rest => exact ((resume_suffix rest).trans (List.tail_suffix rest)).trans h

/-- What is left are tokens that were there, and there is a report if reading got stuck. -/
structure Accounts (ts : List Token) (r : Reading limit α) : Prop where
  suffix : r.rest <:+ ts
  blames : r.result? = none → r.reports ≠ []

theorem Persists.accounts {limit' : Nat} {p : Prop} {c : Rereading} {g : α → α}
    {r : Reading limit α}
    {r' : p → Reading limit' α} (h : Persists c g ts r r') : r.Accounts ts := by
  refine ⟨h.suffix, fun hstuck hnil => ?_⟩
  obtain ⟨error, hlast⟩ := h.blames hstuck
  rw [hnil] at hlast
  cases hlast

/-- After the rounds of a loop a last phrase is read. If it is there, the results of the rounds are
the result of the whole. -/
structure Follows {limit' : Nat} (whole : Reading limit (List α)) (rounds : List (Round α))
    (last : Reading limit' β) : Prop where
  result : whole.result? = last.result?.map fun _ => rounds.filterMap Round.result
  rest : whole.rest = last.rest
  reports : whole.reports = rounds.flatMap Round.reports ++ last.reports

theorem Follows.cons {limit' limit'' : Nat} {whole : Reading limit (List α)}
    {inner : Reading limit'' (List α)} {r : Round α} {rounds : List (Round α)}
    {last : Reading limit' β} (h : inner.Follows rounds last)
    (hresult : whole.result? = inner.result?.map (r.result.toList ++ ·))
    (hrest : whole.rest = inner.rest) (hreports : whole.reports = r.reports ++ inner.reports) :
    whole.Follows (r :: rounds) last := by
  refine ⟨?_, hrest.trans h.rest, ?_⟩
  · rw [hresult, h.result, Option.map_map]
    cases hr : r.result <;> simp [hr, Function.comp_def]
  · rw [hreports, h.reports, List.flatMap_cons, List.append_assoc]

end Reading

namespace Rounds

open Reading

variable {α : Type} {ended : List Token → Prop} {read : (ts : List Token) → Reading ts.length α}
  {ts rest : List Token} {rounds : List (Round α)}

/-- All tokens are used up by the rounds but those in front of which the loop is over. -/
theorem used (h : Rounds ended read ts rounds rest) : ts = rounds.flatMap Round.used ++ rest := by
  induction h with
  | ended => rfl
  | next _ split _ _ _ _ ih => rw [split, ih, List.flatMap_cons, List.append_assoc]

theorem ended_rest (h : Rounds ended read ts rounds rest) : ended rest := by
  induction h with
  | ended h => exact h
  | next _ _ _ _ _ _ ih => exact ih

/-- A round begins with the tokens that are there. -/
theorem exists_round (hne : ts ≠ []) (h : (read ts).Accounts ts) :
    ∃ r : Round α, r.Advances ∧ ts = r.used ++ (read ts).onward ∧ (read ts).result? = r.result ∧
      (read ts).reports = r.reports := by
  obtain ⟨front, hfront⟩ := onward_suffix h.suffix
  refine ⟨⟨front, (read ts).result?, (read ts).reports⟩, ⟨?_, h.blames⟩, hfront.symm, rfl, rfl⟩
  rintro rfl
  -- If no token were used, then reading would go on with all of them, and it goes on with fewer.
  have hlt := (read ts).length_onward_lt (List.length_pos_iff.2 hne)
  rw [show (read ts).onward = ts from hfront] at hlt
  exact Nat.lt_irrefl _ hlt

/-- A loop that is over at the end of the tokens comes to its end. -/
theorem exists_of_accounts (ended : List Token → Prop) (hempty : ended [])
    (h : ∀ ts, (read ts).Accounts ts) (ts : List Token) :
    ∃ rounds rest, Rounds ended read ts rounds rest ∧ ∀ r ∈ rounds, r.Advances := by
  by_cases hended : ended ts
  · exact ⟨[], ts, .ended hended, by simp⟩
  · have hne : ts ≠ [] := by
      rintro rfl
      exact hended hempty
    obtain ⟨r, hr, hsplit, hresult, hreports⟩ := exists_round hne (h ts)
    have hlt := (read ts).length_onward_lt (List.length_pos_iff.2 hne)
    obtain ⟨rounds, rest, hrounds, hadvance⟩ := exists_of_accounts ended hempty h (read ts).onward
    exact ⟨r :: rounds, rest, .next hended hsplit hresult hreports rfl hrounds,
      List.forall_mem_cons.2 ⟨hr, hadvance⟩⟩
termination_by ts.length

theorem length_le_length_used (h : ∀ r ∈ rounds, r.Advances) :
    rounds.length ≤ (rounds.flatMap Round.used).length := by
  induction rounds with
  | nil => exact Nat.le_refl _
  | cons r rounds ih =>
    rw [List.forall_mem_cons] at h
    have hpos : 0 < r.used.length := List.length_pos_iff.2 h.1.uses
    have hlater := ih h.2
    rw [List.flatMap_cons, List.length_append, List.length_cons]
    omega

/-- The rounds lead from `ts` to `rest`, and each of them brings the loop nearer to its end. -/
structure Progress (ts : List Token) (rounds : List (Round α)) (rest : List Token) : Prop where
  advance : ∀ r ∈ rounds, r.Advances
  used : ts = rounds.flatMap Round.used ++ rest
  count : rounds.length + rest.length ≤ ts.length

theorem progress (h : Rounds ended read ts rounds rest) (hadvance : ∀ r ∈ rounds, r.Advances) :
    Progress ts rounds rest := by
  have hcount := length_le_length_used hadvance
  have hlength := congrArg List.length h.used
  rw [List.length_append] at hlength
  exact ⟨hadvance, h.used, by omega⟩

end Rounds

/-! ### The three loops -/

namespace Stmt

open Reading

variable {endLine : Int} {ts rest : List Token}

theorem accounts_readDeclaration (endLine : Int) (ts : List Token) :
    (readDeclaration endLine ts).Accounts ts :=
  (persists_readDeclaration (.moving endLine id) ts).accounts

theorem accounts_readFunction (endLine : Int) (what : String) (ts : List Token) :
    (readFunction endLine what ts).Accounts ts :=
  (persists_readFunction (p := True) (persistsBelow (.moving endLine id) _)
    (Nat.lt_succ_self ts.length)).accounts

end Stmt

/-- There is no token left, or the next one is a closing brace. -/
def Token.AtClosing (ts : List Token) : Prop := ∀ t ∈ ts.head?, t.word = .symbol .rightBrace

namespace Token.AtClosing

theorem nil : AtClosing [] := by simp [AtClosing]

theorem cons_iff {t : Token} {ts : List Token} :
    AtClosing (t :: ts) ↔ t.word = .symbol .rightBrace := by
  simp [AtClosing]

end Token.AtClosing

namespace Stmt

open Reading

variable {endLine : Int} {ts rest : List Token}

/-- Read the brace that closes a block or the body of a class. -/
def readClosing (endLine : Int) (what : String) (ts : List Token) : Reading ts.length Token :=
  expect endLine (.symbol .rightBrace) ("'\x7d' after " ++ what) ts

theorem readBlock_of_atClosing (h : Token.AtClosing ts) :
    (readBlock endLine ts).Follows [] (readClosing endLine "block" ts) := by
  cases ts with
  | nil =>
    rw [readBlock]
    exact ⟨rfl, rfl, rfl⟩
  | cons t later =>
    have ht := Token.AtClosing.cons_iff.1 h
    rw [readBlock, if_pos ht, readClosing, expect, if_pos ht]
    exact ⟨rfl, rfl, rfl⟩

theorem readMethods_of_atClosing (h : Token.AtClosing ts) :
    (readMethods endLine ts).Follows [] (readClosing endLine "class body" ts) := by
  cases ts with
  | nil =>
    rw [readMethods]
    exact ⟨rfl, rfl, rfl⟩
  | cons t later =>
    have ht := Token.AtClosing.cons_iff.1 h
    rw [readMethods, if_pos ht, readClosing, expect, if_pos ht]
    exact ⟨rfl, rfl, rfl⟩

theorem readBlock_of_going (endLine : Int) (h : ¬ Token.AtClosing ts) :
    let first := readDeclaration endLine ts
    let later := readBlock endLine first.onward
    (readBlock endLine ts).result? = later.result?.map (first.result?.toList ++ ·) ∧
      (readBlock endLine ts).rest = later.rest ∧
      (readBlock endLine ts).reports = first.reports ++ later.reports := by
  intro first later
  cases ts with
  | nil => exact absurd .nil h
  | cons t rest =>
    have ht : t.word ≠ .symbol .rightBrace := fun ht => h (Token.AtClosing.cons_iff.2 ht)
    have hrest := rest_recover first (Nat.succ_pos _)
    rw [readBlock, if_neg ht]
    simp only [result?_reporting, result?_map, result?_weaken, rest_reporting, rest_map,
      rest_weaken, reports_reporting, reports_map, reports_weaken, result_recover, reports_recover]
    rw [hrest]
    exact ⟨rfl, rfl, rfl⟩

/-- What has been read in the rounds of its loop is in the block, if a brace closes it. -/
theorem readBlock_of_rounds {rounds : List (Round (Stmt Unit))}
    (h : Rounds Token.AtClosing (readDeclaration endLine) ts rounds rest) :
    (readBlock endLine ts).Follows rounds (readClosing endLine "block" rest) := by
  induction h with
  | ended h => exact readBlock_of_atClosing h
  | next going _ result reports onward _ ih =>
    obtain ⟨hresult, hrest, hreports⟩ := readBlock_of_going endLine going
    rw [onward] at hresult hrest hreports
    rw [result] at hresult
    rw [reports] at hreports
    exact ih.cons hresult hrest hreports

/-- The methods of a class are closed, or the next one gets stuck. -/
def MethodsOver (endLine : Int) (ts : List Token) : Prop :=
  Token.AtClosing ts ∨ (readFunction endLine "method" ts).result? = none

theorem readMethods_of_going (h : ¬ Token.AtClosing ts) :
    readMethods endLine ts = (readFunction endLine "method" ts).andThen fun method rest _ =>
      (readMethods endLine rest).map (method :: ·) := by
  cases ts with
  | nil => exact absurd .nil h
  | cons t rest =>
    have ht : t.word ≠ .symbol .rightBrace := fun ht => h (Token.AtClosing.cons_iff.2 ht)
    rw [readMethods, if_neg ht]

theorem readMethods_of_stuck (h : ¬ Token.AtClosing ts)
    (hstuck : (readFunction endLine "method" ts).result? = none) :
    (readMethods endLine ts).Follows [] (readFunction endLine "method" ts) := by
  obtain ⟨hlen, hread⟩ := exists_stuck hstuck rfl rfl
  rw [readMethods_of_going h, hread]
  exact ⟨rfl, rfl, rfl⟩

theorem readMethods_of_method {method : Function Unit} (h : ¬ Token.AtClosing ts)
    (hmethod : (readFunction endLine "method" ts).result? = some method) :
    let first := readFunction endLine "method" ts
    let later := readMethods endLine first.rest
    (readMethods endLine ts).result? = later.result?.map (method :: ·) ∧
      (readMethods endLine ts).rest = later.rest ∧
      (readMethods endLine ts).reports = first.reports ++ later.reports := by
  intro first later
  obtain ⟨hlen, hread⟩ := exists_done hmethod rfl rfl
  rw [readMethods_of_going h, hread, andThen]
  simp only [later, result?_reporting, result?_map, result?_weaken, rest_reporting, rest_map,
    rest_weaken, reports_reporting, reports_map, reports_weaken]
  exact ⟨rfl, rfl, rfl⟩

/-- What has been read in the rounds of its loop are the methods of the class, if a brace closes
it. -/
theorem readMethods_of_rounds {β : Type} {limit : Nat} {last : Reading limit β}
    {rounds : List (Round (Function Unit))}
    (h : Rounds (MethodsOver endLine) (readFunction endLine "method") ts rounds rest)
    (hlast : (readMethods endLine rest).Follows [] last) :
    (readMethods endLine ts).Follows rounds last := by
  induction h with
  | ended => exact hlast
  | @next ts later rest r rounds going _ result reports onward _ ih =>
    obtain ⟨hnot, hsome⟩ := not_or.1 going
    obtain ⟨method, hmethod⟩ := Option.ne_none_iff_exists'.1 hsome
    have hr : r.result = some method := result.symm.trans hmethod
    obtain ⟨hresult, hrest, hreports⟩ := readMethods_of_method hnot hmethod
    rw [← onward_of_result? hmethod, onward] at hresult hrest hreports
    rw [reports] at hreports
    exact (ih hlast).cons (by simpa [hr] using hresult) hrest hreports

end Stmt

namespace Source

variable {endLine : Int} {ts : List Token}

theorem ofTokens_of_ne_nil (h : ts ≠ []) :
    let first := Stmt.readDeclaration endLine ts
    let later := ofTokens endLine first.onward
    ofTokens endLine ts =
      ⟨first.result?.toList ++ later.program, first.reports ++ later.diagnostics⟩ := by
  intro first later
  cases ts with
  | nil => exact absurd rfl h
  | cons t rest =>
    rw [ofTokens]
    simp only [Reading.result_recover, Reading.rest_recover, Reading.reports_recover]
    rfl

/-- A program is what the rounds of its loop have read. -/
theorem ofTokens_of_rounds {rest : List Token} {rounds : List (Round (Stmt Unit))}
    (h : Rounds (· = []) (Stmt.readDeclaration endLine) ts rounds rest) :
    ofTokens endLine ts = ⟨rounds.filterMap Round.result, rounds.flatMap Round.reports⟩ := by
  induction h with
  | ended h =>
    subst h
    rw [ofTokens]
    rfl
  | @next ts later rest r rounds going _ result reports onward _ ih =>
    rw [ofTokens_of_ne_nil going, onward, result, reports, ih, List.flatMap_cons]
    cases hr : r.result <;> simp [hr]

/-- **Reading comes to an end.** From whatever tokens, each of the three loops goes through rounds
that use up a token each, and that report something if they drop what they read.

* The loop over a program is over when there are no tokens left. What it has read is the program.
* The loop over a block is over at a closing brace or when there are no tokens left, and then the
  brace is read.
* The loop over the methods of a class is over at these places too. It is also left where a method
  gets stuck, with a report. -/
theorem reading_comes_to_an_end (endLine : Int) (ts : List Token) :
    (∃ rounds, Rounds (· = []) (Stmt.readDeclaration endLine) ts rounds [] ∧
      Rounds.Progress ts rounds [] ∧
      ofTokens endLine ts = ⟨rounds.filterMap Round.result, rounds.flatMap Round.reports⟩) ∧
    (∃ rounds rest, Rounds Token.AtClosing (Stmt.readDeclaration endLine) ts rounds rest ∧
      Rounds.Progress ts rounds rest ∧ Token.AtClosing rest ∧
      (Stmt.readBlock endLine ts).Follows rounds (Stmt.readClosing endLine "block" rest)) ∧
    (∃ rounds rest,
      Rounds (Stmt.MethodsOver endLine) (Stmt.readFunction endLine "method") ts rounds rest ∧
      Rounds.Progress ts rounds rest ∧
      ((Token.AtClosing rest ∧ (Stmt.readMethods endLine ts).Follows rounds
          (Stmt.readClosing endLine "class body" rest)) ∨
        ((Stmt.readFunction endLine "method" rest).result? = none ∧
          (Stmt.readFunction endLine "method" rest).reports ≠ [] ∧
          (Stmt.readFunction endLine "method" rest).rest <:+ rest ∧
          (Stmt.readMethods endLine ts).Follows rounds
            (Stmt.readFunction endLine "method" rest)))) := by
  have hdeclaration := Stmt.accounts_readDeclaration endLine
  have hmethod := Stmt.accounts_readFunction endLine "method"
  refine ⟨?_, ?_, ?_⟩
  · obtain ⟨rounds, rest, h, hadvance⟩ := Rounds.exists_of_accounts (· = []) rfl hdeclaration ts
    obtain rfl : rest = [] := h.ended_rest
    exact ⟨rounds, h, h.progress hadvance, ofTokens_of_rounds h⟩
  · obtain ⟨rounds, rest, h, hadvance⟩ :=
      Rounds.exists_of_accounts Token.AtClosing .nil hdeclaration ts
    exact ⟨rounds, rest, h, h.progress hadvance, h.ended_rest, Stmt.readBlock_of_rounds h⟩
  · obtain ⟨rounds, rest, h, hadvance⟩ :=
      Rounds.exists_of_accounts (Stmt.MethodsOver endLine) (.inl .nil) hmethod ts
    refine ⟨rounds, rest, h, h.progress hadvance, ?_⟩
    by_cases hclosing : Token.AtClosing rest
    · exact .inl ⟨hclosing, Stmt.readMethods_of_rounds h (Stmt.readMethods_of_atClosing hclosing)⟩
    · have hstuck := h.ended_rest.resolve_left hclosing
      exact .inr ⟨hstuck, (hmethod rest).blames hstuck, (hmethod rest).suffix,
        Stmt.readMethods_of_rounds h (Stmt.readMethods_of_stuck hclosing hstuck)⟩

end Source

end LoxLang
