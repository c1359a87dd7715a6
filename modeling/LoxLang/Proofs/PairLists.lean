import LoxLang.Scoping.Frames
import LoxLang.Value.Equality
import Mathlib

/-!
# Maps as lists of pairs

A map finds its entries by `Key`, and that two values have the same key is one thing; that they are
equal as values is another, which is defined elsewhere and by itself. The two agree on all values
that can be keys, apart from NaN (`Value.key_eq_iff`).

So a map is an ordered list of pairs that is searched with the equality of values (`PairList`).
Every sequence of requests to a map is answered as by such a list, and leaves the same pairs in the
same order (`Entries.requests_are_answered_by_pairs`).
-/

namespace LoxLang

variable {σ : Scoping}

/-! ### Keys and equal values -/

theorem Number.beq_self_iff (x : Number) : (x == x) = true ↔ x.isNaN = false := by simp

/-- Numbers other than NaN are equal if they are the same after minus zero has been made zero. -/
theorem Number.zeroed_eq_iff_beq {x : Number} (y : Number) (hx : x.isNaN = false) :
    (if x == 0 then 0 else x) = (if y == 0 then 0 else y) ↔ (x == y) = true := by
  have hzero : ((0 : Number) == 0) = true := by decide
  have hminus : ((-0 : Number) == 0) = true := by decide
  split <;> split <;> rename_i h h'
  · exact iff_of_true rfl (BEq.trans h (BEq.symm h'))
  · refine iff_of_false (fun heq => h' (heq ▸ hzero)) fun hxy => h' (BEq.trans (BEq.symm hxy) h)
  · refine iff_of_false (fun heq => h (heq ▸ hzero)) fun hxy => h (BEq.trans hxy h')
  · constructor
    · rintro rfl
      exact (beq_self_iff x).2 hx
    -- Neither is zero, so equal numbers are the same.
    · intro hxy
      obtain ⟨-, -, heq | ⟨rfl, -⟩ | ⟨rfl, -⟩⟩ := Float.beq_iff_ne_nan_and_eq.1 hxy
      · exact heq
      · exact absurd hzero h
      · exact absurd hminus h

namespace Value

/-- The value is a list or a map. -/
def isContainer : Value → Bool
  | .list _ | .map _ => true
  | _ => false

/-- The value is NaN. -/
def isNaN : Value → Bool
  | .number x => x.isNaN
  | _ => false

/-- The two values are found to be equal. -/
def equals (s : Store σ) (depth : Nat) (a b : Value) : Bool :=
  match a.equal s depth b with
  | .ok answer => answer
  | .error _ => false

theorem equals_iff {s : Store σ} {depth : Nat} {a b : Value} :
    a.equals s depth b = true ↔ a.equal s depth b = .ok true := by
  unfold equals
  cases a.equal s depth b <;> simp

theorem ofValue?_eq_none_iff (v : Value) : Key.ofValue? v = none ↔ v.isContainer = true := by
  cases v <;> simp [Key.ofValue?, isContainer]

theorem isContainer_of_some {v : Value} {key : Key} (h : Key.ofValue? v = some key) :
    v.isContainer = false := by
  rw [← Bool.not_eq_true, ← ofValue?_eq_none_iff, h]
  simp

/-- Whatever a key is compared with, there is an answer. -/
theorem exists_equal_of_isKey (s : Store σ) (depth : Nat) {a : Value} (b : Value)
    (ha : a.isContainer = false) : ∃ found, a.equal s (depth + 1) b = .ok found := by
  cases a with
  | list => cases ha
  | map => cases ha
  | _ => cases b <;> exact ⟨_, rfl⟩

/-- Values have the same key exactly if they are equal. -/
theorem key_eq_iff (s : Store σ) (depth : Nat) {a : Value} (b : Value) (ha : a.isContainer = false)
    (hn : a.isNaN = false) :
    Key.ofValue? a = Key.ofValue? b ↔ a.equal s (depth + 1) b = .ok true := by
  cases a with
  | number x =>
    cases b with
    | number y => simpa [Key.ofValue?, equal] using Number.zeroed_eq_iff_beq y hn
    | _ => simp [Key.ofValue?, equal]
  | list => cases ha
  | map => cases ha
  | _ => cases b <;> simp [Key.ofValue?, equal]

end Value

/-! ### Requests -/

namespace Entries

/-- What can be asked of a map. -/
inductive Request where
  | read (key : Value)
  | write (key value : Value)
  | remove (key : Value)
  | take (key : Value)
  | has (key : Value)
  | size
  | keys
deriving DecidableEq, Repr

/-- What a request is answered with. -/
inductive Answer where
  | done
  | value (v : Value)
  | truth (b : Bool)
  | count (n : Nat)
  | keys (ks : List Value)
  | refused (why : Defect)
deriving DecidableEq, Repr

namespace Request

/-- The key that a request is about. -/
def key? : Request → Option Value
  | read key | write key _ | remove key | take key | has key => some key
  | size | keys => none

/-- The answer to a request about a list or a map as a key. -/
def refusal : Request → Answer
  | has _ => .truth false
  | _ => .refused .notKey

/-- Answer requests one after another. -/
def run {α : Type} (answer : α → Request → Answer × α) : α → List Request → List Answer × α
  | a, [] => ([], a)
  | a, r :: rs =>
    let (first, a) := answer a r
    let (later, a) := run answer a rs
    (first :: later, a)

end Request

/-- The answer that comes of an operation, and the map after it. If the operation is refused, the
map stays as it is. -/
def settle {α : Type} (entries : Entries) (outcome : Except Defect α) (f : α → Answer × Entries) :
    Answer × Entries :=
  match outcome with
  | .ok a => f a
  | .error why => (.refused why, entries)

/-- Answer a request. -/
def answer (entries : Entries) : Request → Answer × Entries
  | .read key => entries.settle (entries.read key) fun v => (.value v, entries)
  | .write key value => entries.settle (entries.write key value) fun written => (.done, written)
  | .remove key => entries.settle (entries.remove key) fun left => (.done, left)
  | .take key =>
    entries.settle (entries.take key) fun (found, left) => (.value (found.getD .nil), left)
  | .has key => (.truth (entries.has key), entries)
  | .size => (.count entries.size, entries)
  | .keys => (.keys entries.shownKeys, entries)

end Entries

/-- Pairs of a key and a value, in order. -/
abbrev PairList := List (Value × Value)

namespace PairList

open Entries (Request Answer)

variable (eq : Value → Value → Bool)

/-- There is a pair with an equal key. -/
def has (ps : PairList) (key : Value) : Bool := ps.any fun p => eq p.1 key

/-- The value of the pair with an equal key. -/
def get? (ps : PairList) (key : Value) : Option Value := (ps.find? fun p => eq p.1 key).map Prod.snd

/-- Put a pair in the place of the one with an equal key, or at the end if there is none. -/
def put (ps : PairList) (key value : Value) : PairList :=
  if ps.has eq key then ps.map fun p => if eq p.1 key then (key, value) else p
  else ps ++ [(key, value)]

/-- Take out the pair with an equal key. -/
def erase (ps : PairList) (key : Value) : PairList := ps.filter fun p => !eq p.1 key

/-- Answer a request. A list and a map are refused as keys. -/
def answer (ps : PairList) : Request → Answer × PairList
  | .read key =>
    if key.isContainer then (.refused .notKey, ps)
    else ((ps.get? eq key).elim (.refused .noEntry) .value, ps)
  | .write key value =>
    if key.isContainer then (.refused .notKey, ps) else (.done, ps.put eq key value)
  | .remove key =>
    if key.isContainer then (.refused .notKey, ps)
    else if ps.has eq key then (.done, ps.erase eq key) else (.refused .noEntry, ps)
  | .take key =>
    if key.isContainer then (.refused .notKey, ps)
    else (.value ((ps.get? eq key).getD .nil), ps.erase eq key)
  | .has key => (.truth (ps.has eq key), ps)
  | .size => (.count ps.length, ps)
  | .keys => (.keys (ps.map Prod.fst), ps)

end PairList

/-! ### The pairs of a map -/

namespace Entries

/-- The keys, as they were last written, with their values. -/
def pairs (entries : Entries) : PairList := entries.entries.map Prod.snd

/-- Every entry is found by the key that it shows. -/
def Keyed (entries : Entries) : Prop := ∀ e ∈ entries.entries, Key.ofValue? e.2.1 = some e.1

/-- No key is NaN. -/
def NoNaN (entries : Entries) : Prop := ∀ p ∈ entries.pairs, p.1.isNaN = false

theorem keyed_empty : Keyed .empty := by simp [Keyed, Table.empty]

theorem noNaN_empty : NoNaN .empty := by simp [NoNaN, pairs, Table.empty]

variable {entries : Entries} {v value : Value} {key : Key}

theorem Keyed.insert (h : entries.Keyed) (hv : Key.ofValue? v = some key) :
    Keyed (Table.insert entries key (v, value)) :=
  Table.forall_entries_insert h hv

theorem Keyed.erase (h : entries.Keyed) : Keyed (Table.erase entries key) :=
  fun e he => h e (List.mem_filter.1 he).1

theorem NoNaN.insert (hn : entries.NoNaN) (hv : v.isNaN = false) :
    NoNaN (Table.insert entries key (v, value)) := by
  intro p hp
  obtain ⟨e, he, rfl⟩ := List.mem_map.1 hp
  exact Table.forall_entries_insert (P := fun e => e.2.1.isNaN = false)
    (fun old hold => hn old.2 (List.mem_map_of_mem hold)) hv e he

theorem NoNaN.erase (hn : entries.NoNaN) : NoNaN (Table.erase entries key) := by
  intro p hp
  obtain ⟨e, he, rfl⟩ := List.mem_map.1 hp
  exact hn e.2 (List.mem_map_of_mem (List.mem_filter.1 he).1)

section

variable (s : Store σ) (depth : Nat)

theorem Keyed.not_isContainer (h : entries.Keyed) {e : Key × Value × Value}
    (he : e ∈ entries.entries) : e.2.1.isContainer = false :=
  Value.isContainer_of_some (h e he)

/-- An entry has a key exactly if what it shows is equal to a value with that key. -/
theorem Keyed.decide_eq (h : entries.Keyed) (hn : entries.NoNaN) (hv : Key.ofValue? v = some key)
    {e : Key × Value × Value} (he : e ∈ entries.entries) :
    decide (e.1 = key) = e.2.1.equals s (depth + 1) v := by
  have hnan : e.2.1.isNaN = false := hn e.2 (List.mem_map_of_mem he)
  rw [Bool.eq_iff_iff, decide_eq_true_eq, Value.equals_iff,
    ← Value.key_eq_iff s depth v (h.not_isContainer he) hnan, h e he, hv, Option.some.injEq]

variable (h : entries.Keyed) (hn : entries.NoNaN) (hv : Key.ofValue? v = some key)
include h hn hv

theorem pairs_erase :
    pairs (Table.erase entries key) = entries.pairs.erase (Value.equals s (depth + 1)) v := by
  unfold pairs Table.erase PairList.erase
  rw [List.filter_map]
  refine congrArg _ (List.filter_congr fun e he => ?_)
  rw [h.decide_eq s depth hn hv he]
  rfl

theorem map_get? :
    (entries.get? key).map Prod.snd = entries.pairs.get? (Value.equals s (depth + 1)) v := by
  unfold pairs Table.get? PairList.get?
  rw [List.find?_map, Option.map_map, Option.map_map, ← List.head?_filter, ← List.head?_filter]
  refine congrArg (fun es => Option.map _ (List.head? es)) (List.filter_congr fun e he => ?_)
  exact h.decide_eq s depth hn hv he

theorem contains_eq_has :
    entries.contains key = entries.pairs.has (Value.equals s (depth + 1)) v := by
  unfold Table.contains PairList.has pairs
  rw [List.any_map, Bool.eq_iff_iff, List.any_eq_true, List.any_eq_true]
  refine exists_congr fun e => and_congr_right fun he => ?_
  rw [h.decide_eq s depth hn hv he]
  rfl

theorem pairs_insert : pairs (Table.insert entries key (v, value)) =
    entries.pairs.put (Value.equals s (depth + 1)) v value := by
  have hcontains := contains_eq_has s depth h hn hv
  rw [pairs, Table.entries_insert, PairList.put, ← hcontains]
  by_cases hkey : entries.contains key = true
  · rw [if_pos hkey, if_pos hkey, pairs, List.map_map, List.map_map]
    refine List.map_congr_left fun e he => ?_
    have htest := h.decide_eq s depth hn hv he
    by_cases heq : e.1 = key <;> simp [Table.setEntry, heq, ← htest]
  · rw [if_neg hkey, if_neg hkey, pairs, List.map_append]
    rfl

end

/-- A list or a map is equal to no key. -/
theorem Keyed.not_has (s : Store σ) (depth : Nat) (h : entries.Keyed) (hn : entries.NoNaN)
    (hv : Key.ofValue? v = none) : entries.pairs.has (Value.equals s (depth + 1)) v = false := by
  rw [← Bool.not_eq_true, PairList.has, List.any_eq_true]
  rintro ⟨p, hp, hequal⟩
  obtain ⟨e, he, rfl⟩ := List.mem_map.1 hp
  have hcontainer : e.2.1.isContainer = false := h.not_isContainer he
  rw [Value.equals_iff, ← Value.key_eq_iff s depth v hcontainer (hn e.2 hp), h e he, hv] at hequal
  cases hequal

/-! ### What comes of the operations -/

theorem read_of_key (hv : Key.ofValue? v = some key) :
    entries.read v = (entries.get? key).elim (.error .noEntry) fun found => .ok found.2 := by
  rw [Entries.read, Entries.key, hv]
  simp only [bind, Except.bind]
  cases entries.get? key <;> rfl

theorem write_of_key (hv : Key.ofValue? v = some key) :
    entries.write v value = .ok (Table.insert entries key (v, value)) := by
  rw [Entries.write, Entries.key, hv]
  rfl

theorem remove_of_key (hv : Key.ofValue? v = some key) : entries.remove v =
    if entries.contains key then .ok (Table.erase entries key) else .error .noEntry := by
  rw [Entries.remove, Entries.key, hv]
  rfl

theorem take_of_key (hv : Key.ofValue? v = some key) :
    entries.take v = .ok ((entries.get? key).map Prod.snd, Table.erase entries key) := by
  rw [Entries.take, Entries.key, hv]
  rfl

theorem answer_write (hv : Key.ofValue? v = some key) :
    (entries.answer (.write v value)).2 = Table.insert entries key (v, value) := by
  rw [answer, write_of_key hv]
  rfl

/-- A list or a map is refused as a key, and has no entry. -/
theorem answer_of_container (entries : Entries) {r : Request} (hr : r.key? = some v)
    (hv : Key.ofValue? v = none) : entries.answer r = (r.refusal, entries) := by
  cases r <;> cases hr <;>
    simp [answer, settle, Request.refusal, Entries.read, Entries.write, Entries.remove,
      Entries.take, Entries.has, Entries.key, hv, bind, Except.bind]

theorem answer_changes_of_key (entries : Entries) {r : Request} (hr : r.key? = some v)
    (hv : Key.ofValue? v = some key) :
    (entries.answer r).2 = entries ∨
      (∃ value, (entries.answer r).2 = Table.insert entries key (v, value)) ∨
      (entries.answer r).2 = Table.erase entries key := by
  cases r <;> cases hr
  case read =>
    left
    rw [answer, read_of_key hv]
    cases entries.get? key <;> rfl
  case write value => exact .inr (.inl ⟨value, answer_write hv⟩)
  case remove =>
    rw [answer, remove_of_key hv]
    by_cases hkey : entries.contains key = true
    · rw [if_pos hkey]
      exact .inr (.inr rfl)
    · rw [if_neg hkey]
      exact .inl rfl
  case take =>
    refine .inr (.inr ?_)
    rw [answer, take_of_key hv]
    rfl
  case has => exact .inl rfl

/-- A request leaves a map as it is, or writes an entry, or removes one. -/
theorem answer_changes (entries : Entries) (r : Request) :
    (entries.answer r).2 = entries ∨
      (∃ v value key, r.key? = some v ∧ Key.ofValue? v = some key ∧
        (entries.answer r).2 = Table.insert entries key (v, value)) ∨
      ∃ key, (entries.answer r).2 = Table.erase entries key := by
  cases hr : r.key? with
  | none =>
    cases r with
    | size => exact .inl rfl
    | keys => exact .inl rfl
    | _ => cases hr
  | some v =>
    cases hv : Key.ofValue? v with
    | none => exact .inl (congrArg Prod.snd (answer_of_container entries hr hv))
    | some key =>
      rcases answer_changes_of_key entries hr hv with hsame | ⟨value, hinsert⟩ | herase
      · exact .inl hsame
      · exact .inr (.inl ⟨v, value, key, rfl, hv, hinsert⟩)
      · exact .inr (.inr ⟨key, herase⟩)

theorem Keyed.answer (h : entries.Keyed) (r : Request) : (entries.answer r).2.Keyed := by
  rcases entries.answer_changes r with hsame | ⟨v, value, key, -, hv, hinsert⟩ | ⟨key, herase⟩
  · rw [hsame]
    exact h
  · rw [hinsert]
    exact h.insert hv
  · rw [herase]
    exact h.erase

theorem NoNaN.answer (hn : entries.NoNaN) {r : Request} (hr : ∀ v ∈ r.key?, v.isNaN = false) :
    (entries.answer r).2.NoNaN := by
  rcases entries.answer_changes r with hsame | ⟨v, value, key, hkey, -, hinsert⟩ | ⟨key, herase⟩
  · rw [hsame]
    exact hn
  · rw [hinsert]
    exact hn.insert (hr v hkey)
  · rw [herase]
    exact hn.erase

/-! ### Requests and pairs -/

/-- A map answers a request about a key as the list of its pairs does. -/
theorem answer_pairs_of_key (s : Store σ) (depth : Nat) (h : entries.Keyed) (hn : entries.NoNaN)
    {r : Request} (hr : r.key? = some v) (hv : Key.ofValue? v = some key) :
    ((entries.answer r).1, (entries.answer r).2.pairs) =
      entries.pairs.answer (Value.equals s (depth + 1)) r := by
  have hcontainer : v.isContainer = false := Value.isContainer_of_some hv
  have hget := map_get? s depth h hn hv
  have hhas := contains_eq_has s depth h hn hv
  cases r <;> cases hr
  case read =>
    simp only [answer, PairList.answer, hcontainer, read_of_key hv, ← hget]
    cases entries.get? key <;> rfl
  case write value =>
    simp only [answer, PairList.answer, hcontainer, write_of_key hv, settle,
      ← pairs_insert s depth h hn hv]
    rfl
  case remove =>
    simp only [answer, PairList.answer, hcontainer, remove_of_key hv, ← hhas,
      ← pairs_erase s depth h hn hv]
    cases entries.contains key <;> rfl
  case take =>
    simp only [answer, PairList.answer, hcontainer, take_of_key hv, settle, ← hget,
      ← pairs_erase s depth h hn hv]
    rfl
  case has => simp [answer, PairList.answer, Entries.has, hv, hhas]

/-- A map refuses a list or a map as a key as the list of its pairs does. -/
theorem answer_pairs_of_container (s : Store σ) (depth : Nat) (h : entries.Keyed)
    (hn : entries.NoNaN) {r : Request} (hr : r.key? = some v) (hv : Key.ofValue? v = none) :
    ((entries.answer r).1, (entries.answer r).2.pairs) =
      entries.pairs.answer (Value.equals s (depth + 1)) r := by
  have hcontainer : v.isContainer = true := (Value.ofValue?_eq_none_iff v).1 hv
  have hnot := h.not_has s depth hn hv
  rw [answer_of_container entries hr hv]
  cases r <;> cases hr <;> simp [Request.refusal, PairList.answer, hcontainer, hnot]

/-- A map answers a request as the list of its pairs does. -/
theorem answer_pairs (s : Store σ) (depth : Nat) (h : entries.Keyed) (hn : entries.NoNaN)
    (r : Request) :
    ((entries.answer r).1, (entries.answer r).2.pairs) =
      entries.pairs.answer (Value.equals s (depth + 1)) r := by
  cases hr : r.key? with
  | none =>
    cases r with
    | size => simp [answer, PairList.answer, pairs, Table.size]
    | keys => simp [answer, PairList.answer, pairs, shownKeys]
    | _ => cases hr
  | some v =>
    cases hv : Key.ofValue? v with
    | none => exact answer_pairs_of_container s depth h hn hr hv
    | some key => exact answer_pairs_of_key s depth h hn hr hv

theorem Keyed.run (rs : List Request) {entries : Entries} (h : entries.Keyed) :
    (Request.run Entries.answer entries rs).2.Keyed := by
  induction rs generalizing entries with
  | nil => exact h
  | cons r rs ih => exact ih (h.answer r)

theorem NoNaN.run {rs : List Request} {entries : Entries} (hn : entries.NoNaN)
    (hrs : ∀ r ∈ rs, ∀ v ∈ r.key?, v.isNaN = false) :
    (Request.run Entries.answer entries rs).2.NoNaN := by
  induction rs generalizing entries with
  | nil => exact hn
  | cons r rs ih =>
    rw [List.forall_mem_cons] at hrs
    exact ih (hn.answer hrs.1) hrs.2

/-- A map answers requests as the list of its pairs does. -/
theorem run_pairs (s : Store σ) (depth : Nat) {rs : List Request} {entries : Entries}
    (h : entries.Keyed) (hn : entries.NoNaN) (hrs : ∀ r ∈ rs, ∀ v ∈ r.key?, v.isNaN = false) :
    let after := Request.run answer entries rs
    (after.1, after.2.pairs) =
      Request.run (PairList.answer (Value.equals s (depth + 1))) entries.pairs rs := by
  induction rs generalizing entries with
  | nil => rfl
  | cons r rs ih =>
    rw [List.forall_mem_cons] at hrs
    have hrun := ih (h.answer r) (hn.answer hrs.1) hrs.2
    simp only [Request.run, ← answer_pairs s depth h hn r, ← hrun]

/-- No two keys of a map are equal. -/
theorem Keyed.pairwise (s : Store σ) (depth : Nat) (h : entries.Keyed) (hn : entries.NoNaN) :
    entries.pairs.Pairwise fun p q => p.1.equals s (depth + 1) q.1 = false := by
  have hdistinct : entries.entries.Pairwise fun e f => e.1 ≠ f.1 :=
    List.pairwise_map.1 entries.nodup
  refine List.pairwise_map.2 (hdistinct.imp_of_mem fun {e f} he hf hne => ?_)
  rw [← h.decide_eq s depth hn (h f hf) he]
  exact decide_eq_false hne

/-- **Maps are lists of pairs.** Whatever is asked of a map, one request after another and about
keys other than NaN, it gives the answers of a list of pairs that is searched with the equality of
values, and in the end its pairs are those of the list, in the same order. No two of its keys are
equal. A list or a map is refused as a key and changes nothing.

This is so because two values have the same key exactly if they are equal: true is not 1, nil is not
false, 1 is not the text `1`, but zero is minus zero. -/
theorem requests_are_answered_by_pairs (s : Store σ) (depth : Nat) (rs : List Request)
    (hrs : ∀ r ∈ rs, ∀ v ∈ r.key?, v.isNaN = false) :
    let eq := Value.equals s (depth + 1)
    let after := Request.run answer .empty rs
    (after.1, after.2.pairs) = Request.run (PairList.answer eq) [] rs ∧
      after.2.pairs.Pairwise (fun p q => eq p.1 q.1 = false) ∧
      (∀ (entries : Entries) (r : Request) (v : Value), r.key? = some v → v.isContainer = true →
        entries.answer r = (r.refusal, entries)) ∧
      (∀ a b : Value, a.isContainer = false → a.isNaN = false →
        (∃ found, a.equal s (depth + 1) b = .ok found) ∧
          (Key.ofValue? a = Key.ofValue? b ↔ a.equal s (depth + 1) b = .ok true)) ∧
      Key.ofValue? (.bool true) ≠ Key.ofValue? (.number 1) ∧
      Key.ofValue? .nil ≠ Key.ofValue? (.bool false) ∧
      Key.ofValue? (.number 1) ≠ Key.ofValue? (.string "1") ∧
      Key.ofValue? (.number 0) = Key.ofValue? (.number (-0)) := by
  intro eq after
  have hrun := run_pairs s depth keyed_empty noNaN_empty hrs
  have hdistinct := (keyed_empty.run rs).pairwise s depth (noNaN_empty.run hrs)
  refine ⟨hrun, hdistinct, fun entries r v hr hv => ?_, fun a b ha hn => ?_, ?_⟩
  · exact answer_of_container entries hr ((Value.ofValue?_eq_none_iff v).2 hv)
  · exact ⟨Value.exists_equal_of_isKey s depth b ha, Value.key_eq_iff s depth b ha hn⟩
  · refine ⟨by simp [Key.ofValue?], by simp [Key.ofValue?], by simp [Key.ofValue?], ?_⟩
    exact (Value.key_eq_iff s depth _ rfl rfl).2 (by simp [Value.equal]; decide)

/-- Minus zero takes the place of zero, and 1 goes to the end after it has been removed. -/
theorem requests_are_answered_by_pairs_rewritten :
    let store : Store .bound := .ofMemory .empty
    let rs : List Request := [.write (.number 1) .nil, .write (.number 0) .nil,
      .write (.bool true) .nil, .write (.number (-0)) (.bool false), .take (.list ⟨0⟩),
      .remove (.number 1), .remove (.number 1), .write (.number 1) .nil, .keys]
    let answers : List Answer := [.done, .done, .done, .done, .refused .notKey, .done,
      .refused .noEntry, .done, .keys [.number (-0), .bool true, .number 1]]
    (∀ r ∈ rs, ∀ v ∈ r.key?, v.isNaN = false) ∧
      (answers, [(.number (-0), .bool false), (.bool true, .nil), (.number 1, .nil)]) =
        Request.run (PairList.answer (Value.equals store 1)) [] rs := by
  intro store rs answers
  have hrs : (rs.all fun r => r.key?.all fun v => !v.isNaN) = true := by decide +kernel
  have hno : ∀ r ∈ rs, ∀ v ∈ r.key?, v.isNaN = false := by
    intro r hr v hv
    have hall := List.all_eq_true.1 hrs r hr
    rw [Option.mem_def.1 hv, Option.all_some, Bool.not_eq_true'] at hall
    exact hall
  refine ⟨hno, ?_⟩
  have hafter : (Request.run answer .empty rs).1 = answers ∧
      (Request.run answer .empty rs).2.pairs =
        [(.number (-0), .bool false), (.bool true, .nil), (.number 1, .nil)] := by decide +kernel
  rw [← (requests_are_answered_by_pairs store 0 rs hno).1, hafter.1, hafter.2]

end Entries

end LoxLang
