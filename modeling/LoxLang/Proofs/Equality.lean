import LoxLang.Proofs.Nesting
import LoxLang.Proofs.PairLists

/-!
# Equality is an equivalence

The comparison of two values goes down level by level. `Value.equal_succ` says what one level is:
the same list or map is equal to itself, and otherwise the contents are matched
(`Value.matchContents`), with the level below as the test. What it is for contents to match is a
relation (`Value.Matches`) that is symmetric and transitive if the test is, and so values that are
equal at some depth are so too.

None of this depends on how deeply the values are nested. That a comparison gives an answer at all
does: only what does not contain itself can be looked through to the end (`Value.exists_equal`).
-/

namespace LoxLang

variable {σ : Scoping}

namespace Value

/-! ### Tests on pairs of values -/

section

variable {test : Value → Value → Except Halt Bool} {pairs : List (Value × Value)}

theorem allPairs_cons {p : Value × Value} {answer : Bool} (h : test p.1 p.2 = .ok answer) :
    allPairs test (p :: pairs) = if answer then allPairs test pairs else .ok false := by
  simp only [allPairs, h, bind, Except.bind]
  rfl

theorem allPairs_eq_true_iff :
    allPairs test pairs = .ok true ↔ ∀ p ∈ pairs, test p.1 p.2 = .ok true := by
  induction pairs with
  | nil => simp [allPairs, pure, Except.pure]
  | cons p pairs ih =>
    rw [List.forall_mem_cons, ← ih]
    cases htest : test p.1 p.2 with
    | error why => simp [allPairs, htest, bind, Except.bind]
    | ok answer => cases answer <;> simp [allPairs_cons htest]

/-- If every test has an answer then all of them together have one. -/
theorem exists_allPairs (h : ∀ p ∈ pairs, ∃ answer, test p.1 p.2 = .ok answer) :
    ∃ answer, allPairs test pairs = .ok answer := by
  induction pairs with
  | nil => exact ⟨true, rfl⟩
  | cons p pairs ih =>
    rw [List.forall_mem_cons] at h
    obtain ⟨answer, hanswer⟩ := h.1
    rw [allPairs_cons hanswer]
    cases answer with
    | false => exact ⟨false, rfl⟩
    | true => exact ih h.2

/-- The answer stays if every test keeps its own. -/
theorem allPairs_of_imp {other : Value → Value → Except Halt Bool} {answer : Bool}
    (h : ∀ p ∈ pairs, ∀ b, test p.1 p.2 = .ok b → other p.1 p.2 = .ok b)
    (hall : allPairs test pairs = .ok answer) : allPairs other pairs = .ok answer := by
  induction pairs with
  | nil => exact hall
  | cons p pairs ih =>
    rw [List.forall_mem_cons] at h
    cases htest : test p.1 p.2 with
    | error why => simp [allPairs, htest, bind, Except.bind] at hall
    | ok b =>
      rw [allPairs_cons htest] at hall
      rw [allPairs_cons (h.1 b htest)]
      cases b with
      | false => exact hall
      | true => exact ih h.2 hall

end

end Value

/-! ### The values in a map -/

theorem Table.get?_eq_some_iff {κ α : Type} [DecidableEq κ] (t : Table κ α) (k : κ) (v : α) :
    t.get? k = some v ↔ (k, v) ∈ t.entries := by
  constructor
  · intro h
    obtain ⟨e, he, rfl⟩ := Option.map_eq_some_iff.1 h
    have hkey : e.1 = k := by simpa using List.find?_some he
    exact hkey ▸ List.mem_of_find?_eq_some he
  · intro h
    -- The entry that is found is another one with this key, and no key comes twice.
    have hk : k ∈ t.keys := List.mem_map_of_mem h
    obtain ⟨w, hw⟩ := Option.ne_none_iff_exists'.1 fun hnone => (t.get?_eq_none_iff k).1 hnone hk
    obtain ⟨e, he, rfl⟩ := Option.map_eq_some_iff.1 hw
    have hkey : e.1 = k := by simpa using List.find?_some he
    have hsame := List.inj_on_of_nodup_map t.nodup (List.mem_of_find?_eq_some he) h hkey
    rw [hw, hsame]

namespace Entries

/-- The value at a key. -/
def valueAt? (entries : Entries) (key : Key) : Option Value := (entries.get? key).map Prod.snd

variable {entries xs ys : Entries}

theorem valueAt?_eq_some_iff {key : Key} {v : Value} :
    entries.valueAt? key = some v ↔ ∃ shown, (key, shown, v) ∈ entries.entries := by
  rw [valueAt?, Option.map_eq_some_iff]
  constructor
  · rintro ⟨⟨shown, v⟩, hget, rfl⟩
    exact ⟨shown, (entries.get?_eq_some_iff _ _).1 hget⟩
  · rintro ⟨shown, hmem⟩
    exact ⟨(shown, v), (entries.get?_eq_some_iff _ _).2 hmem, rfl⟩

theorem length_keys (entries : Entries) : entries.keys.length = entries.size :=
  List.length_map ..

/-- Two maps have the same keys exactly if each has all keys of the other. -/
theorem sameKeys_iff : Value.sameKeys xs ys = true ↔ ∀ key, key ∈ xs.keys ↔ key ∈ ys.keys := by
  rw [Value.sameKeys, Bool.and_eq_true, decide_eq_true_eq, List.all_eq_true, ← length_keys,
    ← length_keys]
  constructor
  · rintro ⟨hsize, hall⟩ key
    have hsubset : xs.keys ⊆ ys.keys := fun k hk => (ys.contains_iff_mem_keys k).1 (hall k hk)
    have hperm : xs.keys.Perm ys.keys :=
      (List.subperm_of_subset xs.nodup hsubset).perm_of_length_le hsize.ge
    exact hperm.mem_iff
  · intro h
    have hperm : xs.keys.Perm ys.keys := (List.perm_ext_iff_of_nodup xs.nodup ys.nodup).2 h
    exact ⟨hperm.length_eq, fun k hk => (ys.contains_iff_mem_keys k).2 ((h k).1 hk)⟩

/-- The values at the keys of the first map, each with the value that the second one has there. -/
def valuesWith (xs ys : Entries) : List (Value × Value) :=
  xs.entries.map fun e => (e.2.2, (ys.valueAt? e.1).getD .nil)

theorem mapM_eq_ok {α β : Type} {f : α → Except Halt β} {g : α → β} {l : List α}
    (h : ∀ a ∈ l, f a = .ok (g a)) : l.mapM f = .ok (l.map g) := by
  induction l with
  | nil => rfl
  | cons a l ih =>
    rw [List.forall_mem_cons] at h
    rw [List.mapM_cons, h.1, ih h.2]
    rfl

theorem mapM_withOther (h : ∀ key ∈ xs.keys, key ∈ ys.keys) :
    xs.entries.mapM (Value.withOther ys) = .ok (xs.valuesWith ys) := by
  refine mapM_eq_ok fun e he => ?_
  have hkey : e.1 ∈ ys.keys := h e.1 (List.mem_map_of_mem he)
  unfold Value.withOther valueAt?
  cases hget : ys.get? e.1 with
  | none => exact absurd hkey ((ys.get?_eq_none_iff e.1).1 hget)
  | some found => rfl

theorem valueAt?_eq_none_iff {key : Key} : entries.valueAt? key = none ↔ key ∉ entries.keys := by
  rw [valueAt?, Option.map_eq_none_iff, Table.get?_eq_none_iff]

theorem exists_valueAt? {key : Key} (h : key ∈ entries.keys) :
    ∃ v, entries.valueAt? key = some v :=
  Option.ne_none_iff_exists'.1 fun hnone => valueAt?_eq_none_iff.1 hnone h

/-- The maps have the same keys, and at each of them related values. -/
structure Match (R : Value → Value → Prop) (xs ys : Entries) : Prop where
  keys : ∀ key, key ∈ xs.keys ↔ key ∈ ys.keys
  values : ∀ key v w, xs.valueAt? key = some v → ys.valueAt? key = some w → R v w

theorem match_iff {R : Value → Value → Prop} :
    Match R xs ys ↔ Value.sameKeys xs ys = true ∧ ∀ p ∈ xs.valuesWith ys, R p.1 p.2 := by
  rw [sameKeys_iff, valuesWith, List.forall_mem_map]
  constructor
  · rintro ⟨hkeys, hvalues⟩
    refine ⟨hkeys, fun e he => ?_⟩
    obtain ⟨w, hw⟩ := exists_valueAt? ((hkeys e.1).1 (List.mem_map_of_mem he))
    rw [hw]
    exact hvalues e.1 _ w (valueAt?_eq_some_iff.2 ⟨e.2.1, he⟩) hw
  · rintro ⟨hkeys, hvalues⟩
    refine ⟨hkeys, fun key v w hv hw => ?_⟩
    obtain ⟨shown, hmem⟩ := valueAt?_eq_some_iff.1 hv
    have hrel := hvalues _ hmem
    rw [hw] at hrel
    exact hrel

theorem Match.symm {R S : Value → Value → Prop} (hRS : ∀ a b, R a b → S b a) (h : Match R xs ys) :
    Match S ys xs :=
  ⟨fun key => (h.keys key).symm, fun key v w hv hw => hRS w v (h.values key w v hw hv)⟩

theorem Match.trans {R : Value → Value → Prop} (hR : ∀ a b c, R a b → R b c → R a c)
    {zs : Entries} (hxy : Match R xs ys) (hyz : Match R ys zs) : Match R xs zs := by
  refine ⟨fun key => (hxy.keys key).trans (hyz.keys key), fun key u w hu hw => ?_⟩
  obtain ⟨shown, hmem⟩ := valueAt?_eq_some_iff.1 hu
  obtain ⟨v, hv⟩ := exists_valueAt? ((hxy.keys key).1 (List.mem_map_of_mem hmem))
  exact hR u v w (hxy.values key u v hu hv) (hyz.values key v w hv hw)

end Entries

namespace Value

/-! ### One level of the comparison -/

/-- Compare what is in two lists or maps with a test, and other values by themselves. -/
def matchContents (s : Store σ) (test : Value → Value → Except Halt Bool) (a b : Value) :
    Except Halt Bool :=
  match a, b with
  | .number x, .number y => .ok (x == y)
  | .list x, .list y =>
    let xs := s.lists.get x
    let ys := s.lists.get y
    if xs.size = ys.size then allPairs test (xs.toList.zip ys.toList) else .ok false
  | .map x, .map y =>
    let xs := s.maps.get x
    let ys := s.maps.get y
    if sameKeys xs ys then allPairs test (xs.valuesWith ys) else .ok false
  | a, b => .ok (a = b)

/-- One level of the comparison: the contents are compared unless the two are the same list or
map. -/
theorem equal_succ (s : Store σ) (depth : Nat) (a b : Value) :
    a.equal s (depth + 1) b =
      if a = b ∧ a.isContainer = true then .ok true else a.matchContents s (equal s depth) b := by
  cases a with
  | list x =>
    cases b with
    | list y => simp [equal, matchContents, isContainer]
    | _ => simp [equal, matchContents]
  | map x =>
    cases b with
    | map y =>
      by_cases hxy : x = y
      · simp [equal, isContainer, hxy]
      · by_cases hkeys : sameKeys (s.maps.get x) (s.maps.get y) = true
        · have hpairs := Entries.mapM_withOther fun key => (Entries.sameKeys_iff.1 hkeys key).1
          simp [equal, matchContents, isContainer, hxy, hkeys, hpairs, bind, Except.bind]
        · simp [equal, matchContents, isContainer, hxy, hkeys]
    | _ => simp [equal, matchContents]
  | _ => cases b <;> simp [equal, matchContents, isContainer]

/-- Two values of the same kind, with related contents if they are lists or maps. -/
inductive Matches (s : Store σ) (R : Value → Value → Prop) : Value → Value → Prop where
  | number {x y : Number} (h : (x == y) = true) : Matches s R (.number x) (.number y)
  | list {x y : Ref .list} (h : List.Forall₂ R (s.lists.get x).toList (s.lists.get y).toList) :
    Matches s R (.list x) (.list y)
  | map {x y : Ref .map} (h : (s.maps.get x).Match R (s.maps.get y)) : Matches s R (.map x) (.map y)
  | same {a : Value} (hcontainer : a.isContainer = false) (hnan : a.isNaN = false) : Matches s R a a

variable {s : Store σ} {R : Value → Value → Prop} {test : Value → Value → Except Halt Bool}
  {a b c : Value}

theorem allPairs_zip_iff {xs ys : Elements} :
    (if xs.size = ys.size then allPairs test (xs.toList.zip ys.toList) else .ok false) = .ok true ↔
      List.Forall₂ (fun a b => test a b = .ok true) xs.toList ys.toList := by
  rw [List.forall₂_iff_zip, Array.length_toList, Array.length_toList]
  by_cases hsize : xs.size = ys.size
  · rw [if_pos hsize, allPairs_eq_true_iff]
    exact ⟨fun h => ⟨hsize, fun {_ _} hab => h _ hab⟩, fun h p hp => h.2 hp⟩
  · simp [hsize]

theorem allPairs_valuesWith_iff {xs ys : Entries} :
    (if sameKeys xs ys then allPairs test (xs.valuesWith ys) else .ok false) = .ok true ↔
      xs.Match (fun a b => test a b = .ok true) ys := by
  rw [Entries.match_iff, ← allPairs_eq_true_iff]
  by_cases hkeys : sameKeys xs ys = true <;> simp [hkeys]

theorem matchContents_self (hcontainer : a.isContainer = false) (hnan : a.isNaN = false) :
    a.matchContents s test a = .ok true := by
  cases a with
  | number x => exact congrArg _ ((Number.beq_self_iff x).2 hnan)
  | list x => cases hcontainer
  | map x => cases hcontainer
  | _ => simp [matchContents]

theorem matchContents_eq_true_iff :
    a.matchContents s test b = .ok true ↔ Matches s (fun a b => test a b = .ok true) a b := by
  constructor
  · intro h
    cases a with
    | number x =>
      cases b with
      | number y => exact .number (Except.ok.inj h)
      | _ => simp [matchContents] at h
    | list x =>
      cases b with
      | list y => exact .list (allPairs_zip_iff.1 h)
      | _ => simp [matchContents] at h
    | map x =>
      cases b with
      | map y => exact .map (allPairs_valuesWith_iff.1 h)
      | _ => simp [matchContents] at h
    | _ =>
      obtain rfl := of_decide_eq_true (Except.ok.inj h)
      exact .same rfl rfl
  · intro h
    cases h with
    | number h => exact congrArg _ h
    | list h => exact allPairs_zip_iff.2 h
    | map h => exact allPairs_valuesWith_iff.2 h
    | same hcontainer hnan => exact matchContents_self hcontainer hnan

theorem Matches.symm {S : Value → Value → Prop} (hRS : ∀ a b, R a b → S b a)
    (h : Matches s R a b) : Matches s S b a := by
  cases h with
  | number h => exact .number (BEq.symm h)
  | list h => exact .list (List.Forall₂.flip (h.imp hRS))
  | map h => exact .map (h.symm hRS)
  | same hcontainer hnan => exact .same hcontainer hnan

theorem forall₂_trans (hR : ∀ a b c, R a b → R b c → R a c) {as bs cs : List Value}
    (hab : List.Forall₂ R as bs) (hbc : List.Forall₂ R bs cs) : List.Forall₂ R as cs := by
  induction hab generalizing cs with
  | nil => exact hbc
  | cons hhead _ ih =>
    cases hbc with
    | cons hhead' htail' => exact .cons (hR _ _ _ hhead hhead') (ih htail')

theorem Matches.trans (hR : ∀ a b c, R a b → R b c → R a c) (hab : Matches s R a b)
    (hbc : Matches s R b c) : Matches s R a c := by
  cases hab with
  | number h =>
    cases hbc with
    | number h' => exact .number (BEq.trans h h')
    | same => exact .number h
  | list h =>
    cases hbc with
    | list h' => exact .list (forall₂_trans hR h h')
    | same => exact .list h
  | map h =>
    cases hbc with
    | map h' => exact .map (h.trans hR h')
    | same => exact .map h
  | same => exact hbc

/-! ### Equal values -/

theorem equal_succ_eq_true_iff {depth : Nat} :
    a.equal s (depth + 1) b = .ok true ↔
      (a = b ∧ a.isContainer = true) ∨ Matches s (fun a b => a.equal s depth b = .ok true) a b := by
  rw [equal_succ, ← matchContents_eq_true_iff]
  by_cases hsame : a = b ∧ a.isContainer = true
  · rw [if_pos hsame]
    exact iff_of_true rfl (.inl hsame)
  · rw [if_neg hsame, or_iff_right hsame]

/-- Every value but NaN is equal to itself. -/
theorem equal_self (s : Store σ) (depth : Nat) (a : Value) :
    a.equal s (depth + 1) a = .ok (!a.isNaN) := by
  cases a with
  | number x =>
    refine congrArg Except.ok (Bool.eq_iff_iff.2 ?_)
    rw [Number.beq_self_iff, Bool.not_eq_true', isNaN]
  | _ => simp [equal, isNaN]

theorem equal_symm {depth : Nat} (h : a.equal s depth b = .ok true) :
    b.equal s depth a = .ok true := by
  induction depth generalizing a b with
  | zero => cases h
  | succ depth ih =>
    rcases equal_succ_eq_true_iff.1 h with ⟨rfl, -⟩ | hmatch
    · exact h
    · exact equal_succ_eq_true_iff.2 (.inr (hmatch.symm fun _ _ => ih))

theorem equal_trans {depth : Nat} (hab : a.equal s depth b = .ok true)
    (hbc : b.equal s depth c = .ok true) : a.equal s depth c = .ok true := by
  induction depth generalizing a b c with
  | zero => cases hab
  | succ depth ih =>
    rcases equal_succ_eq_true_iff.1 hab with ⟨rfl, -⟩ | hmatch
    · exact hbc
    · rcases equal_succ_eq_true_iff.1 hbc with ⟨rfl, -⟩ | hmatch'
      · exact hab
      · exact equal_succ_eq_true_iff.2 (.inr (hmatch.trans (fun _ _ _ => ih) hmatch'))

/-- Equal values have the same key. -/
theorem key_eq_of_equal {depth : Nat} (h : a.equal s (depth + 1) b = .ok true)
    (ha : a.isContainer = false) : Key.ofValue? a = Key.ofValue? b := by
  cases hn : a.isNaN with
  | false => exact (key_eq_iff s depth b ha hn).2 h
  | true =>
    have hself := equal_trans h (equal_symm h)
    rw [equal_self, hn] at hself
    cases hself

/-! ### That there is an answer -/

/-- Either the test does not matter, or it is applied to some of what is in the first value. -/
theorem matchContents_cases (s : Store σ) (a b : Value) :
    (∃ answer, ∀ test, a.matchContents s test b = .ok answer) ∨
      ∃ pairs : List (Value × Value), (∀ p ∈ pairs, Holds s a p.1) ∧
        ∀ test, a.matchContents s test b = allPairs test pairs := by
  unfold matchContents
  split
  · exact .inl ⟨_, fun _ => rfl⟩
  · dsimp only
    split
    · exact .inr ⟨_, fun p hp => .element (List.of_mem_zip hp).1, fun _ => rfl⟩
    · exact .inl ⟨false, fun _ => rfl⟩
  · dsimp only
    split
    · refine .inr ⟨_, fun p hp => ?_, fun _ => rfl⟩
      obtain ⟨e, he, rfl⟩ := List.mem_map.1 hp
      exact .value he
    · exact .inl ⟨false, fun _ => rfl⟩
  · exact .inl ⟨_, fun _ => rfl⟩

/-- There is an answer if the test has one for everything in the first value. -/
theorem exists_matchContents (h : ∀ w, Holds s a w → ∀ v, ∃ answer, test w v = .ok answer) :
    ∃ answer, a.matchContents s test b = .ok answer := by
  rcases matchContents_cases s a b with ⟨answer, hall⟩ | ⟨pairs, hholds, hall⟩
  · exact ⟨answer, hall test⟩
  · rw [hall test]
    exact exists_allPairs fun p hp => h p.1 (hholds p hp) p.2

/-- The answer stays if the test keeps its answers for everything in the first value. -/
theorem matchContents_of_imp {other : Value → Value → Except Halt Bool} {answer : Bool}
    (h : ∀ w, Holds s a w → ∀ v b, test w v = .ok b → other w v = .ok b)
    (hmatch : a.matchContents s test b = .ok answer) : a.matchContents s other b = .ok answer := by
  rcases matchContents_cases s a b with ⟨answer', hall⟩ | ⟨pairs, hholds, hall⟩
  · rw [hall other, ← hall test]
    exact hmatch
  · rw [hall] at hmatch ⊢
    exact allPairs_of_imp (fun p hp => h p.1 (hholds p hp) p.2) hmatch

/-- There is an answer if the first value is not nested too deeply. -/
theorem exists_equal {depth : Nat} (h : ¬ Nested s depth a) (b : Value) :
    ∃ answer, a.equal s depth b = .ok answer := by
  induction depth generalizing a b with
  | zero => exact absurd trivial h
  | succ depth ih =>
    rw [equal_succ]
    split
    · exact ⟨true, rfl⟩
    · exact exists_matchContents fun w hw => ih fun hnested => h ⟨w, hw, hnested⟩

/-- An answer stays the same if there is more room. -/
theorem equal_of_equal_pred {depth : Nat} {answer : Bool} (h : a.equal s depth b = .ok answer) :
    a.equal s (depth + 1) b = .ok answer := by
  induction depth generalizing a b answer with
  | zero => cases h
  | succ depth ih =>
    rw [equal_succ] at h ⊢
    split at h
    · rw [if_pos ‹_›]
      exact h
    · rw [if_neg ‹_›]
      exact matchContents_of_imp (fun w _ v b => ih) h

/-- Less room suffices if the first value is not nested too deeply. -/
theorem equal_pred {depth : Nat} {answer : Bool} (hnot : ¬ Nested s depth a)
    (h : a.equal s (depth + 1) b = .ok answer) : a.equal s depth b = .ok answer := by
  obtain ⟨answer', hanswer⟩ := exists_equal hnot b
  rw [equal_of_equal_pred hanswer] at h
  rw [hanswer, h]

end Value

/-! ### Maps with equal pairs -/

namespace PairList

/-- Every pair of the first list has one in the second with an equal key and an equal value. -/
def Within (eq : Value → Value → Bool) (ps qs : PairList) : Prop :=
  ∀ p ∈ ps, ∃ q ∈ qs, eq p.1 q.1 = true ∧ eq p.2 q.2 = true

instance decidableWithin (eq : Value → Value → Bool) (ps qs : PairList) :
    Decidable (ps.Within eq qs) :=
  have (p : Value × Value) : Decidable (∃ q ∈ qs, eq p.1 q.1 = true ∧ eq p.2 q.2 = true) :=
    List.decidableBEx _ qs
  List.decidableBAll _ ps

end PairList

namespace Entries

variable {s : Store σ} {depth : Nat} {xs ys : Entries}

/-- Where every pair of a map has an equal one in another map, there also is an equal value at each
of its keys. -/
theorem valueAt?_of_within (hx : xs.Keyed) (hy : ys.Keyed)
    (h : xs.pairs.Within (Value.equals s (depth + 1)) ys.pairs) {key : Key} {v : Value}
    (hv : xs.valueAt? key = some v) :
    ∃ w, ys.valueAt? key = some w ∧ v.equal s (depth + 1) w = .ok true := by
  obtain ⟨shown, hmem⟩ := valueAt?_eq_some_iff.1 hv
  obtain ⟨q, hq, hkey, hvalue⟩ := h _ (List.mem_map_of_mem hmem)
  obtain ⟨e, he, rfl⟩ := List.mem_map.1 hq
  have hsame : key = e.1 := by
    have hkeys := Value.key_eq_of_equal (Value.equals_iff.1 hkey) (hx.not_isContainer hmem)
    rw [hx _ hmem, hy e he] at hkeys
    exact Option.some.inj hkeys
  rw [hsame]
  exact ⟨e.2.2, valueAt?_eq_some_iff.2 ⟨e.2.1, he⟩, Value.equals_iff.1 hvalue⟩

theorem mem_keys_of_within (hx : xs.Keyed) (hy : ys.Keyed)
    (h : xs.pairs.Within (Value.equals s (depth + 1)) ys.pairs) {key : Key} (hkey : key ∈ xs.keys) :
    key ∈ ys.keys := by
  obtain ⟨v, hv⟩ := exists_valueAt? hkey
  obtain ⟨w, hw, -⟩ := valueAt?_of_within hx hy h hv
  obtain ⟨shown, hmem⟩ := valueAt?_eq_some_iff.1 hw
  exact List.mem_map_of_mem hmem

/-- Maps whose pairs are equal have the same keys and equal values. -/
theorem match_of_within (hx : xs.Keyed) (hy : ys.Keyed)
    (hxy : xs.pairs.Within (Value.equals s (depth + 1)) ys.pairs)
    (hyx : ys.pairs.Within (Value.equals s (depth + 1)) xs.pairs)
    (hnot : ∀ p ∈ xs.pairs, ¬ Value.Nested s depth p.2) :
    xs.Match (fun a b => a.equal s depth b = .ok true) ys := by
  refine ⟨fun key => ⟨mem_keys_of_within hx hy hxy, mem_keys_of_within hy hx hyx⟩, ?_⟩
  intro key v w hv hw
  obtain ⟨w', hw', hequal⟩ := valueAt?_of_within hx hy hxy hv
  obtain ⟨shown, hmem⟩ := valueAt?_eq_some_iff.1 hv
  rw [hw, Option.some.injEq] at hw'
  rw [← hw'] at hequal
  exact Value.equal_pred (hnot _ (List.mem_map_of_mem hmem)) hequal

/-- The pairs of maps with the same keys and equal values are equal. -/
theorem within_of_match (hx : xs.Keyed) (hy : ys.Keyed) (hn : xs.NoNaN)
    (h : xs.Match (fun a b => a.equal s depth b = .ok true) ys) :
    xs.pairs.Within (Value.equals s (depth + 1)) ys.pairs ∧
      ys.pairs.Within (Value.equals s (depth + 1)) xs.pairs := by
  -- Entries with the same key show equal keys and have equal values.
  have hequal : ∀ e ∈ xs.entries, ∀ f ∈ ys.entries, e.1 = f.1 →
      e.2.1.equal s (depth + 1) f.2.1 = .ok true ∧ e.2.2.equal s (depth + 1) f.2.2 = .ok true := by
    intro e he f hf hkey
    constructor
    · refine (Value.key_eq_iff s depth _ (hx.not_isContainer he) ?_).1 ?_
      · exact hn e.2 (List.mem_map_of_mem he)
      · rw [hx e he, hy f hf, hkey]
    · refine Value.equal_of_equal_pred (h.values e.1 _ _ ?_ ?_)
      · exact valueAt?_eq_some_iff.2 ⟨e.2.1, he⟩
      · exact valueAt?_eq_some_iff.2 ⟨f.2.1, hkey ▸ hf⟩
  constructor
  · intro p hp
    obtain ⟨e, he, rfl⟩ := List.mem_map.1 hp
    obtain ⟨f, hf, hkey⟩ := List.mem_map.1 ((h.keys e.1).1 (List.mem_map_of_mem he))
    obtain ⟨hshown, hvalue⟩ := hequal e he f hf hkey.symm
    exact ⟨f.2, List.mem_map_of_mem hf, Value.equals_iff.2 hshown, Value.equals_iff.2 hvalue⟩
  · intro q hq
    obtain ⟨f, hf, rfl⟩ := List.mem_map.1 hq
    obtain ⟨e, he, hkey⟩ := List.mem_map.1 ((h.keys f.1).2 (List.mem_map_of_mem hf))
    obtain ⟨hshown, hvalue⟩ := hequal e he f hf hkey
    exact ⟨e.2, List.mem_map_of_mem he, Value.equals_iff.2 (Value.equal_symm hshown),
      Value.equals_iff.2 (Value.equal_symm hvalue)⟩

end Entries

namespace Store

/-- No NaN occurs in the value. -/
def NaNFree (s : Store σ) (v : Value) : Prop := ∀ w, s.Occurs w v → w.isNaN = false

theorem NaNFree.of_holds {s : Store σ} {v w : Value} (h : s.NaNFree v)
    (hw : Value.Holds s v w) : w.isNaN = false :=
  h w (.single hw)

end Store

namespace Value

open Entries (Request)

variable {s : Store σ} {depth : Nat} {a b c : Value} {x y : Ref .map}

theorem holds_of_mem_pairs {ref : Ref .map} {p : Value × Value} (h : p ∈ (s.maps.get ref).pairs) :
    Holds s (.map ref) p.1 ∧ Holds s (.map ref) p.2 := by
  obtain ⟨entry, hentry, rfl⟩ := List.mem_map.1 h
  exact ⟨.key hentry, .value hentry⟩

theorem within_self (h : s.NaNFree (.map x)) :
    (s.maps.get x).pairs.Within (equals s (depth + 1)) (s.maps.get x).pairs := by
  intro p hp
  have hkey : p.1.isNaN = false := h.of_holds (holds_of_mem_pairs hp).1
  have hvalue : p.2.isNaN = false := h.of_holds (holds_of_mem_pairs hp).2
  refine ⟨p, hp, equals_iff.2 ?_, equals_iff.2 ?_⟩
  · rw [equal_self, hkey, Bool.not_false]
  · rw [equal_self, hvalue, Bool.not_false]

theorem equal_map_of_within (hx : (s.maps.get x).Keyed) (hy : (s.maps.get y).Keyed)
    (hnot : ¬ Nested s (depth + 1) (.map x))
    (hxy : (s.maps.get x).pairs.Within (equals s (depth + 1)) (s.maps.get y).pairs)
    (hyx : (s.maps.get y).pairs.Within (equals s (depth + 1)) (s.maps.get x).pairs) :
    equal s (depth + 1) (.map x) (.map y) = .ok true := by
  refine equal_succ_eq_true_iff.2 (.inr (.map (Entries.match_of_within hx hy hxy hyx ?_)))
  exact fun p hp hnested => hnot ⟨p.2, (holds_of_mem_pairs hp).2, hnested⟩

theorem within_of_equal_map (hx : (s.maps.get x).Keyed) (hy : (s.maps.get y).Keyed)
    (hnan : s.NaNFree (.map x)) (h : equal s (depth + 1) (.map x) (.map y) = .ok true) :
    (s.maps.get x).pairs.Within (equals s (depth + 1)) (s.maps.get y).pairs ∧
      (s.maps.get y).pairs.Within (equals s (depth + 1)) (s.maps.get x).pairs := by
  rcases equal_succ_eq_true_iff.1 h with ⟨hsame, -⟩ | hmatch
  · cases hsame
    exact ⟨within_self hnan, within_self hnan⟩
  · cases hmatch with
    | map hmatch =>
      refine Entries.within_of_match hx hy (fun p hp => ?_) hmatch
      exact hnan.of_holds (holds_of_mem_pairs hp).1
    | same hcontainer => cases hcontainer

theorem equal_mono {more : Nat} {answer : Bool} (hle : depth ≤ more)
    (h : a.equal s depth b = .ok answer) : a.equal s more b = .ok answer := by
  induction hle with
  | refl => exact h
  | step _ ih => exact equal_of_equal_pred ih

/-- Two values that are not nested too deeply have one answer, whichever comes first. -/
theorem exists_equal_both (ha : ¬ Nested s depth a) (hb : ¬ Nested s depth b) :
    ∃ answer, a.equal s depth b = .ok answer ∧ b.equal s depth a = .ok answer := by
  obtain ⟨answer, hab⟩ := exists_equal ha b
  obtain ⟨answer', hba⟩ := exists_equal hb a
  refine ⟨answer, hab, ?_⟩
  rw [hba]
  cases answer with
  | true => rw [← hba, equal_symm hab]
  | false =>
    cases answer' with
    | false => rfl
    | true =>
      rw [equal_symm hba] at hab
      cases hab

/-- **Equality is an equivalence.** Two values that do not contain themselves are compared to the
end, with the same answer either way round, provided that the comparison may go down as many levels
as there are lists and maps, and one more. Then every value but NaN is equal to itself, and what is
equal to an equal value is equal.

Maps are equal whatever has been asked of them before, if only each pair of the one has an equal
pair in the other, and where no NaN occurs there is no other way to be equal. -/
theorem equality_is_equivalence (s : Store σ) (ha : s.Acyclic a) (hb : s.Acyclic b) :
    (∃ answer, ∀ depth, s.containers < depth →
        a.equal s depth b = .ok answer ∧ b.equal s depth a = .ok answer) ∧
      ∀ depth, s.containers < depth →
        (a.equal s depth a = .ok true ↔ a.isNaN = false) ∧
        (a.equal s depth b = .ok true → b.equal s depth c = .ok true →
          a.equal s depth c = .ok true) ∧
        ∀ (x y : Ref .map) (p q : List Request),
          s.maps.get x = (Request.run Entries.answer .empty p).2 →
          s.maps.get y = (Request.run Entries.answer .empty q).2 → s.Acyclic (.map x) →
          let xs := (s.maps.get x).pairs
          let ys := (s.maps.get y).pairs
          let eq := equals s depth
          (xs.Within eq ys → ys.Within eq xs → equal s depth (.map x) (.map y) = .ok true) ∧
          (s.NaNFree (.map x) → equal s depth (.map x) (.map y) = .ok true →
            xs.Within eq ys ∧ ys.Within eq xs) := by
  constructor
  · have hlt : s.containers < s.containers + 1 := s.containers.lt_succ_self
    obtain ⟨answer, hab, hba⟩ := exists_equal_both (ha.not_nested hlt) (hb.not_nested hlt)
    exact ⟨answer, fun depth hdepth => ⟨equal_mono hdepth hab, equal_mono hdepth hba⟩⟩
  · intro depth hdepth
    obtain ⟨depth, rfl⟩ := Nat.exists_eq_add_one_of_ne_zero (Nat.ne_zero_of_lt hdepth)
    refine ⟨by simp [equal_self], equal_trans, fun x y p q hx hy hacyclic => ?_⟩
    have hxs : (s.maps.get x).Keyed := hx ▸ Entries.keyed_empty.run p
    have hys : (s.maps.get y).Keyed := hy ▸ Entries.keyed_empty.run q
    exact ⟨equal_map_of_within hxs hys (hacyclic.not_nested hdepth),
      within_of_equal_map hxs hys⟩

/-- A map with one list at two keys, and a map with an equal list, whose keys come in another
order and of which one is minus zero in place of zero. -/
theorem equality_is_equivalence_reordered :
    let p : List Request := [.write (.string "k") (.list ⟨0⟩), .write (.number 0) (.list ⟨0⟩)]
    let q : List Request := [.write (.string "k") .nil, .write (.number 0) .nil,
      .remove (.string "k"), .write (.number (-0)) (.list ⟨1⟩), .write (.string "k") (.list ⟨1⟩)]
    let s : Store .bound := { (.ofMemory .empty : Store .bound) with
      lists := ⟨#[#[.number 1, .nil], #[.number 1, .nil]]⟩
      maps := ⟨#[(Request.run Entries.answer .empty p).2,
        (Request.run Entries.answer .empty q).2]⟩ }
    s.Acyclic (.map ⟨0⟩) ∧ s.Acyclic (.map ⟨1⟩) ∧
      (s.maps.get ⟨0⟩).shownKeys = [.string "k", .number 0] ∧
      (s.maps.get ⟨1⟩).shownKeys = [.number (-0), .string "k"] ∧
      equal s 5 (.map ⟨0⟩) (.map ⟨1⟩) = .ok true ∧ equal s 5 (.map ⟨1⟩) (.map ⟨0⟩) = .ok true := by
  intro p q s
  have hx : ¬ Nested s 3 (.map ⟨0⟩) := by decide +kernel
  have hy : ¬ Nested s 3 (.map ⟨1⟩) := by decide +kernel
  replace hx : s.Acyclic (.map ⟨0⟩) := Store.acyclic_of_not_nested hx
  replace hy : s.Acyclic (.map ⟨1⟩) := Store.acyclic_of_not_nested hy
  have hdepth : s.containers < 5 := by decide
  obtain ⟨⟨answer, hsymm⟩, hequiv⟩ := equality_is_equivalence (c := .nil) s hx hy
  have hequal : equal s 5 (.map ⟨0⟩) (.map ⟨1⟩) = .ok true :=
    ((hequiv 5 hdepth).2.2 ⟨0⟩ ⟨1⟩ p q rfl rfl hx).1 (by decide +kernel) (by decide +kernel)
  refine ⟨hx, hy, by decide +kernel, by decide +kernel, hequal, ?_⟩
  rw [(hsymm 5 hdepth).2, ← (hsymm 5 hdepth).1]
  exact hequal

end Value

end LoxLang
