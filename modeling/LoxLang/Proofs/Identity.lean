import LoxLang.Proofs.Equality

/-!
# Identity and contents

A list or a map is equal to itself without a look inside (`Value.equal_succ`). Here that is compared
with the equality that always looks inside (`Value.sameContents`), and with what a comparison with a
new list or map of the same contents gives (`Store.rebuild`). They agree unless there is a NaN among
the elements or values, which is equal to nothing when it is looked at
(`Value.identity_is_contents`).
-/

namespace LoxLang

variable {σ : Scoping}

/-! ### Making a list or a map anew -/

/-- What has been taken in is at a new place. -/
theorem Arena.ne_alloc {region : Region} {α : Type} {arena : Arena region α} {ref : Ref region}
    (x : α) (h : arena.Holds ref) : ref ≠ (arena.alloc x).1 := by
  rintro rfl
  exact Nat.lt_irrefl _ h

namespace Entries

/-- The map that comes of writing pairs one after another. -/
def ofPairs (ps : PairList) : Entries :=
  (Request.run answer .empty (ps.map fun p => .write p.1 p.2)).2

/-- Writing the entries that a map lacks, in their order, makes it complete. -/
theorem run_write {all : Entries} (hkeyed : all.Keyed) {es : List (Key × Value × Value)}
    {entries : Entries} (hall : all.entries = entries.entries ++ es) :
    (Request.run answer entries (es.map fun e => .write e.2.1 e.2.2)).2 = all := by
  induction es generalizing entries with
  | nil =>
    rw [List.append_nil] at hall
    exact (Table.mk.injEq ..).mpr hall.symm
  | cons e es ih =>
    have hkey : Key.ofValue? e.2.1 = some e.1 := hkeyed e (by simp [hall])
    have hnew : ¬ entries.contains e.1 = true := by
      -- The key is further back in the map, and no key comes twice.
      have hnodup := all.nodup
      rw [hall, List.map_append, List.nodup_append] at hnodup
      rw [Table.contains_iff_mem_keys]
      exact fun hmem => hnodup.2.2 e.1 hmem e.1 List.mem_cons_self rfl
    have hnext : all.entries = (entries.answer (.write e.2.1 e.2.2)).2.entries ++ es := by
      rw [answer_write hkey, Table.entries_insert, if_neg hnew, hall, List.append_assoc]
      rfl
    exact ih hnext

/-- A map is what writing its pairs gives. -/
theorem ofPairs_pairs {entries : Entries} (h : entries.Keyed) :
    ofPairs entries.pairs = entries := by
  rw [ofPairs, pairs, List.map_map]
  exact run_write h rfl

end Entries

namespace Store

/-- A new list of the same elements, or a new map that the same pairs have been written to. -/
def rebuild (s : Store σ) : Value → Value × Store σ
  | .list ref => s.newList (s.lists.get ref)
  | .map ref => s.newMap (.ofPairs (s.maps.get ref).pairs)
  | v => (v, s)

/-- The value is a list or a map of the store. -/
inductive Keeps (s : Store σ) : Value → Prop where
  | list {ref : Ref .list} (h : s.lists.Holds ref) : Keeps s (.list ref)
  | map {ref : Ref .map} (h : s.maps.Holds ref) : Keeps s (.map ref)

/-- Every map is as some requests have left it. -/
def Written (s : Store σ) : Prop :=
  ∀ ref, ∃ rs, s.maps.get ref = (Entries.Request.run Entries.answer .empty rs).2

/-- The elements of a list, or the values in a map. -/
def contents (s : Store σ) : Value → List Value
  | .list ref => (s.lists.get ref).toList
  | .map ref => (s.maps.get ref).pairs.map Prod.snd
  | _ => []

/-- There is a NaN among the elements of the list, or among the values in the map. -/
def hasNaN (s : Store σ) (v : Value) : Bool := (s.contents v).any Value.isNaN

variable {s : Store σ} {v w : Value}

theorem hasNaN_eq_false_iff : s.hasNaN v = false ↔ ∀ w ∈ s.contents v, w.isNaN = false := by
  simp [hasNaN]

theorem Written.keyed (h : s.Written) (ref : Ref .map) : (s.maps.get ref).Keyed := by
  obtain ⟨rs, hrs⟩ := h ref
  rw [hrs]
  exact Entries.keyed_empty.run rs

theorem written_of_maps_empty (h : s.maps = .empty) : s.Written :=
  fun ref => ⟨[], by rw [h]; exact Arena.get_of_not_holds (Nat.not_lt_zero _)⟩

theorem holds_of_mem_contents (h : w ∈ s.contents v) : Value.Holds s v w := by
  cases v with
  | list ref => exact .element h
  | map ref =>
    obtain ⟨p, hp, rfl⟩ := List.mem_map.1 h
    exact (Value.holds_of_mem_pairs hp).2
  | _ => cases h

/-- What is in a list or a map is one of its contents or a key, and no key is a list or a map. -/
theorem Written.mem_contents_or (hs : s.Written) (h : Value.Holds s v w) :
    w ∈ s.contents v ∨ w.isContainer = false := by
  cases h with
  | element h => exact .inl h
  | key h => exact .inr ((hs.keyed _).not_isContainer h)
  | value h => exact .inl (List.mem_map_of_mem (List.mem_map_of_mem h))

end Store

namespace Value

variable {s : Store σ} {a b : Value} {depth : Nat}

theorem isNaN_of_isContainer (h : a.isContainer = true) : a.isNaN = false := by
  cases a with
  | number => cases h
  | _ => rfl

theorem not_holds_of_isContainer_eq_false {w : Value} (h : a.isContainer = false) :
    ¬ Holds s a w := by
  rintro (_ | _ | _) <;> cases h

/-! ### A comparison that always looks inside -/

/-- The two values have the same contents. This looks also into a list or a map that is compared
with itself. -/
def sameContents (s : Store σ) : (depth : Nat) → Value → Value → Except Halt Bool
  | 0, _, _ => .error .exhausted
  | depth + 1, a, b => a.matchContents s (sameContents s depth) b

/-- A value matches itself exactly if its contents are related to themselves. -/
theorem matches_self_iff {R : Value → Value → Prop} :
    Matches s R a a ↔ a.isNaN = false ∧ ∀ w ∈ s.contents a, R w w := by
  constructor
  · intro h
    cases h with
    | number h => exact ⟨(Number.beq_self_iff _).1 h, by simp [Store.contents]⟩
    | list h => exact ⟨rfl, List.forall₂_same.1 h⟩
    | map h =>
      refine ⟨rfl, fun w hw => ?_⟩
      obtain ⟨p, hp, rfl⟩ := List.mem_map.1 hw
      obtain ⟨e, he, rfl⟩ := List.mem_map.1 hp
      have hvalue := Entries.valueAt?_eq_some_iff.2 ⟨e.2.1, he⟩
      exact h.values e.1 _ _ hvalue hvalue
    | same hcontainer hnan =>
      refine ⟨hnan, fun w hw => ?_⟩
      exact absurd (Store.holds_of_mem_contents hw) (not_holds_of_isContainer_eq_false hcontainer)
  · rintro ⟨hnan, hR⟩
    cases a with
    | list ref => exact .list (List.forall₂_same.2 hR)
    | map ref =>
      refine .map ⟨fun _ => Iff.rfl, fun key v w hv hw => ?_⟩
      obtain rfl : v = w := Option.some.inj (hv.symm.trans hw)
      obtain ⟨shown, hmem⟩ := Entries.valueAt?_eq_some_iff.1 hv
      exact hR v (List.mem_map_of_mem (List.mem_map_of_mem hmem))
    | _ => exact .same rfl hnan

theorem sameContents_self_iff :
    a.sameContents s (depth + 1) a = .ok true ↔
      a.isNaN = false ∧ ∀ w ∈ s.contents a, w.sameContents s depth w = .ok true :=
  matchContents_eq_true_iff.trans matches_self_iff

theorem exists_sameContents (h : ¬ Nested s depth a) (b : Value) :
    ∃ answer, a.sameContents s depth b = .ok answer := by
  induction depth generalizing a b with
  | zero => exact absurd trivial h
  | succ depth ih => exact exists_matchContents fun w hw => ih fun hnested => h ⟨w, hw, hnested⟩

/-- Where no NaN is looked at, it makes no difference to look inside of what is the same. -/
theorem equal_eq_sameContents (hnot : ¬ Nested s depth a)
    (hhas : ∀ w, s.Occurs w a → s.hasNaN w = false) (b : Value) :
    a.equal s depth b = a.sameContents s depth b := by
  induction depth generalizing a b with
  | zero => rfl
  | succ depth ih =>
    have hdeep (w : Value) (hw : Holds s a w) : ¬ Nested s depth w :=
      fun hnested => hnot ⟨w, hw, hnested⟩
    have hinside (w : Value) (hw : Holds s a w) (v : Value) :
        w.equal s depth v = w.sameContents s depth v :=
      ih (hdeep w hw) (fun u hu => hhas u (hu.head hw)) v
    rw [equal_succ]
    by_cases hsame : a = b ∧ a.isContainer = true
    · obtain ⟨rfl, hcontainer⟩ := hsame
      rw [if_pos ⟨rfl, hcontainer⟩]
      refine (sameContents_self_iff.2 ⟨isNaN_of_isContainer hcontainer, fun w hw => ?_⟩).symm
      have hnan : w.isNaN = false := Store.hasNaN_eq_false_iff.1 (hhas a .refl) w hw
      have hholds : Holds s a w := Store.holds_of_mem_contents hw
      rw [← hinside w hholds w]
      cases depth with
      | zero => exact absurd trivial (hdeep w hholds)
      | succ depth => rw [equal_self, hnan, Bool.not_false]
    · rw [if_neg hsame]
      obtain ⟨answer, hanswer⟩ :=
        exists_matchContents (b := b) fun w hw => exists_equal (hdeep w hw)
      rw [hanswer]
      exact (matchContents_of_imp (fun w hw v found hfound => hinside w hw v ▸ hfound) hanswer).symm

/-- A value that has the same contents as itself has no NaN in it. -/
theorem hasNaN_eq_false_of_sameContents_self (hs : s.Written) {w : Value} (hw : s.Occurs w a)
    (h : a.sameContents s depth a = .ok true) : s.hasNaN w = false := by
  induction hw using Relation.ReflTransGen.head_induction_on generalizing depth with
  | refl =>
    cases depth with
    | zero => cases h
    | succ depth =>
      refine Store.hasNaN_eq_false_iff.2 fun u hu => ?_
      have hself := (sameContents_self_iff.1 h).2 u hu
      cases depth with
      | zero => cases hself
      | succ depth => exact (sameContents_self_iff.1 hself).1
  | head hholds hrest ih =>
    cases depth with
    | zero => cases h
    | succ depth =>
      rcases hs.mem_contents_or hholds with hmem | hkey
      · exact ih ((sameContents_self_iff.1 h).2 _ hmem)
      · -- Nothing is in a key.
        obtain rfl | ⟨u, hu, -⟩ := Relation.ReflTransGen.cases_head hrest
        · refine Store.hasNaN_eq_false_iff.2 fun u hu => ?_
          exact absurd (Store.holds_of_mem_contents hu) (not_holds_of_isContainer_eq_false hkey)
        · exact absurd hu (not_holds_of_isContainer_eq_false hkey)

/-! ### A comparison with a new list or map -/

/-- Values that are compared with themselves are equal up to NaN. -/
theorem allPairs_map_self (s : Store σ) (depth : Nat) (l : List Value) :
    allPairs (equal s (depth + 1)) (l.map fun v => (v, v)) = .ok (!l.any isNaN) := by
  induction l with
  | nil => rfl
  | cons v l ih =>
    rw [List.map_cons, allPairs_cons (equal_self s depth v), ih, List.any_cons]
    cases v.isNaN <;> rfl

/-- Two lists with the same elements are equal up to NaN. -/
theorem equal_list_of_eq {x y : Ref .list} (hne : x ≠ y) (h : s.lists.get x = s.lists.get y)
    (depth : Nat) : equal s (depth + 2) (.list x) (.list y) = .ok (!s.hasNaN (.list x)) := by
  have hzip : (s.lists.get y).toList.zip (s.lists.get y).toList =
      (s.contents (.list x)).map fun v => (v, v) := by
    rw [Store.contents, h]
    simpa using List.zip_map' (f := id) (g := id) (l := (s.lists.get y).toList)
  rw [equal_succ, if_neg fun hsame => hne (Value.list.inj hsame.1), matchContents, h, if_pos rfl,
    hzip]
  exact allPairs_map_self s depth _

/-- Two maps with the same entries are equal up to NaN. -/
theorem equal_map_of_eq {x y : Ref .map} (hne : x ≠ y) (h : s.maps.get x = s.maps.get y)
    (depth : Nat) : equal s (depth + 2) (.map x) (.map y) = .ok (!s.hasNaN (.map x)) := by
  have hkeys : sameKeys (s.maps.get y) (s.maps.get y) = true :=
    Entries.sameKeys_iff.2 fun _ => Iff.rfl
  have hvalues : (s.maps.get y).valuesWith (s.maps.get y) =
      (s.contents (.map x)).map fun v => (v, v) := by
    rw [Entries.valuesWith, Store.contents, h, Entries.pairs, List.map_map, List.map_map]
    refine List.map_congr_left fun e he => ?_
    rw [Entries.valueAt?_eq_some_iff.2 ⟨e.2.1, he⟩]
    rfl
  rw [equal_succ, if_neg fun hsame => hne (Value.map.inj hsame.1), matchContents, h, if_pos hkeys,
    hvalues]
  exact allPairs_map_self s depth _

/-- A list or a map is equal to a new one with the same contents unless there is a NaN in them. -/
theorem equal_rebuild (hs : s.Written) (h : s.Keeps a) (depth : Nat) :
    a.equal (s.rebuild a).2 (depth + 2) (s.rebuild a).1 = .ok (!s.hasNaN a) := by
  cases h with
  | @list ref h =>
    have hold : (s.rebuild (.list ref)).2.lists.get ref = s.lists.get ref :=
      Arena.get_alloc_of_holds _ h
    have hnew : (s.rebuild (.list ref)).2.lists.get (s.lists.alloc (s.lists.get ref)).1 =
        s.lists.get ref := Arena.get_alloc_self ..
    refine (equal_list_of_eq (Arena.ne_alloc _ h) (hold.trans hnew.symm) depth).trans ?_
    rw [Store.hasNaN, Store.hasNaN, Store.contents, Store.contents, hold]
  | @map ref h =>
    have hold : (s.rebuild (.map ref)).2.maps.get ref = s.maps.get ref :=
      Arena.get_alloc_of_holds _ h
    have hnew : (s.rebuild (.map ref)).2.maps.get
        (s.maps.alloc (Entries.ofPairs (s.maps.get ref).pairs)).1 = s.maps.get ref :=
      (Arena.get_alloc_self ..).trans (Entries.ofPairs_pairs (hs.keyed ref))
    refine (equal_map_of_eq (Arena.ne_alloc _ h) (hold.trans hnew.symm) depth).trans ?_
    rw [Store.hasNaN, Store.hasNaN, Store.contents, Store.contents, hold]

theorem isNaN_of_keeps (h : s.Keeps a) : a.isNaN = false := by
  cases h <;> rfl

/-- **Identity is contents, but for NaN.** A list or a map is equal to itself, and to a new one of
the same contents exactly if there is no NaN among its elements or values.

If there is no such NaN anywhere in it, then it makes no difference to any comparison with it
whether one looks into lists and maps that are the same. If there is one, then it makes a difference
to the comparison with itself. -/
theorem identity_is_contents (s : Store σ) (hs : s.Written) (h : s.Keeps a) (ha : s.Acyclic a) :
    (∀ depth, a.equal (s.rebuild a).2 (depth + 2) a = .ok true ∧
      a.equal (s.rebuild a).2 (depth + 2) (s.rebuild a).1 = .ok (!s.hasNaN a)) ∧
    ∀ depth, s.containers < depth →
      ((∀ w, s.Occurs w a → s.hasNaN w = false) →
        ∀ b, a.equal s depth b = a.sameContents s depth b) ∧
      ((∃ w, s.Occurs w a ∧ s.hasNaN w = true) →
        a.equal s depth a = .ok true ∧ a.sameContents s depth a = .ok false) := by
  have hself (t : Store σ) (depth : Nat) : a.equal t (depth + 1) a = .ok true := by
    rw [equal_self, isNaN_of_keeps h, Bool.not_false]
  refine ⟨fun depth => ⟨hself _ _, equal_rebuild hs h depth⟩, fun depth hdepth => ?_⟩
  have hnot : ¬ Nested s depth a := ha.not_nested hdepth
  refine ⟨equal_eq_sameContents hnot, ?_⟩
  rintro ⟨w, hw, hhas⟩
  obtain ⟨depth, rfl⟩ := Nat.exists_eq_add_one_of_ne_zero (Nat.ne_zero_of_lt hdepth)
  obtain ⟨answer, hanswer⟩ := exists_sameContents hnot a
  refine ⟨hself s depth, ?_⟩
  cases answer with
  | false => exact hanswer
  | true =>
    rw [hasNaN_eq_false_of_sameContents_self hs hw hanswer] at hhas
    cases hhas

/-- A list whose only element is a list of NaN is equal to a new list of that list, but not if one
looks into the list of NaN. -/
theorem identity_is_contents_inner :
    let s : Store .bound := { (.ofMemory .empty : Store .bound) with
      lists := ⟨#[#[.list ⟨1⟩], #[.number .notANumber]]⟩ }
    s.Written ∧ s.Keeps (.list ⟨0⟩) ∧ s.Acyclic (.list ⟨0⟩) ∧
      equal (s.rebuild (.list ⟨0⟩)).2 2 (.list ⟨0⟩) (s.rebuild (.list ⟨0⟩)).1 = .ok true ∧
      equal s 3 (.list ⟨0⟩) (.list ⟨0⟩) = .ok true ∧
      sameContents s 3 (.list ⟨0⟩) (.list ⟨0⟩) = .ok false := by
  intro s
  have hwritten : s.Written := Store.written_of_maps_empty rfl
  have hkeeps : s.Keeps (.list ⟨0⟩) := .list (Nat.zero_lt_succ _)
  have hnot : ¬ Nested s 3 (.list ⟨0⟩) := by decide +kernel
  have hacyclic : s.Acyclic (.list ⟨0⟩) := Store.acyclic_of_not_nested hnot
  have hinner : s.Occurs (.list ⟨1⟩) (.list ⟨0⟩) := .single (.element (by decide))
  have hhas : s.hasNaN (.list ⟨0⟩) = false ∧ s.hasNaN (.list ⟨1⟩) = true := by decide +kernel
  obtain ⟨hcopy, hdeep⟩ := identity_is_contents s hwritten hkeeps hacyclic
  have hdiffer := (hdeep 3 (by decide)).2 ⟨_, hinner, hhas.2⟩
  refine ⟨hwritten, hkeeps, hacyclic, ?_, hdiffer.1, hdiffer.2⟩
  rw [(hcopy 0).2, hhas.1, Bool.not_false]

/-- A list with a NaN in it is equal to itself, but not to a new list of the same elements. -/
theorem identity_hides_nan :
    let s : Store .bound := { (.ofMemory .empty : Store .bound) with
      lists := ⟨#[#[.number .notANumber]]⟩ }
    s.Acyclic (.list ⟨0⟩) ∧
      equal (s.rebuild (.list ⟨0⟩)).2 2 (.list ⟨0⟩) (.list ⟨0⟩) = .ok true ∧
      equal (s.rebuild (.list ⟨0⟩)).2 2 (.list ⟨0⟩) (s.rebuild (.list ⟨0⟩)).1 = .ok false := by
  intro s
  have hkeeps : s.Keeps (.list ⟨0⟩) := .list (Nat.zero_lt_succ _)
  have hnot : ¬ Nested s 2 (.list ⟨0⟩) := by decide +kernel
  have hhas : s.hasNaN (.list ⟨0⟩) = true := by decide +kernel
  refine ⟨Store.acyclic_of_not_nested hnot, equal_self .., ?_⟩
  rw [equal_rebuild (Store.written_of_maps_empty rfl) hkeeps 0, hhas, Bool.not_true]

end Value

end LoxLang
