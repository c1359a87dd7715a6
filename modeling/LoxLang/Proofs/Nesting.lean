import LoxLang.Store.Basic
import Mathlib.Data.Finset.Card
import Mathlib.Logic.Relation

/-!
# Lists and maps inside of each other

Lists and maps hold other lists and maps, may share them, and may hold themselves. A value is
`Store.Acyclic` if nothing in it contains itself, however deep one looks. On the way into such a
value no list or map comes twice, so that lists and maps are not inside of each other more often
than there are lists and maps in the store (`Store.Acyclic.not_nested`). A value that contains
itself, on the other hand, is nested without end (`Value.nested_of_cycle`).
-/

namespace LoxLang

variable {σ : Scoping}

namespace Value

section

variable (s : Store σ)

/-- The value is in the list or the map. -/
inductive Holds : Value → Value → Prop where
  | element {ref : Ref .list} {v : Value} (h : v ∈ (s.lists.get ref).toList) : Holds (.list ref) v
  | key {ref : Ref .map} {entry : Key × Value × Value} (h : entry ∈ (s.maps.get ref).entries) :
    Holds (.map ref) entry.2.1
  | value {ref : Ref .map} {entry : Key × Value × Value} (h : entry ∈ (s.maps.get ref).entries) :
    Holds (.map ref) entry.2.2

/-- Lists and maps are inside of each other so many times. -/
def Nested : Nat → Value → Prop
  | 0, _ => True
  | depth + 1, v => ∃ w, Holds s v w ∧ Nested depth w

/-- What is in a list or a map. -/
def held : Value → List Value
  | .list ref => (s.lists.get ref).toList
  | .map ref => (s.maps.get ref).entries.flatMap fun entry => [entry.2.1, entry.2.2]
  | _ => []

end

variable {s : Store σ} {v w : Value} {depth : Nat}

theorem holds_iff : Holds s v w ↔ w ∈ held s v := by
  constructor
  · rintro (h | h | h)
    · exact h
    · exact List.mem_flatMap.2 ⟨_, h, List.mem_cons_self⟩
    · exact List.mem_flatMap.2 ⟨_, h, by simp⟩
  · intro h
    cases v with
    | list ref => exact .element h
    | map ref =>
      obtain ⟨entry, hentry, hw⟩ := List.mem_flatMap.1 h
      rcases List.mem_pair.1 hw with rfl | rfl
      · exact .key hentry
      · exact .value hentry
    | _ => cases h

instance decidableNested (s : Store σ) : (depth : Nat) → (v : Value) → Decidable (Nested s depth v)
  | 0, _ => .isTrue trivial
  | depth + 1, v =>
    have := decidableNested s depth
    have := List.decidableBEx (Nested s depth) (held s v)
    decidable_of_decidable_of_iff (exists_congr fun _ => and_congr_left' holds_iff.symm)

theorem Nested.of_succ (h : Nested s (depth + 1) v) : Nested s depth v := by
  induction depth generalizing v with
  | zero => trivial
  | succ depth ih =>
    obtain ⟨w, hw, hnested⟩ := h
    exact ⟨w, hw, ih hnested⟩

theorem Nested.mono {less : Nat} (h : Nested s depth v) (hle : less ≤ depth) : Nested s less v := by
  induction hle with
  | refl => exact h
  | step _ ih => exact ih h.of_succ

/-- A value in which something contains itself is nested without end. -/
theorem nested_of_reaches_cycle (hw : Relation.TransGen (Holds s) w w)
    (hv : Relation.ReflTransGen (Holds s) v w) (depth : Nat) : Nested s depth v := by
  induction depth generalizing v with
  | zero => trivial
  | succ depth ih =>
    -- There is a next value on the way to `w`, and from `w` back to `w`.
    obtain rfl | ⟨u, hu, huw⟩ := Relation.ReflTransGen.cases_head hv
    · obtain ⟨u, hu, huw⟩ := Relation.TransGen.head'_iff.1 hw
      exact ⟨u, hu, ih huw⟩
    · exact ⟨u, hu, ih huw⟩

/-- A value that contains itself is nested without end. -/
theorem nested_of_cycle {v : Value} (h : Relation.TransGen (Holds s) v v) (depth : Nat) :
    Nested s depth v :=
  nested_of_reaches_cycle h .refl depth

end Value

namespace Store

open Value (Holds Nested)

/-- The first value is the second one, or is somewhere in it. -/
def Occurs (s : Store σ) (w v : Value) : Prop := Relation.ReflTransGen (Holds s) v w

/-- Nothing that occurs in the value contains itself. -/
def Acyclic (s : Store σ) (v : Value) : Prop :=
  ∀ w, s.Occurs w v → ¬ Relation.TransGen (Holds s) w w

/-- How many lists and maps there are. -/
def containers (s : Store σ) : Nat := s.lists.cells.size + s.maps.cells.size

variable {s : Store σ} {v w : Value} {depth : Nat}

theorem Acyclic.of_holds (h : s.Acyclic v) (hw : Holds s v w) : s.Acyclic w :=
  fun u hu => h u (hu.head hw)

/-- What is not nested without end does not contain itself. -/
theorem acyclic_of_not_nested (h : ¬ Nested s depth v) : s.Acyclic v :=
  fun _ hw hcycle => h (Value.nested_of_reaches_cycle hcycle hw depth)

/-- A value is not nested more deeply than there are values in it that hold something. -/
theorem Acyclic.not_nested_of_forall_mem (h : s.Acyclic v) (all : Finset Value)
    (hall : ∀ w, s.Occurs w v → (∃ u, Holds s w u) → w ∈ all) : ¬ Nested s (all.card + 1) v := by
  induction hn : all.card generalizing v all with
  | zero =>
    rintro ⟨w, hw, -⟩
    have hv : v ∈ all := hall v .refl ⟨w, hw⟩
    rw [Finset.card_eq_zero.1 hn] at hv
    exact absurd hv (Finset.notMem_empty v)
  | succ n ih =>
    rintro ⟨w, hw, hnested⟩
    have hv : v ∈ all := hall v .refl ⟨w, hw⟩
    refine ih (h.of_holds hw) (all.erase v) (fun u hu hholds => ?_) ?_ hnested
    · -- The value itself does not occur in what it holds, so that one value less is needed there.
      refine Finset.mem_erase.2 ⟨?_, hall u (hu.head hw) hholds⟩
      rintro rfl
      exact h u .refl (.head' hw hu)
    · rw [Finset.card_erase_of_mem hv, hn]
      rfl

/-- All lists and maps of the store. -/
def containerValues (s : Store σ) : Finset Value :=
  (Finset.range s.lists.cells.size).image (fun i => .list ⟨i⟩) ∪
    (Finset.range s.maps.cells.size).image (fun i => .map ⟨i⟩)

theorem card_containerValues_le (s : Store σ) : s.containerValues.card ≤ s.containers := by
  refine (Finset.card_union_le _ _).trans (Nat.add_le_add ?_ ?_)
  · exact Finset.card_image_le.trans (Finset.card_range _).le
  · exact Finset.card_image_le.trans (Finset.card_range _).le

/-- What holds something is in the store. -/
theorem mem_containerValues (h : Holds s v w) : v ∈ s.containerValues := by
  rw [Value.holds_iff] at h
  cases v with
  | list ref =>
    refine Finset.mem_union_left _ (Finset.mem_image.2 ⟨ref.index, Finset.mem_range.2 ?_, rfl⟩)
    by_contra hnot
    rw [Value.held, Arena.get_of_not_holds hnot] at h
    cases h
  | map ref =>
    refine Finset.mem_union_right _ (Finset.mem_image.2 ⟨ref.index, Finset.mem_range.2 ?_, rfl⟩)
    by_contra hnot
    rw [Value.held, Arena.get_of_not_holds hnot] at h
    cases h
  | _ => cases h

/-- A value that does not contain itself is not nested more deeply than there are lists and maps. -/
theorem Acyclic.not_nested (h : s.Acyclic v) (hdepth : s.containers < depth) :
    ¬ Nested s depth v := by
  have hnot :=
    h.not_nested_of_forall_mem s.containerValues fun _ _ ⟨_, hu⟩ => mem_containerValues hu
  have hcard := s.card_containerValues_le
  exact fun hnested => hnot (hnested.mono (by omega))

end Store

end LoxLang
