import LoxLang.Value.Basic

/-!
# Arenas

Things of one kind that are shared by reference. Nothing is ever removed from an arena, so a
reference stays good.
-/

namespace LoxLang

/-- Things of one kind, by reference. -/
structure Arena (region : Region) (α : Type) where
  cells : Array α

namespace Arena

variable {region : Region} {α : Type}

/-- The arena without anything in it. -/
def empty : Arena region α := ⟨#[]⟩

/-- Take in a new thing. -/
def alloc (a : Arena region α) (x : α) : Ref region × Arena region α :=
  (⟨a.cells.size⟩, ⟨a.cells.push x⟩)

/-- What a reference refers to. -/
def get [Inhabited α] (a : Arena region α) (ref : Ref region) : α :=
  a.cells.getD ref.index default

/-- Replace what a reference refers to. -/
def modify (a : Arena region α) (ref : Ref region) (f : α → α) : Arena region α :=
  ⟨a.cells.modify ref.index f⟩

/-- The reference is good. -/
def Holds (a : Arena region α) (ref : Ref region) : Prop := ref.index < a.cells.size

/-- What has been taken in is there. -/
theorem get_alloc_self [Inhabited α] (a : Arena region α) (x : α) :
    (a.alloc x).2.get (a.alloc x).1 = x := by
  simp [alloc, get]

/-- Taking in something new leaves what is there. -/
theorem get_alloc_of_holds [Inhabited α] {a : Arena region α} {ref : Ref region} (x : α)
    (h : a.Holds ref) : (a.alloc x).2.get ref = a.get ref := by
  have hne : ref.index < a.cells.size := h
  simp [alloc, get, Array.getD_eq_getD_getElem?, Array.getElem?_push, Nat.ne_of_lt hne]

theorem get_alloc [Inhabited α] (a : Arena region α) (x : α) (ref : Ref region) :
    (a.alloc x).2.get ref = if ref.index = a.cells.size then x else a.get ref := by
  simp only [alloc, get, Array.getD_eq_getD_getElem?, Array.getElem?_push]
  split <;> simp [*]

theorem holds_alloc_self (a : Arena region α) (x : α) : (a.alloc x).2.Holds (a.alloc x).1 := by
  simp [alloc, Holds]

theorem holds_alloc_of_holds {a : Arena region α} {ref : Ref region} (x : α) (h : a.Holds ref) :
    (a.alloc x).2.Holds ref := by
  simp only [alloc, Holds, Array.size_push] at h ⊢
  omega

/-- What is there after something has been taken in is that, or was there before. -/
theorem holds_alloc_iff {a : Arena region α} {x : α} {ref : Ref region} :
    (a.alloc x).2.Holds ref ↔ a.Holds ref ∨ ref = (a.alloc x).1 := by
  have href : ref = (a.alloc x).1 ↔ ref.index = a.cells.size := by
    cases ref
    simp [alloc]
  rw [href]
  simp only [alloc, Holds, Array.size_push]
  omega

theorem holds_modify_iff (a : Arena region α) (ref other : Ref region) (f : α → α) :
    (a.modify ref f).Holds other ↔ a.Holds other := by
  simp [modify, Holds]

/-- There is nothing at a reference that is not good. -/
theorem get_of_not_holds [Inhabited α] {a : Arena region α} {ref : Ref region}
    (h : ¬ a.Holds ref) : a.get ref = default := by
  simp only [Holds, Nat.not_lt] at h
  simp [get, h]

/-- What has been replaced is there. -/
theorem get_modify_self [Inhabited α] {a : Arena region α} {ref : Ref region} (f : α → α)
    (h : a.Holds ref) : (a.modify ref f).get ref = f (a.get ref) := by
  have hlt : ref.index < a.cells.size := h
  simp [modify, get, Array.getElem_modify, hlt]

/-- Replacing one thing leaves the others. -/
theorem get_modify_of_ne [Inhabited α] (a : Arena region α) {ref other : Ref region} (f : α → α)
    (h : other ≠ ref) : (a.modify ref f).get other = a.get other := by
  have hne : ref.index ≠ other.index := by
    intro he
    apply h
    cases ref
    cases other
    simp_all
  simp [modify, get, Array.getD_eq_getD_getElem?, Array.getElem?_modify, hne]

end Arena

end LoxLang
