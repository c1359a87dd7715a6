import LoxLang.Proofs.Chains
import LoxLang.Scoping.Basic

/-!
# Cells

Lexical scoping as one would define it without thinking of frames: every declaration inside of a
block, every parameter, and every `this` and `super` has a cell of its own each time it is executed,
and a place in a program can see a finite map from names to cells. What is not in the map is looked
up among the globals. `Scoping.cells` is the scoping that keeps variables like this; a use of a
variable carries nothing, so programs are run as they were read.

A cell belongs to a name in a frame, and `Cells.Shows` tells when cells hold what the frames do.
-/

namespace LoxLang

/-- The global variables, and the cells of all others. -/
structure Cells where
  globals : Frame
  cells : Array Value

/-- The place of a variable. -/
inductive CellSlot where
  | global (name : String)
  | cell (index : Nat)
deriving DecidableEq, Repr

/-- What a place can see: the cells of the names that have been declared in the blocks around it. -/
structure CellScope where
  /-- There is a block around the place. -/
  inBlock : Bool
  cells : Table String Nat

namespace Cells

/-- Only global variables. -/
def ofGlobals (globals : Frame) : Cells := ⟨globals, #[]⟩

/-- The value at a place. -/
def value? (mem : Cells) : CellSlot → Option Value
  | .global name => mem.globals.get? name
  | .cell index => mem.cells[index]?

/-- Write the value at a place. -/
def write (mem : Cells) (slot : CellSlot) (value : Value) : Cells :=
  match slot with
  | .global name => { mem with globals := mem.globals.insert name value }
  | .cell index => { mem with cells := mem.cells.setIfInBounds index value }

/-- The place of a variable: its cell, or among the globals. -/
def locate (mem : Cells) (scope : CellScope) (name : String) : Except Miss CellSlot :=
  match scope.cells.get? name with
  | some index => .ok (.cell index)
  | none => if mem.globals.contains name then .ok (.global name) else .error .undefined

/-- A fresh cell for a name. -/
def allocate (scope : CellScope) (name : String) (value : Value) (mem : Cells) :
    (CellSlot × CellScope) × Cells :=
  ((.cell mem.cells.size, { scope with cells := scope.cells.insert name mem.cells.size }),
    { mem with cells := mem.cells.push value })

/-- Declare a variable that is nil. -/
def announce (scope : CellScope) (name : String) (mem : Cells) : (CellSlot × CellScope) × Cells :=
  if scope.inBlock then allocate scope name .nil mem
  else ((.global name, scope), mem.write (.global name) .nil)

/-- Fresh cells for names, one after the other. -/
def allocateAll (locals : List (String × Value)) (start : CellScope × Cells) : CellScope × Cells :=
  locals.foldl (fun s e => ((allocate s.1 e.1 e.2 s.2).1.2, (allocate s.1 e.1 e.2 s.2).2)) start

/-- Open a block with the given variables. -/
def enter (scope : CellScope) (locals : List (String × Value)) (mem : Cells) : CellScope × Cells :=
  allocateAll locals ({ scope with inBlock := true }, mem)

/-- The value in the cell of a name. -/
def inCell (mem : Cells) (scope : CellScope) (name : String) : Except Defect Value :=
  match (scope.cells.get? name).bind (mem.cells[·]?) with
  | some value => .ok value
  | none => .error .noName

/-- The values of `super` and `this`. -/
def inherited (mem : Cells) (scope : CellScope) : Except Defect (Value × Value) := do
  return (← mem.inCell scope Keyword.superWord.text, ← mem.inCell scope Keyword.thisWord.text)

end Cells

/-- Variables in cells, found by their names. -/
abbrev Scoping.cells : Scoping where
  Mark := Unit
  Scope := CellScope
  Memory := Cells
  Slot := CellSlot
  top := ⟨false, .empty⟩
  locate mem scope _ name := mem.locate scope name
  get? := Cells.value?
  put := Cells.write
  announce scope name := .ok (Cells.announce scope name)
  enter := Cells.enter
  inherited mem scope _ := mem.inherited scope
  receiver mem scope := mem.inCell scope Keyword.thisWord.text

/-! ### Cells and frames -/

/-- What is known of a memory of frames and one of cells: how many frames there are, and for each
cell the frame and the name that it belongs to. -/
structure CellWorld where
  count : Nat
  slots : List (Ref .frame × String)

namespace CellWorld

/-- Frames and cells have been added, but no cells in the frames that there were, except for one. -/
def Grows (o : Option (Ref .frame)) (w w₁ : CellWorld) : Prop :=
  w.count ≤ w₁.count ∧ ∃ more, w₁.slots = w.slots ++ more ∧
    ∀ s ∈ more, w.count ≤ s.1.index ∨ o = some s.1

variable {o : Option (Ref .frame)} {w w₁ w₂ : CellWorld}

theorem Grows.refl (w : CellWorld) : Grows none w w :=
  ⟨Nat.le_refl _, [], (List.append_nil _).symm, List.forall_mem_nil _⟩

theorem Grows.trans (h : Grows o w w₁) (h' : Grows o w₁ w₂) : Grows o w w₂ := by
  obtain ⟨hcount, more, hmore, hnew⟩ := h
  obtain ⟨hcount', more', hmore', hnew'⟩ := h'
  refine ⟨Nat.le_trans hcount hcount', more ++ more', by rw [hmore', hmore, List.append_assoc], ?_⟩
  intro s hs
  obtain hs | hs := List.mem_append.1 hs
  · exact hnew s hs
  · exact (hnew' s hs).imp (Nat.le_trans hcount) id

theorem Grows.of_none (h : Grows none w w₁) : Grows o w w₁ := by
  obtain ⟨hcount, more, hmore, hnew⟩ := h
  exact ⟨hcount, more, hmore, fun s hs => (hnew s hs).imp id nofun⟩

/-- A cell goes on to belong to its name. -/
theorem Grows.getElem? (h : Grows o w w₁) {c : Nat} {s : Ref .frame × String}
    (hc : w.slots[c]? = some s) : w₁.slots[c]? = some s := by
  obtain ⟨-, more, hmore, -⟩ := h
  rw [hmore, List.getElem?_append_left (List.getElem?_eq_some_iff.1 hc).1]
  exact hc

/-- In a frame that there was, no names have got cells. -/
theorem Grows.mem_of_lt (h : Grows none w w₁) {r : Ref .frame} {x : String}
    (hr : r.index < w.count) (hs : (r, x) ∈ w₁.slots) : (r, x) ∈ w.slots := by
  obtain ⟨-, more, hmore, hnew⟩ := h
  rw [hmore] at hs
  obtain hs | hs := List.mem_append.1 hs
  · exact hs
  · obtain hle | hnone := hnew _ hs
    · exact absurd hr (Nat.not_lt.2 hle)
    · cases hnone

end CellWorld

/-- The cells hold what the frames do: the globals are in the global frame, and each cell has the
value of its own name in its own frame. -/
structure Cells.Shows (mem : Cells) (w : CellWorld) (frames : Frames) : Prop where
  count : frames.cells.size = w.count
  holds_global : frames.Holds globalFrame
  globals : mem.globals = frames.get globalFrame
  size : mem.cells.size = w.slots.length
  inner : ∀ s ∈ w.slots, s.1 ≠ globalFrame ∧ frames.Holds s.1
  nodup : w.slots.Nodup
  values : ∀ (c : Nat) r x, w.slots[c]? = some (r, x) → mem.cells[c]? = (frames.get r).get? x

namespace Cells.Shows

variable {w : CellWorld} {frames : Frames} {mem : Cells} {r : Ref .frame} {x : String} {v : Value}

theorem ofGlobals (globals : Frame) :
    (Cells.ofGlobals globals).Shows ⟨1, []⟩ (Frames.ofGlobals globals) :=
  ⟨rfl, Nat.zero_lt_one, rfl, rfl, List.forall_mem_nil _, List.nodup_nil, nofun⟩

/-- A global variable is written. -/
theorem writeGlobal (h : mem.Shows w frames) :
    (mem.write (.global x) v).Shows w (Frames.define frames globalFrame x v) where
  count := by rw [← h.count]; exact Array.size_modify
  holds_global := Frames.holds_define_iff.2 h.holds_global
  globals := by rw [Frames.get_define_self h.holds_global, ← h.globals]; rfl
  size := h.size
  inner s hs := ⟨(h.inner s hs).1, Frames.holds_define_iff.2 (h.inner s hs).2⟩
  nodup := h.nodup
  values c r y hc := by
    have hr := (h.inner _ (List.mem_of_getElem? hc)).1
    rw [Frames.get_define_of_ne hr]
    exact h.values c r y hc

/-- A variable is written in its cell. -/
theorem writeCell (h : mem.Shows w frames) {c : Nat} (hc : w.slots[c]? = some (r, x)) :
    (mem.write (.cell c) v).Shows w (Frames.define frames r x v) where
  count := by rw [← h.count]; exact Array.size_modify
  holds_global := Frames.holds_define_iff.2 h.holds_global
  globals := by
    have hr := (h.inner _ (List.mem_of_getElem? hc)).1
    rw [Frames.get_define_of_ne hr.symm]
    exact h.globals
  size := by simp only [write, Array.size_setIfInBounds, h.size]
  inner s hs := ⟨(h.inner s hs).1, Frames.holds_define_iff.2 (h.inner s hs).2⟩
  nodup := h.nodup
  values c' r' y hc' := by
    obtain ⟨-, hr⟩ := h.inner _ (List.mem_of_getElem? hc)
    have hlt : c < mem.cells.size := by
      rw [h.size]
      exact (List.getElem?_eq_some_iff.1 hc).1
    simp only [write, Array.getElem?_setIfInBounds]
    by_cases hcc : c = c'
    · subst hcc
      rw [hc] at hc'
      cases hc'
      rw [Frames.get_define_self hr, Table.get?_insert_self]
      simp [hlt]
    · -- Another cell belongs to another name or to another frame.
      have hne : (r', y) ≠ (r, x) := by
        intro heq
        have hlt' := (List.getElem?_eq_some_iff.1 hc').1
        exact hcc ((List.getElem?_inj hlt' h.nodup).1 (by rw [hc', hc, heq])).symm
      rw [if_neg hcc, h.values c' r' y hc', Frames.get?_define_of_slot_ne hne]

/-- A name in an inner frame gets a cell. -/
theorem allocate (h : mem.Shows w frames) (hr : r ≠ globalFrame) (hholds : frames.Holds r)
    (hnew : (r, x) ∉ w.slots) :
    Cells.Shows { mem with cells := mem.cells.push v } ⟨w.count, w.slots ++ [(r, x)]⟩
      (Frames.define frames r x v) where
  count := by rw [← h.count]; exact Array.size_modify
  holds_global := Frames.holds_define_iff.2 h.holds_global
  globals := by
    rw [Frames.get_define_of_ne hr.symm]
    exact h.globals
  size := by simp only [Array.size_push, h.size, List.length_append, List.length_singleton]
  inner s hs := by
    obtain hs | hs := List.mem_append.1 hs
    · exact ⟨(h.inner s hs).1, Frames.holds_define_iff.2 (h.inner s hs).2⟩
    · rw [List.mem_singleton.1 hs]
      exact ⟨hr, Frames.holds_define_iff.2 hholds⟩
  nodup := by
    refine List.nodup_append.2 ⟨h.nodup, by simp, ?_⟩
    intro s hs t ht heq
    rw [List.mem_singleton.1 ht] at heq
    exact hnew (heq ▸ hs)
  values c r' y hc := by
    by_cases hlast : c = w.slots.length
    -- The last cell is that of the new name.
    · subst hlast
      rw [List.getElem?_append_right (Nat.le_refl _)] at hc
      simp only [Nat.sub_self, List.getElem?_cons_zero, Option.some.injEq, Prod.mk.injEq] at hc
      obtain ⟨rfl, rfl⟩ := hc
      rw [Frames.get_define_self hholds, Table.get?_insert_self, ← h.size]
      exact Array.getElem?_push_size
    · have hlt : c < w.slots.length := by
        have := (List.getElem?_eq_some_iff.1 hc).1
        simp only [List.length_append, List.length_singleton] at this
        omega
      rw [List.getElem?_append_left hlt] at hc
      have hmem := List.mem_of_getElem? hc
      have hne : (r', y) ≠ (r, x) := fun heq => hnew (heq ▸ hmem)
      rw [Array.getElem?_push, if_neg (by rw [h.size]; exact hlast), h.values c r' y hc,
        Frames.get?_define_of_slot_ne hne]

/-- There is a new frame, without anything in it. -/
theorem openFrame (h : mem.Shows w frames) :
    mem.Shows ⟨w.count + 1, w.slots⟩ (frames.alloc .empty).2 where
  count := by rw [← h.count]; exact Array.size_push _
  holds_global := Arena.holds_alloc_of_holds _ h.holds_global
  globals := by
    rw [Arena.get_alloc_of_holds _ h.holds_global]
    exact h.globals
  size := h.size
  inner s hs := ⟨(h.inner s hs).1, Arena.holds_alloc_of_holds _ (h.inner s hs).2⟩
  nodup := h.nodup
  values c r y hc := by
    rw [Arena.get_alloc_of_holds _ (h.inner _ (List.mem_of_getElem? hc)).2]
    exact h.values c r y hc

end Cells.Shows

end LoxLang
