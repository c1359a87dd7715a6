import LoxLang.Proofs.Binding
import Mathlib.Data.List.Forall2

/-!
# Chains of frames and scopes

The frames that a place can see while a program runs correspond to the scopes that were around it
when it was bound: as many of them in front of the global frame, and each with at least the names
that could be used (`Chain.Fits`). So a use that is bound to a number of hops finds its name that
many frames out (`Chain.Fits.exists_of_hops?`).

Frames are only added, and never lose a name (`Frames.Le`); so what fits goes on to fit.
-/

namespace LoxLang

namespace Frames

/-- The frame has the name. -/
def Has (frames : Frames) (r : Ref .frame) (x : String) : Prop :=
  (frames.get r).contains x = true

/-- The second memory has the frames of the first and their names. -/
structure Le (frames later : Frames) : Prop where
  holds : ∀ r, frames.Holds r → later.Holds r
  has : ∀ r x, frames.Has r x → later.Has r x

variable {frames later last : Frames} {r : Ref .frame} {x : String} {v : Value}

theorem Le.refl (frames : Frames) : frames.Le frames := ⟨fun _ h => h, fun _ _ h => h⟩

theorem Le.trans (h : frames.Le later) (h' : later.Le last) : frames.Le last :=
  ⟨fun r hr => h'.holds r (h.holds r hr), fun r x hx => h'.has r x (h.has r x hx)⟩

theorem Has.holds (h : frames.Has r x) : frames.Holds r := by
  by_contra hr
  rw [Has, Arena.get_of_not_holds hr] at h
  cases h

theorem has_iff_exists : frames.Has r x ↔ ∃ v, (frames.get r).get? x = some v := by
  rw [Has, Table.contains_eq_isSome, Option.isSome_iff_exists]

theorem get_define_of_ne {s : Ref .frame} (h : s ≠ r) :
    (define frames r x v).get s = frames.get s :=
  Arena.get_modify_of_ne frames _ h

theorem get_define_self (h : frames.Holds r) :
    (define frames r x v).get r = (frames.get r).insert x v :=
  Arena.get_modify_self _ h

theorem holds_define_iff {s : Ref .frame} : (define frames r x v).Holds s ↔ frames.Holds s :=
  Arena.holds_modify_iff frames r s _

/-- Defining one name leaves the values of the others. -/
theorem get?_define_of_ne {s : Ref .frame} {y : String} (h : y ≠ x) :
    ((define frames r x v).get s).get? y = (frames.get s).get? y := by
  by_cases hsr : s = r
  · subst hsr
    by_cases hs : frames.Holds s
    · rw [get_define_self hs, Table.get?_insert_of_ne _ _ h]
    · rw [Arena.get_of_not_holds hs, Arena.get_of_not_holds fun h' => hs (holds_define_iff.1 h')]
  · rw [get_define_of_ne hsr]

/-- Defining a name in a frame leaves all other names, in this frame and elsewhere. -/
theorem get?_define_of_slot_ne {s : Ref .frame} {y : String} (h : (s, y) ≠ (r, x)) :
    ((define frames r x v).get s).get? y = (frames.get s).get? y := by
  by_cases hy : y = x
  · rw [get_define_of_ne fun hs => h (by rw [hs, hy])]
  · exact get?_define_of_ne hy

theorem le_define : frames.Le (define frames r x v) := by
  refine ⟨fun s hs => holds_define_iff.2 hs, fun s y hy => ?_⟩
  by_cases hsr : s = r
  · subst hsr
    rw [Has, get_define_self hy.holds, Table.contains_insert]
    simp only [Has] at hy
    simp [hy]
  · rw [Has, get_define_of_ne hsr]
    exact hy

theorem has_define_self (h : frames.Holds r) : (define frames r x v).Has r x := by
  rw [Has, get_define_self h]
  exact Table.contains_insert_self _ _ _

theorem le_alloc (frame : Frame) : frames.Le (frames.alloc frame).2 := by
  refine ⟨fun r hr => Arena.holds_alloc_of_holds frame hr, fun r x hx => ?_⟩
  rw [Has, Arena.get_alloc_of_holds frame hx.holds]
  exact hx

/-- A new frame has the names that it is made with. -/
theorem has_alloc {locals : List (String × Value)} (h : x ∈ locals.map Prod.fst) :
    Has (frames.alloc (.ofList locals)).2 (frames.alloc (.ofList locals)).1 x := by
  rw [Has, Arena.get_alloc_self, Table.contains_ofList, decide_eq_true_eq]
  exact h

theorem define_alloc (frame : Frame) :
    define (frames.alloc frame).2 (frames.alloc frame).1 x v =
      (frames.alloc (frame.insert x v)).2 := by
  simp only [define, Arena.modify, Arena.alloc]
  congr 1
  apply Array.ext (by simp)
  intro i hi hi'
  by_cases h : frames.cells.size = i
  · simp [Array.getElem_modify, Array.getElem_push, h]
  · have hlt : i < frames.cells.size := by
      rw [Array.size_push] at hi'
      omega
    simp [Array.getElem_modify, Array.getElem_push, h, hlt]

/-- A new frame with variables is a new frame in which they are defined one after the other. -/
theorem alloc_ofList (locals : List (String × Value)) :
    (frames.alloc (.ofList locals)).2 =
      locals.foldl (fun later e => define later (frames.alloc .empty).1 e.1 e.2)
        (frames.alloc .empty).2 := by
  have hfold (frame : Frame) :
      (frames.alloc (locals.foldl (fun t e => t.insert e.1 e.2) frame)).2 =
        locals.foldl (fun later e => define later (frames.alloc frame).1 e.1 e.2)
          (frames.alloc frame).2 := by
    induction locals generalizing frame with
    | nil => rfl
    | cons e locals ih =>
      rw [List.foldl_cons, List.foldl_cons, define_alloc]
      exact ih _
  exact hfold .empty

/-- Before anything has run, no frame but the global one has anything in it. -/
theorem get_ofGlobals (globals : Frame) (r : Ref .frame) :
    (ofGlobals globals).get r = if r.index = 0 then globals else default := by
  by_cases hr : r.index = 0
  · simp [Arena.get, ofGlobals, hr]
  · have hholds : ¬ Arena.Holds (ofGlobals globals) r := by simpa [Arena.Holds, ofGlobals] using hr
    rw [Arena.get_of_not_holds hholds, if_neg hr]

theorem frameAt_eq_ok_iff {chain : Chain} {d : Nat} :
    frameAt chain d = .ok r ↔ chain[d]? = some r := by
  unfold frameAt
  split <;> simp [*]

theorem valueAt_eq_ok_iff {chain : Chain} {d : Nat} :
    valueAt frames chain d x = .ok v ↔
      ∃ r, chain[d]? = some r ∧ (frames.get r).get? x = some v := by
  simp only [← frameAt_eq_ok_iff, valueAt]
  cases frameAt chain d with
  | error e => simp [bind, Except.bind]
  | ok r =>
    simp only [bind, Except.bind]
    cases hv : (frames.get r).get? x <;>
      simp [pure, Except.pure, throw, throwThe, MonadExceptOf.throw, hv]

/-- `super` is found where the hops lead, and `this` one frame further in. -/
theorem inherited_eq_ok_iff {chain : Chain} {hops : Hops} {parent object : Value} :
    inherited frames chain hops = .ok (parent, object) ↔
      ∃ d, hops = some d ∧ valueAt frames chain d Keyword.superWord.text = .ok parent ∧
        valueAt frames chain (d - 1) Keyword.thisWord.text = .ok object := by
  cases hops with
  | none => simp [inherited]
  | some d =>
    simp only [inherited, Option.some.injEq, exists_eq_left']
    cases valueAt frames chain d Keyword.superWord.text with
    | error e => simp [bind, Except.bind]
    | ok p =>
      cases valueAt frames chain (d - 1) Keyword.thisWord.text <;>
        simp [bind, Except.bind, pure, Except.pure]

end Frames

/-! ### Chains -/

/-- A frame in front of the global one, with the names that can be used in the scope. -/
structure Frames.Shows (frames : Frames) (r : Ref .frame) (scope : Scope) : Prop where
  inner : r ≠ globalFrame
  holds : frames.Holds r
  names : ∀ x, scope.get? x = some true → frames.Has r x

/-- The frames of the chain, up to the global one, correspond to the scopes. -/
def Chain.Fits (frames : Frames) (scopes : Scopes) (chain : Chain) : Prop :=
  ∃ inner, chain = inner ++ [globalFrame] ∧ List.Forall₂ frames.Shows inner scopes

namespace Chain.Fits

variable {frames later : Frames} {scopes : Scopes} {chain : Chain} {x : String}

theorem nil : Chain.Fits frames [] globalChain := ⟨[], rfl, .nil⟩

theorem mono (h : Chain.Fits frames scopes chain) (hle : frames.Le later) :
    Chain.Fits later scopes chain := by
  obtain ⟨inner, rfl, hall⟩ := h
  refine ⟨inner, rfl, hall.imp fun r scope hr => ⟨hr.inner, hle.holds r hr.holds, ?_⟩⟩
  exact fun x hx => hle.has r x (hr.names x hx)

/-- As many frames are in front of the global one as there are scopes. -/
theorem exists_inner (h : Chain.Fits frames scopes chain) :
    ∃ inner, chain = inner ++ [globalFrame] ∧ globalFrame ∉ inner ∧
      inner.length = scopes.length := by
  obtain ⟨inner, rfl, hall⟩ := h
  refine ⟨inner, rfl, ?_, hall.length_eq⟩
  induction hall with
  | nil => exact List.not_mem_nil
  | cons hr _ ih => exact List.not_mem_cons_of_ne_of_not_mem hr.inner.symm ih

/-- **A use finds its name**: the frame that it is bound to is there and has the name. -/
theorem exists_of_hops? (h : Chain.Fits frames scopes chain) {d : Nat}
    (hd : scopes.hops? x = some d) :
    ∃ r, chain[d]? = some r ∧ r ≠ globalFrame ∧ frames.Has r x := by
  obtain ⟨inner, rfl, hall⟩ := h
  induction hall generalizing d with
  | nil => simp [Scopes.hops?] at hd
  | @cons r scope inner scopes hr hall ih =>
    rw [Scopes.hops?, List.findIdx?_cons] at hd
    split at hd
    · rename_i hx
      cases hd
      exact ⟨r, rfl, hr.inner, hr.names x (by simpa using hx)⟩
    · obtain ⟨e, he, rfl⟩ := Option.map_eq_some_iff.1 hd
      exact ih he

/-- A name that cannot be used yet asks for nothing. -/
theorem set_false (h : Chain.Fits frames scopes chain) :
    Chain.Fits frames (scopes.set x false) chain := by
  obtain ⟨inner, rfl, hall⟩ := h
  refine ⟨inner, rfl, ?_⟩
  cases hall with
  | nil => exact .nil
  | @cons r scope inner scopes hr hall =>
    refine .cons ⟨hr.inner, hr.holds, fun y hy => hr.names y ?_⟩ hall
    rw [Table.get?_insert] at hy
    split at hy
    · cases hy
    · exact hy

/-- The innermost frame is there. -/
theorem exists_cons (h : Chain.Fits frames scopes chain) (hg : frames.Holds globalFrame) :
    ∃ r outer, chain = r :: outer ∧ frames.Holds r := by
  obtain ⟨inner, rfl, hall⟩ := h
  cases hall with
  | nil => exact ⟨globalFrame, [], rfl, hg⟩
  | cons hr _ => exact ⟨_, _, rfl, hr.holds⟩

/-- A name that the innermost frame has can be used. -/
theorem set_true {r : Ref .frame} {outer : Chain} (h : Chain.Fits frames scopes (r :: outer))
    (hx : frames.Has r x) : Chain.Fits frames (scopes.set x true) (r :: outer) := by
  obtain ⟨inner, heq, hall⟩ := h
  refine ⟨inner, heq, ?_⟩
  cases hall with
  | nil => exact .nil
  | @cons r' scope inner scopes hr hall =>
    cases heq
    refine .cons ⟨hr.inner, hr.holds, fun y hy => ?_⟩ hall
    rw [Table.get?_insert] at hy
    split at hy
    · rename_i hyx
      exact hyx ▸ hx
    · exact hr.names y hy

/-- A frame that is opened corresponds to a scope with its names. -/
theorem enter (h : Chain.Fits frames scopes chain) (hg : frames.Holds globalFrame)
    {names : List String} {locals : List (String × Value)}
    (hnames : ∀ x ∈ names, x ∈ locals.map Prod.fst) :
    Chain.Fits (Frames.enter chain locals frames).2 (scopes.enter names)
      (Frames.enter chain locals frames).1 := by
  obtain ⟨inner, rfl, hall⟩ := h.mono (Frames.le_alloc (.ofList locals))
  refine ⟨(frames.alloc (.ofList locals)).1 :: inner, rfl, .cons ⟨?_, ?_, ?_⟩ hall⟩
  · intro heq
    have hlt : globalFrame.index < frames.cells.size := hg
    rw [← heq] at hlt
    exact Nat.lt_irrefl _ hlt
  · exact Arena.holds_alloc_self _ _
  · exact fun x hx => Frames.has_alloc (hnames x (Scopes.get?_enter_iff.1 hx))

end Chain.Fits

end LoxLang
