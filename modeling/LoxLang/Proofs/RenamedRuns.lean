import LoxLang.Proofs.Renaming
import LoxLang.Proofs.RoundTrip
import LoxLang.Proofs.Splitting

/-!
# Runs of a renamed program

A local variable has a place in some frames, one for each time that its scope is entered. When the
variable is renamed, these frames have the new name where they had the old one, and nothing else is
different: all frames are opened at the same time, and a use leads to the same frame since it has
the same hops (`Simulation.renaming`). So the renamed program does what the program did
(`Session.renaming_changes_nothing`).
-/

namespace LoxLang

variable {x z : String}

/-! ### Frames -/

/-- How many frames there are, and which of them are of the scope that is renamed in. The global
frame is not one of those. -/
structure RenamedFrames where
  frames : Ref .frame → Prop
  count : Nat
  lt_count : ∀ r, frames r → r.index < count
  count_pos : 0 < count
  not_global : ¬ frames globalFrame

namespace RenamedFrames

/-- The second knows of more frames, and says the same of those that there were. -/
def Grows (w w₁ : RenamedFrames) : Prop :=
  w.count ≤ w₁.count ∧ ∀ r : Ref .frame, r.index < w.count → (w₁.frames r ↔ w.frames r)

theorem Grows.refl (w : RenamedFrames) : w.Grows w := ⟨Nat.le_refl _, fun _ _ => Iff.rfl⟩

theorem Grows.trans {w w₁ w₂ : RenamedFrames} (h : w.Grows w₁) (h' : w₁.Grows w₂) : w.Grows w₂ :=
  ⟨Nat.le_trans h.1 h'.1,
    fun r hr => (h'.2 r (Nat.lt_of_lt_of_le hr h.1)).trans (h.2 r hr)⟩

/-- One more frame, which may be of the scope that is renamed in. -/
def push (w : RenamedFrames) (renamed : Bool) : RenamedFrames where
  frames r := w.frames r ∨ (renamed = true ∧ r.index = w.count)
  count := w.count + 1
  lt_count := by
    rintro r (hr | ⟨-, hr⟩)
    · exact Nat.lt_succ_of_lt (w.lt_count r hr)
    · exact hr ▸ Nat.lt_succ_self _
  count_pos := Nat.succ_pos _
  not_global := by
    rintro (hr | ⟨-, hr⟩)
    · exact w.not_global hr
    · exact absurd w.count_pos (Nat.not_lt.2 (Nat.le_of_eq hr.symm))

theorem grows_push (w : RenamedFrames) (renamed : Bool) : w.Grows (w.push renamed) := by
  refine ⟨Nat.le_succ _, fun r hr => ?_⟩
  simp [push, Nat.ne_of_lt hr]

variable (x z) in
/-- The frames are the same, but for the name of the variable. -/
structure Relates (w : RenamedFrames) (frames frames' : Frames) : Prop where
  count : frames.cells.size = w.count
  count' : frames'.cells.size = w.count
  same : ∀ r, ¬ w.frames r → frames'.get r = frames.get r
  renamed : ∀ r, w.frames r → (frames.get r).Renamed x z (frames'.get r)

/-- The scope that is renamed in is where the place says it is, and nowhere else in the chain. -/
def Sees (w : RenamedFrames) (p : Option Nat) (chain : Chain) : Prop :=
  ∀ i r, chain[i]? = some r → r.index < w.count ∧ (w.frames r ↔ p = some i)

variable (x z) in
/-- The places of a variable correspond. -/
structure Slots (w : RenamedFrames) (slot slot' : Ref .frame × String) : Prop where
  frame : slot'.1 = slot.1
  lt_count : slot.1.index < w.count
  name : (w.frames slot.1 ∧ slot.2 ≠ z ∧ slot'.2 = renamedIf x z true slot.2) ∨
    (¬ w.frames slot.1 ∧ slot'.2 = slot.2)

variable {w w₁ : RenamedFrames} {frames frames' : Frames} {chain : Chain} {p : Option Nat}

theorem Sees.mono (h : w.Sees p chain) (hw : w.Grows w₁) : w₁.Sees p chain := by
  intro i r hr
  obtain ⟨hlt, hiff⟩ := h i r hr
  exact ⟨Nat.lt_of_lt_of_le hlt hw.1, (hw.2 r hlt).trans hiff⟩

theorem Slots.mono {slot slot' : Ref .frame × String} (h : w.Slots x z slot slot')
    (hw : w.Grows w₁) : w₁.Slots x z slot slot' := by
  refine ⟨h.frame, Nat.lt_of_lt_of_le h.lt_count hw.1, ?_⟩
  rw [hw.2 _ h.lt_count]
  exact h.name

/-- The next frame is opened in front of the chain. -/
theorem Sees.push (h : w.Sees p chain) {next : Ref .frame} (hnext : next.index = w.count)
    (renamed : Bool) (hp : renamed = true → p = none) :
    (w.push renamed).Sees (if renamed then some 0 else p.map (· + 1)) (next :: chain) := by
  intro i r hr
  cases i with
  | zero =>
    obtain rfl : next = r := Option.some.inj hr
    have hnew : ¬ w.frames next := fun hr => absurd (w.lt_count _ hr) (hnext ▸ Nat.lt_irrefl _)
    refine ⟨hnext ▸ Nat.lt_succ_self _, ?_⟩
    cases renamed <;> simp [RenamedFrames.push, hnew, hnext]
  | succ i =>
    obtain ⟨hlt, hiff⟩ := h i r hr
    refine ⟨Nat.lt_succ_of_lt hlt, ?_⟩
    cases renamed with
    | false => simp [RenamedFrames.push, hiff]
    | true => simp [RenamedFrames.push, hiff, hp rfl, Nat.ne_of_lt hlt]

/-- A variable in a frame of the chain. -/
theorem Sees.slots (h : w.Sees p chain) {k : Nat} {r : Ref .frame} (hr : chain[k]? = some r)
    {y : String} (hy : p = some k → y ≠ z) :
    w.Slots x z (r, y) (r, renamedIf x z (p = some k) y) := by
  obtain ⟨hlt, hiff⟩ := h k r hr
  refine ⟨rfl, hlt, ?_⟩
  by_cases hp : p = some k
  · exact .inl ⟨hiff.2 hp, hy hp, by simp [hp]⟩
  · exact .inr ⟨fun hr => hp (hiff.1 hr), by simp [hp]⟩

/-- A global variable. -/
theorem slots_global (w : RenamedFrames) (y : String) :
    w.Slots x z (globalFrame, y) (globalFrame, y) :=
  ⟨rfl, w.count_pos, .inr ⟨w.not_global, rfl⟩⟩

theorem sees_global (w : RenamedFrames) : w.Sees none globalChain := by
  intro i r hr
  cases i with
  | zero =>
    obtain rfl : globalFrame = r := Option.some.inj hr
    exact ⟨w.count_pos, by simp [w.not_global]⟩
  | succ i => cases hr

namespace Relates

theorem get?_eq (h : w.Relates x z frames frames') {slot slot' : Ref .frame × String}
    (hslot : w.Slots x z slot slot') :
    (frames'.get slot'.1).get? slot'.2 = (frames.get slot.1).get? slot.2 := by
  rw [hslot.frame]
  obtain ⟨hr, hne, hname⟩ | ⟨hr, hname⟩ := hslot.name
  · rw [hname, (h.renamed _ hr).get?_eq _ hne]
  · rw [hname, h.same _ hr]

/-- The new frames are the same, or they are the same but for the name. -/
theorem alloc (h : w.Relates x z frames frames') (renamed : Bool) {frame frame' : Frame}
    (hframe : if renamed then frame.Renamed x z frame' else frame' = frame) :
    (w.push renamed).Relates x z (frames.alloc frame).2 (frames'.alloc frame').2 := by
  refine ⟨?_, ?_, fun r hr => ?_, fun r hr => ?_⟩
  · simp [Arena.alloc, RenamedFrames.push, h.count]
  · simp [Arena.alloc, RenamedFrames.push, h.count']
  · rw [Arena.get_alloc, Arena.get_alloc, h.count, h.count']
    simp only [RenamedFrames.push, not_or, not_and] at hr
    split
    · cases renamed with
      | false => exact hframe
      | true => exact absurd ‹_› (hr.2 rfl)
    · exact h.same r hr.1
  · rw [Arena.get_alloc, Arena.get_alloc, h.count, h.count']
    obtain hr | ⟨rfl, hr⟩ := hr
    · rw [if_neg (Nat.ne_of_lt (w.lt_count r hr)), if_neg (Nat.ne_of_lt (w.lt_count r hr))]
      exact h.renamed r hr
    · rw [if_pos hr, if_pos hr]
      exact hframe

theorem define (h : w.Relates x z frames frames') (hxz : x ≠ z)
    {slot slot' : Ref .frame × String} (hslot : w.Slots x z slot slot') (v : Value) :
    w.Relates x z (Frames.define frames slot.1 slot.2 v)
      (Frames.define frames' slot'.1 slot'.2 v) := by
  have hholds : frames.Holds slot.1 := by
    rw [Arena.Holds, h.count]
    exact hslot.lt_count
  have hholds' : frames'.Holds slot.1 := by
    rw [Arena.Holds, h.count']
    exact hslot.lt_count
  unfold Frames.define
  rw [hslot.frame]
  refine ⟨?_, ?_, fun r hr => ?_, fun r hr => ?_⟩
  · simpa [Arena.modify] using h.count
  · simpa [Arena.modify] using h.count'
  · by_cases hr' : r = slot.1
    · subst hr'
      obtain ⟨hr', -⟩ | ⟨-, hname⟩ := hslot.name
      · exact absurd hr' hr
      · rw [Arena.get_modify_self _ hholds, Arena.get_modify_self _ hholds', hname, h.same _ hr]
    · rw [Arena.get_modify_of_ne _ _ hr', Arena.get_modify_of_ne _ _ hr', h.same r hr]
  · by_cases hr' : r = slot.1
    · subst hr'
      obtain ⟨-, hne, hname⟩ | ⟨hr', -⟩ := hslot.name
      · rw [Arena.get_modify_self _ hholds, Arena.get_modify_self _ hholds', hname]
        exact (h.renamed _ hr).insert hxz hne v
      · exact absurd hr hr'
    · rw [Arena.get_modify_of_ne _ _ hr', Arena.get_modify_of_ne _ _ hr']
      exact h.renamed r hr

theorem globals_eq (h : w.Relates x z frames frames') :
    frames'.get globalFrame = frames.get globalFrame :=
  h.same _ w.not_global

/-- What a keyword stands for is the same. -/
theorem valueAt_eq (h : w.Relates x z frames frames') (hxz : Renamable x z) (chain : Chain)
    (hops : Nat) (k : Keyword) :
    Frames.valueAt frames' chain hops k.text = Frames.valueAt frames chain hops k.text := by
  obtain ⟨hx, hz⟩ := hxz.keyword_ne k
  have hframe (r : Ref .frame) : (frames'.get r).get? k.text = (frames.get r).get? k.text := by
    by_cases hr : w.frames r
    · exact (h.renamed r hr).get?_of_ne hx hz
    · rw [h.same r hr]
  simp only [Frames.valueAt, hframe]

end Relates

end RenamedFrames

/-! ### The simulation -/

/-- The use is bound to the scope that is renamed in. -/
def Hops.IsOf (hops : Hops) (p : Option Nat) : Bool := hops.isSome && p = hops

/-- The names of variables, which are renamed, are entered with the same values. -/
theorem Table.Renamed.ofList_zip {α : Type} (hxz : x ≠ z) {ys : List String} (hz : z ∉ ys)
    (values : List α) :
    (Table.ofList (ys.zip values)).Renamed x z
      (.ofList ((ys.map (renamedIf x z true)).zip values)) := by
  refine .ofList hxz ?_
  induction ys generalizing values with
  | nil => exact .nil
  | cons y ys ih =>
    obtain ⟨hy, hys⟩ := not_or.1 (List.mem_cons.not.1 hz)
    cases values with
    | nil => exact .nil
    | cons v values => exact .cons ⟨Ne.symm hy, rfl⟩ (ih hys values)

/-- **A program and the renamed one.** A place inside the scope that is renamed in is known by how
many scopes out that is. -/
def Simulation.renaming (hxz : Renamable x z) : Simulation .bound .bound where
  Place := Option Nat
  World := RenamedFrames
  Owner := Unit
  top := none
  Tokens _ t t' := t'.line = t.line
  Uses p _ y y' hops hops' := hops = hops' ∧ y' = renamedIf x z (Hops.IsOf hops p) y ∧
    (Hops.IsOf hops p → y ≠ z)
  Declares p y y' q := q = p ∧ y' = renamedIf x z (p = some 0) y ∧ (p = some 0 → y ≠ z)
  Enters p ys ys' q := (ys' = ys ∧ q = p.map (· + 1)) ∨
    (p = none ∧ q = some 0 ∧ ys' = ys.map (renamedIf x z true) ∧ z ∉ ys)
  HasReceiver _ := True
  Grows _ w w₁ := w.Grows w₁
  Memories w frames frames' := w.Relates x z frames frames'
  Slots w slot slot' := w.Slots x z slot slot'
  Scopes w p chain chain' := chain = chain' ∧ w.Sees p chain
  Current w p _ chain chain' := chain = chain' ∧ w.Sees p chain ∧ chain ≠ []
  grows_refl := RenamedFrames.Grows.refl
  grows_trans := RenamedFrames.Grows.trans
  grows_of_none h := h
  scopes_of_current h := ⟨h.1, h.2.1⟩
  slots_mono hw h := h.mono hw
  scopes_mono hw h := ⟨h.1, h.2.mono hw⟩
  current_mono hw h := ⟨h.1, h.2.1.mono hw, h.2.2⟩
  current_top w := ⟨(), rfl, w.sees_global, List.cons_ne_nil _ _⟩
  enters_top := ⟨none, .inl ⟨rfl, rfl⟩⟩
  locate := by
    rintro w p chain _ frames frames' use y _ hops _ hframes ⟨rfl, hsees⟩ ⟨rfl, rfl, hy⟩ -
    cases hops with
    | none =>
      have hholder : Frames.holder? frames' globalChain y =
          Frames.holder? frames globalChain y := by
        simp only [Frames.holder?, globalChain, List.find?_cons, List.find?_nil,
          hframes.globals_eq]
      simp only [id_eq, Frames.locate, Hops.IsOf, Option.isSome_none, Bool.false_and,
        renamedIf_false, hholder]
      cases hfound : Frames.holder? frames globalChain y with
      | none => exact .undefined rfl
      | some r =>
        obtain rfl : r = globalFrame := List.mem_singleton.1 (List.mem_of_find?_eq_some hfound)
        exact .found (w.slots_global y) (hframes.get?_eq (w.slots_global y)).symm
    | some k =>
      simp only [Hops.IsOf, Option.isSome_some, Bool.true_and, decide_eq_true_eq] at hy ⊢
      simp only [id_eq, Frames.locate, Frames.frameAt]
      cases hr : chain[k]? with
      | none => exact .defect
      | some r =>
        have hslots := hsees.slots (x := x) hr hy
        exact .found hslots (hframes.get?_eq hslots).symm
  put v hframes hslot := hframes.define hxz.ne hslot v
  announce := by
    rintro w p - chain _ frames frames' y _ _ hframes ⟨rfl, hsees, hne⟩ ⟨rfl, rfl, hy⟩
    cases chain with
    | nil => exact absurd rfl hne
    | cons r outer =>
      have hslots := hsees.slots (x := x) (k := 0) rfl hy
      exact ⟨_, _, rfl, rfl, w, .refl w, hframes.define hxz.ne hslots .nil, ⟨rfl, hsees, hne⟩,
        hslots⟩
  enter := by
    rintro w p chain _ frames frames' ys ys' q values hframes ⟨rfl, hsees⟩ henters - -
    have hnext : (⟨frames.cells.size⟩ : Ref .frame) :: chain = ⟨frames'.cells.size⟩ :: chain := by
      rw [hframes.count, hframes.count']
    obtain ⟨rfl, rfl⟩ | ⟨rfl, rfl, rfl, hz⟩ := henters
    · exact ⟨w.push false, (), w.grows_push false, hframes.alloc false rfl,
        ⟨hnext, hsees.push hframes.count false nofun, List.cons_ne_nil _ _⟩,
        fun _ hw => (w.grows_push false).trans hw⟩
    · exact ⟨w.push true, (), w.grows_push true,
        hframes.alloc true (Table.Renamed.ofList_zip hxz.ne hz values),
        ⟨hnext, hsees.push hframes.count true fun _ => rfl, List.cons_ne_nil _ _⟩,
        fun _ hw => (w.grows_push true).trans hw⟩
  inherited := by
    rintro w p chain _ frames frames' hops _ hframes ⟨rfl, -⟩ ⟨rfl, -⟩
    cases hops with
    | none => rfl
    | some k =>
      simp only [id_eq, Frames.inherited, hframes.valueAt_eq hxz]
  receiver := by
    rintro w p chain _ frames frames' hframes ⟨rfl, -⟩ -
    exact (hframes.valueAt_eq hxz chain 0 .thisWord).symm
  hasReceiver _ := trivial

instance (hxz : Renamable x z) : (Simulation.renaming hxz).Lockstep := ⟨id⟩

theorem Simulation.stays_renaming (hxz : Renamable x z) (p : Option Nat) :
    (Simulation.renaming hxz).Stays p := fun _ _ _ h => h.1

/-! ### Trees -/

section

variable {hxz : Renamable x z} {n : Nat}

/-- A use inside the scope that is renamed in. -/
theorem Simulation.uses_renaming (use : Use) {y : String} (hy : y ≠ z) (hops : Hops) :
    (Simulation.renaming hxz).Uses (some n) use y (renamedIf x z (hops = some n) y) hops hops := by
  have hof : Hops.IsOf hops (some n) = decide (hops = some n) := by
    cases hops <;> simp [Hops.IsOf, eq_comm]
  exact ⟨rfl, by rw [hof], fun _ => hy⟩

/-- What a keyword stands for is not renamed. -/
theorem Simulation.uses_renaming_keyword (use : Use) (k : Keyword) (hops : Hops) :
    (Simulation.renaming hxz).Uses (some n) use k.text k.text hops hops :=
  ⟨rfl, (renamedIf_of_ne _ (hxz.keyword_ne k).1).symm, fun _ => (hxz.keyword_ne k).2⟩

mutual

/-- An expression corresponds to the renamed one. -/
theorem Expr.sim_rename (e : Expr Hops) (he : e.Uses (Use.IsNot z)) :
    e.Sim (.renaming hxz) (some n) (e.rename x z n) := by
  match e with
  | .constant value => exact .constant
  | .group inner => exact .group (inner.sim_rename he)
  | .unary op line operand => exact .unary (operand.sim_rename he) rfl
  | .binary left op line right => exact .binary (left.sim_rename he.1) (right.sim_rename he.2) rfl
  | .logical left op line right => exact .logical (left.sim_rename he.1) (right.sim_rename he.2)
  | .var name hops => exact .var (Simulation.uses_renaming .read he hops) rfl
  | .assign name value hops =>
    exact .assign (value.sim_rename he.2) (Simulation.uses_renaming .assign he.1 hops) rfl
  | .call callee arguments line =>
    exact .call (callee.sim_rename he.1) (Expr.allSim_rename arguments he.2) rfl
  | .list elements line => exact .list (Expr.allSim_rename elements he)
  | .map entries line =>
    have hentries := Expr.entrySim_rename entries he
    exact .map hentries.1 hentries.2 rfl
  | .index container position line =>
    exact .index (container.sim_rename he.1) (position.sim_rename he.2) rfl
  | .setIndex container position value line =>
    exact .setIndex (container.sim_rename he.1) (position.sim_rename he.2.1)
      (value.sim_rename he.2.2) rfl
  | .get object name => exact .get (object.sim_rename he) rfl rfl
  | .set object name value => exact .set (object.sim_rename he.1) (value.sim_rename he.2) rfl rfl
  | .thisRef line hops => exact .thisRef (Simulation.uses_renaming_keyword .thisRef _ hops) rfl
  | .superRef line method hops =>
    exact .superRef (Simulation.uses_renaming_keyword .superRef _ hops) rfl rfl

theorem Expr.allSim_rename (es : List (Expr Hops)) (hes : Expr.AllUses (Use.IsNot z) es) :
    List.Forall₂ (Expr.Sim (.renaming hxz) (some n)) es (Expr.renameAll x z n es) := by
  match es with
  | [] => exact .nil
  | e :: es => exact .cons (e.sim_rename hes.1) (Expr.allSim_rename es hes.2)

theorem Expr.entrySim_rename (entries : List (Expr Hops × Expr Hops))
    (hes : Expr.EntryUses (Use.IsNot z) entries) :
    List.Forall₂ (Expr.Sim (.renaming hxz) (some n)) (entries.map Prod.fst)
        ((Expr.renameEntries x z n entries).map Prod.fst) ∧
      List.Forall₂ (Expr.Sim (.renaming hxz) (some n)) (entries.map Prod.snd)
        ((Expr.renameEntries x z n entries).map Prod.snd) := by
  match entries with
  | [] => exact ⟨.nil, .nil⟩
  | (key, value) :: entries =>
    have hentries := Expr.entrySim_rename entries hes.2.2
    exact ⟨.cons (key.sim_rename hes.1) hentries.1, .cons (value.sim_rename hes.2.1) hentries.2⟩

end

theorem Expr.optionSim_rename (e : Option (Expr Hops)) (he : Expr.OptionUses (Use.IsNot z) e) :
    Expr.OptionSim (.renaming hxz) (some n) e (e.map (Expr.rename x z n)) := by
  cases e with
  | none => exact .none
  | some e => exact .some (e.sim_rename he)

theorem Simulation.declares_renaming {y : String} (hy : y ≠ z) :
    (Simulation.renaming hxz).Declares (some n) y (renamedIf x z (n = 0) y) (some n) :=
  ⟨rfl, by simp only [Option.some.injEq], fun _ => hy⟩

/-- What is not called `x` is declared by the same name. -/
theorem Simulation.declares_renaming_same {y : String} (hy : y ≠ z) (hx : n = 0 → y ≠ x) :
    (Simulation.renaming hxz).Declares (some n) y y (some n) := by
  have hdeclares : (Simulation.renaming hxz).Declares (some n) y _ (some n) :=
    Simulation.declares_renaming hy
  by_cases h0 : n = 0
  · rwa [renamedIf_of_ne _ (hx h0)] at hdeclares
  · rwa [decide_eq_false h0, renamedIf_false] at hdeclares

/-- A scope is entered inside of the one that is renamed in, or it is that scope. -/
theorem Simulation.enters_renaming {p : Option Nat}
    (hp : p.map (· + 1) = some n ∨ (p = none ∧ n = 0)) {names : List Name}
    (hz : ∀ name ∈ names, name.text ≠ z) :
    (Simulation.renaming hxz).Enters p (names.map Name.text)
      ((names.map (Name.renameIf x z (n = 0))).map Name.text) (some n) := by
  obtain hp | ⟨rfl, rfl⟩ := hp
  · obtain ⟨k, rfl, rfl⟩ := Option.map_eq_some_iff.1 hp
    refine .inl ⟨?_, rfl⟩
    rw [List.map_map]
    exact List.map_congr_left fun name _ => renamedIf_false (x := x) (z := z) name.text
  · refine .inr ⟨rfl, rfl, ?_, ?_⟩
    · rw [List.map_map, List.map_map]
      rfl
    · simpa using hz

mutual

/-- A bound statement corresponds to the renamed one. -/
theorem Stmt.sim_rename {n : Nat} {site : Site Unit} {s : Stmt Hops}
    (hs : s.BoundAt .plain (fun _ => True) site) (hz : s.Avoids z)
    (ho : n = 0 → s.DeclaresOnlyVar x) :
    Stmt.Sim (.renaming hxz) (some n) s (s.rename x z n) (some n) := by
  have hinner : (some n).map (· + 1) = some (n + 1) ∨ (some n = none ∧ n + 1 = 0) := .inl rfl
  match s with
  | .expression value => exact .expression (value.sim_rename hz)
  | .print value => exact .print (value.sim_rename hz)
  | .var name initializer =>
    exact .var (Expr.optionSim_rename initializer hz.2) (Simulation.declares_renaming hz.1)
  | .block body =>
    exact .block (.inl ⟨rfl, rfl⟩)
      (Stmt.allSim_rename hs hz fun h0 => absurd h0 (Nat.succ_ne_zero _))
  | .branch condition yes none =>
    exact .when (condition.sim_rename hz.1)
      (Stmt.sim_rename hs.2.1 hz.2 fun _ => Stmt.declaresOnlyVar_of_none hs.2.2) hs.2.2
  | .branch condition yes (some no) =>
    obtain ⟨-, hyes, hyn, hno, hnn⟩ := hs
    exact .branch (condition.sim_rename hz.1)
      (Stmt.sim_rename hyes hz.2.1 fun _ => Stmt.declaresOnlyVar_of_none hyn) hyn
      (Stmt.sim_rename hno hz.2.2 fun _ => Stmt.declaresOnlyVar_of_none hnn) hnn
  | .whileLoop condition body =>
    exact .whileLoop (condition.sim_rename hz.1)
      (Stmt.sim_rename hs.2.1 hz.2 fun _ => Stmt.declaresOnlyVar_of_none hs.2.2) hs.2.2
  | .doWhile body condition =>
    exact .doWhile (condition.sim_rename hz.1)
      (Stmt.sim_rename hs.2.1 hz.2 fun _ => Stmt.declaresOnlyVar_of_none hs.2.2) hs.2.2
  | .breakLoop line => exact .breakLoop rfl
  | .continueLoop line => exact .continueLoop rfl
  | .returnValue line value => exact .returnValue (Expr.optionSim_rename value hz) rfl
  | .function ⟨name, params, body⟩ =>
    exact .function (Simulation.declares_renaming_same hz.1 fun h0 => (ho h0).function_ne)
      (Function.sim_rename hinner hs.2.2 hz.2 fun h0 => absurd h0 (Nat.succ_ne_zero _))
  | .classDecl name none methods =>
    exact .classDecl rfl (Simulation.declares_renaming_same hz.1 fun h0 => (ho h0).class_ne)
      .none rfl (.inl ⟨rfl, rfl⟩) (Function.allSim_rename rfl hs.2.2 hz.2)
  | .classDecl name (some (parent, hops)) methods =>
    obtain ⟨-, -, -, -, hmethods⟩ := hs
    exact .classDecl rfl (Simulation.declares_renaming_same hz.1 fun h0 => (ho h0).class_ne)
      (.some ⟨Simulation.uses_renaming .read hz.2.1 hops, rfl⟩) (.inl ⟨rfl, rfl⟩)
      (.inl ⟨rfl, rfl⟩) (Function.allSim_rename rfl hmethods hz.2.2)
  | .marker line m => exact .marker

theorem Stmt.allSim_rename {n : Nat} {site : Site Unit} {ss : List (Stmt Hops)}
    (hs : Stmt.AllBoundAt .plain (fun _ => True) site ss) (hz : Stmt.AllAvoid z ss)
    (ho : n = 0 → ∀ s ∈ ss, s.DeclaresOnlyVar x) :
    Stmt.AllSim (.renaming hxz) (some n) ss (Stmt.renameAll x z n ss) := by
  match ss with
  | [] => exact .nil
  | s :: ss =>
    exact .cons (Stmt.sim_rename hs.1 hz.1 fun h0 => (List.forall_mem_cons.1 (ho h0)).1)
      (Stmt.allSim_rename hs.2 hz.2 fun h0 => (List.forall_mem_cons.1 (ho h0)).2)

theorem Function.sim_rename {n : Nat} {p : Option Nat}
    (hp : p.map (· + 1) = some n ∨ (p = none ∧ n = 0)) {site : Site Unit} {decl : Function Hops}
    (hd : decl.BoundAt .plain (fun _ => True) site) (hz : decl.Avoids z)
    (ho : n = 0 → ∀ s ∈ decl.body, s.DeclaresOnlyVar x) :
    Function.Sim (.renaming hxz) p decl (decl.rename x z n) := by
  match decl with
  | ⟨name, params, body⟩ =>
    exact .intro rfl (List.length_map ..).symm (Simulation.enters_renaming hp hz.1)
      (Stmt.allSim_rename hd.2.2 hz.2 ho)

theorem Function.allSim_rename {n : Nat} {p : Option Nat} (hp : p.map (· + 1) = some n)
    {site : Site Unit} {decls : List (Function Hops)}
    (hd : Function.AllBoundAt .plain (fun _ => True) site decls) (hz : Function.AllAvoid z decls) :
    Function.AllSim (.renaming hxz) p decls (Function.renameAll x z n decls) := by
  match decls with
  | [] => exact .nil
  | decl :: decls =>
    have hn : n ≠ 0 := by
      obtain ⟨k, -, rfl⟩ := Option.map_eq_some_iff.1 hp
      exact Nat.succ_ne_zero k
    exact .cons (Function.sim_rename (.inl hp) hd.1 hz.1 fun h0 => absurd h0 hn)
      (Function.allSim_rename hp hd.2 hz.2)

end

end

/-! ### Around the scope that is renamed in -/

section

variable {hxz : Renamable x z} {site : Site Unit}

/-- Outside of the scope that is renamed in, code corresponds to itself. -/
theorem Simulation.relines_renaming (hxz : Renamable x z) :
    Relines (M := (.plain : Marking Unit))
      (Simulation.renaming hxz) none (fun _ => True) id id where
  tokens _ _ := rfl
  uses _ y hops := by
    have hof : Hops.IsOf hops none = false := by cases hops <;> rfl
    exact ⟨rfl, by rw [hof, renamedIf_false], by simp [hof]⟩
  declares _ := ⟨rfl, (renamedIf_false _).symm, nofun⟩
  enters _ := .inl ⟨rfl, rfl⟩

theorem Part.within_true (ps : List Part) : Part.Within (fun _ => True) ps :=
  fun _ _ _ _ _ => trivial

theorem Expr.sim_self (e : Expr Hops) : e.Sim (.renaming hxz) none e := by
  have hsim : (e.mapLines id).Sim (.renaming hxz) none (e.mapLines id) :=
    Expr.sim_mapLines (Simulation.relines_renaming hxz) e (Part.within_true _)
  rwa [Expr.mapLines_id] at hsim

theorem Stmt.sim_self {s : Stmt Hops} (hs : s.BoundAt .plain (fun _ => True) site) :
    Stmt.Sim (.renaming hxz) none s s none := by
  have hsim : Stmt.Sim (.renaming hxz) none (s.mapLines id) (s.mapLines id) none :=
    Stmt.sim_mapLines (Simulation.relines_renaming hxz) hs (Part.within_true _)
  rwa [Stmt.mapLines_id] at hsim

theorem Stmt.allSim_self {ss : List (Stmt Hops)}
    (hs : Stmt.AllBoundAt .plain (fun _ => True) site ss) :
    Stmt.AllSim (.renaming hxz) none ss ss := by
  have hsim : Stmt.AllSim (.renaming hxz) none (Stmt.mapAllLines id ss) (Stmt.mapAllLines id ss) :=
    Stmt.allSim_mapLines (Simulation.relines_renaming hxz) hs (Part.within_true _)
  rwa [Stmt.mapAllLines_id] at hsim

theorem Function.sim_self {decl : Function Hops} (hd : decl.BoundAt .plain (fun _ => True) site) :
    Function.Sim (.renaming hxz) none decl decl := by
  have hsim : Function.Sim (.renaming hxz) none (decl.mapLines id) (decl.mapLines id) :=
    Function.sim_mapLines (Simulation.relines_renaming hxz) hd (Part.within_true _)
  rwa [Function.mapLines_id] at hsim

theorem Function.allSim_self {decls : List (Function Hops)}
    (hd : Function.AllBoundAt .plain (fun _ => True) site decls) :
    Function.AllSim (.renaming hxz) none decls decls := by
  have hsim : Function.AllSim (.renaming hxz) none (Function.mapAllLines id decls)
      (Function.mapAllLines id decls) :=
    Function.allSim_mapLines (Simulation.relines_renaming hxz) hd (Part.within_true _)
  rwa [Function.mapAllLines_id] at hsim

mutual

/-- A statement corresponds to the one in which a variable is renamed. -/
theorem Stmt.sim_of_renames {site : Site Unit} {s q : Stmt Hops}
    (hs : s.BoundAt .plain (fun _ => True) site) (hz : s.Avoids z) (hq : Stmt.Renames x z s q) :
    Stmt.Sim (.renaming hxz) none s q none := by
  match s with
  | .block body =>
    cases hq with
    | scope hx =>
      exact .block (.inr ⟨rfl, rfl, rfl, List.not_mem_nil⟩)
        (Stmt.allSim_rename hs hz fun _ => Stmt.AllBoundAt.declaresOnlyVar trivial rfl hs (.inr hx))
    | block h => exact .block (.inl ⟨rfl, rfl⟩) (Stmt.allSim_of_allRenames hs hz h)
  | .branch condition yes none =>
    cases hq with
    | yes h => exact .when condition.sim_self (Stmt.sim_of_renames hs.2.1 hz.2 h) hs.2.2
  | .branch condition yes (some no) =>
    obtain ⟨-, hyes, hyn, hno, hnn⟩ := hs
    cases hq with
    | yes h =>
      exact .branch condition.sim_self (Stmt.sim_of_renames hyes hz.2.1 h) hyn
        (Stmt.sim_self hno) hnn
    | no h =>
      exact .branch condition.sim_self (Stmt.sim_self hyes) hyn
        (Stmt.sim_of_renames hno hz.2.2 h) hnn
  | .whileLoop condition body =>
    cases hq with
    | whileLoop h =>
      exact .whileLoop condition.sim_self (Stmt.sim_of_renames hs.2.1 hz.2 h) hs.2.2
  | .doWhile body condition =>
    cases hq with
    | doWhile h =>
      exact .doWhile condition.sim_self (Stmt.sim_of_renames hs.2.1 hz.2 h) hs.2.2
  | .function decl =>
    cases hq with
    | @function _ decl' h =>
      have hname : decl'.name.text = decl.name.text := congrArg Name.text h.name_eq
      have hdeclares := (Simulation.relines_renaming hxz).declares decl.name.text
      refine .function ?_ (Function.sim_of_renames hs.2.2 hz.2 h)
      rwa [hname]
  | .classDecl name none methods =>
    cases hq with
    | classDecl h =>
      exact .classDecl rfl ((Simulation.relines_renaming hxz).declares _) .none rfl
        (.inl ⟨rfl, rfl⟩) (Function.allSim_of_allRenames hs.2.2 hz.2 h)
  | .classDecl name (some (parent, hops)) methods =>
    obtain ⟨-, -, -, -, hmethods⟩ := hs
    cases hq with
    | classDecl h =>
      exact .classDecl rfl ((Simulation.relines_renaming hxz).declares _)
        (.some ⟨(Simulation.relines_renaming hxz).uses _ _ _, rfl⟩) (.inl ⟨rfl, rfl⟩)
        (.inl ⟨rfl, rfl⟩) (Function.allSim_of_allRenames hmethods hz.2.2 h)
  | .expression _ | .print _ | .var .. | .breakLoop _ | .continueLoop _ | .returnValue ..
  | .marker .. => cases hq

theorem Stmt.allSim_of_allRenames {site : Site Unit} {ss qs : List (Stmt Hops)}
    (hs : Stmt.AllBoundAt .plain (fun _ => True) site ss) (hz : Stmt.AllAvoid z ss)
    (hq : Stmt.AllRenames x z ss qs) : Stmt.AllSim (.renaming hxz) none ss qs := by
  match ss with
  | [] => cases hq
  | s :: ss =>
    cases hq with
    | head h => exact .cons (Stmt.sim_of_renames hs.1 hz.1 h) (Stmt.allSim_self hs.2)
    | tail h =>
      exact .cons (Stmt.sim_self hs.1) (Stmt.allSim_of_allRenames hs.2 hz.2 h)

theorem Function.sim_of_renames {site : Site Unit} {decl q : Function Hops}
    (hd : decl.BoundAt .plain (fun _ => True) site) (hz : decl.Avoids z)
    (hq : Function.Renames x z decl q) : Function.Sim (.renaming hxz) none decl q := by
  match decl with
  | ⟨name, params, body⟩ =>
    cases hq with
    | scope hx =>
      refine Function.sim_rename (.inr ⟨rfl, rfl⟩) hd hz fun _ => ?_
      exact Stmt.AllBoundAt.declaresOnlyVar trivial rfl hd.2.2 (hx.imp_left Scopes.contains_enter)
    | body h =>
      exact .intro rfl rfl (.inl ⟨rfl, rfl⟩) (Stmt.allSim_of_allRenames hd.2.2 hz.2 h)

theorem Function.allSim_of_allRenames {site : Site Unit} {decls qs : List (Function Hops)}
    (hd : Function.AllBoundAt .plain (fun _ => True) site decls)
    (hz : Function.AllAvoid z decls) (hq : Function.AllRenames x z decls qs) :
    Function.AllSim (.renaming hxz) none decls qs := by
  match decls with
  | [] => cases hq
  | decl :: decls =>
    cases hq with
    | head h => exact .cons (Function.sim_of_renames hd.1 hz.1 h) (Function.allSim_self hd.2)
    | tail h => exact .cons (Function.sim_self hd.1) (Function.allSim_of_allRenames hd.2 hz.2 h)

end

end

/-! ### What can be renamed -/

/-- A variable that is declared does not have a keyword for its name, nor `z`. -/
theorem Stmt.DeclareVar.proper {site : Site Unit} {ss : List (Stmt Hops)}
    (hx : Stmt.DeclareVar x ss)
    (hs : Stmt.AllBoundAt .plain (fun _ => True) site ss) (hz : Stmt.AllAvoid z ss) :
    x ≠ z ∧ Keyword.ofText? x = none := by
  obtain ⟨name, initializer, hmem, rfl⟩ := hx
  induction ss generalizing site with
  | nil => cases hmem
  | cons s ss ih =>
    obtain rfl | hmem := List.mem_cons.1 hmem
    · exact ⟨hz.1.1, hs.1.1⟩
    · exact ih hs.2 hz.2 hmem

mutual

theorem Stmt.Renames.proper {site : Site Unit} {s q : Stmt Hops}
    (hs : s.BoundAt .plain (fun _ => True) site) (hz : s.Avoids z) (hq : Stmt.Renames x z s q) :
    x ≠ z ∧ Keyword.ofText? x = none := by
  match s with
  | .block body =>
    cases hq with
    | scope hx => exact hx.proper hs hz
    | block h => exact Stmt.AllRenames.proper hs hz h
  | .branch condition yes none =>
    cases hq with
    | yes h => exact Stmt.Renames.proper hs.2.1 hz.2 h
  | .branch condition yes (some no) =>
    cases hq with
    | yes h => exact Stmt.Renames.proper hs.2.1 hz.2.1 h
    | no h => exact Stmt.Renames.proper hs.2.2.2.1 hz.2.2 h
  | .whileLoop condition body =>
    cases hq with
    | whileLoop h => exact Stmt.Renames.proper hs.2.1 hz.2 h
  | .doWhile body condition =>
    cases hq with
    | doWhile h => exact Stmt.Renames.proper hs.2.1 hz.2 h
  | .function decl =>
    cases hq with
    | function h => exact Function.Renames.proper hs.2.2 hz.2 h
  | .classDecl name none methods =>
    cases hq with
    | classDecl h => exact Function.AllRenames.proper hs.2.2 hz.2 h
  | .classDecl name (some (parent, hops)) methods =>
    cases hq with
    | classDecl h => exact Function.AllRenames.proper hs.2.2.2.2 hz.2.2 h
  | .expression _ | .print _ | .var .. | .breakLoop _ | .continueLoop _ | .returnValue ..
  | .marker .. => cases hq

theorem Stmt.AllRenames.proper {site : Site Unit} {ss qs : List (Stmt Hops)}
    (hs : Stmt.AllBoundAt .plain (fun _ => True) site ss) (hz : Stmt.AllAvoid z ss)
    (hq : Stmt.AllRenames x z ss qs) : x ≠ z ∧ Keyword.ofText? x = none := by
  match ss with
  | [] => cases hq
  | s :: ss =>
    cases hq with
    | head h => exact Stmt.Renames.proper hs.1 hz.1 h
    | tail h => exact Stmt.AllRenames.proper hs.2 hz.2 h

theorem Function.Renames.proper {site : Site Unit} {decl q : Function Hops}
    (hd : decl.BoundAt .plain (fun _ => True) site) (hz : decl.Avoids z)
    (hq : Function.Renames x z decl q) : x ≠ z ∧ Keyword.ofText? x = none := by
  match decl with
  | ⟨name, params, body⟩ =>
    cases hq with
    | scope hx =>
      obtain hparam | hvar := hx
      · obtain ⟨param, hmem, rfl⟩ := List.mem_map.1 hparam
        exact ⟨hz.1 param hmem, hd.1 param hmem⟩
      · exact hvar.proper hd.2.2 hz.2
    | body h => exact Stmt.AllRenames.proper hd.2.2 hz.2 h

theorem Function.AllRenames.proper {site : Site Unit} {decls qs : List (Function Hops)}
    (hd : Function.AllBoundAt .plain (fun _ => True) site decls) (hz : Function.AllAvoid z decls)
    (hq : Function.AllRenames x z decls qs) : x ≠ z ∧ Keyword.ofText? x = none := by
  match decls with
  | [] => cases hq
  | decl :: decls =>
    cases hq with
    | head h => exact Function.Renames.proper hd.1 hz.1 h
    | tail h => exact Function.AllRenames.proper hd.2 hz.2 h

end

/-! ### Sessions -/

theorem Outcome.Pairs.errorText_eq {r r' : Report} {L : Token → Token → Prop}
    (hL : ∀ t t', L t t' → t'.line = t.line) (h : r.outcome.Pairs L r'.outcome) :
    r'.errorText = r.errorText := by
  obtain ⟨outcome, effects⟩ := r
  obtain ⟨outcome', effects'⟩ := r'
  cases h with
  | success => rfl
  | faulted hplace =>
    cases hplace with
    | none => rfl
    | some ht => simp only [Report.errorText, Fault.text, Option.map_some, hL _ _ ht]

namespace Session

/-- The program of a text that has been accepted is bound. -/
theorem allBoundAt_program {text : String} (haccepts : Accepts text) :
    Stmt.AllBoundAt (.plain : Marking Unit) (fun _ => True) (.top ()) (program text) :=
  Program.boundAt_resolveWith (Source.proper_ofText text) fun _ => haccepts.2

/-- After any texts, no frame is of a scope that is renamed in. -/
theorem selfSim_renaming (hxz : Renamable x z) (limits : Limits) (natives : List Native)
    (input : List String) (output : Option String) (tracing : Bool) (clock : Clock)
    (texts : List String) :
    (leaves (run limits) texts (.start natives input output tracing clock)).SelfSim
      (.renaming hxz) none () := by
  refine selfSim_leaves (Simulation.stays_renaming hxz none) limits
    (fun text _ haccepts => Stmt.allSim_self (allBoundAt_program haccepts)) ?_
  let w : RenamedFrames := ⟨fun _ => False, 1, fun _ h => h.elim, Nat.one_pos, id⟩
  have hmemory : w.Relates x z (Frames.ofGlobals (Native.globals natives))
      (Frames.ofGlobals (Native.globals natives)) :=
    ⟨rfl, rfl, fun _ _ => rfl, fun _ h => h.elim⟩
  exact ⟨w, ⟨⟨Store.sim_ofMemory hmemory, rfl, rfl, rfl, rfl⟩,
    rfl, w.sees_global, List.cons_ne_nil _ _⟩⟩

/-- A name that is no token of a text is not used or declared by its program. -/
theorem allAvoid_program {text : String} (hsource : (Source.ofText text).diagnostics = [])
    (hz : Keyword.ofText? z = none) (hnew : ∀ t ∈ (Scan.ofText text).tokens, t.IsNot z) :
    Stmt.AllAvoid z (Source.ofText text).program ∧ Stmt.AllAvoid z (program text) := by
  have hwithin : Part.Within (Token.IsNot z) (Stmt.allParts (program text)) :=
    fun w line excess hmem hw =>
      hnew _ (Program.within_resolve hsource w line excess hmem hw)
  have hforget : Program.mapMarks (fun _ => ()) (program text) = (Source.ofText text).program :=
    Program.forget_resolveWith _
  refine ⟨?_, Stmt.allAvoid_of_within (Use.isNot_toldBy hz) _ hwithin⟩
  rw [← hforget]
  refine Stmt.allAvoid_of_within (Use.isNot_toldBy hz) _ ?_
  rwa [Program.mapMarks, Stmt.allParts_mapMarks]

/-- The global variables are shown in the same way after both runs. -/
theorem globals_view_renaming {hxz : Renamable x z} {w : RenamedFrames} {m n : Machine .bound}
    (h : m.store.Sim (.renaming hxz) w n.store) (levels : Nat)
    (answer answer' : Except Halt Report) :
    (view Frames.globals levels answer' n).globals =
      (view Frames.globals levels answer m).globals := by
  have htext := Value.text?_eq h.alike levels
  have hglobals : Frames.globals n.store.memory = Frames.globals m.store.memory :=
    RenamedFrames.Relates.globals_eq h.memory
  simp only [view, htext, hglobals]

/-- **The names of local variables do not matter.** A session runs a text that is accepted, and one
variable or parameter of a block or of a function in it is given a name that is no keyword and
nowhere in the text. The renamed program is accepted as well, and each use in it is bound as many
scopes out as before. It may be run since another text is read as it, or be put in the place of the
program. All that can be seen is the same: the messages, how the run ended and with which calls
pending, the message about a fault with its line, the value and the global variables. -/
theorem renaming_changes_nothing (limits : Limits) (levels : Nat) (natives : List Native)
    (input : List String) (output : Option String) (tracing : Bool) (clock : Clock)
    (earlier : List String) {text : String} (haccepts : Accepts text) {x z : String}
    (hz : Keyword.ofText? z = none) (hnew : ∀ t ∈ (Scan.ofText text).tokens, t.word ≠ .identifier z)
    {q : Program Hops} (hq : Program.Renames x z (program text) q) :
    let m := leaves (run limits) earlier (.start natives input output tracing clock)
    let bound := Program.resolve (Source.ofText text).program
    let renamed := Program.resolve (q.mapMarks fun _ => ())
    renamed.diagnostics = [] ∧ renamed.result = q ∧
      renamed.bindings.map Binding.unnamed = bound.bindings.map Binding.unnamed ∧
      ∀ bind other, (Source.ofText other).diagnostics = [] →
        bind (Source.ofText other).program = renamed →
          (run limits text).Pairs (runWith bind limits other) m m
            (fun r r' n n' =>
              r'.output = r.output ∧
              r'.outcome.unplaced = r.outcome.unplaced ∧
              r'.errorText = r.errorText ∧
              (view Frames.globals levels (.ok r') n').value =
                (view Frames.globals levels (.ok r) n).value ∧
              (view Frames.globals levels (.ok r') n').globals =
                (view Frames.globals levels (.ok r) n).globals)
            fun why why' n n' => why' = why ∧
              (view Frames.globals levels (.error why') n').globals =
                (view Frames.globals levels (.error why) n).globals := by
  intro m bound renamed
  have hbound := allBoundAt_program haccepts
  obtain ⟨havoids, havoids'⟩ := allAvoid_program haccepts.1 hz hnew
  obtain ⟨hne, hx⟩ := Stmt.AllRenames.proper hbound havoids' hq
  have hxz : Renamable x z := ⟨hne, hx, hz⟩
  obtain ⟨hresult, hclean, hbindings⟩ :=
    Program.mirrors_of_renames hxz (Source.proper_ofText text) havoids hq haccepts.2
  refine ⟨hclean, hresult, hbindings, fun bind other hother hbind => ?_⟩
  obtain ⟨w, hm⟩ := selfSim_renaming hxz limits natives input output tracing clock earlier
  obtain ⟨errors, hrun⟩ := run_of_accepted limits haccepts m
  obtain ⟨errors', hrun'⟩ := runWith_of_accepted bind limits other m hother (hbind ▸ hclean)
  rw [hbind] at hrun'
  have hsim : Stmt.AllSim (.renaming hxz) none (program text) renamed.result := by
    rw [hresult]
    exact Stmt.allSim_of_allRenames hbound havoids' hq
  have hpairs := runBound_pairs_lines limits (Simulation.stays_renaming hxz none)
    (hm.cleared errors errors') hsim
  refine .of_eq (hpairs.mono ?_ ?_) hrun hrun'
  · rintro r r' n n' ⟨houtcome, houtput, w, hstore⟩
    exact ⟨houtput.symm, houtcome.unplaced, houtcome.errorText_eq fun _ _ ⟨_, h⟩ => h,
      value_view_eq houtcome hstore.alike levels, globals_view_renaming hstore levels _ _⟩
  · rintro why _ n n' ⟨rfl, w, hstore⟩
    exact ⟨rfl, globals_view_renaming hstore levels _ _⟩

/-- A block has a variable `y` and a function that sets it, between two other variables `a`. -/
def shadowing (y : String) : Program Unit := [.block [.var ⟨"a", 1⟩ none, .block [
  .var ⟨y, 1⟩ (some (.unary .complement 1 (.var ⟨"a", 1⟩ ()))),
  .function ⟨⟨"f", 1⟩, [⟨"b", 1⟩],
    [.expression (.assign ⟨y, 1⟩ (.var ⟨"b", 1⟩ ()) ()), .print (.var ⟨y, 1⟩ ())]⟩,
  .block [.var ⟨"a", 1⟩ none, .expression (.call (.var ⟨"f", 1⟩ ()) [.var ⟨"a", 1⟩ ()] 1)],
  .expression (.var ⟨"c", 1⟩ ())]]]

theorem grammatical_shadowing (y : String) :
    Program.Grammatical (fun _ => True) (shadowing y) := by
  simp [shadowing, Program.Grammatical, Stmt.AllGrammatical, Stmt.Grammatical,
    Function.Grammatical, Expr.Grammatical, Expr.AllGrammatical, Expr.OptionGrammatical, Expr.rank,
    Expr.parts, Part.first?, Part.name]

/-- Only the variable in the middle is renamed, with its uses in the function. -/
theorem renaming_changes_nothing_shadowing :
    let text (y : String) := "\x7b var a; \x7b var " ++ y ++ " = !a; fun f(b) \x7b " ++ y ++
      " = b; print " ++ y ++ "; \x7d \x7b var a; f(a); \x7d c; \x7d \x7d"
    let m := leaves (run ⟨20, 9⟩) ["var b;"] (.start [] [] none false ⟨0, []⟩)
    Accepts (text "a") ∧ Program.Renames "a" "z" (program (text "a")) (program (text "z")) ∧
      Accepts (text "z") ∧
      ∃ r n r' n', run ⟨20, 9⟩ (text "a") m = .ok r n ∧ run ⟨20, 9⟩ (text "z") m = .ok r' n' ∧
        r'.output = r.output ∧ r'.errorText = r.errorText ∧
        r.outcome = .faulted ⟨.undefinedVariable "c", some ⟨.identifier "c", 1⟩⟩ [] := by
  intro text m
  have hscan : Scan.ofText (text "a") = ⟨Program.tokens 1 (shadowing "a"), 1, []⟩ := by
    decide +kernel
  have hscan' : Scan.ofText (text "z") = ⟨Program.tokens 1 (shadowing "z"), 1, []⟩ := by
    decide +kernel
  have hsource := Source.ofText_of_tokens (grammatical_shadowing "a") hscan
  have hsource' := Source.ofText_of_tokens (grammatical_shadowing "z") hscan'
  have haccepts : Accepts (text "a") := by
    rw [Accepts, hsource]
    decide +kernel
  have hnew : ∀ t ∈ (Scan.ofText (text "a")).tokens, t.word ≠ .identifier "z" := by
    rw [hscan]
    decide +kernel
  have hq : Program.Renames "a" "z" (program (text "a")) (program (text "z")) := by
    rw [program, program, hsource, hsource']
    exact .head (.block (.tail (.head (.scope ⟨_, _, List.mem_cons_self, rfl⟩))))
  have houtcome : outcome? (run ⟨20, 9⟩ (text "a") m) =
      some (.faulted ⟨.undefinedVariable "c", some ⟨.identifier "c", 1⟩⟩ []) := by decide +kernel
  obtain ⟨r, n, hrun, hr⟩ := exists_of_outcome? houtcome
  obtain ⟨hclean, -, -, hpairs⟩ :=
    renaming_changes_nothing ⟨20, 9⟩ 3 [] [] none false ⟨0, []⟩ ["var b;"]
    haccepts (by decide +kernel) hnew hq
  have hforget : Program.mapMarks (fun _ => ()) (program (text "z")) =
      (Source.ofText (text "z")).program := Program.forget_resolveWith _
  rw [hforget] at hclean hpairs
  have hread : (Source.ofText (text "z")).diagnostics = [] := by
    rw [hsource']
    decide +kernel
  -- The other text is read as the renamed program.
  obtain ⟨r', n', hrun', houtput, -, herror, -⟩ :=
    (hpairs Program.resolve (text "z") hread rfl).exists_right_of_ok hrun
  exact ⟨haccepts, hq, ⟨hread, hclean⟩, r, n, r', n', hrun, hrun', houtput, herror, hr⟩

end Session

end LoxLang
