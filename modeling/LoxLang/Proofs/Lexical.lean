import LoxLang.Proofs.Cells
import LoxLang.Proofs.Marks
import LoxLang.Proofs.Naming
import LoxLang.Proofs.Sessions
import LoxLang.Proofs.Unmarking

/-!
# Frames and cells

The scoping by frames and hops does what the scoping by cells does, for programs about which nothing
was reported: this is the simulation `Simulation.lexical`. Where a use is bound to a number of hops,
the name has a cell, which belongs to it in the frame that many hops out; where it is not bound, the
name has no cell (`CellScope.Sees`).

For a declaration to make a new variable in both, the innermost frame may not have the name already.
So it matters which frame is declared in, and that while other scopes are current nothing is
declared there (`CellScope.Current`).
-/

namespace LoxLang

/-! ### What can be seen -/

/-- The names that can be used amid the scopes have cells, in the frames where the hops lead; and no
others have. -/
structure CellScope.Sees (w : CellWorld) (scopes : Scopes) (chain : Chain) (ρ : CellScope) :
    Prop where
  bound : ∀ x d, scopes.hops? x = some d →
    ∃ r c, chain[d]? = some r ∧ ρ.cells.get? x = some c ∧ w.slots[c]? = some (r, x)
  free : ∀ x, scopes.hops? x = none → ρ.cells.get? x = none

/-- As `CellScope.Sees`, and in the frame `o`, which is declared in, only the names of the innermost
scope have cells. -/
inductive CellScope.Current (w : CellWorld) :
    Scopes → Ref .frame → Chain → CellScope → Prop where
  | top {ρ : CellScope} (hblock : ρ.inBlock = false) (hsees : ρ.Sees w [] globalChain) :
    Current w [] globalFrame globalChain ρ
  | block {scope : Scope} {outer : Scopes} {o : Ref .frame} {chain : Chain} {ρ : CellScope}
    (hblock : ρ.inBlock = true) (hsees : ρ.Sees w (scope :: outer) (o :: chain))
    (hinner : o ≠ globalFrame) (hholds : o.index < w.count)
    (hnames : ∀ x, (o, x) ∈ w.slots → scope.contains x = true) :
    Current w (scope :: outer) o (o :: chain) ρ

namespace CellScope

variable {w w₁ : CellWorld} {scopes : Scopes} {chain : Chain} {ρ : CellScope} {o : Ref .frame}
  {x : String} {frames : Frames} {mem : Cells}

theorem Sees.mono {owner : Option (Ref .frame)} (h : ρ.Sees w scopes chain)
    (hw : CellWorld.Grows owner w w₁) : ρ.Sees w₁ scopes chain := by
  refine ⟨fun x d hd => ?_, h.free⟩
  obtain ⟨r, c, hr, hc, hs⟩ := h.bound x d hd
  exact ⟨r, c, hr, hc, hw.getElem? hs⟩

theorem Current.sees (h : ρ.Current w scopes o chain) : ρ.Sees w scopes chain := by
  cases h with
  | top _ hsees => exact hsees
  | block _ hsees => exact hsees

theorem Current.mono (h : ρ.Current w scopes o chain) (hw : CellWorld.Grows none w w₁) :
    ρ.Current w₁ scopes o chain := by
  cases h with
  | top hblock hsees => exact .top hblock (hsees.mono hw)
  | block hblock hsees hinner hholds hnames =>
    refine .block hblock (hsees.mono hw) hinner (Nat.lt_of_lt_of_le hholds hw.1) fun x hx => ?_
    exact hnames x (hw.mem_of_lt hholds hx)

/-- The value that a use finds is the one in the cell of the name. -/
theorem Sees.inCell (h : ρ.Sees w scopes chain) (hmem : mem.Shows w frames) {d : Nat}
    (hd : scopes.hops? x = some d) : frames.valueAt chain d x = mem.inCell ρ x := by
  obtain ⟨r, c, hr, hc, hs⟩ := h.bound x d hd
  have hframe : Frames.frameAt chain d = .ok r := Frames.frameAt_eq_ok_iff.2 hr
  simp only [Frames.valueAt, Cells.inCell, hframe, hc, bind, Except.bind, Option.bind_some,
    hmem.values c r x hs]
  cases (frames.get r).get? x <;> rfl

end CellScope

/-- The places of a variable in frames and in cells correspond. -/
def CellSlot.Shows (w : CellWorld) (slot : Ref .frame × String) : CellSlot → Prop
  | .global x => slot = (globalFrame, x)
  | .cell c => w.slots[c]? = some slot

namespace Cells.Shows

variable {w w₁ : CellWorld} {scopes outer : Scopes} {scope : Scope} {chain : Chain} {ρ : CellScope}
  {o : Ref .frame} {x : String} {frames : Frames} {mem : Cells}

/-- A use leads to places that correspond, with the same value, or is undefined in both. -/
theorem located (h : mem.Shows w frames) (hsees : ρ.Sees w scopes chain) :
    Located (σ := .bound) (τ := .cells) (fun slot slot' => slot'.Shows w slot) frames mem x x
      (frames.locate chain (scopes.hops? x) x) (mem.locate ρ x) := by
  cases hd : scopes.hops? x with
  | some d =>
    obtain ⟨r, c, hr, hc, hs⟩ := hsees.bound x d hd
    have hframes : frames.locate chain (some d) x = .ok (r, x) := by
      simp only [Frames.locate, Frames.frameAt, hr]
      rfl
    have hcells : mem.locate ρ x = .ok (.cell c) := by simp only [Cells.locate, hc]
    rw [hframes, hcells]
    exact .found hs (h.values c r x hs).symm
  | none =>
    have hfree := hsees.free x hd
    have hholder : frames.holder? globalChain x =
        if mem.globals.contains x then some globalFrame else none := by
      simp only [Frames.holder?, globalChain, List.find?_cons, List.find?_nil, h.globals]
      split <;> simp [*]
    simp only [Frames.locate, Cells.locate, hfree, hholder]
    by_cases hx : mem.globals.contains x
    · simp only [hx, if_true]
      exact .found rfl (by simp only [Cells.value?, h.globals])
    · simp only [hx]
      exact .undefined rfl

/-- A name that the innermost scope does not have is declared in the innermost frame. -/
theorem declare (h : mem.Shows w frames) (hρ : ρ.Current w (scope :: outer) o chain)
    (hfresh : scope.contains x = false) (v : Value) :
    ∃ w₁, CellWorld.Grows (some o) w w₁ ∧
      (Cells.allocate ρ x v mem).2.Shows w₁ (Frames.define frames o x v) ∧
      (Cells.allocate ρ x v mem).1.2.Current w₁ (scope.insert x true :: outer) o chain ∧
      (Cells.allocate ρ x v mem).1.1.Shows w₁ (o, x) := by
  cases hρ with
  | @block _ _ _ chain _ hblock hsees hinner hholds hnames =>
    -- In this frame only names of the innermost scope have cells.
    have hnew : (o, x) ∉ w.slots := by
      intro hmem
      rw [hnames x hmem] at hfresh
      cases hfresh
    have hgrows : CellWorld.Grows (some o) w ⟨w.count, w.slots ++ [(o, x)]⟩ := by
      refine ⟨Nat.le_refl _, [(o, x)], rfl, fun s hs => .inr ?_⟩
      rw [List.mem_singleton.1 hs]
    have hslot : (w.slots ++ [(o, x)])[mem.cells.size]? = some (o, x) := by
      rw [h.size]
      exact List.getElem?_concat_length
    have hown : frames.Holds o := by
      rw [Arena.Holds, h.count]
      exact hholds
    refine ⟨_, hgrows, h.allocate hinner hown hnew, .block hblock ⟨?_, ?_⟩ hinner hholds ?_, hslot⟩
    · intro y d hd
      by_cases hyx : y = x
      · subst hyx
        have hd' : Scopes.hops? (scope.insert y true :: outer) y = some 0 := by
          simp [Scopes.hops?, List.findIdx?_cons]
        rw [hd'] at hd
        cases hd
        exact ⟨o, mem.cells.size, rfl, Table.get?_insert_self _ _ _, hslot⟩
      · have hd' := (Scopes.hops?_set_of_ne (scope :: outer) true hyx).symm.trans hd
        obtain ⟨r, c, hr, hc, hs⟩ := hsees.bound y d hd'
        exact ⟨r, c, hr, (Table.get?_insert_of_ne _ _ hyx).trans hc, hgrows.getElem? hs⟩
    · intro y hd
      have hyx : y ≠ x := by
        rintro rfl
        simp [Scopes.hops?, List.findIdx?_cons] at hd
      have hd' := (Scopes.hops?_set_of_ne (scope :: outer) true hyx).symm.trans hd
      exact (Table.get?_insert_of_ne _ _ hyx).trans (hsees.free y hd')
    · intro y hy
      rw [Table.contains_insert]
      obtain hy | hy := List.mem_append.1 hy
      · rw [hnames y hy, Bool.or_true]
      · cases List.mem_singleton.1 hy
        simp

/-- Names that are all different are declared one after the other. -/
theorem declareAll (h : mem.Shows w frames) (hρ : ρ.Current w (scope :: outer) o chain)
    {locals : List (String × Value)} (hnodup : (locals.map Prod.fst).Nodup)
    (hfresh : ∀ e ∈ locals, scope.contains e.1 = false) :
    ∃ w₁, CellWorld.Grows (some o) w w₁ ∧
      (Cells.allocateAll locals (ρ, mem)).2.Shows w₁
        (locals.foldl (fun frames e => Frames.define frames o e.1 e.2) frames) ∧
      (Cells.allocateAll locals (ρ, mem)).1.Current w₁
        (locals.foldl (fun scope e => scope.insert e.1 true) scope :: outer) o chain := by
  induction locals generalizing w frames mem ρ scope with
  | nil => exact ⟨w, (CellWorld.Grows.refl w).of_none, h, hρ⟩
  | cons e locals ih =>
    obtain ⟨w₁, hw, h₁, hρ₁, -⟩ := h.declare hρ (hfresh e List.mem_cons_self) e.2
    obtain ⟨hnew, hnodup⟩ := List.nodup_cons.1 hnodup
    have hfresh₁ : ∀ e' ∈ locals, (scope.insert e.1 true).contains e'.1 = false := by
      intro e' he'
      have hne : e'.1 ≠ e.1 := fun heq => hnew (heq ▸ List.mem_map_of_mem he')
      rw [Table.contains_insert, hfresh e' (List.mem_cons_of_mem _ he')]
      simpa using hne
    obtain ⟨w₂, hw₂, h₂, hρ₂⟩ := ih h₁ hρ₁ hnodup hfresh₁
    exact ⟨w₂, hw.trans hw₂, h₂, hρ₂⟩

/-- A block is opened: there is a new frame, without anything in it. -/
theorem openBlock (h : mem.Shows w frames) (hsees : ρ.Sees w scopes chain) :
    CellScope.Current ⟨w.count + 1, w.slots⟩ (.empty :: scopes) (frames.alloc .empty).1
      ((frames.alloc .empty).1 :: chain) { ρ with inBlock := true } := by
  have hpositive : 0 < frames.cells.size := h.holds_global
  have hhops (x : String) : Scopes.hops? (.empty :: scopes) x = (scopes.hops? x).map (· + 1) :=
    Scopes.hops?_enter_of_not_mem scopes List.not_mem_nil
  refine .block rfl ⟨fun x d hd => ?_, fun x hd => ?_⟩ (fun hglobal => ?_) ?_ fun x hx => ?_
  · rw [hhops] at hd
    obtain ⟨d', hd', rfl⟩ := Option.map_eq_some_iff.1 hd
    exact hsees.bound x d' hd'
  · rw [hhops, Option.map_eq_none_iff] at hd
    exact hsees.free x hd
  · have hindex : frames.cells.size = 0 := congrArg Ref.index hglobal
    omega
  · exact h.count ▸ Nat.lt_succ_self _
  · -- A frame that was not there has no cells.
    have hholds : frames.cells.size < frames.cells.size := (h.inner _ hx).2
    exact absurd hholds (Nat.lt_irrefl _)

/-- A block is opened with variables, all of them different. -/
theorem enter (h : mem.Shows w frames) (hsees : ρ.Sees w scopes chain)
    {locals : List (String × Value)} (hnodup : (locals.map Prod.fst).Nodup) :
    ∃ w₁ o, CellWorld.Grows none w w₁ ∧
      (Cells.enter ρ locals mem).2.Shows w₁ (Frames.enter chain locals frames).2 ∧
      (Cells.enter ρ locals mem).1.Current w₁ (scopes.enter (locals.map Prod.fst)) o
        (Frames.enter chain locals frames).1 ∧
      ∀ w₂, CellWorld.Grows (some o) w₁ w₂ → CellWorld.Grows none w w₂ := by
  -- Frames that were there before the block get no cells while it is open.
  have hback (w₂ : CellWorld)
      (hw : CellWorld.Grows (some (frames.alloc .empty).1) ⟨w.count + 1, w.slots⟩ w₂) :
      CellWorld.Grows none w w₂ := by
    obtain ⟨hcount, more, hmore, hnew⟩ := hw
    refine ⟨Nat.le_of_succ_le hcount, more, hmore, fun s hs => .inl ?_⟩
    obtain hle | hsome := hnew s hs
    · exact Nat.le_of_succ_le hle
    · have hindex : frames.cells.size = s.1.index := congrArg Ref.index (Option.some.inj hsome)
      exact hindex ▸ Nat.le_of_eq h.count.symm
  obtain ⟨w₁, hw, h₁, hρ₁⟩ := h.openFrame.declareAll (h.openBlock hsees) hnodup
    fun _ _ => Table.contains_empty _
  refine ⟨w₁, _, hback w₁ hw, ?_, ?_, fun w₂ hw₂ => hback w₂ (hw.trans hw₂)⟩
  · have hframes : (frames.alloc (.ofList locals)).2 = _ := Frames.alloc_ofList locals
    exact hframes ▸ h₁
  · have hscopes : scopes.enter (locals.map Prod.fst) =
        locals.foldl (fun scope e => scope.insert e.1 true) .empty :: scopes := by
      rw [Scopes.enter, Table.ofList, List.map_map, List.foldl_map]
      rfl
    rw [hscopes]
    exact hρ₁

end Cells.Shows

/-! ### The simulation -/

/-- **Frames and cells.** Programs that are run by hops, and the same programs without marks. A
place is known by the scopes around it. -/
def Simulation.lexical : Simulation .bound .cells where
  Place := LoxLang.Scopes
  World := CellWorld
  Owner := Ref .frame
  top := []
  Tokens _ token token' := token = token'
  Uses scopes use x y hops _ := x = y ∧ hops = scopes.hops? x ∧
    (use = .superRef → ∃ d, scopes.hops? x = some (d + 1) ∧
      scopes.hops? Keyword.thisWord.text = some d)
  Declares scopes x y next := x = y ∧ scopes.declares x = false ∧ next = scopes.set x true
  Enters scopes xs ys inner := xs = ys ∧ xs.Nodup ∧ inner = scopes.enter xs
  HasReceiver scopes := scopes.hops? Keyword.thisWord.text = some 0
  Grows := CellWorld.Grows
  Memories w frames mem := mem.Shows w frames
  Slots w slot slot' := slot'.Shows w slot
  Scopes w scopes chain ρ := ρ.Sees w scopes chain
  Current w scopes o chain ρ := ρ.Current w scopes o chain
  grows_refl := CellWorld.Grows.refl
  grows_trans := CellWorld.Grows.trans
  grows_of_none := CellWorld.Grows.of_none
  scopes_of_current := CellScope.Current.sees
  slots_mono := by
    intro _ w w₁ slot slot' hw h
    cases slot' with
    | global x => exact h
    | cell c => exact hw.getElem? h
  scopes_mono hw h := h.mono hw
  current_mono hw h := h.mono hw
  current_top w := ⟨globalFrame, .top rfl ⟨nofun, fun _ _ => rfl⟩⟩
  enters_top := ⟨_, rfl, List.nodup_nil, rfl⟩
  locate := by
    rintro w scopes chain ρ frames mem use x _ _ _ hmem hsees ⟨rfl, rfl, -⟩ -
    exact hmem.located hsees
  put := by
    intro w frames mem slot slot' v hmem hslot
    cases slot' with
    | global x =>
      cases hslot
      exact hmem.writeGlobal
    | cell c => exact hmem.writeCell hslot
  announce := by
    rintro w scopes o chain ρ frames mem x _ _ hmem hρ ⟨rfl, hfresh, rfl⟩
    cases hρ with
    | top hblock hsees =>
      refine ⟨_, _, rfl, rfl, w, (CellWorld.Grows.refl w).of_none, ?_⟩
      simp only [Cells.announce, hblock]
      exact ⟨hmem.writeGlobal, .top hblock hsees, rfl⟩
    | block hblock hsees hinner hholds hnames =>
      obtain ⟨w₁, hw, hmem₁, hρ₁, hslot⟩ :=
        hmem.declare (.block hblock hsees hinner hholds hnames) hfresh .nil
      refine ⟨_, _, rfl, rfl, w₁, hw, ?_⟩
      simp only [Cells.announce, hblock]
      exact ⟨hmem₁, hρ₁, hslot⟩
  enter := by
    rintro w scopes chain ρ frames mem xs _ _ values hmem hsees ⟨rfl, hnodup, rfl⟩ hlength -
    have hnames : (xs.zip values).map Prod.fst = xs := by
      rw [List.map_fst_zip]
      omega
    have hfresh : ((xs.zip values).map Prod.fst).Nodup := by
      rw [hnames]
      exact hnodup
    have henter := hmem.enter hsees hfresh
    rw [hnames] at henter
    exact henter
  inherited := by
    rintro w scopes chain ρ frames mem _ _ hmem hsees ⟨-, rfl, hsuper⟩
    obtain ⟨d, hd, hthis⟩ := hsuper rfl
    have hparent := hsees.inCell hmem hd
    have hobject := hsees.inCell hmem hthis
    simp only [id_eq, hd, Frames.inherited, hparent, Nat.add_sub_cancel, hobject]
    rfl
  receiver := by
    intro w scopes chain ρ frames mem hmem hsees hthis
    exact hsees.inCell hmem hthis
  hasReceiver := by
    rintro scopes _ ⟨-, -, rfl⟩
    exact LoxLang.Scopes.hops?_enter_of_mem _ List.mem_cons_self

instance : Simulation.lexical.Lockstep := ⟨id⟩

/-- A mark that is right for a use leads to what has the name, amid all scopes in which the hops
are the same. -/
theorem Site.Binds.lexical {site : Site Unit} {use : Use} {x : String} {mark : Hops}
    (h : site.Binds .plain (fun _ => True) use x mark) {scopes : Scopes}
    (hscopes : ∀ y, site.scopes.hops? y = scopes.hops? y) :
    Simulation.lexical.Uses scopes use x x mark () := by
  refine And.intro rfl (And.intro ?_ ?_)
  · rw [← hscopes x]
    cases use with
    | read => exact h
    | assign => exact h.1
    | thisRef => exact (h.2 trivial).1
    | superRef => exact h.1
  · rintro rfl
    rw [← hscopes x, ← hscopes]
    exact h.2 trivial

/-- Programs about which nothing was reported correspond to themselves without marks. -/
theorem Simulation.relabels_lexical :
    Simulation.Relabels (M := (.plain : Marking Unit)) Simulation.lexical (fun _ => True)
      (fun _ => ()) Site.scopes where
  tokens _ _ := rfl
  uses _ _ _ _ h := h.lexical fun _ => rfl
  initializer site _ _ _ _ hfresh h := h.lexical (site.scopes.hops?_set_false (hfresh trivial))
  superclass site _ _ hself := ⟨rfl, site.scopes.hops?_set_of_ne true (hself trivial), nofun⟩
  declares _ _ hfresh := ⟨rfl, hfresh trivial, rfl⟩
  enters _ _ hnodup := ⟨rfl, hnodup trivial, rfl⟩
  loop _ := rfl
  body _ _ := rfl

/-! ### Sessions -/

/-- The global variables. -/
def Frames.globals (frames : Frames) : Frame := frames.get globalFrame

/-- The program of a text that is accepted corresponds to the one that was read. -/
theorem Program.allSim_lexical {text : String} (h : Session.Accepts text) :
    Stmt.AllSim Simulation.lexical [] (Program.resolve (Source.ofText text).program).result
      (Source.ofText text).program := by
  have hbound : Stmt.AllBoundAt Marking.plain (fun _ => True) (.top ())
      (Program.resolve (Source.ofText text).program).result :=
    Program.boundAt_resolveWith (Source.proper_ofText text) fun _ => h.2
  have hsim : Stmt.AllSim Simulation.lexical []
      (Program.resolve (Source.ofText text).program).result
      (Stmt.mapAllMarks (fun _ => ()) (Program.resolve (Source.ofText text).program).result) :=
    Stmt.AllBoundAt.sim Simulation.relabels_lexical hbound
  have hread : Stmt.mapAllMarks (fun _ => ())
      (Program.resolve (Source.ofText text).program).result =
      (Source.ofText text).program := Program.forget_resolveWith _
  rw [hread] at hsim
  exact hsim

/-- Before anything has run, the global frame is the only one, and there are no cells. -/
theorem Machine.simAt_lexical_start (natives : List Native) (input : List String)
    (output : Option String) (tracing : Bool) (clock : Clock) :
    Machine.SimAt Simulation.lexical ⟨1, []⟩ [] globalFrame
      (.start natives input output tracing clock)
      (.ofMemory (.ofGlobals (Native.globals natives)) input output tracing clock) := by
  refine ⟨⟨Store.sim_ofMemory (Cells.Shows.ofGlobals _), rfl, rfl, rfl, rfl⟩, ?_⟩
  exact CellScope.Current.top rfl ⟨nofun, fun _ _ => rfl⟩

/-- A text that is accepted runs in step with frames and with cells. -/
theorem Session.run_pairs_lexical (limits : Limits) {text : String} (htext : Session.Accepts text)
    {w : CellWorld} {m : Machine .bound} {n : Machine .cells}
    (hm : m.SimAt Simulation.lexical w [] globalFrame n) :
    (Session.run limits text).Pairs (Session.runWith pure limits text) m n
      (fun r r' m' n' => r = r' ∧ ∃ w₁, m'.SimAt Simulation.lexical w₁ [] globalFrame n')
      fun why why' m' n' => why = why' ∧
        ∃ w₁, m'.SimAt Simulation.lexical w₁ [] globalFrame n' := by
  obtain ⟨errors, hleft⟩ := Session.run_of_accepted limits htext m
  obtain ⟨errors', hright⟩ :=
    Session.runWith_of_accepted (σ := .cells) pure limits text n htext.1 rfl
  have hstays : Simulation.lexical.Stays [] := fun _ _ _ h => h.2.2
  have hpairs := Session.runBound_pairs limits (fun _ _ ⟨_, h⟩ => h) hstays
    (hm.cleared errors errors') (Program.allSim_lexical htext)
  exact hpairs.of_eq hleft hright

/-- **Binding is lexical.** Texts about which nothing is reported are run one after the other. What
can be seen of it is the same when the programs are run as they were read and variables are kept in
cells, each declaration with a fresh one. -/
theorem Session.views_eq_views_cells (limits : Limits) (natives : List Native)
    (input : List String) (output : Option String) (tracing : Bool) (clock : Clock) (levels : Nat)
    {texts : List String} (htexts : ∀ text ∈ texts, Session.Accepts text) :
    Session.views Frames.globals levels (Session.run limits) texts
        (.start natives input output tracing clock) =
      Session.views Cells.globals levels (Session.runWith (σ := .cells) pure limits) texts
        (.ofMemory (.ofGlobals (Native.globals natives)) input output tracing clock) := by
  refine Session.views_eq (S := Simulation.lexical) ?_ ?_
    (Machine.simAt_lexical_start natives input output tracing clock)
  · intro w frames mem hmem
    exact (Cells.Shows.globals hmem).symm
  · intro text htext w m n hm
    exact Session.run_pairs_lexical limits (htexts text htext) hm

/-- A function is made in a block and called by a later text. A variable that is declared after it
in the block has the name of a global that the function uses. -/
def Session.counter : List String :=
  ["var b = 5; var f; \x7b var a = 1; fun g() \x7b a = a + b; print a; \x7d" ++
    " f = g; var b = 0; \x7d", "f(); f();"]

theorem Session.views_eq_views_cells_counter :
    (∀ text ∈ Session.counter, Session.Accepts text) ∧
    Session.views Frames.globals 3 (Session.run ⟨40, 5⟩) Session.counter
        (.start [] [] none false ⟨0, []⟩) =
      Session.views Cells.globals 3 (Session.runWith (σ := .cells) pure ⟨40, 5⟩) Session.counter
        (.ofMemory (.ofGlobals (Native.globals [])) [] none false ⟨0, []⟩) := by
  have htexts : ∀ text ∈ Session.counter, Session.Accepts text := by decide +kernel
  exact ⟨htexts, Session.views_eq_views_cells ⟨40, 5⟩ [] [] none false ⟨0, []⟩ 3 htexts⟩

end LoxLang
