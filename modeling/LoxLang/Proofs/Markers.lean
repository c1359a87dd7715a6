import LoxLang.Proofs.Lexical
import LoxLang.Proofs.Origins
import LoxLang.Proofs.RoundTrip
import LoxLang.Proofs.Tracking
import Mathlib.Data.List.Nodup

/-!
# Markers do nothing

`Program.withoutMarkers` puts an empty block in place of every marker of a program, wherever it
stands. Nothing is reported about the program then that was not reported before, and what is bound
is the same otherwise (`Program.resolve_withoutMarkers`).

An empty block opens a frame that nothing refers to. So the frames of a run with blocks are those of
the run with markers and some more: `Images` tells which of them belong together, and
`Simulation.sparing` makes a simulation of it. Hence sessions look the same with markers and with
empty blocks, as long as the stack suffices (`Session.markers_do_nothing`).
-/

namespace LoxLang

variable {β : Type}

/-! ### Empty blocks in place of markers -/

mutual

/-- Put an empty block in place of every marker in a statement. -/
def Stmt.withoutMarkers : Stmt β → Stmt β
  | .block body => .block (Stmt.allWithoutMarkers body)
  | .branch condition yes none => .branch condition yes.withoutMarkers none
  | .branch condition yes (some no) => .branch condition yes.withoutMarkers (some no.withoutMarkers)
  | .whileLoop condition body => .whileLoop condition body.withoutMarkers
  | .doWhile body condition => .doWhile body.withoutMarkers condition
  | .function decl => .function decl.withoutMarkers
  | .classDecl name superclass methods =>
    .classDecl name superclass (Function.allWithoutMarkers methods)
  | .marker _ _ => .block []
  | s => s

/-- Put an empty block in place of every marker in statements. -/
def Stmt.allWithoutMarkers : List (Stmt β) → List (Stmt β)
  | [] => []
  | s :: ss => s.withoutMarkers :: Stmt.allWithoutMarkers ss

/-- Put an empty block in place of every marker in a function. -/
def Function.withoutMarkers : Function β → Function β
  | ⟨name, params, body⟩ => ⟨name, params, Stmt.allWithoutMarkers body⟩

/-- Put an empty block in place of every marker in functions. -/
def Function.allWithoutMarkers : List (Function β) → List (Function β)
  | [] => []
  | decl :: decls => decl.withoutMarkers :: Function.allWithoutMarkers decls

end

@[simp]
theorem Function.name_withoutMarkers (decl : Function β) :
    decl.withoutMarkers.name = decl.name := by
  cases decl
  rfl

/-- Put an empty block in place of every marker in a program. -/
def Program.withoutMarkers (program : Program β) : Program β := Stmt.allWithoutMarkers program

/-! ### Binding -/

namespace Bound

/-- The second result is made from the first one by `f`, and nothing is reported about it that is
not reported about the first one. -/
abbrev Narrows {α γ : Type} (f : α → γ) (u : Bound α) (v : Bound γ) : Prop :=
  u.Maps (fun ds ds' => ds'.Sublist ds) f v

theorem additive_sublist : Additive fun ds ds' => ds'.Sublist ds := ⟨.slnil, .append⟩

theorem Maps.self {α : Type} (u : Bound α) : u.Narrows id u := ⟨rfl, .refl _⟩

end Bound

section

variable (mark : Scopes → Hops → β)

mutual

/-- A statement is bound as before with empty blocks in place of markers. -/
theorem Stmt.narrows_resolve (context : Context) (scopes : Scopes) (s : Stmt Unit) :
    (s.resolve mark context scopes).Narrows (fun r => (r.1.withoutMarkers, r.2))
      (s.withoutMarkers.resolve mark context scopes) := by
  have hd := Bound.additive_sublist
  match s with
  | .expression value => exact hd.bind (.self _) fun _ => hd.pure rfl
  | .print value => exact hd.bind (.self _) fun _ => hd.pure rfl
  | .var name initializer =>
    exact hd.bind (.self _) fun _ => hd.bind (.self _) fun _ => hd.bind (.self _) fun _ =>
      hd.pure rfl
  | .block body =>
    exact hd.bind (Stmt.narrows_resolveAll context (scopes.enter []) body) fun _ => hd.pure rfl
  | .branch condition yes none =>
    exact hd.bind (.self _) fun _ => hd.bind (yes.narrows_resolve context scopes) fun _ =>
      hd.pure rfl
  | .branch condition yes (some no) =>
    exact hd.bind (.self _) fun _ => hd.bind (yes.narrows_resolve context scopes) fun r =>
      hd.bind (no.narrows_resolve context r.2) fun _ => hd.pure rfl
  | .whileLoop condition body =>
    exact hd.bind (.self _) fun _ =>
      hd.bind (body.narrows_resolve { context with inLoop := true } scopes) fun _ => hd.pure rfl
  | .doWhile body condition =>
    exact hd.bind (body.narrows_resolve { context with inLoop := true } scopes) fun _ =>
      hd.bind (.self _) fun _ => hd.pure rfl
  | .breakLoop line => exact hd.bind (.self _) fun _ => hd.pure rfl
  | .continueLoop line => exact hd.bind (.self _) fun _ => hd.pure rfl
  | .returnValue line value =>
    exact hd.bind (.self _) fun _ => hd.bind (.self _) fun _ => hd.bind (.self _) fun _ =>
      hd.pure rfl
  | .function ⟨name, params, body⟩ =>
    exact hd.bind (.self _) fun scopes => hd.bind (Function.narrows_resolve
      { context with function := .function } scopes ⟨name, params, body⟩) fun _ => hd.pure rfl
  | .classDecl name superclass methods =>
    exact hd.bind (.self _) fun _ => hd.bind (.self _) fun _ =>
      hd.bind (Function.narrows_resolveMethods _ _ methods) fun _ => hd.pure rfl
  -- Uses in a marker may be reported, and about an empty block there is nothing to report.
  | .marker line marker => exact ⟨rfl, List.nil_sublist _⟩

theorem Stmt.narrows_resolveAll (context : Context) (scopes : Scopes) (ss : List (Stmt Unit)) :
    (Stmt.resolveAll mark context scopes ss).Narrows (fun r => (Stmt.allWithoutMarkers r.1, r.2))
      (Stmt.resolveAll mark context scopes (Stmt.allWithoutMarkers ss)) := by
  have hd := Bound.additive_sublist
  match ss with
  | [] => exact hd.pure rfl
  | s :: ss =>
    exact hd.bind (s.narrows_resolve context scopes) fun r =>
      hd.bind (Stmt.narrows_resolveAll context r.2 ss) fun _ => hd.pure rfl

theorem Function.narrows_resolve (context : Context) (scopes : Scopes) (decl : Function Unit) :
    (decl.resolve mark context scopes).Narrows Function.withoutMarkers
      (decl.withoutMarkers.resolve mark context scopes) := by
  have hd := Bound.additive_sublist
  match decl with
  | ⟨name, params, body⟩ =>
    exact hd.bind (.self _) fun inner =>
      hd.bind (Stmt.narrows_resolveAll { context with inLoop := false } inner body) fun _ =>
        hd.pure rfl

theorem Function.narrows_resolveMethods (context : Context) (scopes : Scopes)
    (decls : List (Function Unit)) :
    (Function.resolveMethods mark context scopes decls).Narrows Function.allWithoutMarkers
      (Function.resolveMethods mark context scopes (Function.allWithoutMarkers decls)) := by
  have hd := Bound.additive_sublist
  match decls with
  | [] => exact hd.pure rfl
  | ⟨name, params, body⟩ :: decls =>
    exact hd.bind (Function.narrows_resolve _ scopes ⟨name, params, body⟩) fun _ =>
      hd.bind (Function.narrows_resolveMethods context scopes decls) fun _ => hd.pure rfl

end

end

/-- **Binding goes past markers.** A program without them is bound to what the program with them is
bound to, and nothing more is reported. -/
theorem Program.resolve_withoutMarkers (program : Program Unit) :
    (Program.resolve program).Narrows Program.withoutMarkers
      (Program.resolve program.withoutMarkers) := by
  have hd := Bound.additive_sublist
  exact hd.bind (Stmt.narrows_resolveAll _ .program [] program) fun _ => hd.pure rfl

/-! ### Correspondence -/

section

variable {σ τ : Scoping} {S : Simulation σ τ}

mutual

/-- A statement still corresponds to another one without its markers. -/
theorem Stmt.Sim.withoutMarkers (hS : S.Spares) {p q : S.Place} {s : Stmt σ.Mark}
    {s' : Stmt τ.Mark} (h : s.Sim S p s' q) : s.Sim S p s'.withoutMarkers q := by
  match h with
  | .expression h => exact .expression h
  | .print h => exact .print h
  | .var h hd => exact .var h hd
  | .block he hb => exact .block he (Stmt.AllSim.withoutMarkers hS hb)
  | .when h hy hn => exact .when h (Stmt.Sim.withoutMarkers hS hy) hn
  | .branch h hy hn hno hnn =>
    exact .branch h (Stmt.Sim.withoutMarkers hS hy) hn (Stmt.Sim.withoutMarkers hS hno) hnn
  | .whileLoop h hb hn => exact .whileLoop h (Stmt.Sim.withoutMarkers hS hb) hn
  | .doWhile h hb hn => exact .doWhile h (Stmt.Sim.withoutMarkers hS hb) hn
  | .breakLoop h => exact .breakLoop h
  | .continueLoop h => exact .continueLoop h
  | .returnValue h hplace => exact .returnValue h hplace
  | .function hd hf =>
    refine .function ?_ (Function.Sim.withoutMarkers hS hf)
    rwa [Function.name_withoutMarkers]
  | .classDecl hname hd hp ha he hm =>
    exact .classDecl hname hd hp ha he (Function.AllSim.withoutMarkers hS hm)
  | .marker => exact .spared hS
  | .spared h => exact .spared h

theorem Stmt.AllSim.withoutMarkers (hS : S.Spares) {p : S.Place} {ss : List (Stmt σ.Mark)}
    {ss' : List (Stmt τ.Mark)} (h : Stmt.AllSim S p ss ss') :
    Stmt.AllSim S p ss (Stmt.allWithoutMarkers ss') := by
  match h with
  | .nil => exact .nil
  | .cons hs hss => exact .cons (Stmt.Sim.withoutMarkers hS hs) (Stmt.AllSim.withoutMarkers hS hss)

theorem Function.Sim.withoutMarkers (hS : S.Spares) {p : S.Place} {decl : Function σ.Mark}
    {decl' : Function τ.Mark} (h : decl.Sim S p decl') : decl.Sim S p decl'.withoutMarkers := by
  match h with
  | .intro hname hlength he hb =>
    exact .intro hname hlength he (Stmt.AllSim.withoutMarkers hS hb)

theorem Function.AllSim.withoutMarkers (hS : S.Spares) {p : S.Place}
    {decls : List (Function σ.Mark)} {decls' : List (Function τ.Mark)}
    (h : Function.AllSim S p decls decls') :
    Function.AllSim S p decls (Function.allWithoutMarkers decls') := by
  match h with
  | .nil => exact .nil
  | .cons hd hds =>
    exact .cons (Function.Sim.withoutMarkers hS hd) (Function.AllSim.withoutMarkers hS hds)

end

end

/-! ### Frames that nothing refers to -/

/-- Where the frames of one memory are in another one. The global frame is there itself, and `inner`
tells of the others, in order. -/
structure Images where
  inner : List (Ref .frame)

namespace Images

variable {w w₁ : Images} {r r' s : Ref .frame} {frames frames' : Frames} {chain chain' : Chain}

/-- The images of all frames. -/
def all (w : Images) : List (Ref .frame) := globalFrame :: w.inner

/-- The second frame is the image of the first one. -/
def Maps (w : Images) (r r' : Ref .frame) : Prop := w.all[r.index]? = some r'

/-- There is another frame. -/
def add (w : Images) (r : Ref .frame) : Images := ⟨w.inner ++ [r]⟩

/-- Frames have been added. -/
def Grows (w w₁ : Images) : Prop := w.all <+: w₁.all

/-- The second memory holds what the first one does, in the images of its frames. -/
structure Shows (w : Images) (frames frames' : Frames) : Prop where
  size_eq : frames.cells.size = w.all.length
  nodup : w.all.Nodup
  holds : ∀ r ∈ w.all, frames'.Holds r
  get_eq : ∀ r r', w.Maps r r' → frames.get r = frames'.get r'

theorem maps_globalFrame (w : Images) : w.Maps globalFrame globalFrame := rfl

theorem Maps.mono (h : w.Maps r r') (hw : w.Grows w₁) : w₁.Maps r r' := by
  obtain ⟨more, hmore⟩ := hw
  obtain ⟨hlt, -⟩ := List.getElem?_eq_some_iff.1 h
  rw [Maps, ← hmore, List.getElem?_append_left hlt]
  exact h

theorem all_add (w : Images) (r : Ref .frame) : (w.add r).all = w.all ++ [r] := rfl

/-- The image of the frame that has been added, and the images that there were. -/
theorem maps_add_iff {s' : Ref .frame} :
    (w.add r).Maps s s' ↔ w.Maps s s' ∨ s.index = w.all.length ∧ r = s' := by
  rw [Maps, Maps, all_add]
  obtain hlt | heq | hgt := Nat.lt_trichotomy s.index w.all.length
  · rw [List.getElem?_append_left hlt]
    simp [Nat.ne_of_lt hlt]
  · rw [heq, List.getElem?_concat_length, List.getElem?_eq_none (Nat.le_refl _)]
    simp
  · rw [List.getElem?_eq_none, List.getElem?_eq_none (Nat.le_of_lt hgt)]
    · simp [Nat.ne_of_gt hgt]
    · rwa [List.length_append, List.length_singleton]

theorem grows_add (w : Images) (r : Ref .frame) : w.Grows (w.add r) := ⟨[r], (w.all_add r).symm⟩

namespace Shows

theorem mem (h : w.Maps r r') : r' ∈ w.all := List.mem_of_getElem? h

theorem frames_holds (h : w.Shows frames frames') (hr : w.Maps r r') : frames.Holds r := by
  obtain ⟨hlt, -⟩ := List.getElem?_eq_some_iff.1 hr
  rw [Arena.Holds, h.size_eq]
  exact hlt

/-- No two frames have the same image. -/
theorem eq_of_maps (h : w.Shows frames frames') (hr : w.Maps r r') (hs : w.Maps s r') : r = s := by
  obtain ⟨hlt, -⟩ := List.getElem?_eq_some_iff.1 hr
  have hindex : r.index = s.index := (List.getElem?_inj hlt h.nodup).1 (hr.trans hs.symm)
  cases r
  cases s
  exact congrArg Ref.mk hindex

/-- A variable is defined in a frame and in its image. -/
theorem define (h : w.Shows frames frames') (hr : w.Maps r r') (x : String) (v : Value) :
    w.Shows (frames.define r x v) (frames'.define r' x v) where
  size_eq := by
    rw [← h.size_eq]
    exact Array.size_modify ..
  nodup := h.nodup
  holds s hs := Frames.holds_define_iff.2 (h.holds s hs)
  get_eq s s' hs := by
    by_cases hsr : s = r
    · subst hsr
      obtain rfl : s' = r' := Option.some.inj (hs.symm.trans hr)
      rw [Frames.get_define_self (h.frames_holds hs), Frames.get_define_self (h.holds _ (mem hs)),
        h.get_eq s s' hs]
    · have hne : s' ≠ r' := by
        rintro rfl
        exact hsr (h.eq_of_maps hs hr)
      rw [Frames.get_define_of_ne hsr, Frames.get_define_of_ne hne, h.get_eq s s' hs]

/-- A frame that is opened in the second memory alone is no image. -/
theorem alloc_right (h : w.Shows frames frames') (frame : Frame) :
    w.Shows frames (frames'.alloc frame).2 where
  size_eq := h.size_eq
  nodup := h.nodup
  holds s hs := Arena.holds_alloc_of_holds frame (h.holds s hs)
  get_eq s s' hs := by
    rw [Arena.get_alloc_of_holds frame (h.holds s' (mem hs)), h.get_eq s s' hs]

theorem maps_alloc (h : w.Shows frames frames') (frame : Frame) (s' : Ref .frame) :
    (w.add s').Maps (frames.alloc frame).1 s' := by
  rw [maps_add_iff]
  exact .inr ⟨h.size_eq, rfl⟩

/-- A frame that is opened in both memories is the image of the other. -/
theorem alloc (h : w.Shows frames frames') (frame : Frame) :
    (w.add (frames'.alloc frame).1).Shows (frames.alloc frame).2 (frames'.alloc frame).2 := by
  -- Images are frames of the second memory, and this one was not there.
  have hnew : (frames'.alloc frame).1 ∉ w.all := fun hmem => Nat.lt_irrefl _ (h.holds _ hmem)
  refine ⟨?_, ?_, fun s hs => ?_, fun s s' hs => ?_⟩
  · rw [all_add, List.length_append, ← h.size_eq]
    exact Array.size_push _
  · rw [all_add, ← List.concat_eq_append]
    exact List.Nodup.concat hnew h.nodup
  · rw [all_add] at hs
    obtain hs | hs := List.mem_append.1 hs
    · exact Arena.holds_alloc_of_holds frame (h.holds s hs)
    · rw [List.mem_singleton.1 hs]
      exact Arena.holds_alloc_self frames' frame
  · obtain hs | ⟨hindex, rfl⟩ := maps_add_iff.1 hs
    · rw [Arena.get_alloc_of_holds frame (h.frames_holds hs),
        Arena.get_alloc_of_holds frame (h.holds s' (mem hs)), h.get_eq s s' hs]
    · rw [Arena.get_alloc, if_pos (hindex.trans h.size_eq.symm), Arena.get_alloc_self]

/-! ### Chains -/

/-- The frame at a number of hops, or none, is there in both chains. -/
theorem frameAt_cases (h : List.Forall₂ w.Maps chain chain') (hops : Nat) :
    (∃ r r', Frames.frameAt chain hops = .ok r ∧ Frames.frameAt chain' hops = .ok r' ∧
      w.Maps r r') ∨
      (Frames.frameAt chain hops = .error .noFrame ∧
        Frames.frameAt chain' hops = .error .noFrame) := by
  induction h generalizing hops with
  | nil => exact .inr ⟨rfl, rfl⟩
  | @cons r r' _ _ hr _ ih =>
    cases hops with
    | zero => exact .inl ⟨r, r', rfl, rfl, hr⟩
    | succ hops => exact ih hops

theorem valueAt_eq (h : w.Shows frames frames') (hchain : List.Forall₂ w.Maps chain chain')
    (hops : Nat) (x : String) :
    Frames.valueAt frames chain hops x = Frames.valueAt frames' chain' hops x := by
  unfold Frames.valueAt
  obtain ⟨r, r', hl, hr, hmaps⟩ | ⟨hl, hr⟩ := frameAt_cases hchain hops
  · rw [hl, hr]
    simp only [bind, Except.bind, h.get_eq r r' hmaps]
  · rw [hl, hr]
    rfl

theorem inherited_eq (h : w.Shows frames frames') (hchain : List.Forall₂ w.Maps chain chain')
    (hops : Hops) : Frames.inherited frames chain hops = Frames.inherited frames' chain' hops := by
  cases hops with
  | none => rfl
  | some hops => simp only [Frames.inherited, h.valueAt_eq hchain]

theorem located (h : w.Shows frames frames') (hchain : List.Forall₂ w.Maps chain chain')
    (hops : Hops) (x : String) :
    Located (σ := .bound) (τ := .bound) (fun slot slot' => w.Maps slot.1 slot'.1 ∧ slot.2 = slot'.2)
      frames frames' x x (Frames.locate frames chain hops x)
      (Frames.locate frames' chain' hops x) := by
  cases hops with
  | some hops =>
    simp only [Frames.locate]
    obtain ⟨r, r', hl, hr, hmaps⟩ | ⟨hl, hr⟩ := frameAt_cases hchain hops
    · rw [hl, hr]
      refine .found ⟨hmaps, rfl⟩ ?_
      exact congrArg (Table.get? · x) (h.get_eq r r' hmaps)
    · rw [hl, hr]
      exact .defect
  | none =>
    have hglobals := h.get_eq _ _ w.maps_globalFrame
    simp only [Frames.locate, Frames.holder?, globalChain, List.find?, hglobals]
    cases (frames'.get globalFrame).contains x with
    | true => exact .found ⟨w.maps_globalFrame, rfl⟩ (congrArg (Table.get? · x) hglobals)
    | false => exact .undefined rfl

end Shows

end Images

/-- Programs with and without markers. The first run has a frame for each block, call and class, and
the second one has others, which are those of the blocks in place of the markers. -/
def Simulation.sparing : Simulation .bound .bound where
  Place := Unit
  World := Images
  Owner := Unit
  top := ()
  Tokens _ := Eq
  Uses _ _ x y hops hops' := x = y ∧ hops = hops'
  Declares _ x y _ := x = y
  Enters _ xs ys _ := xs = ys
  HasReceiver _ := True
  Grows _ := Images.Grows
  Memories := Images.Shows
  Slots w slot slot' := w.Maps slot.1 slot'.1 ∧ slot.2 = slot'.2
  Scopes w _ chain chain' := List.Forall₂ w.Maps chain chain'
  Current w _ _ chain chain' := List.Forall₂ w.Maps chain chain' ∧ chain ≠ []
  grows_refl w := List.prefix_refl _
  grows_trans h h' := List.IsPrefix.trans h h'
  grows_of_none h := h
  scopes_of_current h := h.1
  slots_mono hw h := ⟨h.1.mono hw, h.2⟩
  scopes_mono hw h := h.imp fun _ _ h => h.mono hw
  current_mono hw h := ⟨h.1.imp fun _ _ h => h.mono hw, h.2⟩
  current_top w := ⟨(), .cons w.maps_globalFrame .nil, List.cons_ne_nil _ _⟩
  enters_top := ⟨(), rfl⟩
  locate := by
    rintro w - chain chain' frames frames' use x _ hops _ hm hs ⟨rfl, rfl⟩ -
    exact hm.located hs hops x
  put := by
    rintro w frames frames' ⟨r, x⟩ ⟨r', _⟩ v hm ⟨hr, rfl⟩
    exact hm.define hr x v
  announce := by
    rintro w - - chain chain' frames frames' x _ - hm ⟨hs, hne⟩ rfl
    cases hs with
    | nil => exact absurd rfl hne
    | @cons r r' outer outer' hr hs =>
      exact ⟨_, _, rfl, rfl, w, List.prefix_refl _, hm.define hr x .nil, ⟨.cons hr hs, hne⟩, hr,
        rfl⟩
  enter := by
    rintro w - chain chain' frames frames' xs _ - values hm hs rfl - -
    have hw := w.grows_add (frames'.alloc (.ofList (xs.zip values))).1
    refine ⟨_, (), hw, hm.alloc (.ofList (xs.zip values)), ⟨?_, List.cons_ne_nil _ _⟩, ?_⟩
    · exact .cons (hm.maps_alloc (.ofList (xs.zip values)) _) (hs.imp fun _ _ h => h.mono hw)
    · exact fun _ hw₂ => List.IsPrefix.trans hw hw₂
  inherited := by
    rintro w - chain chain' frames frames' hops _ hm hs ⟨-, rfl⟩
    exact hm.inherited_eq hs hops
  receiver := by
    rintro w - chain chain' frames frames' hm hs -
    exact hm.valueAt_eq hs 0 _
  hasReceiver _ := trivial
  Spares := True
  spare := by
    rintro w - chain chain' frames frames' - hm hs
    -- The frame of a block in place of a marker is no image, so the world stays.
    exact ⟨w, List.prefix_refl _, hm.alloc_right _⟩

namespace Simulation

theorem stays_sparing : sparing.Stays () := fun _ _ _ _ => rfl

theorem relines_sparing :
    Relines (M := (.plain : Marking Unit)) sparing () (fun _ => True) id id where
  tokens _ _ := rfl
  uses _ _ _ := ⟨rfl, rfl⟩
  declares _ := rfl
  enters _ := rfl

end Simulation

/-- A text that is accepted has a program that corresponds to itself without the markers. -/
theorem Program.sim_withoutMarkers {text : String} (haccepts : Session.Accepts text) :
    Stmt.AllSim .sparing () (Session.program text) (Session.program text).withoutMarkers := by
  have hself := Program.sim_mapLines haccepts Simulation.relines_sparing fun _ _ => trivial
  rw [Program.mapLines_id] at hself
  exact hself.withoutMarkers trivial

theorem Machine.simAt_sparing_start (natives : List Native) (input : List String)
    (output : Option String) (tracing : Bool) (clock : Clock) :
    (Machine.start natives input output tracing clock).SimAt .sparing ⟨[]⟩ () ()
      (.start natives input output tracing clock) := by
  have hshows : (⟨[]⟩ : Images).Shows (Frames.ofGlobals (Native.globals natives))
      (Frames.ofGlobals (Native.globals natives)) := by
    refine ⟨rfl, List.nodup_singleton _, fun r hr => ?_, fun r r' hr => ?_⟩
    · rw [List.mem_singleton.1 hr]
      exact Nat.zero_lt_one
    · obtain ⟨index⟩ := r
      cases index with
      | zero => rw [← Option.some.inj hr, globalFrame]
      | succ index => cases hr
  exact ⟨⟨Store.sim_ofMemory hshows, rfl, rfl, rfl, rfl⟩, .cons rfl .nil, List.cons_ne_nil _ _⟩

/-! ### Sessions -/

namespace Session

/-- Both sessions look the same after every text, and have read as much of the input. -/
def SeenAlike (levels : Nat) (run run' : String → Eval .bound Report) (texts texts' : List String)
    (m : Machine .bound) : Prop :=
  views Frames.globals levels run texts m = views Frames.globals levels run' texts' m ∧
    ∀ count, (leaves run (texts.take count) m).input = (leaves run' (texts'.take count) m).input

/-- The second text is read as the program of the first one with empty blocks in place of
markers. -/
def ReadsWithoutMarkers (text text' : String) : Prop :=
  (Source.ofText text').diagnostics = [] ∧
    (Source.ofText text').program = (Source.ofText text).program.withoutMarkers

variable {limits : Limits} {text text' : String}

theorem Accepts.diagnostics_withoutMarkers (h : Accepts text) :
    (Program.resolve (Source.ofText text).program.withoutMarkers).diagnostics = [] := by
  have hsublist := (Program.resolve_withoutMarkers (Source.ofText text).program).2
  rw [h.2] at hsublist
  exact List.sublist_nil.1 hsublist

theorem result_withoutMarkers (text : String) :
    (Program.resolve (Source.ofText text).program.withoutMarkers).result =
      (program text).withoutMarkers :=
  (Program.resolve_withoutMarkers (Source.ofText text).program).1

theorem Accepts.of_readsWithoutMarkers (h : Accepts text) (hread : ReadsWithoutMarkers text text') :
    Accepts text' := by
  refine ⟨hread.1, ?_⟩
  rw [hread.2]
  exact h.diagnostics_withoutMarkers

/-- A text and the program without its markers are run in step, unless the stack is used up. -/
theorem run_tracks_withoutMarkers (h : Accepts text) {run' : Eval .bound Report} {w : Images}
    {m n : Machine .bound} (hm : m.SimAt .sparing w () () n)
    (hrun' : ∃ errors, run' n =
      runBound limits (program text).withoutMarkers (n.cleared errors)) :
    (run limits text).Tracks run' m n
      (fun r r' m' n' => r = r' ∧ ∃ w₁, m'.SimAt .sparing w₁ () () n')
      fun why why' m' n' => why = why' ∧ ∃ w₁, m'.SimAt .sparing w₁ () () n' := by
  obtain ⟨errors, hleft⟩ := run_of_accepted limits h m
  obtain ⟨errors', hright⟩ := hrun'
  have htracks := runBound_tracks limits (fun _ _ ⟨_, h⟩ => h) Simulation.stays_sparing
    (hm.cleared errors errors') (Program.sim_withoutMarkers h)
  exact htracks.of_eq hleft hright

/-- Sessions are seen alike if each text is tracked by its program without the markers. -/
theorem seenAlike_withoutMarkers {run' : String → Eval .bound Report} {texts texts' : List String}
    (h : List.Forall₂ (fun text text' => Accepts text ∧ ∀ n, ∃ errors, run' text' n =
      runBound limits (program text).withoutMarkers (n.cleared errors)) texts texts')
    (levels : Nat) (natives : List Native) (input : List String) (output : Option String)
    (tracing : Bool) (clock : Clock)
    (hfits : Fits run' texts' (.start natives input output tracing clock)) :
    SeenAlike levels (run limits) run' texts texts'
      (.start natives input output tracing clock) := by
  have hglobals (w : Images) (frames frames' : Frames) (hw : w.Shows frames frames') :
      Frames.globals frames = Frames.globals frames' := hw.get_eq _ _ w.maps_globalFrame
  have hstart := Machine.simAt_sparing_start natives input output tracing clock
  obtain ⟨hviews, hleaves⟩ := views_eq_of_tracks (S := Simulation.sparing) hglobals
    (h.imp fun _ _ ⟨haccepts, hrun'⟩ _ _ n hm => run_tracks_withoutMarkers haccepts hm (hrun' n))
    hstart hfits
  refine ⟨hviews, fun count => ?_⟩
  obtain ⟨w₁, hm₁⟩ := hleaves count
  exact hm₁.sim.input

/-- **Markers do nothing.** Texts about which nothing is reported are run one after the other. With
an empty block in place of every marker nothing is reported either, and if the stack suffices, the
same can be seen after every text: the report, with the messages, the fault and its line, and the
pending calls; the value and the global variables as texts; and what is left of the input. It is so
for the programs that have been read, and for texts that are read as programs without markers. -/
theorem markers_do_nothing (limits : Limits) (levels : Nat) (natives : List Native)
    (input : List String) (output : Option String) (tracing : Bool) (clock : Clock)
    {texts : List String} (htexts : ∀ text ∈ texts, Accepts text) :
    let start := Machine.start natives input output tracing clock
    let runWithout := runWith (fun program => Program.resolve program.withoutMarkers) limits
    (∀ text ∈ texts,
      (Program.resolve (Source.ofText text).program.withoutMarkers).diagnostics = []) ∧
    (Fits runWithout texts start → SeenAlike levels (run limits) runWithout texts texts start) ∧
    ∀ texts', List.Forall₂ ReadsWithoutMarkers texts texts' →
      (∀ text' ∈ texts', Accepts text') ∧
      (Fits (run limits) texts' start →
        SeenAlike levels (run limits) (run limits) texts texts' start) := by
  intro start runWithout
  refine ⟨fun text htext => (htexts text htext).diagnostics_withoutMarkers, fun hfits => ?_,
    fun texts' hreads => ?_⟩
  · refine seenAlike_withoutMarkers ?_ levels natives input output tracing clock hfits
    refine List.forall₂_same.2 fun text htext => ⟨htexts text htext, fun n => ?_⟩
    rw [← result_withoutMarkers text]
    exact runWith_of_accepted (σ := .bound) _ limits text n (htexts text htext).1
      (htexts text htext).diagnostics_withoutMarkers
  · have hboth := (List.forall₂_and_left texts texts').2 ⟨htexts, hreads⟩
    constructor
    · have haccepts :
          List.Forall₂ (fun text' text => Accepts text' ∧ ReadsWithoutMarkers text text')
            texts' texts :=
        (hboth.imp fun _ _ h => ⟨h.1.of_readsWithoutMarkers h.2, h.2⟩).flip
      exact ((List.forall₂_and_left texts' texts).1 haccepts).1
    · intro hfits
      refine seenAlike_withoutMarkers (hboth.imp ?_) levels natives input output tracing clock hfits
      rintro text text' ⟨haccepts, hread⟩
      refine ⟨haccepts, fun n => ?_⟩
      rw [← result_withoutMarkers text, ← hread.2]
      exact run_of_accepted limits (haccepts.of_readsWithoutMarkers hread) n

/-- Markers stand in a method, as the body of a loop, in a branch and between two statements. The
call of the method comes to a fault. -/
def marking (marker : Marker Unit → Stmt Unit) : Program Unit :=
  let a : Expr Unit := .var ⟨"a", 1⟩ ()
  let b : Expr Unit := .var ⟨"b", 1⟩ ()
  [.classDecl ⟨"A", 1⟩ none [⟨⟨"m", 1⟩, [],
      [marker (.build ⟨"a", 1⟩ () [⟨"b", 1⟩] [a]), .expression (.call a [] 1)]⟩],
    .function ⟨⟨"a", 1⟩, [], [.doWhile (marker (.walk a)) b, .branch b (marker .otherwise) none,
      .expression (.call (.get (.call (.var ⟨"A", 1⟩ ()) [] 1) ⟨"m", 1⟩) [b] 1)]⟩,
    .var ⟨"b", 1⟩ none, marker (.set ⟨"b", 1⟩ (.call a [] 1)), .expression (.call a [] 1)]

theorem grammatical_marking :
    Program.Grammatical (fun _ => True) (marking (.marker 1)) ∧
      Program.Grammatical (fun _ => True) (marking fun _ => .block []) := by
  simp [marking, Program.Grammatical, Stmt.AllGrammatical, Stmt.Grammatical, Stmt.declared?,
    Marker.Grammatical, Function.Grammatical, Function.AllGrammatical, Expr.Grammatical,
    Expr.AllGrammatical, Expr.OptionGrammatical, Expr.rank, Expr.parts, Part.first?, Part.name]

theorem markers_do_nothing_marking :
    let text (marker : String → String) := "class A \x7b m() \x7b " ++ marker "build a.b(a);" ++
      " a(); \x7d \x7d fun a() \x7b do " ++ marker "walk a;" ++ " while (b); if (b) " ++
      marker "otherwise;" ++ " A().m(b); \x7d var b; " ++ marker "set b = a();" ++ " a();"
    let texts := [text id]
    let texts' := [text fun _ => "\x7b\x7d"]
    let start := Machine.start [] [] none false ⟨0, []⟩
    let runWithout := runWith (fun program => Program.resolve program.withoutMarkers) ⟨20, 9⟩
    (∀ text ∈ texts, Accepts text) ∧ List.Forall₂ ReadsWithoutMarkers texts texts' ∧
      Fits runWithout texts start ∧ Fits (run ⟨20, 9⟩) texts' start ∧
      (∀ text ∈ texts', Accepts text) ∧
      SeenAlike 3 (run ⟨20, 9⟩) runWithout texts texts start ∧
      SeenAlike 3 (run ⟨20, 9⟩) (run ⟨20, 9⟩) texts texts' start := by
  intro text texts texts' start runWithout
  have hscan : Scan.ofText (text id) = ⟨Program.tokens 1 (marking (.marker 1)), 1, []⟩ := by
    decide +kernel
  have hscan' : Scan.ofText (text fun _ => "\x7b\x7d") =
      ⟨Program.tokens 1 (marking fun _ => .block []), 1, []⟩ := by decide +kernel
  -- Only the scans are evaluated: a tree that has the words of a text is what is read from it.
  have hsource := Source.ofText_of_tokens grammatical_marking.1 hscan
  have hsource' := Source.ofText_of_tokens grammatical_marking.2 hscan'
  have haccepts : ∀ text ∈ texts, Accepts text := by
    rw [List.forall_mem_singleton, Accepts, hsource]
    decide +kernel
  have hreads : List.Forall₂ ReadsWithoutMarkers texts texts' := by
    refine .cons ?_ .nil
    rw [ReadsWithoutMarkers, hsource, hsource']
    exact ⟨rfl, rfl⟩
  have hfits : Fits runWithout texts start := by
    simp only [texts, Fits, runWithout, runWith, hsource]
    decide +kernel
  have hfits' : Fits (run ⟨20, 9⟩) texts' start := by
    simp only [texts', Fits, run, runWith, hsource']
    decide +kernel
  obtain ⟨-, hwithout, hother⟩ := markers_do_nothing ⟨20, 9⟩ 3 [] [] none false ⟨0, []⟩ haccepts
  obtain ⟨haccepts', hseen⟩ := hother texts' hreads
  exact ⟨haccepts, hreads, hfits, hfits', haccepts', hwithout hfits, hseen hfits'⟩

end Session

end LoxLang
