import LoxLang.Proofs.Marks
import LoxLang.Proofs.Naming
import LoxLang.Proofs.Soundness
import LoxLang.Proofs.Unmarking

/-!
# Scopes and frames agree

Binding counts scopes, and evaluation counts frames. At every use of a variable that a run comes to,
there are as many frames in front of the global one as there were scopes around the use when it was
bound, and if nothing was reported about the program, the frame that the use is bound to has its
name (`Program.frames_agree_with_scopes`).

The programs are run one after the other on one machine, whatever comes of each of them, and a
function of one program may be called by a later one. Marks as programs are run with tell only the
hops. So the same programs are followed with marks that tell all there is, also which program a use
is in and which scopes were around it: they come to the same points (`Point.Unmarks`).
-/

namespace LoxLang

variable {σ : Scoping}

/-- At the point a use of a variable is evaluated, on the given machine. An assignment comes to its
variable twice: before and after its value is evaluated. -/
inductive Point.Uses (rounds : Nat) (p : Point σ) :
    Use → String → σ.Mark → Machine σ → Prop where
  | read {name : Name} {mark : σ.Mark} (h : p.task = .eval (.var name mark)) :
    Uses rounds p .read name.text mark p.machine
  | superclass {name parent : Name} {mark : σ.Mark} {methods : List (Function σ.Mark)}
    (h : p.task = .exec (.classDecl name (some (parent, mark)) methods)) :
    Uses rounds p .read parent.text mark p.machine
  | assign {name : Name} {value : Expr σ.Mark} {mark : σ.Mark}
    (h : p.task = .eval (.assign name value mark)) :
    Uses rounds p .assign name.text mark p.machine
  | write {name : Name} {value : Expr σ.Mark} {mark : σ.Mark} {depth : Nat} {v : Value}
    {n : Machine σ} (h : p.task = .eval (.assign name value mark))
    (hdepth : p.depth = depth + 1)
    (hvalue : Task.run rounds depth (.eval value) p.machine = .ok v n) :
    Uses rounds p .assign name.text mark n
  | thisRef {line : Int} {mark : σ.Mark} (h : p.task = .eval (.thisRef line mark)) :
    Uses rounds p .thisRef Keyword.thisWord.text mark p.machine
  | superRef {line : Int} {method : Name} {mark : σ.Mark}
    (h : p.task = .eval (.superRef line method mark)) :
    Uses rounds p .superRef Keyword.superWord.text mark p.machine

variable {ι : Type} {M : Marking ι} {clean : ι → Prop} {m : Machine M.scoping}

/-- What is used at a point is used at the same point with other marks, when the chain and the
frames are the same. -/
theorem Point.Uses.exists_of_unmarks {rounds : Nat} {p : Point M.scoping} {q : Point .bound}
    {use : Use} {x : String} {hops : Scoping.bound.Mark} {n : Machine .bound}
    (hpq : p.Unmarks q) (h : q.Uses rounds use x hops n) :
    ∃ (mark : M.scoping.Mark) (m : Machine M.scoping), p.Uses rounds use x mark m ∧
      M.hops mark = hops ∧ m.scope = n.scope ∧ m.store.memory = n.store.memory := by
  cases h with
  | @read name hops h =>
    obtain ⟨e, hp, he, hm⟩ := hpq.eval h
    cases he with
    | @var name' _ mark _ hu =>
      exact ⟨mark, p.machine, hu.1 ▸ .read hp, hu.2, hm.same⟩
  | superclass h =>
    obtain ⟨s, next, hp, hs, hm⟩ := hpq.exec h
    obtain ⟨name', parent', mark, methods', rfl, hu⟩ := hs.superclass
    exact ⟨mark, p.machine, hu.1 ▸ .superclass hp, hu.2, hm.same⟩
  | assign h =>
    obtain ⟨e, hp, he, hm⟩ := hpq.eval h
    cases he with
    | assign he hu => exact ⟨_, p.machine, hu.1 ▸ .assign hp, hu.2, hm.same⟩
  | @write name value mark depth v n h hdepth hvalue =>
    obtain ⟨e, hp, he, hm⟩ := hpq.eval h
    cases he with
    | @assign _ _ value' _ mark' _ he hu =>
      have hbefore : (Simulation.unmark M).pact.before ⟨(), (), (), ()⟩ (.eval value')
          (.eval value) p.machine q.machine := ⟨hm.sim, he, hm.current⟩
      obtain ⟨v', m, hvalue', -, w₁, hw, hm₁, hl, hr⟩ :=
        (((Simulation.unmark M).pact_kept rounds).run depth hbefore).exists_of_ok hvalue
      have hm₁ := hm.mono hw hm₁ hl hr
      exact ⟨mark', m, hu.1 ▸ .write hp (hpq.1.trans hdepth) hvalue', hu.2, hm₁.same⟩
  | thisRef h =>
    obtain ⟨e, hp, he, hm⟩ := hpq.eval h
    cases he with
    | thisRef hu => exact ⟨_, p.machine, .thisRef hp, hu.2, hm.same⟩
  | superRef h =>
    obtain ⟨e, hp, he, hm⟩ := hpq.eval h
    cases he with
    | superRef hu => exact ⟨_, p.machine, .superRef hp, hu.2, hm.same⟩

/-- Whatever programs have run, the next one starts outside of all blocks. -/
theorem Program.before_of_anyVisits {rounds depth : Nat} {programs : List (Program M.Mark)}
    {p : Point M.scoping} (hprograms : ∀ program ∈ programs, ∃ source,
      Stmt.AllBoundAt M clean (.top source) program) (hm : m.store.Fits M clean)
    (hscope : m.scope = globalChain)
    (hp : Program.AnyVisits (σ := M.scoping) rounds depth programs m p) :
    ∃ site, (soundness M clean).before site p.task p.machine := by
  induction programs generalizing m with
  | nil => exact hp.elim
  | cons program rest ih =>
    obtain ⟨source, hprogram⟩ := hprograms program List.mem_cons_self
    have hbody := Program.safe_body ⟨hm, hscope ▸ .nil⟩ hprogram
    obtain hp | hp := hp
    · exact (soundness_kept rounds).before_of_visits hbody hp
    · have hgrows := ((soundness_kept rounds).program_run depth hbody).leaves
      refine ih (fun q hq => hprograms q (List.mem_cons_of_mem _ hq)) hgrows.store.fits ?_ hp
      exact hgrows.scope.trans hscope

/-! ### Uses -/

/-- As many frames as told are in front of the global one, which is last. -/
def Chain.Inside (chain : Chain) (count : Nat) : Prop :=
  ∃ inner, chain = inner ++ [globalFrame] ∧ globalFrame ∉ inner ∧ inner.length = count

/-- What is found at a use that is bound to the given hops. -/
structure Chain.Finds (frames : Frames) (chain : Chain) (use : Use) (x : String) (hops : Hops) :
    Prop where
  /-- The name is where the hops lead, in front of the global frame. -/
  name : ∀ d, hops = some d → ∃ r, chain[d]? = some r ∧ r ≠ globalFrame ∧ frames.Has r x
  /-- Every use of `this` is bound. -/
  receiver : use = .thisRef → ∃ d, hops = some d
  /-- Every use of `super` is bound, and `this` is one frame further in. -/
  inherited : use = .superRef → ∃ d r, hops = some (d + 1) ∧ chain[d]? = some r ∧
    frames.Has r Keyword.thisWord.text

theorem Site.Binds.agrees {site : Site ι} {use : Use} {x : String} {mark : M.Mark}
    (h : site.Binds M clean use x mark) (hm : m.At M clean site) :
    ∃ i scopes hops, mark = M.make i scopes hops ∧ Chain.Inside m.scope scopes.length ∧
      (clean i → Chain.Finds m.store.memory m.scope use x hops) := by
  have hmark : ∃ hops, mark = M.make site.source site.scopes hops := by
    cases use with
    | read => exact ⟨_, h⟩
    | assign => exact ⟨_, h.1⟩
    | thisRef => exact h.1.elim (fun h => ⟨_, h⟩) fun h => ⟨_, h⟩
    | superRef => exact ⟨_, h.1⟩
  obtain ⟨hops, rfl⟩ := hmark
  refine ⟨site.source, site.scopes, hops, rfl, hm.chain.exists_inner, fun hclean => ?_⟩
  refine ⟨fun d hd => h.exists_frame hm.chain ((M.hops_make _ _ _).trans hd), ?_, ?_⟩
  · rintro rfl
    obtain ⟨hmark, d, hd⟩ := h.2 hclean
    have := congrArg M.hops hmark
    rw [Site.mark, M.hops_make, M.hops_make, hd] at this
    exact ⟨d, this⟩
  · rintro rfl
    obtain ⟨hmark, hknown⟩ := h
    obtain ⟨d, hd, hthis⟩ := hknown hclean
    obtain ⟨r, hr, -, hhas⟩ := hm.chain.exists_of_hops? hthis
    have := congrArg M.hops hmark
    rw [Site.mark, M.hops_make, M.hops_make, hd] at this
    exact ⟨d, r, this, hr, hhas⟩

/-- The superclass of a class is read before the name of the class is there, but bound after it. -/
theorem Stmt.BoundAt.superclass_agrees {site : Site ι} {name parent : Name} {mark : M.Mark}
    {methods : List (Function M.Mark)}
    (h : (Stmt.classDecl name (some (parent, mark)) methods).BoundAt M clean site)
    (hm : m.At M clean site) :
    ∃ i scopes hops, mark = M.make i scopes hops ∧ Chain.Inside m.scope scopes.length ∧
      (clean i → Chain.Finds m.store.memory m.scope .read parent.text hops) := by
  obtain ⟨-, -, rfl, hself, -⟩ := h
  refine ⟨_, _, _, rfl, ?_, fun hclean => ⟨fun d hd => ?_, nofun, nofun⟩⟩
  · rw [Site.set, Scopes.length_set]
    exact hm.chain.exists_inner
  · rw [Site.set, Scopes.hops?_set_of_ne _ _ (hself hclean)] at hd
    exact hm.chain.exists_of_hops? hd

theorem Point.Uses.agrees {rounds : Nat} {p : Point M.scoping} {use : Use} {x : String}
    {mark : M.scoping.Mark} (h : p.Uses rounds use x mark m) {site : Site ι}
    (hp : (soundness M clean).before site p.task p.machine) :
    ∃ i scopes hops, mark = M.make i scopes hops ∧ Chain.Inside m.scope scopes.length ∧
      (clean i → Chain.Finds m.store.memory m.scope use x hops) := by
  obtain ⟨hfits, ht⟩ := hp
  cases h with
  | read h =>
    rw [h] at ht
    exact ht.1.agrees ⟨hfits, ht.2⟩
  | superclass h =>
    rw [h] at ht
    exact ht.1.superclass_agrees ⟨hfits, ht.2⟩
  | assign h =>
    rw [h] at ht
    exact ht.1.1.agrees ⟨hfits, ht.2⟩
  | @write name value mark depth v n h hdepth hvalue =>
    rw [h] at ht
    have hm : p.machine.At M clean site := ⟨hfits, ht.2⟩
    have hbefore : (soundness M clean).before site (.eval value) p.machine :=
      ⟨hfits, ht.1.2, ht.2⟩
    have hgrows := ((soundness_kept rounds).run depth hbefore).of_ok hvalue
    exact ht.1.1.agrees (hm.grows hgrows.1)
  | thisRef h =>
    rw [h] at ht
    exact ht.1.agrees ⟨hfits, ht.2⟩
  | superRef h =>
    rw [h] at ht
    exact ht.1.agrees ⟨hfits, ht.2⟩

/-! ### Sessions -/

/-- The programs of the texts, bound with marks that tell all there is. -/
def Program.marked (texts : List String) : List (Program (Fin texts.length × Scopes × Hops)) :=
  (List.finRange texts.length).map fun i =>
    (Program.resolveWith (Marking.full.make i) (Source.ofText (texts.get i)).program).result

/-- The programs of the texts, bound as they are run. -/
def Program.bound (texts : List String) : List (Program Hops) :=
  texts.map fun text => (Program.resolve (Source.ofText text).program).result

/-- Of all marks, the hops are what is left when a program is bound to be run. -/
theorem Program.resolve_eq_mapMarks_hops (M : Marking ι) (i : ι) (program : Program Unit) :
    (Program.resolve program).result =
        (Program.resolveWith (M.make i) program).result.mapMarks M.hops ∧
      (Program.resolve program).diagnostics =
        (Program.resolveWith (M.make i) program).diagnostics := by
  have hmarks := Program.resolveWith_mapMarks (M.make i) M.hops program
  simp only [M.hops_make] at hmarks
  exact hmarks

/-- Without the marks, the marked programs are those that are run. -/
theorem Program.allSim_marked (texts : List String) :
    List.Forall₂ (Stmt.AllSim (.unmark Marking.full) ()) (Program.marked texts)
      (Program.bound texts) := by
  have hbound : Program.bound texts = (List.finRange texts.length).map fun i =>
      (Program.resolve (Source.ofText (texts.get i)).program).result := by
    conv_lhs => rw [← List.map_get_finRange texts]
    rw [Program.bound, List.map_map]
    rfl
  rw [hbound]
  refine List.forall₂_map_left_iff.2 (List.forall₂_map_right_iff.2
    (List.forall₂_same.2 fun i _ => ?_))
  have hmarked : Stmt.AllBoundAt Marking.full (fun _ => False) (.top i)
      (Program.resolveWith (Marking.full.make i) (Source.ofText (texts.get i)).program).result :=
    Program.boundAt_resolveWith (Source.proper_ofText _) False.elim
  rw [(Program.resolve_eq_mapMarks_hops Marking.full i _).1]
  exact Stmt.AllBoundAt.sim Simulation.relabels_unmark hmarked

/-- Machines that have not run anything are the same apart from the marks. -/
theorem Machine.simAt_start (M : Marking ι) (natives : List Native) (input : List String)
    (output : Option String) (tracing : Bool) (clock : Clock) :
    Machine.SimAt (.unmark M) () () ()
      (.ofMemory (Frames.ofGlobals (Native.globals natives)) input output tracing clock)
      (.start natives input output tracing clock) :=
  ⟨⟨Store.sim_ofMemory rfl, rfl, rfl, rfl, rfl⟩, rfl, List.cons_ne_nil _ _⟩

/-- Where a run of the marked programs comes to a point, there is a text. -/
theorem Program.length_pos_of_anyVisits {texts : List String} {rounds depth : Nat}
    {m : Machine (Marking.full (ι := Fin texts.length)).scoping}
    {p : Point (Marking.full (ι := Fin texts.length)).scoping}
    (hp : Program.AnyVisits rounds depth (Program.marked texts) m p) : 0 < texts.length := by
  cases texts with
  | nil => exact hp.elim
  | cons text texts => exact Nat.succ_pos _

section

variable (texts : List String) (natives : List Native) (input : List String)
  (output : Option String) (tracing : Bool) (clock : Clock) (rounds depth : Nat)

/-- A use that a run of the programs of the texts comes to stands in the text `i`, and had the given
scopes around it when it was bound: that is what its mark tells in the run of the marked programs,
which comes to the same point. -/
def Point.UsesAmid (p : Point .bound) (use : Use) (x : String) (hops : Scoping.bound.Mark)
    (m : Machine .bound) (i : Fin texts.length) (scopes : Scopes) : Prop :=
  ∃ (q : Point Marking.full.scoping) (n : Machine Marking.full.scoping),
    Program.AnyVisits rounds depth (Program.marked texts)
      (.ofMemory (Frames.ofGlobals (Native.globals natives)) input output tracing clock) q ∧
    q.Unmarks p ∧ q.Uses rounds use x (i, scopes, hops) n ∧
    n.scope = m.scope ∧ n.store.memory = m.store.memory

/-- **Scopes and frames agree.** The programs of texts are run one after the other on one machine,
whatever is reported about them and whatever comes of them. At every use that a run comes to, there
are as many frames in front of the global one as there were scopes around the use when it was bound.
If nothing was reported about the program that the use is in, then the frame that it is bound to has
its name; every use of `this` is bound, and every use of `super`, with `this` one frame further
in. -/
theorem Program.frames_agree_with_scopes {p : Point .bound} {use : Use} {x : String}
    {hops : Scoping.bound.Mark} {m : Machine .bound}
    (hp : Program.AnyVisits rounds depth (Program.bound texts)
      (.start natives input output tracing clock) p)
    (hu : p.Uses rounds use x hops m) :
    ∃ i scopes,
      p.UsesAmid texts natives input output tracing clock rounds depth use x hops m i scopes ∧
      Chain.Inside m.scope scopes.length ∧
      ((Program.resolve (Source.ofText (texts.get i)).program).diagnostics = [] →
        Chain.Finds m.store.memory m.scope use x hops) := by
  have hstart := Machine.simAt_start (Marking.full (ι := Fin texts.length)) natives input output
    tracing clock
  obtain ⟨q, hq, hqp⟩ := Simulation.exists_of_anyVisits (S := .unmark Marking.full)
    (fun _ _ _ _ => rfl) (Program.allSim_marked texts) hstart hp
  obtain ⟨mark, n, hu', hmark, hsame⟩ := hu.exists_of_unmarks hqp
  have hpos := Program.length_pos_of_anyVisits hq
  let clean (i : Fin texts.length) : Prop :=
    (Program.resolve (Source.ofText (texts.get i)).program).diagnostics = []
  obtain ⟨site, hbefore⟩ : ∃ site, (soundness Marking.full clean).before site q.task q.machine := by
    refine Program.before_of_anyVisits ?_ (Store.fits_ofGlobals ⟨0, hpos⟩ natives) rfl hq
    intro program hmem
    obtain ⟨i, -, rfl⟩ := List.mem_map.1 hmem
    refine ⟨i, Program.boundAt_resolveWith (Source.proper_ofText _) fun hclean => ?_⟩
    rw [← (Program.resolve_eq_mapMarks_hops Marking.full i _).2]
    exact hclean
  obtain ⟨i, scopes, hops', rfl, hinside, hfinds⟩ := hu'.agrees hbefore
  rw [hsame.1] at hinside hfinds
  rw [hsame.2] at hfinds
  cases hmark
  exact ⟨i, scopes, ⟨q, n, hq, hqp, hu', hsame⟩, hinside, hfinds⟩

end

/-- A machine that has not done anything but make frames. -/
def Machine.withFrames (frames : List Frame) (chain : Chain) : Machine .bound :=
  { Machine.ofMemory (σ := .bound) ⟨frames.toArray⟩ [] none false ⟨0, []⟩ with scope := chain }

/-- In a block there is a use of the variable of the block around it. -/
theorem Program.frames_agree_in_nested_blocks : ∃ p m,
    Program.AnyVisits 0 5 (Program.bound ["{ var a; { a; } }"])
      (.start [] [] none false ⟨0, []⟩) p ∧
    p.Uses 0 .read "a" (some 1) m ∧ m.scope = [⟨2⟩, ⟨1⟩, globalFrame] ∧
    ∃ i scopes,
      p.UsesAmid ["{ var a; { a; } }"] [] [] none false ⟨0, []⟩ 0 5 .read "a" (some 1) m i scopes ∧
      Chain.Inside m.scope scopes.length ∧
      ((Program.resolve (Source.ofText (["{ var a; { a; } }"].get i)).program).diagnostics = [] →
        Chain.Finds m.store.memory m.scope .read "a" (some 1)) := by
  let used : Expr Hops := .var ⟨"a", 1⟩ (some 1)
  let outer : List (Stmt Hops) := [.var ⟨"a", 1⟩ none, .block [.expression used]]
  let chain : Chain := [⟨1⟩, globalFrame]
  let frames : List Frame := [.empty, .ofList [("a", .nil)], .empty]
  let p₄ : Point .bound := ⟨4, .block chain outer, .withFrames [.empty, .empty] globalChain⟩
  let p₃ : Point .bound := ⟨3, .exec (.block [.expression used]), .withFrames (frames.take 2) chain⟩
  let p₂ : Point .bound := ⟨2, .block (⟨2⟩ :: chain) [.expression used], .withFrames frames chain⟩
  let p₁ : Point .bound := ⟨1, .exec (.expression used), .withFrames frames (⟨2⟩ :: chain)⟩
  let p₀ : Point .bound := ⟨0, .eval used, .withFrames frames (⟨2⟩ :: chain)⟩
  have h₄ : Point.Calls 0 ⟨5, .exec (.block outer), .start [] [] none false ⟨0, []⟩⟩ p₄ :=
    ⟨rfl, Or.inl ⟨rfl, rfl⟩⟩
  -- The declaration has been executed before the inner block is.
  have h₃ : Point.Calls 0 p₄ p₃ := ⟨rfl, Or.inr (Or.inl ⟨rfl, rfl⟩)⟩
  have h₂ : Point.Calls 0 p₃ p₂ := ⟨rfl, Or.inl ⟨rfl, rfl⟩⟩
  have h₁ : Point.Calls 0 p₂ p₁ := ⟨rfl, Or.inl ⟨rfl, rfl⟩⟩
  have h₀ : Point.Calls 0 p₁ p₀ := ⟨rfl, Or.inl ⟨rfl, rfl⟩⟩
  have hbound : Program.bound ["{ var a; { a; } }"] = [[.block outer]] := by
    with_unfolding_all rfl
  have hp : Program.AnyVisits 0 5 (Program.bound ["{ var a; { a; } }"])
      (.start [] [] none false ⟨0, []⟩) p₀ := by
    rw [hbound]
    exact .inl ⟨.exec (.block outer), .start [] [] none false ⟨0, []⟩, Or.inl ⟨rfl, rfl⟩,
      .head h₄ (.head h₃ (.head h₂ (.head h₁ (.single h₀))))⟩
  have hu : p₀.Uses 0 .read "a" (some 1) p₀.machine :=
    @Point.Uses.read .bound 0 p₀ ⟨"a", 1⟩ (some 1) rfl
  exact ⟨p₀, p₀.machine, hp, hu, rfl,
    Program.frames_agree_with_scopes ["{ var a; { a; } }"] [] [] none false ⟨0, []⟩ 0 5 hp hu⟩

end LoxLang
