import LoxLang.Proofs.Chains
import LoxLang.Proofs.Dialogue

/-!
# Variables by name and by distance

A variable is found by walking out along the chain to the first frame that has its name, or by the
number of hops to that frame if it is known. Both ways lead to the same place
(`Chain.walk_agrees_with_distance`), however often the name is shadowed and whichever other chains
share the frames.

Evaluation reads and assigns variables at the distances that uses carry
(`Eval.readVariable_of_hops`, `Eval.assign_of_hops`), and by the walk if they carry none. So at the
distance of the first frame with the name it does what the walk does
(`Eval.readVariable_of_firstAt`, `Eval.assign_of_firstAt`).
-/

namespace LoxLang

namespace Frames

variable {frames : Frames} {r : Ref .frame} {x : String} {v : Value}

instance (frames : Frames) (r : Ref .frame) (x : String) : Decidable (frames.Has r x) :=
  inferInstanceAs (Decidable (_ = true))

/-- The memory `after` has the value under the name in the frame, and is the same otherwise. -/
structure Puts (frames : Frames) (r : Ref .frame) (x : String) (v : Value) (after : Frames) :
    Prop where
  value : (after.get r).get? x = some v
  names : ∀ y, y ≠ x → (after.get r).get? y = (frames.get r).get? y
  others : ∀ s, s ≠ r → after.get s = frames.get s
  holds : ∀ s, after.Holds s ↔ frames.Holds s

theorem puts_define (h : frames.Holds r) : frames.Puts r x v (define frames r x v) where
  value := by rw [get_define_self h, Table.get?_insert_self]
  names _ hy := get?_define_of_ne hy
  others _ hs := get_define_of_ne hs
  holds _ := holds_define_iff

end Frames

namespace Chain

variable {frames after : Frames} {chain outer : Chain} {x : String} {v : Value} {d : Nat}
  {r s : Ref .frame}

/-- The first frame of the chain that has the name is `r`, and it is `d` hops out. -/
structure FirstAt (frames : Frames) (chain : Chain) (x : String) (d : Nat) (r : Ref .frame) :
    Prop where
  frame : chain[d]? = some r
  has : frames.Has r x
  least : ∀ e s, e < d → chain[e]? = some s → ¬ frames.Has s x

theorem firstAt_zero (h : frames.Has r x) : FirstAt frames (r :: outer) x 0 r where
  frame := rfl
  has := h
  least _ _ he := absurd he (Nat.not_lt_zero _)

theorem firstAt_succ_iff : FirstAt frames (s :: outer) x (d + 1) r ↔
    ¬ frames.Has s x ∧ FirstAt frames outer x d r := by
  constructor
  · intro h
    exact ⟨h.least 0 s (Nat.succ_pos d) rfl, h.frame, h.has, fun e s he hs =>
      h.least (e + 1) s (Nat.succ_lt_succ he) hs⟩
  · rintro ⟨hs, h⟩
    refine ⟨h.frame, h.has, fun e s' he hs' => ?_⟩
    cases e with
    | zero =>
      obtain rfl := Option.some.inj hs'
      exact hs
    | succ e => exact h.least e s' (Nat.lt_of_succ_lt_succ he) hs'

/-- Either some frame is the first that has the name, or none has it. -/
theorem exists_firstAt_or (frames : Frames) (chain : Chain) (x : String) :
    (∃ d r, FirstAt frames chain x d r) ∨ ∀ r ∈ chain, ¬ frames.Has r x := by
  induction chain with
  | nil => exact .inr (by simp)
  | cons s outer ih =>
    by_cases hs : frames.Has s x
    · exact .inl ⟨0, s, firstAt_zero hs⟩
    · obtain ⟨d, r, h⟩ | hnone := ih
      · exact .inl ⟨d + 1, r, firstAt_succ_iff.2 ⟨hs, h⟩⟩
      · exact .inr (List.forall_mem_cons.2 ⟨hs, hnone⟩)

/-- The walk ends at the first frame that has the name. -/
theorem FirstAt.walk (h : FirstAt frames chain x d r) :
    Frames.lookup? frames chain x = (frames.get r).get? x ∧
      Frames.holder? frames chain x = some r := by
  induction chain generalizing d with
  | nil => cases h.frame
  | cons s outer ih =>
    rw [Frames.lookup?, Frames.holder?, List.find?_cons]
    cases d with
    | zero =>
      obtain rfl := Option.some.inj h.frame
      obtain ⟨v, hv⟩ := Frames.has_iff_exists.1 h.has
      have hcontains : (frames.get s).contains x = true := h.has
      rw [hv, hcontains]
      exact ⟨rfl, rfl⟩
    | succ d =>
      obtain ⟨hs, hlater⟩ := firstAt_succ_iff.1 h
      have hget : (frames.get s).get? x = none :=
        Option.eq_none_iff_forall_ne_some.2 fun v hv => hs (Frames.has_iff_exists.2 ⟨v, hv⟩)
      have hcontains : (frames.get s).contains x = false := Bool.eq_false_iff.2 hs
      rw [hget, hcontains]
      exact ih hlater

/-- If no frame has the name, the walk comes to the end. -/
theorem walk_of_none (h : ∀ r ∈ chain, ¬ frames.Has r x) :
    Frames.lookup? frames chain x = none ∧ Frames.holder? frames chain x = none := by
  refine ⟨?_, List.find?_eq_none.2 h⟩
  induction chain with
  | nil => rfl
  | cons s outer ih =>
    obtain ⟨hs, hlater⟩ := List.forall_mem_cons.1 h
    have hget : (frames.get s).get? x = none :=
      Option.eq_none_iff_forall_ne_some.2 fun v hv => hs (Frames.has_iff_exists.2 ⟨v, hv⟩)
    rw [Frames.lookup?, hget]
    exact ih hlater

/-- The first frame stays the first one when it is given a value. -/
theorem FirstAt.puts (h : FirstAt frames chain x d r) (hafter : frames.Puts r x v after) :
    FirstAt after chain x d r where
  frame := h.frame
  has := Frames.has_iff_exists.2 ⟨v, hafter.value⟩
  least e s he hs := by
    have hne : s ≠ r := by
      rintro rfl
      exact h.least e s he hs h.has
    rw [Frames.Has, hafter.others s hne]
    exact h.least e s he hs

theorem FirstAt.read_run (h : FirstAt frames chain x d r) {name : Token} (hname : name.lexeme = x)
    (hv : (frames.get r).get? x = some v) : (chain.read name).run frames = .ok v frames := by
  have hread : (chain.read name).run frames =
      (found name (Frames.lookup? frames chain name.lexeme)).run frames := rfl
  rw [hread, hname, h.walk.1, hv]
  rfl

theorem FirstAt.readAt_run (h : FirstAt frames chain x d r)
    (hv : (frames.get r).get? x = some v) : (chain.readAt d x).run frames = .ok v frames := by
  have hread : (chain.readAt d x).run frames =
      (granted (Frames.valueAt frames chain d x)).run frames := rfl
  rw [hread, Frames.valueAt_eq_ok_iff.2 ⟨r, h.frame, hv⟩]
  rfl

theorem FirstAt.assign_run (h : FirstAt frames chain x d r) {name : Token}
    (hname : name.lexeme = x) :
    (chain.assign name v).run frames = .ok () (Frames.define frames r x v) := by
  have hassign : (chain.assign name v).run frames =
      (do set (← found name (Frames.assign? frames chain name.lexeme v)) :
        Access Unit).run frames :=
    rfl
  rw [hassign, hname, Frames.assign?, h.walk.2]
  rfl

theorem FirstAt.assignAt_run (h : FirstAt frames chain x d r) {name : Token}
    (hname : name.lexeme = x) :
    (chain.assignAt d name v).run frames = .ok () (Frames.define frames r x v) := by
  have hassign : (chain.assignAt d name v).run frames =
      (do set (← granted (Frames.assignAt frames chain d name.lexeme v)) :
        Access Unit).run frames :=
    rfl
  have hframe : Frames.frameAt chain d = .ok r := Frames.frameAt_eq_ok_iff.2 h.frame
  rw [hassign, hname, Frames.assignAt, hframe]
  rfl

/-- **Access by distance agrees with the walk along the chain.** A name is first found a number of
hops out, or nowhere. If it is found, then reading it gives the same value by name and by distance,
and giving it a value leads to the same frames both ways. There the name has the value, and all
other names of the frame and all other frames are as before. If it is not found, then reading and
assigning fault at the token and leave the frames as they are. Defining a name gives it the value in
the innermost frame, where it is found from then on, and leaves all else. -/
theorem walk_agrees_with_distance (frames : Frames) (chain : Chain) (name : Token) (v : Value) :
    ((∃ d r, FirstAt frames chain name.lexeme d r) ∨ ∀ r ∈ chain, ¬ frames.Has r name.lexeme) ∧
    (∀ d r, FirstAt frames chain name.lexeme d r →
      (∃ old, (frames.get r).get? name.lexeme = some old ∧
        (chain.read name).run frames = .ok old frames ∧
        (chain.readAt d name.lexeme).run frames = .ok old frames) ∧
      ∃ after, (chain.assign name v).run frames = .ok () after ∧
        (chain.assignAt d name v).run frames = .ok () after ∧
        (chain.read name).run after = .ok v after ∧ frames.Puts r name.lexeme v after) ∧
    ((∀ r ∈ chain, ¬ frames.Has r name.lexeme) →
      (chain.read name).run frames =
        .error (.fault ⟨.undefinedVariable name.lexeme, some name⟩) frames ∧
      (chain.assign name v).run frames =
        .error (.fault ⟨.undefinedVariable name.lexeme, some name⟩) frames) ∧
    ∀ r outer, chain = r :: outer → frames.Holds r →
      ∃ after, (chain.define name.lexeme v).run frames = .ok () after ∧
        (chain.read name).run after = .ok v after ∧
        (chain.readAt 0 name.lexeme).run after = .ok v after ∧
          frames.Puts r name.lexeme v after := by
  refine ⟨exists_firstAt_or _ _ _, fun d r h => ⟨?_, ?_⟩, fun hnone => ⟨?_, ?_⟩, ?_⟩
  · obtain ⟨old, hold⟩ := Frames.has_iff_exists.1 h.has
    exact ⟨old, hold, h.read_run rfl hold, h.readAt_run hold⟩
  · have hputs : frames.Puts r name.lexeme v (Frames.define frames r name.lexeme v) :=
      Frames.puts_define h.has.holds
    exact ⟨_, h.assign_run rfl, h.assignAt_run rfl, (h.puts hputs).read_run rfl hputs.value, hputs⟩
  · have hread : (chain.read name).run frames =
        (found name (Frames.lookup? frames chain name.lexeme)).run frames := rfl
    rw [hread, (walk_of_none hnone).1]
    rfl
  · have hassign : (chain.assign name v).run frames =
        (do set (← found name (Frames.assign? frames chain name.lexeme v)) : Access Unit).run
          frames := rfl
    rw [hassign, Frames.assign?, (walk_of_none hnone).2]
    rfl
  · rintro r outer rfl hr
    have hputs : frames.Puts r name.lexeme v (Frames.define frames r name.lexeme v) :=
      Frames.puts_define hr
    have hfirst : FirstAt (Frames.define frames r name.lexeme v) (r :: outer) name.lexeme 0 r :=
      firstAt_zero (Frames.has_iff_exists.2 ⟨v, hputs.value⟩)
    exact ⟨_, rfl, hfirst.read_run rfl hputs.value, hfirst.readAt_run hputs.value, hputs⟩

/-- A name that the second frame shadows, one that no frame has, and a definition in the innermost
frame, which is empty. -/
theorem walk_agrees_with_distance_shadowed :
    let frames : Frames := ⟨#[.ofList [("a", .number 1)], .ofList [("a", .nil)], .empty]⟩
    let chain : Chain := [⟨2⟩, ⟨1⟩, ⟨0⟩]
    let a : Token := .ofName "a" 7
    let z : Token := .ofName "z" 8
    (∃ after, FirstAt frames chain "a" 1 ⟨1⟩ ∧
      (chain.assign a (.bool true)).run frames = .ok () after ∧
      (chain.assignAt 1 a (.bool true)).run frames = .ok () after ∧
      frames.Puts ⟨1⟩ "a" (.bool true) after) ∧
    (chain.read z).run frames = .error (.fault ⟨.undefinedVariable "z", some z⟩) frames ∧
    ∃ after, (chain.define "a" (.bool true)).run frames = .ok () after ∧
      (chain.read a).run after = .ok (.bool true) after ∧
        frames.Puts ⟨2⟩ "a" (.bool true) after := by
  intro frames chain a z
  have hfirst : FirstAt frames chain "a" 1 ⟨1⟩ :=
    firstAt_succ_iff.2 ⟨by decide, firstAt_zero (by decide)⟩
  have hnone : ∀ r ∈ chain, ¬ frames.Has r "z" := by
    refine List.forall_mem_cons.2 ⟨by decide, List.forall_mem_cons.2 ⟨by decide, ?_⟩⟩
    exact List.forall_mem_singleton.2 (by decide)
  obtain ⟨-, hfound, -, hdefine⟩ := walk_agrees_with_distance frames chain a (.bool true)
  obtain ⟨-, -, hmissing, -⟩ := walk_agrees_with_distance frames chain z .nil
  obtain ⟨after, hassign, hassignAt, -, hputs⟩ := (hfound 1 _ hfirst).2
  obtain ⟨after', hdefined, hread, -, hputs'⟩ := hdefine ⟨2⟩ _ rfl (Nat.lt_succ_self 2)
  exact ⟨⟨after, hfirst, hassign, hassignAt, hputs⟩, (hmissing hnone).1,
    after', hdefined, hread, hputs'⟩

end Chain

/-! ### Evaluation -/

/-- What is done with frames, done with those of a machine. -/
def Chain.Access.onMachine {α β : Type} {hops : β → Hops} (x : Chain.Access α) :
    Eval (.frames hops) α := fun m =>
  match x m.store.memory with
  | .ok a frames => .ok a { m with store := { m.store with memory := frames } }
  | .error why frames => .error why { m with store := { m.store with memory := frames } }

/-- Why evaluation halts at a use that leads to no place. -/
def Miss.halt (token : Token) : Miss → Halt
  | .undefined => .fault ⟨.undefinedVariable token.lexeme, some token⟩
  | .defect d => .defect d

namespace Eval

open Chain

variable {β : Type} {hops : β → Hops} {mark : β} {d : Nat} {m : Machine (.frames hops)}
  {token : Token} {name : Name} {v : Value} {r : Ref .frame}

theorem onMachine_of_ok {α : Type} {x : Access α} {a : α} {frames : Frames}
    (h : x.run m.store.memory = .ok a frames) :
    x.onMachine m = .ok a { m with store := { m.store with memory := frames } } := by
  have h : x m.store.memory = .ok a frames := h
  simp only [Access.onMachine, h]

theorem locate_of_ok {slot : Ref .frame × String}
    (h : Frames.locate m.store.memory m.scope (hops mark) token.lexeme = .ok slot) :
    locate (σ := .frames hops) mark token m = .ok slot m := by
  refine (bind_of_ok (x := get) rfl _).trans ?_
  simp only [h]
  rfl

theorem locate_of_error {miss : Miss}
    (h : Frames.locate m.store.memory m.scope (hops mark) token.lexeme = .error miss) :
    locate (σ := .frames hops) mark token m = .error (miss.halt token) m := by
  refine (bind_of_ok (x := get) rfl _).trans ?_
  simp only [h]
  cases miss <;> rfl

/-- A use leads to the frame at its distance. -/
theorem locate_of_frameAt (h : hops mark = some d) (hr : Frames.frameAt m.scope d = .ok r) :
    locate (σ := .frames hops) mark token m = .ok (r, token.lexeme) m :=
  locate_of_ok (by rw [h, Frames.locate, hr]; rfl)

theorem locate_of_frameAt_error {e : Defect} (h : hops mark = some d)
    (hr : Frames.frameAt m.scope d = .error e) :
    locate (σ := .frames hops) mark token m = .error (.defect e) m := by
  have hmiss : Frames.locate m.store.memory m.scope (hops mark) token.lexeme =
      .error (.defect e) := by
    rw [h, Frames.locate, hr]
    rfl
  exact locate_of_error hmiss

/-- A use without a distance leads to the first of the globals that has the name. -/
theorem locate_of_firstAt (h : hops mark = none)
    (hfirst : FirstAt m.store.memory globalChain token.lexeme d r) :
    locate (σ := .frames hops) mark token m = .ok (r, token.lexeme) m :=
  locate_of_ok (by rw [h, Frames.locate, hfirst.walk.2])

theorem locate_of_forall_not_has (h : hops mark = none)
    (hnone : ∀ r ∈ globalChain, ¬ m.store.memory.Has r token.lexeme) :
    locate (σ := .frames hops) mark token m = .error (Miss.undefined.halt token) m :=
  locate_of_error (by rw [h, Frames.locate, (walk_of_none hnone).2])

/-- A use that carries a distance reads the variable at that distance. -/
theorem readVariable_of_hops (h : hops mark = some d) :
    readVariable (σ := .frames hops) mark token m =
      (m.scope.readAt d token.lexeme).onMachine m := by
  have hread : (m.scope.readAt d token.lexeme).onMachine m =
      (granted (Frames.valueAt m.store.memory m.scope d token.lexeme)).onMachine m := rfl
  cases hr : Frames.frameAt m.scope d with
  | error e =>
    rw [hread, Frames.valueAt, hr]
    exact bind_of_error (locate_of_frameAt_error h hr) _
  | ok r =>
    rw [hread, Frames.valueAt, hr]
    refine (bind_of_ok (locate_of_frameAt h hr) _).trans ((bind_of_ok (x := store) rfl _).trans ?_)
    simp only [bind, Except.bind]
    cases (m.store.memory.get r).get? token.lexeme <;> rfl

/-- A use that carries none walks along the chain of the globals. -/
theorem readVariable_of_none (h : hops mark = none) :
    readVariable (σ := .frames hops) mark token m = (globalChain.read token).onMachine m := by
  have hread : (globalChain.read token).onMachine m =
      (found token (Frames.lookup? m.store.memory globalChain token.lexeme)).onMachine m := rfl
  obtain ⟨_, r, hfirst⟩ | hnone := exists_firstAt_or m.store.memory globalChain token.lexeme
  · obtain ⟨v, hv⟩ := Frames.has_iff_exists.1 hfirst.has
    rw [hread, hfirst.walk.1]
    refine (bind_of_ok (locate_of_firstAt h hfirst) _).trans
      ((bind_of_ok (x := store) rfl _).trans ?_)
    simp only [hv]
    rfl
  · rw [hread, (walk_of_none hnone).1]
    exact bind_of_error (locate_of_forall_not_has h hnone) _

/-- An assignment that carries a distance writes at that distance. -/
theorem assign_of_hops (h : hops mark = some d) :
    assign (σ := .frames hops) mark name v m = (m.scope.assignAt d name.token v).onMachine m := by
  have hassign : (m.scope.assignAt d name.token v).onMachine m =
      (do set (← granted (Frames.assignAt m.store.memory m.scope d name.text v)) :
        Access Unit).onMachine m := rfl
  cases hr : Frames.frameAt m.scope d with
  | error e =>
    rw [hassign, Frames.assignAt, hr]
    exact bind_of_error (locate_of_frameAt_error h hr) _
  | ok r =>
    rw [hassign, Frames.assignAt, hr]
    exact bind_of_ok (locate_of_frameAt h hr) _

/-- An assignment that carries none walks along the chain of the globals. -/
theorem assign_of_none (h : hops mark = none) :
    assign (σ := .frames hops) mark name v m = (globalChain.assign name.token v).onMachine m := by
  have hassign : (globalChain.assign name.token v).onMachine m =
      (do set (← found name.token (Frames.assign? m.store.memory globalChain name.text v)) :
        Access Unit).onMachine m := rfl
  obtain ⟨_, r, hfirst⟩ | hnone := exists_firstAt_or m.store.memory globalChain name.text
  · rw [hassign, Frames.assign?, hfirst.walk.2]
    exact bind_of_ok (locate_of_firstAt h hfirst) _
  · rw [hassign, Frames.assign?, (walk_of_none hnone).2]
    exact bind_of_error (locate_of_forall_not_has h hnone) _

/-- **Evaluation goes by the walk.** Reading a variable at its distance, if that is the distance of
the first frame that has the name, is reading it by name. -/
theorem readVariable_of_firstAt (h : hops mark = some d)
    (hfirst : FirstAt m.store.memory m.scope token.lexeme d r) :
    readVariable (σ := .frames hops) mark token m = (m.scope.read token).onMachine m := by
  obtain ⟨v, hv⟩ := Frames.has_iff_exists.1 hfirst.has
  rw [readVariable_of_hops h, onMachine_of_ok (hfirst.readAt_run hv),
    onMachine_of_ok (hfirst.read_run rfl hv)]

/-- Assigning a variable at its distance is assigning it by name. -/
theorem assign_of_firstAt (h : hops mark = some d)
    (hfirst : FirstAt m.store.memory m.scope name.text d r) :
    assign (σ := .frames hops) mark name v m = (m.scope.assign name.token v).onMachine m := by
  rw [assign_of_hops h, onMachine_of_ok (hfirst.assignAt_run rfl),
    onMachine_of_ok (hfirst.assign_run rfl)]

end Eval

end LoxLang
