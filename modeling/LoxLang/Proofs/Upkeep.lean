import LoxLang.Proofs.Links
import LoxLang.Proofs.Texts

/-!
# Stores stay sound

Every step of a program leaves the store sound, in a world that has the old one as its beginning: a
frame is made in front of a chain that is there, a class inherits from a class that is there, and
every value that is written refers to something that is there. This does not depend on how the code
is bound.
-/

namespace LoxLang

namespace Arena

variable {region : Region} {α : Type} [Inhabited α] {a : Arena region α} {P : α → Prop}

theorem forall_get_alloc (h : ∀ r, P (a.get r)) {x : α} (hx : P x) (r : Ref region) :
    P ((a.alloc x).2.get r) := by
  rw [get_alloc]
  split
  · exact hx
  · exact h r

theorem forall_get_modify (h : ∀ r, P (a.get r)) {f : α → α} {ref : Ref region}
    (hf : P (f (a.get ref))) (r : Ref region) : P ((a.modify ref f).get r) := by
  by_cases hr : r = ref
  · subst hr
    by_cases hholds : a.Holds r
    · rwa [get_modify_self f hholds]
    · have hdefault := h r
      rw [get_of_not_holds hholds] at hdefault
      rwa [get_of_not_holds fun hr => hholds ((holds_modify_iff a r r f).1 hr)]
  · rw [get_modify_of_ne a f hr]
    exact h r

end Arena

variable {β : Type} {hops : β → Hops}

/-! ### The values of a store -/

namespace Store.AllValues

variable {P Q : Value → Prop} {s : Store (.frames hops)}

theorem mono (h : s.AllValues P) (hPQ : ∀ v, P v → Q v) : s.AllValues Q where
  memory r x v hv := hPQ v (h.memory r x v hv)
  elements r v hv := hPQ v (h.elements r v hv)
  entries r k e he := (h.entries r k e he).imp (hPQ _) (hPQ _)
  fields r x v hv := hPQ v (h.fields r x v hv)

theorem enter (h : s.AllValues P) (chain : Chain) {locals : List (String × Value)}
    (hlocals : ∀ e ∈ locals, P e.2) : (s.enter chain locals).2.AllValues P :=
  { h with
    memory := Arena.forall_get_alloc (P := fun frame : Frame => ∀ x v, frame.get? x = some v → P v)
      h.memory (Table.forall_get?_ofList (P := fun _ v => P v) hlocals) }

theorem define (h : s.AllValues P) {r : Ref .frame} {x : String} {v : Value} (hv : P v) :
    AllValues P { s with memory := Frames.define s.memory r x v } :=
  { h with
    memory := by
      refine Arena.forall_get_modify (P := fun frame : Frame => ∀ x v, frame.get? x = some v → P v)
        h.memory fun y w hw => ?_
      rw [Table.get?_insert] at hw
      split at hw
      · cases hw
        exact hv
      · exact h.memory r y w hw }

theorem newList (h : s.AllValues P) {elements : Elements} (helements : ∀ v ∈ elements, P v) :
    (s.newList elements).2.AllValues P :=
  { h with
    elements := Arena.forall_get_alloc (P := fun l : Elements => ∀ v ∈ l, P v) h.elements
      helements }

theorem modifyList (h : s.AllValues P) {r : Ref .list} {f : Elements → Elements}
    (hf : ∀ v ∈ f (s.lists.get r), P v) : (s.modifyList r f).AllValues P :=
  { h with
    elements := Arena.forall_get_modify (P := fun l : Elements => ∀ v ∈ l, P v) h.elements hf }

theorem newMap (h : s.AllValues P) {entries : Entries}
    (hentries : ∀ k e, entries.get? k = some e → P e.1 ∧ P e.2) :
    (s.newMap entries).2.AllValues P :=
  { h with
    entries := Arena.forall_get_alloc
      (P := fun t : Entries => ∀ k e, t.get? k = some e → P e.1 ∧ P e.2) h.entries hentries }

theorem modifyMap (h : s.AllValues P) {r : Ref .map} {f : Entries → Entries}
    (hf : ∀ k e, (f (s.maps.get r)).get? k = some e → P e.1 ∧ P e.2) :
    (s.modifyMap r f).AllValues P :=
  { h with
    entries := Arena.forall_get_modify
      (P := fun t : Entries => ∀ k e, t.get? k = some e → P e.1 ∧ P e.2) h.entries hf }

theorem newObject (h : s.AllValues P) (c : Ref .cls) : (s.newObject c).2.AllValues P :=
  { h with
    fields := Arena.forall_get_alloc
      (P := fun o : Object => ∀ x v, o.fields.get? x = some v → P v) h.fields (by simp) }

theorem setField (h : s.AllValues P) {r : Ref .object} {name : String} {v : Value} (hv : P v) :
    (s.setField r name v).AllValues P :=
  { h with
    fields := by
      refine Arena.forall_get_modify
        (P := fun o : Object => ∀ x v, o.fields.get? x = some v → P v) h.fields fun x w hw => ?_
      rw [Table.get?_insert] at hw
      split at hw
      · cases hw
        exact hv
      · exact h.fields r x w hw }

theorem newFunction (h : s.AllValues P) {f : Closure (.frames hops)} :
    (s.newFunction f).2.AllValues P := ⟨h.memory, h.elements, h.entries, h.fields⟩

theorem newClass (h : s.AllValues P) {c : Class (.frames hops)} :
    (s.newClass c).2.AllValues P := ⟨h.memory, h.elements, h.entries, h.fields⟩

end Store.AllValues

/-- What the keys and values of a map refer to is in the store. -/
def Entries.In {σ : Scoping} (s : Store σ) (t : Entries) : Prop :=
  ∀ k e, t.get? k = some e → e.1.In s ∧ e.2.In s

namespace Entries.In

variable {σ : Scoping} {s : Store σ} {t t' : Entries} {key value : Value}

theorem read (h : t.In s) (hv : t.read key = .ok value) : value.In s := by
  unfold Entries.read at hv
  cases hk : Entries.key key with
  | error d => simp [hk, bind, Except.bind] at hv
  | ok k =>
    simp only [hk, bind, Except.bind] at hv
    split at hv
    · rename_i shown w he
      cases hv
      exact (h k _ he).2
    · cases hv

theorem write (h : t.In s) (hkey : key.In s) (hvalue : value.In s)
    (ht : t.write key value = .ok t') : t'.In s := by
  unfold Entries.write at ht
  cases hk : Entries.key key with
  | error d => simp [hk, bind, Except.bind] at ht
  | ok k =>
    simp only [hk, bind, Except.bind, pure, Except.pure, Except.ok.injEq] at ht
    subst ht
    intro j e he
    rw [Table.get?_insert] at he
    split at he
    · cases he
      exact ⟨hkey, hvalue⟩
    · exact h j e he

theorem take (h : t.In s) {found : Option Value} (ht : t.take key = .ok (found, t')) :
    t'.In s ∧ (found.getD .nil).In s := by
  unfold Entries.take at ht
  cases hk : Entries.key key with
  | error d => simp [hk, bind, Except.bind] at ht
  | ok k =>
    simp only [hk, bind, Except.bind, pure, Except.pure, Except.ok.injEq, Prod.mk.injEq] at ht
    obtain ⟨rfl, rfl⟩ := ht
    refine ⟨fun j e he => ?_, ?_⟩
    · by_cases hj : j = k
      · rw [hj, Table.get?_erase_self] at he
        cases he
      · rw [Table.get?_erase_of_ne _ hj] at he
        exact h j e he
    · cases he : t.get? k with
      | none => trivial
      | some e => exact (h k e he).2

end Entries.In

/-! ### Steps of the store -/

namespace Store

variable {world : List Chain} {s t u : Store (.frames hops)}

/-- What the first store has is in the second one. -/
def Le {σ : Scoping} (s t : Store σ) : Prop := ∀ v : Value, v.In s → v.In t

theorem le_newList (elements : Elements) : s.Le (s.newList elements).2 := by
  intro v hv
  cases v with
  | list r => exact Arena.holds_alloc_of_holds elements hv
  | _ => exact hv

theorem le_newMap (entries : Entries) : s.Le (s.newMap entries).2 := by
  intro v hv
  cases v with
  | map r => exact Arena.holds_alloc_of_holds entries hv
  | _ => exact hv

theorem le_newFunction (f : Closure (.frames hops)) : s.Le (s.newFunction f).2 := by
  intro v hv
  cases v with
  | function r => exact Arena.holds_alloc_of_holds f hv
  | _ => exact hv

theorem le_newClass (c : Class (.frames hops)) : s.Le (s.newClass c).2 := by
  intro v hv
  cases v with
  | cls r => exact Arena.holds_alloc_of_holds c hv
  | _ => exact hv

theorem le_newObject (c : Ref .cls) : s.Le (s.newObject c).2 := by
  intro v hv
  cases v with
  | object r => exact Arena.holds_alloc_of_holds ⟨c, .empty⟩ hv
  | _ => exact hv

theorem le_modifyList (r : Ref .list) (f : Elements → Elements) : s.Le (s.modifyList r f) := by
  intro v hv
  cases v with
  | list r' => exact (Arena.holds_modify_iff s.lists r r' f).2 hv
  | _ => exact hv

theorem le_modifyMap (r : Ref .map) (f : Entries → Entries) : s.Le (s.modifyMap r f) := by
  intro v hv
  cases v with
  | map r' => exact (Arena.holds_modify_iff s.maps r r' f).2 hv
  | _ => exact hv

theorem le_setField (r : Ref .object) (name : String) (w : Value) :
    s.Le (s.setField r name w) := by
  intro v hv
  cases v with
  | object r' => exact (Arena.holds_modify_iff s.objects r r' _).2 hv
  | _ => exact hv

theorem le_withMemory (memory : Frames) : s.Le { s with memory := memory } := by
  intro v hv
  cases v <;> exact hv

/-- An object stays an instance of its class. -/
theorem cls_setField (r o : Ref .object) (name : String) (v : Value) :
    ((s.setField r name v).objects.get o).cls = (s.objects.get o).cls := by
  by_cases ho : o = r
  · subst ho
    by_cases hholds : s.objects.Holds o
    · rw [setField, Arena.get_modify_self _ hholds]
    · have hnot : ¬ (s.setField o name v).objects.Holds o :=
        fun h => hholds ((Arena.holds_modify_iff s.objects o o _).1 h)
      rw [Arena.get_of_not_holds hholds, Arena.get_of_not_holds hnot]
  · exact congrArg Object.cls (Arena.get_modify_of_ne s.objects _ ho)

namespace Sound

theorem enter (h : s.Sound world) {chain : Chain} (hchain : chain ∈ world)
    {locals : List (String × Value)} (hlocals : ∀ e ∈ locals, e.2.In s) :
    (s.enter chain locals).2.Sound (world ++ [(s.enter chain locals).1]) := by
  have hnew : (s.enter chain locals).1 = ⟨world.length⟩ :: chain := by
    rw [← h.frames]
    rfl
  have hle : s.Le (s.enter chain locals).2 := le_withMemory _
  rw [hnew]
  exact
    { h with
      grown := .enter h.grown hchain
      frames := by
        rw [List.length_append, List.length_singleton, ← h.frames]
        exact Array.size_push _
      functions := fun r => List.mem_append_left _ (h.functions r)
      methods := fun c x f hf => List.mem_append_left _ (h.methods c x f hf)
      values := (h.values.enter chain hlocals).mono hle }

/-- Binding a method opens a scope in that of the method. -/
theorem bindMethod (h : s.Sound world) {f : Closure (.frames hops)} (hf : f.scope ∈ world)
    {object : Value} (hobject : object.In s) :
    (s.bindMethod f object).2.Sound (world ++ [(s.bindMethod f object).1.scope]) :=
  h.enter hf (by simpa using hobject)

theorem define (h : s.Sound world) {r : Ref .frame} {x : String} {v : Value} (hv : v.In s) :
    Sound world { s with memory := Frames.define s.memory r x v } :=
  { h with
    frames := by
      rw [← h.frames]
      exact Array.size_modify
    values := (h.values.define hv).mono (le_withMemory _) }

theorem newList (h : s.Sound world) {elements : Elements} (helements : ∀ v ∈ elements, v.In s) :
    (s.newList elements).2.Sound world :=
  { h with values := (h.values.newList helements).mono (le_newList elements) }

theorem modifyList (h : s.Sound world) {r : Ref .list} {f : Elements → Elements}
    (hf : ∀ v ∈ f (s.lists.get r), v.In s) : (s.modifyList r f).Sound world :=
  { h with values := (h.values.modifyList hf).mono (le_modifyList r f) }

theorem newMap (h : s.Sound world) {entries : Entries} (hentries : entries.In s) :
    (s.newMap entries).2.Sound world :=
  { h with values := (h.values.newMap hentries).mono (le_newMap entries) }

theorem modifyMap (h : s.Sound world) {r : Ref .map} {f : Entries → Entries}
    (hf : (f (s.maps.get r)).In s) : (s.modifyMap r f).Sound world :=
  { h with values := (h.values.modifyMap hf).mono (le_modifyMap r f) }

theorem setField (h : s.Sound world) {r : Ref .object} {name : String} {v : Value} (hv : v.In s) :
    (s.setField r name v).Sound world :=
  { h with
    instances := by
      intro o ho
      rw [cls_setField]
      exact h.instances o ((Arena.holds_modify_iff s.objects r o _).1 ho)
    values := (h.values.setField hv).mono (le_setField r name v) }

theorem newObject (h : s.Sound world) {c : Ref .cls} (hc : s.classes.Holds c) :
    (s.newObject c).2.Sound world :=
  { h with
    instances := by
      intro o ho
      show s.classes.Holds ((s.objects.alloc ⟨c, .empty⟩).2.get o).cls
      obtain ho | rfl := Arena.holds_alloc_iff.1 ho
      · rw [Arena.get_alloc_of_holds _ ho]
        exact h.instances o ho
      · rw [Arena.get_alloc_self]
        exact hc
    values := (h.values.newObject c).mono (le_newObject c) }

theorem newFunction (h : s.Sound world) {f : Closure (.frames hops)} (hf : f.scope ∈ world) :
    (s.newFunction f).2.Sound world :=
  { h with
    functions := Arena.forall_get_alloc (P := fun f : Closure (.frames hops) => f.scope ∈ world)
      h.functions hf
    values := h.values.newFunction.mono (le_newFunction f) }

/-- A class is made after those that it inherits from. -/
theorem newClass (h : s.Sound world) {c : Class (.frames hops)}
    (hmethods : ∀ x f, c.methods.get? x = some f → f.scope ∈ world)
    (hline : c.ancestors = [] ∨ ∃ p, s.classes.Holds p ∧ c.ancestors = s.line p) :
    (s.newClass c).2.Sound world :=
  { h with
    methods := Arena.forall_get_alloc
      (P := fun c : Class (.frames hops) => ∀ x f, c.methods.get? x = some f → f.scope ∈ world)
      h.methods hmethods
    lines := by
      -- The lines of the classes that are there already stay as they are.
      have hsame {p : Ref .cls} (hp : s.classes.Holds p) : (s.newClass c).2.line p = s.line p :=
        congrArg (p :: Class.ancestors ·) (Arena.get_alloc_of_holds c hp)
      intro r
      show ((s.classes.alloc c).2.get r).ancestors = [] ∨ ∃ p, p.index < r.index ∧
        ((s.classes.alloc c).2.get r).ancestors = (s.newClass c).2.line p
      by_cases hr : s.classes.Holds r
      · rw [Arena.get_alloc_of_holds c hr]
        obtain hnone | ⟨p, hlt, hp⟩ := h.lines r
        · exact .inl hnone
        · exact .inr ⟨p, hlt, hp.trans (hsame (Nat.lt_trans hlt hr)).symm⟩
      · rw [Arena.get_alloc]
        split
        · rename_i heq
          obtain hnone | ⟨p, hp, hancestors⟩ := hline
          · exact .inl hnone
          · exact .inr ⟨p, heq ▸ hp, hancestors.trans (hsame hp).symm⟩
        · rw [Arena.get_of_not_holds hr]
          exact .inl rfl
    instances := fun o ho => Arena.holds_alloc_of_holds c (h.instances o ho)
    values := h.values.newClass.mono (le_newClass c) }

/-- The methods of a class are in the world. -/
theorem scope_of_method? (h : s.Sound world) {c : Ref .cls} {x : String}
    {f : Closure (.frames hops)} (hf : s.method? c x = some f) : f.scope ∈ world := by
  obtain ⟨c', -, hc'⟩ := List.exists_of_findSome?_eq_some hf
  exact h.methods c' x f hc'

end Sound

end Store

/-! ### Steps of the machine -/

/-- The second machine has evolved from the first: its store is sound in a world that goes on from
the first one, nothing is gone, and the same chain is current. -/
structure Machine.Evolves (m : Machine (.frames hops)) (world : List Chain)
    (n : Machine (.frames hops)) (later : List Chain) : Prop where
  sound : n.store.Sound later
  world : world <+: later
  store : m.store.Le n.store
  scope : n.scope = m.scope

namespace Machine.Evolves

variable {l m n : Machine (.frames hops)} {world later last : List Chain}

theorem refl (h : m.store.Sound world) : m.Evolves world m world :=
  ⟨h, List.prefix_rfl, fun _ hv => hv, rfl⟩

theorem trans (h : l.Evolves world m later) (h' : m.Evolves later n last) :
    l.Evolves world n last :=
  ⟨h'.sound, h.world.trans h'.world, fun v hv => h'.store v (h.store v hv),
    h'.scope.trans h.scope⟩

/-- Only the store has changed. -/
theorem withStore {s : Store (.frames hops)} (h : s.Sound later) (hworld : world <+: later)
    (hle : m.store.Le s) : m.Evolves world { m with store := s } later :=
  ⟨h, hworld, hle, rfl⟩

/-- Nothing has changed that the store or the scope tells of. -/
theorem of_sameState (h : m.store.Sound world) (hmn : m.SameState n) :
    m.Evolves world n world := by
  refine ⟨?_, List.prefix_rfl, fun v hv => ?_, hmn.scope⟩
  · rwa [hmn.store]
  · rwa [hmn.store]

end Machine.Evolves

/-- A jump with a value that refers to something in the store. -/
def Jump.In {σ : Scoping} (s : Store σ) : Option Jump → Prop
  | some (.returnValue _ v) => v.In s
  | _ => True

namespace Eval

variable {α γ : Type} {x : Eval (.frames hops) α} {f : α → Eval (.frames hops) γ}
  {m n : Machine (.frames hops)} {world : List Chain}

/-- The computation leaves the machine evolved, with a result for which `R` holds. -/
def Tends (R : α → Store (.frames hops) → List Chain → Prop) (x : Eval (.frames hops) α)
    (world : List Chain) (m : Machine (.frames hops)) : Prop :=
  x.Ends m (fun a n => ∃ later, m.Evolves world n later ∧ R a n.store later)
    fun _ n => ∃ later, m.Evolves world n later

/-- The computation leaves the machine evolved, with a value that refers to something in the
store. -/
abbrev TendsValue (x : Eval (.frames hops) Value) (world : List Chain)
    (m : Machine (.frames hops)) : Prop :=
  x.Tends (fun v s _ => v.In s) world m

variable {R : α → Store (.frames hops) → List Chain → Prop}
  {R' : γ → Store (.frames hops) → List Chain → Prop}

theorem Tends.bind (hx : x.Tends R world m)
    (hf : ∀ a n later, m.Evolves world n later → R a n.store later → (f a).Tends R' later n) :
    (x >>= f).Tends R' world m := by
  refine ends_bind.2 (Ends.mono hx ?_ fun _ _ h => h)
  rintro a n ⟨later, hn, ha⟩
  refine (hf a n later hn ha).mono ?_ ?_
  · rintro b k ⟨last, hk, hb⟩
    exact ⟨last, hn.trans hk, hb⟩
  · rintro h k ⟨last, hk⟩
    exact ⟨last, hn.trans hk⟩

/-- Looking at the store. -/
theorem tends_store {g : Store (.frames hops) → Eval (.frames hops) γ}
    (hg : (g m.store).Tends R' world m) : (store >>= g).Tends R' world m := hg

/-- Looking at the current scope. -/
theorem tends_scope {g : Chain → Eval (.frames hops) γ} (hg : (g m.scope).Tends R' world m) :
    (scope >>= g).Tends R' world m := hg

theorem tends_pure (hm : m.store.Sound world) {a : α} (ha : R a m.store world) :
    (pure a : Eval (.frames hops) α).Tends R world m := ⟨world, .refl hm, ha⟩

theorem tends_halt (hm : m.store.Sound world) {h : Halt} :
    (halt h : Eval (.frames hops) α).Tends R world m := ⟨world, .refl hm⟩

theorem tends_fault (hm : m.store.Sound world) {cause : Cause} {place : Token} :
    (fault cause place : Eval (.frames hops) α).Tends R world m := tends_halt hm

theorem tends_expect (hm : m.store.Sound world) {r : Except Defect α}
    (hr : ∀ a, r = .ok a → R a m.store world) : (expect r).Tends R world m := by
  cases r with
  | ok a => exact tends_pure hm (hr a rfl)
  | error d => exact tends_halt hm

/-- A computation that leaves the machine as it is. -/
theorem tends_same (hm : m.store.Sound world)
    (hx : x.Ends m (fun a n => n = m ∧ R a m.store world) fun _ n => n = m) :
    x.Tends R world m := by
  refine Ends.mono hx ?_ ?_
  · rintro a n ⟨rfl, ha⟩
    exact ⟨world, .refl hm, ha⟩
  · rintro h n rfl
    exact ⟨world, .refl hm⟩

theorem tends_modifyStore {g : Store (.frames hops) → Store (.frames hops)}
    (hm : (g m.store).Sound world) (hle : m.store.Le (g m.store)) :
    (modifyStore g).Tends (fun _ _ _ => True) world m :=
  ⟨world, .withStore hm List.prefix_rfl hle, trivial⟩

theorem tends_alloc {g : Store (.frames hops) → α × Store (.frames hops)}
    (hm : (g m.store).2.Sound world) (hle : m.store.Le (g m.store).2)
    (hR : R (g m.store).1 (g m.store).2 world) : (alloc g).Tends R world m :=
  ⟨world, .withStore hm List.prefix_rfl hle, hR⟩

/-- A scope is opened in one that is there. -/
theorem tends_enter (hm : m.store.Sound world) {chain : Chain} (hchain : chain ∈ world)
    {locals : List (String × Value)} (hlocals : ∀ e ∈ locals, e.2.In m.store) :
    (alloc (σ := .frames hops) (·.enter chain locals)).Tends (fun inner _ later => inner ∈ later)
      world m :=
  ⟨_, .withStore (hm.enter hchain hlocals) (List.prefix_append _ _) (Store.le_withMemory _),
    List.mem_append_right _ (List.mem_singleton_self _)⟩

theorem tends_trace (hm : m.store.Sound world) {words : List String} :
    (trace words : Eval (.frames hops) Unit).Tends (fun _ _ _ => True) world m := by
  obtain ⟨errors, -, h⟩ := trace_eq m words
  unfold Tends Ends
  rw [h]
  exact ⟨world, .of_sameState hm ⟨rfl, rfl⟩, trivial⟩

theorem looks_tends (hm : m.store.Sound world) (hx : x.Looks) :
    x.Tends (fun _ _ _ => True) world m :=
  tends_same hm ((hx m).mono (fun _ _ h => ⟨h, trivial⟩) fun _ _ h => h.2)

/-! ### Variables -/

theorem tends_readVariable (hm : m.store.Sound world) {mark : β} {token : Token} :
    (readVariable (σ := .frames hops) mark token).TendsValue world m := by
  refine tends_same hm (ends_bind.2 ((locate_same m).mono ?_ fun _ _ h => h))
  rintro ⟨r, x⟩ n rfl
  refine ends_bind.2 (ends_store.2 ?_)
  simp only
  cases hv : (Arena.get n.store.memory r).get? x with
  | some v => exact ⟨rfl, hm.values.memory r x v hv⟩
  | none => exact rfl

theorem tends_put (hm : m.store.Sound world) {slot : Ref .frame × String} {v : Value}
    (hv : v.In m.store) :
    (put (σ := .frames hops) slot v).Tends (fun _ _ _ => True) world m :=
  ⟨world, .withStore (hm.define hv) List.prefix_rfl (Store.le_withMemory _), trivial⟩

theorem tends_assign (hm : m.store.Sound world) {mark : β} {name : Name} {v : Value}
    (hv : v.In m.store) :
    (assign (σ := .frames hops) mark name v).Tends (fun _ _ _ => True) world m := by
  refine Tends.bind (R := fun _ _ _ => True)
    (tends_same hm ((locate_same m).mono (fun _ _ h => ⟨h, trivial⟩) fun _ _ h => h))
    fun slot n later hn _ => ?_
  exact tends_put hn.sound (hn.store v hv)

/-- A name is announced in the innermost frame, and the same chain is current. -/
theorem tends_announce (hm : m.store.Sound world) {name : String} :
    (announce name : Eval (.frames hops) (Ref .frame × String)).Tends (fun _ _ _ => True) world
      m := by
  refine ends_bind.2 (ends_scope.2 (ends_bind.2 ?_))
  simp only [Frames.announce]
  cases hr : Frames.frameAt m.scope 0 with
  | error d => exact ⟨world, .refl hm⟩
  | ok r =>
    exact ⟨world, .withStore (hm.define trivial) List.prefix_rfl (Store.le_withMemory _), trivial⟩

/-! ### Methods -/

theorem tends_bindMethod (hm : m.store.Sound world) {f : Closure (.frames hops)}
    (hf : f.scope ∈ world) {object : Value} (hobject : object.In m.store) :
    (bindMethod f object).TendsValue world m := by
  have hnew : (m.store.bindMethod f object).1.scope ∈
      world ++ [(m.store.bindMethod f object).1.scope] :=
    List.mem_append_right _ (List.mem_singleton_self _)
  refine ⟨_, .withStore ((hm.bindMethod hf hobject).newFunction hnew) (List.prefix_append _ _) ?_,
    Arena.holds_alloc_self _ _⟩
  exact fun v hv => Store.le_newFunction _ v (Store.le_withMemory _ v hv)

theorem tends_property (hm : m.store.Sound world) {object : Ref .object} {name : Name}
    (hobject : m.store.objects.Holds object) :
    (property object name : Eval (.frames hops) Value).TendsValue world m := by
  refine tends_store ?_
  dsimp only
  split
  · rename_i v hv
    exact tends_pure hm (hm.values.fields object name.text v hv)
  · split
    · rename_i f hf
      exact tends_bindMethod hm (hm.scope_of_method? hf) hobject
    · exact tends_fault hm

theorem tends_superMethod (hm : m.store.Sound world) {mark : β} {name : Name} :
    (superMethod (σ := .frames hops) mark name).TendsValue world m := by
  refine ends_bind.2 (ends_get.2 (ends_bind.2 ?_))
  dsimp only
  cases hi : Frames.inherited m.store.memory m.scope (hops mark) with
  | error d => exact ⟨world, .refl hm⟩
  | ok found =>
    obtain ⟨parent, object⟩ := found
    obtain ⟨d, -, -, hobject⟩ := Frames.inherited_eq_ok_iff.1 hi
    obtain ⟨r, -, hr⟩ := Frames.valueAt_eq_ok_iff.1 hobject
    refine ends_expect_ok.2 ?_
    split
    · rename_i c object' heq
      cases heq
      split
      · rename_i f hf
        exact tends_bindMethod hm (hm.scope_of_method? hf) (hm.values.memory r _ _ hr)
      · exact ⟨world, .refl hm⟩
    · exact ⟨world, .refl hm⟩

/-! ### Elements -/

theorem tends_listPosition (hm : m.store.Sound world) {size : Nat} {position : Value}
    {bracket : Token} :
    (listPosition size position bracket : Eval (.frames hops) Int).Tends (fun _ _ _ => True) world
      m := by
  unfold listPosition
  split
  · split
    · split
      · split
        · exact tends_fault hm
        · exact tends_pure hm trivial
      · exact tends_halt hm
    · exact tends_fault hm
  · exact tends_fault hm

theorem tends_checkKey (hm : m.store.Sound world) {key : Value} {place : Token} :
    (checkKey key place : Eval (.frames hops) Unit).Tends (fun _ _ _ => True) world m := by
  unfold checkKey
  split
  · exact tends_pure hm trivial
  · exact tends_fault hm

theorem tends_element (hm : m.store.Sound world) {depth : Nat} {container position : Value}
    {bracket : Token} :
    (element depth container position bracket : Eval (.frames hops) Value).TendsValue world
      m := by
  unfold element
  split
  · rename_i r
    refine tends_store ((tends_listPosition hm).bind fun i n later hn _ => ?_)
    split
    · rename_i v hv
      obtain ⟨j, -, hj⟩ := Option.bind_eq_some_iff.1 hv
      refine tends_pure hn.sound (hn.store v ?_)
      exact hm.values.elements r v (Array.mem_of_getElem? hj)
    · exact tends_halt hn.sound
  · rename_i r
    refine (tends_checkKey hm).bind fun _ n later hn _ => tends_store ?_
    dsimp only
    split
    · exact tends_expect hn.sound fun v hv => Entries.In.read (hn.sound.values.entries r) hv
    · exact (looks_tends hn.sound looks_text).bind fun _ k last hk _ => tends_fault hk.sound
  · exact tends_fault hm

theorem tends_setElement (hm : m.store.Sound world) {container position value : Value}
    {bracket : Token} (hposition : position.In m.store) (hvalue : value.In m.store) :
    (setElement container position value bracket : Eval (.frames hops) Unit).Tends
      (fun _ _ _ => True) world m := by
  unfold setElement
  split
  · rename_i r
    refine tends_store ((tends_listPosition hm).bind fun i n later hn _ => ?_)
    split
    · rename_i j hj
      refine tends_modifyStore (hn.sound.modifyList fun v hv => ?_) (Store.le_modifyList _ _)
      obtain hv | rfl := Array.mem_or_eq_of_mem_setIfInBounds hv
      · exact hn.sound.values.elements r v hv
      · exact hn.store _ hvalue
    · exact tends_halt hn.sound
  · rename_i r
    refine (tends_checkKey hm).bind fun _ n later hn _ => tends_store ?_
    refine Tends.bind (R := fun (t : Entries) s _ => t.In s)
      (tends_expect hn.sound fun t ht => ?_) fun t k last hk ht => ?_
    · exact Entries.In.write (hn.sound.values.entries r) (hn.store _ hposition)
        (hn.store _ hvalue) ht
    · exact tends_modifyStore (hk.sound.modifyMap ht) (Store.le_modifyMap _ _)
  · exact tends_fault hm

end Eval

open Eval

variable {m n : Machine (.frames hops)} {world : List Chain}

/-! ### Operators and native functions -/

theorem UnaryOp.tends_apply (hm : m.store.Sound world) {op : UnaryOp} {line : Int} {v : Value} :
    (op.apply line v : Eval (.frames hops) Value).TendsValue world m := by
  unfold UnaryOp.apply
  split
  · exact tends_pure hm trivial
  · exact tends_pure hm trivial
  · exact tends_fault hm

theorem BinaryOp.in_of_onNumbers {σ : Scoping} {s : Store σ} {op : BinaryOp} {x y : Number}
    {v : Value} (h : op.onNumbers x y = .ok v) : v.In s := by
  unfold BinaryOp.onNumbers at h
  cases op with
  | divide =>
    cases hz : x.divide y with
    | error d => simp [hz, bind, Except.bind] at h
    | ok z =>
      simp only [hz, bind, Except.bind, pure, Except.pure, Except.ok.injEq] at h
      exact h ▸ trivial
  | remainder =>
    cases hz : x.modulo y with
    | error d => simp [hz, bind, Except.bind] at h
    | ok z =>
      simp only [hz, bind, Except.bind, pure, Except.pure, Except.ok.injEq] at h
      exact h ▸ trivial
  | _ =>
    simp only [pure, Except.pure, Except.ok.injEq] at h
    exact h ▸ trivial

theorem BinaryOp.tends_apply (hm : m.store.Sound world) {depth : Nat} {op : BinaryOp} {line : Int}
    {left right : Value} :
    (op.apply depth line left right : Eval (.frames hops) Value).TendsValue world m := by
  have hequal : (Eval.equal depth left right : Eval (.frames hops) Bool).Ends m
      (fun _ n => n = m) fun _ n => n = m := by
    refine ends_bind.2 (ends_store.2 ?_)
    split
    · exact rfl
    · exact rfl
  unfold BinaryOp.apply
  dsimp only
  split
  · refine tends_same hm (ends_bind.2 (hequal.mono ?_ fun _ _ h => h))
    rintro b n rfl
    exact ⟨rfl, trivial⟩
  · refine tends_same hm (ends_bind.2 (hequal.mono ?_ fun _ _ h => h))
    rintro b n rfl
    exact ⟨rfl, trivial⟩
  · split
    · exact tends_expect hm fun v hv => BinaryOp.in_of_onNumbers hv
    · exact tends_pure hm trivial
    · exact tends_fault hm
  · split
    · exact tends_expect hm fun v hv => BinaryOp.in_of_onNumbers hv
    · exact tends_fault hm

namespace Native

theorem tends_expectList (hm : m.store.Sound world) {f : Native} {v : Value} :
    (expectList f v : Eval (.frames hops) (Ref .list)).Tends (fun _ _ _ => True) world m := by
  unfold expectList
  split
  · exact tends_pure hm trivial
  · exact tends_halt hm

theorem tends_expectMap (hm : m.store.Sound world) {f : Native} {v : Value} :
    (expectMap f v : Eval (.frames hops) (Ref .map)).Tends (fun _ _ _ => True) world m := by
  unfold expectMap
  split
  · exact tends_pure hm trivial
  · exact tends_halt hm

theorem tends_length (hm : m.store.Sound world) {v : Value} :
    (length v : Eval (.frames hops) Value).TendsValue world m := by
  unfold length
  split
  · exact tends_pure hm trivial
  · exact tends_store (tends_pure hm trivial)
  · exact tends_store (tends_pure hm trivial)
  · exact tends_halt hm

theorem tends_removeKey (hm : m.store.Sound world) {ref : Ref .map} {key : Value} :
    (removeKey ref key : Eval (.frames hops) Value).TendsValue world m := by
  unfold removeKey
  split
  · refine tends_store (Tends.bind
      (R := fun taken s _ => taken.2.In s ∧ (taken.1.getD .nil).In s)
      (tends_expect hm fun taken ht => ?_) ?_)
    · exact Entries.In.take (hm.values.entries ref) ht
    · rintro ⟨found, entries⟩ n later hn ⟨hentries, hfound⟩
      refine (tends_modifyStore (hn.sound.modifyMap hentries) (Store.le_modifyMap _ _)).bind
        fun _ k last hk _ => ?_
      exact tends_pure hk.sound (hk.store _ hfound)
  · exact tends_halt hm

theorem tends_popLast (hm : m.store.Sound world) {ref : Ref .list} :
    (popLast ref : Eval (.frames hops) Value).TendsValue world m := by
  refine tends_store ?_
  dsimp only
  split
  · exact tends_halt hm
  · split
    · exact tends_halt hm
    · rename_i last hlast
      have hmem : last ∈ m.store.lists.get ref := Array.mem_of_back? hlast
      refine Tends.bind (tends_modifyStore (hm.modifyList fun v hv => ?_)
        (Store.le_modifyList _ _)) fun _ n later hn _ => ?_
      · rw [Array.mem_def, Array.toList_pop] at hv
        exact hm.values.elements ref v (Array.mem_def.2 ((List.dropLast_sublist _).subset hv))
      · exact tends_pure hn.sound (hn.store _ (hm.values.elements ref last hmem))

theorem tends_call (hm : m.store.Sound world) {depth : Nat} {f : Native} {arguments : List Value}
    (harguments : ∀ v ∈ arguments, v.In m.store) :
    (call depth f arguments : Eval (.frames hops) Value).TendsValue world m := by
  unfold call
  split
  · exact ⟨world, .of_sameState hm ⟨rfl, rfl⟩, trivial⟩
  · refine (looks_tends hm looks_text).bind fun s n later hn _ => ?_
    refine Tends.bind (R := fun _ _ _ => True) (f := fun _ => readLine)
      ⟨later, .of_sameState hn.sound ⟨rfl, rfl⟩, trivial⟩ fun _ k last hk _ => ?_
    unfold Tends readLine
    rw [ends_modifyGet]
    cases k.input with
    | nil => exact ⟨last, .refl hk.sound, trivial⟩
    | cons line lines => exact ⟨last, .of_sameState hk.sound ⟨rfl, rfl⟩, trivial⟩
  · exact tends_length hm
  · refine (tends_expectMap hm).bind fun ref n later hn _ => ?_
    exact tends_store (tends_pure hn.sound trivial)
  · exact (tends_expectMap hm).bind fun ref n later hn _ => tends_removeKey hn.sound
  · rename_i container value
    refine (tends_expectList hm).bind fun ref n later hn _ => ?_
    refine (tends_modifyStore (hn.sound.modifyList fun v hv => ?_)
      (Store.le_modifyList _ _)).bind fun _ k last hk _ => tends_pure hk.sound trivial
    obtain hv | rfl := Array.mem_push.1 hv
    · exact hn.sound.values.elements ref v hv
    · exact hn.store v (harguments v (by simp))
  · exact (tends_expectList hm).bind fun ref n later hn _ => tends_popLast hn.sound
  · exact tends_halt hm

end Native

/-! ### Declarations -/

theorem tends_declareVariable (hm : m.store.Sound world) {name : Name} {v : Value}
    (hv : v.In m.store) :
    (declareVariable (σ := .frames hops) name v).Tends (fun _ _ _ => True) world m :=
  (tends_announce hm).bind fun _ _ _ hn _ => tends_put hn.sound (hn.store v hv)

theorem tends_declareFunction (hm : m.store.Sound world) (hscope : m.scope ∈ world)
    {decl : Function β} :
    (declareFunction (σ := .frames hops) decl).Tends (fun _ _ _ => True) world m := by
  refine (tends_announce hm).bind fun slot n later hn _ => tends_scope ?_
  have hin : n.scope ∈ later := hn.scope ▸ hn.world.subset hscope
  refine Tends.bind (R := fun (v : Value) s _ => v.In s)
    (tends_alloc (hn.sound.newFunction hin) (Store.le_newFunction _) (Arena.holds_alloc_self _ _))
    fun v k last hk hv => ?_
  exact tends_put hk.sound hv

theorem tends_superclass? (hm : m.store.Sound world) {superclass : Option (Name × β)} :
    (superclass? (σ := .frames hops) superclass).Tends
      (fun parent s _ => ∀ p, parent = some p → s.classes.Holds p) world m := by
  cases superclass with
  | none => exact tends_pure hm (by simp)
  | some superclass =>
    refine (tends_readVariable hm).bind fun v n later hn hv => ?_
    split
    · refine tends_pure hn.sound fun p hp => ?_
      cases hp
      exact hv
    · exact tends_fault hn.sound

theorem tends_methodScope (hm : m.store.Sound world) {parent : Option (Ref .cls)}
    (hparent : ∀ p, parent = some p → m.store.classes.Holds p) {outer : Chain}
    (houter : outer ∈ world) :
    (methodScope (σ := .frames hops) parent outer).Tends (fun inner _ later => inner ∈ later) world
      m := by
  cases parent with
  | none => exact tends_pure hm houter
  | some p =>
    have hp : (Value.cls p).In m.store := hparent p rfl
    exact tends_enter hm houter (by simpa using hp)

theorem tends_declareClass (hm : m.store.Sound world) (hscope : m.scope ∈ world) {name : Name}
    {superclass : Option (Name × β)} {methods : List (Function β)} :
    (declareClass (σ := .frames hops) name superclass methods).Tends (fun _ _ _ => True) world
      m := by
  rw [declareClass_eq]
  refine (tends_superclass? hm).bind fun parent n later hn hparent => ?_
  refine (tends_announce hn.sound).bind fun slot k last hk _ => tends_scope ?_
  have hin : k.scope ∈ last := by
    rw [hk.scope, hn.scope]
    exact hk.world.subset (hn.world.subset hscope)
  have hparent (p : Ref .cls) (hp : parent = some p) : k.store.classes.Holds p :=
    hk.store (.cls p) (hparent p hp)
  refine (tends_methodScope hk.sound hparent hin).bind fun inner j world' hj hinner => ?_
  refine tends_store (Tends.bind (R := fun (v : Value) s _ => v.In s) ?_
    fun v i world'' hi hv => tends_put hi.sound hv)
  refine tends_alloc (hj.sound.newClass ?_ ?_) (Store.le_newClass _) (Arena.holds_alloc_self _ _)
  · -- All methods are declared in the same scope.
    refine Table.forall_get?_ofList (P := fun _ (f : Closure (.frames hops)) => f.scope ∈ world')
      fun e he => ?_
    obtain ⟨method, -, rfl⟩ := List.mem_map.1 he
    exact hinner
  · cases parent with
    | none => exact .inl rfl
    | some p => exact .inr ⟨p, hj.store (.cls p) (hparent p rfl), rfl⟩

/-! ### Calls -/

theorem Closure.tends_result (hm : m.store.Sound world) {f : Closure (.frames hops)}
    {jump : Option Jump} (hjump : Jump.In m.store jump) :
    (f.result jump).TendsValue world m := by
  unfold Closure.result
  split
  · exact tends_fault hm
  · exact tends_fault hm
  · split
    · refine tends_store (tends_expect hm fun v hv => ?_)
      obtain ⟨r, -, hr⟩ := Frames.valueAt_eq_ok_iff.1 hv
      exact hm.values.memory r _ v hr
    · split
      · exact tends_pure hm hjump
      · exact tends_pure hm trivial

theorem tends_noteCall (hm : m.store.Sound world) {callee : Value} {arguments : List Value}
    {paren : Token} :
    (noteCall callee arguments paren : Eval (.frames hops) Unit).Tends (fun _ _ _ => True) world
      m := by
  refine tends_store ?_
  split
  · exact tends_fault hm
  · split
    · exact tends_fault hm
    · refine (tends_trace hm).bind fun _ n later hn _ => ?_
      exact ⟨later, .of_sameState hn.sound ⟨rfl, rfl⟩, trivial⟩

theorem tends_writeEntry (hm : m.store.Sound world) {brace : Token} {written : Entries}
    {key value : Value} (hwritten : written.In m.store) (hkey : key.In m.store)
    (hvalue : value.In m.store) :
    (writeEntry brace written key value : Eval (.frames hops) Entries).Tends (fun t s _ => t.In s)
      world m := by
  refine (tends_checkKey hm).bind fun _ n later hn _ => tends_expect hn.sound fun t ht => ?_
  refine Entries.In.write (fun k e he => ?_) (hn.store _ hkey) (hn.store _ hvalue) ht
  exact (hwritten k e he).imp (hn.store _) (hn.store _)

end LoxLang
