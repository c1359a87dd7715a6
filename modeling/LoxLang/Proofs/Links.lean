import LoxLang.Proofs.Chains
import LoxLang.Proofs.Dialogue

/-!
# Links between frames and between classes

A frame is enclosed by the one that comes after it in a chain, and a class inherits from the first
of its ancestors. Following such links must come to an end: values may refer to each other in
circles, but frames and classes may not.

What is known of the frames is a *world* (`Grown`): the chain of each frame, in the order in which
the frames were made. A frame is put in front of a chain that is in the world already, so all links
lead to frames that are older, and a store that is sound in a world (`Store.Sound`) is founded
(`Store.Sound.founded`): every chain is what the links lead through, down to the global frame, and
the same goes for the line of a class. The loops that go along links are `Finds` and `Climbs`.
-/

namespace LoxLang

/-! ### Following links -/

section Links

variable {α β : Type} {next : α → α → Prop} {here : α → Option β}

/-- Following the links from the first thing of the list leads through the list, up to a thing that
has no link. -/
inductive Leads (next : α → α → Prop) : List α → Prop where
  | stop {a : α} (h : ∀ b, ¬ next a b) : Leads next [a]
  | go {a b : α} {l : List α} (h : next a b) (hl : Leads next (b :: l)) : Leads next (a :: b :: l)

/-- Following the links until `here` has something, or until there is no link, comes to an end with
the result. -/
inductive Finds (next : α → α → Prop) (here : α → Option β) : α → Option β → Prop where
  | found {a : α} {b : β} (h : here a = some b) : Finds next here a (some b)
  | further {a a' : α} {result : Option β} (h : here a = none) (hnext : next a a')
    (hresult : Finds next here a' result) : Finds next here a result
  | missing {a : α} (h : here a = none) (hend : ∀ a', ¬ next a a') : Finds next here a none

/-- Following a number of links leads from the first thing to the second. -/
inductive Climbs (next : α → α → Prop) : Nat → α → α → Prop where
  | zero {a : α} : Climbs next 0 a a
  | succ {n : Nat} {a b c : α} (h : next a b) (hn : Climbs next n b c) : Climbs next (n + 1) a c

/-- Each thing has at most one link. -/
def Functional (next : α → α → Prop) : Prop := ∀ a b c, next a b → next a c → b = c

theorem Leads.finds {a : α} {l : List α} (h : Leads next (a :: l)) :
    Finds next here a ((a :: l).findSome? here) := by
  induction l generalizing a with
  | nil =>
    cases h with
    | stop hend =>
      cases ha : here a with
      | none => simpa [ha] using Finds.missing ha hend
      | some b => simpa [ha] using Finds.found ha
  | cons a' l ih =>
    cases h with
    | go hnext hl =>
      cases ha : here a with
      | none =>
        rw [List.findSome?_cons, ha]
        exact .further ha hnext (ih hl)
      | some b => simpa [ha] using Finds.found ha

theorem Finds.unique (hnext : Functional next) {a : α} {result result' : Option β}
    (h : Finds next here a result) (h' : Finds next here a result') : result = result' := by
  induction h with
  | found ha =>
    cases h' with
    | found ha' => rw [← ha, ha']
    | further ha' => simp [ha] at ha'
    | missing ha' => simp [ha] at ha'
  | further ha hlink _ ih =>
    cases h' with
    | found ha' => simp [ha] at ha'
    | further _ hlink' hresult' =>
      rw [hnext _ _ _ hlink hlink'] at ih
      exact ih hresult'
    | missing _ hend => exact absurd hlink (hend _)
  | missing ha hend =>
    cases h' with
    | found ha' => simp [ha] at ha'
    | further _ hlink => exact absurd hlink (hend _)
    | missing => rfl

/-- The loop that goes along the links has exactly one result. -/
theorem Leads.finds_iff (hnext : Functional next) {a : α} {l : List α}
    (h : Leads next (a :: l)) {result : Option β} :
    Finds next here a result ↔ result = (a :: l).findSome? here :=
  ⟨fun hresult => hresult.unique hnext h.finds, fun hresult => hresult ▸ h.finds⟩

theorem Leads.climbs_iff (hnext : Functional next) {a b : α} {l : List α}
    (h : Leads next (a :: l)) {n : Nat} : Climbs next n a b ↔ (a :: l)[n]? = some b := by
  induction n generalizing a l with
  | zero =>
    constructor
    · intro hn
      cases hn
      rfl
    · intro hn
      cases hn
      exact .zero
  | succ n ih =>
    cases h with
    | stop hend =>
      constructor
      · intro hn
        cases hn with
        | succ hlink => exact absurd hlink (hend _)
      · intro hn
        simp at hn
    | go hlink hl =>
      refine Iff.trans ?_ (ih hl)
      constructor
      · intro hn
        cases hn with
        | succ hlink' hn => rwa [hnext _ _ _ hlink hlink']
      · exact fun hn => .succ hlink hn

/-- There is a link from each thing of the list to the next one, and none from the last one. -/
theorem leads_of_links {l : List α} (hne : l ≠ []) (hlink : ∀ a b, [a, b] <:+: l → next a b)
    (hend : ∀ a, l.getLast? = some a → ∀ b, ¬ next a b) : Leads next l := by
  induction l with
  | nil => exact absurd rfl hne
  | cons a l ih =>
    cases l with
    | nil => exact .stop (hend a rfl)
    | cons b l =>
      have hprefix : [a, b] <:+: a :: b :: l := ⟨[], l, rfl⟩
      refine .go (hlink a b hprefix) (ih (List.cons_ne_nil b l) (fun c d hcd => ?_) fun c hc => ?_)
      · exact hlink c d (hcd.trans (List.suffix_cons a (b :: l)).isInfix)
      · exact hend c (by rwa [List.getLast?_cons_cons])

theorem nodup_of_descending {region : Region} {l : List (Ref region)}
    (h : l.Pairwise fun r r' => r'.index < r.index) : l.Nodup := by
  refine h.imp fun hlt heq => ?_
  rw [heq] at hlt
  exact Nat.lt_irrefl _ hlt

end Links

/-! ### Worlds -/

/-- The chains of all frames, in the order in which the frames were made: first the global one, and
then each one in front of a chain that was there already. -/
inductive Grown : List Chain → Prop where
  | root : Grown [globalChain]
  | enter {world : List Chain} {chain : Chain} (hworld : Grown world) (h : chain ∈ world) :
    Grown (world ++ [⟨world.length⟩ :: chain])

namespace Grown

variable {world : List Chain} {chain : Chain}

theorem globalChain_mem (h : Grown world) : globalChain ∈ world := by
  induction h with
  | root => exact List.mem_singleton_self _
  | enter _ _ ih => exact List.mem_append_left _ ih

/-- A frame comes first in its own chain. -/
theorem exists_cons (h : Grown world) {i : Nat} (hi : world[i]? = some chain) :
    ∃ rest, chain = ⟨i⟩ :: rest := by
  induction h generalizing i chain with
  | root =>
    cases i with
    | zero =>
      cases hi
      exact ⟨[], rfl⟩
    | succ i => simp at hi
  | @enter world outer hworld _ ih =>
    by_cases hlt : i < world.length
    · rw [List.getElem?_append_left hlt] at hi
      exact ih hi
    · rw [List.getElem?_append_right (Nat.le_of_not_lt hlt)] at hi
      obtain ⟨hzero, hchain⟩ := List.getElem?_eq_some_iff.1 hi
      have hi : i = world.length := by
        rw [List.length_singleton] at hzero
        omega
      subst hi
      exact ⟨outer, by simpa using hchain.symm⟩

/-- A frame has one chain. -/
theorem eq_of_cons_mem (h : Grown world) {r : Ref .frame} {rest rest' : Chain}
    (hr : r :: rest ∈ world) (hr' : r :: rest' ∈ world) : rest = rest' := by
  obtain ⟨i, hi⟩ := List.mem_iff_getElem?.1 hr
  obtain ⟨j, hj⟩ := List.mem_iff_getElem?.1 hr'
  obtain ⟨_, hri⟩ := h.exists_cons hi
  obtain ⟨_, hrj⟩ := h.exists_cons hj
  have hij : i = j := by
    rw [List.cons.injEq] at hri hrj
    have heq := hri.1.symm.trans hrj.1
    exact congrArg Ref.index heq
  subst hij
  rw [hi] at hj
  cases hj
  rfl

/-- The frames of a chain have chains of their own, which are its ends. -/
theorem mem_of_suffix (h : Grown world) (hchain : chain ∈ world) {rest : Chain}
    (hrest : rest <:+ chain) (hne : rest ≠ []) : rest ∈ world := by
  induction h generalizing chain with
  | root =>
    obtain rfl := List.mem_singleton.1 hchain
    obtain rfl | hnil := List.suffix_cons_iff.1 hrest
    · exact List.mem_singleton_self _
    · exact absurd (List.suffix_nil.1 hnil) hne
  | @enter world outer hworld houter ih =>
    obtain hold | hnew := List.mem_append.1 hchain
    · exact List.mem_append_left _ (ih hold hrest)
    · obtain rfl := List.mem_singleton.1 hnew
      obtain rfl | hrest := List.suffix_cons_iff.1 hrest
      · exact hchain
      · exact List.mem_append_left _ (ih houter hrest)

theorem index_lt (h : Grown world) (hchain : chain ∈ world) {r : Ref .frame} (hr : r ∈ chain) :
    r.index < world.length := by
  induction h generalizing chain with
  | root =>
    obtain rfl := List.mem_singleton.1 hchain
    obtain rfl := List.mem_singleton.1 hr
    exact Nat.zero_lt_one
  | @enter world outer hworld houter ih =>
    rw [List.length_append]
    obtain hold | hnew := List.mem_append.1 hchain
    · exact Nat.lt_add_right _ (ih hold hr)
    · obtain rfl := List.mem_singleton.1 hnew
      obtain rfl | hr := List.mem_cons.1 hr
      · exact Nat.lt_succ_self _
      · exact Nat.lt_add_right _ (ih houter hr)

/-- Every frame of a chain is older than those in front of it. -/
theorem descends (h : Grown world) (hchain : chain ∈ world) :
    chain.Pairwise fun r r' => r'.index < r.index := by
  induction h generalizing chain with
  | root =>
    obtain rfl := List.mem_singleton.1 hchain
    exact List.pairwise_singleton _ _
  | @enter world outer hworld houter ih =>
    obtain hold | hnew := List.mem_append.1 hchain
    · exact ih hold
    · obtain rfl := List.mem_singleton.1 hnew
      exact List.pairwise_cons.2 ⟨fun r hr => hworld.index_lt houter hr, ih houter⟩

theorem nodup (h : Grown world) (hchain : chain ∈ world) : chain.Nodup :=
  nodup_of_descending (h.descends hchain)

/-- Every chain ends with the global frame. -/
theorem getLast? (h : Grown world) (hchain : chain ∈ world) :
    chain.getLast? = some globalFrame := by
  induction h generalizing chain with
  | root =>
    obtain rfl := List.mem_singleton.1 hchain
    rfl
  | @enter world outer hworld houter ih =>
    obtain hold | hnew := List.mem_append.1 hchain
    · exact ih hold
    · obtain rfl := List.mem_singleton.1 hnew
      rw [List.getLast?_cons, ih houter]
      rfl

end Grown

/-! ### Stores -/

variable {β : Type} {hops : β → Hops}

/-- What the value refers to is in the store. -/
def Value.In {σ : Scoping} (s : Store σ) : Value → Prop
  | .list r => s.lists.Holds r
  | .map r => s.maps.Holds r
  | .function r => s.functions.Holds r
  | .cls r => s.classes.Holds r
  | .object r => s.objects.Holds r
  | _ => True

/-- `P` holds of all values in variables, lists, maps and fields. -/
structure Store.AllValues (P : Value → Prop) (s : Store (.frames hops)) : Prop where
  memory : ∀ r x v, (Arena.get s.memory r).get? x = some v → P v
  elements : ∀ r, ∀ v ∈ s.lists.get r, P v
  entries : ∀ r k e, (s.maps.get r).get? k = some e → P e.1 ∧ P e.2
  fields : ∀ r x v, (s.objects.get r).fields.get? x = some v → P v

/-- The first class inherits from the second, with none in between. -/
def Store.Inherits {σ : Scoping} (s : Store σ) (c p : Ref .cls) : Prop :=
  (s.classes.get c).ancestors.head? = some p

/-- The store goes with the world: all chains are in it. Every class that inherits does so from an
older one, and all references are good. -/
structure Store.Sound (world : List Chain) (s : Store (.frames hops)) : Prop where
  grown : Grown world
  frames : Array.size (Arena.cells s.memory) = world.length
  functions : ∀ r, (s.functions.get r).scope ∈ world
  methods : ∀ c x f, (s.classes.get c).methods.get? x = some f → f.scope ∈ world
  lines : ∀ c, (s.classes.get c).ancestors = [] ∨
    ∃ p, p.index < c.index ∧ (s.classes.get c).ancestors = s.line p
  instances : ∀ o, s.objects.Holds o → s.classes.Holds (s.objects.get o).cls
  values : s.AllValues (·.In s)

/-- The chain is one of the machine: the current one, one that will be current again, that of the
global frame, or that of a function or a method. -/
inductive Machine.HasChain (m : Machine (.frames hops)) (pending : List Chain) : Chain → Prop where
  | current : HasChain m pending m.scope
  | globals : HasChain m pending globalChain
  | pending {chain : Chain} (h : chain ∈ pending) : HasChain m pending chain
  | function {r : Ref .function} : HasChain m pending (m.store.functions.get r).scope
  | method {c : Ref .cls} {x : String} {f : Closure (.frames hops)}
    (h : (m.store.classes.get c).methods.get? x = some f) : HasChain m pending f.scope

/-- The frame `r'` encloses the frame `r`: it comes right after it in a chain of the machine. -/
def Machine.Encloses (m : Machine (.frames hops)) (pending : List Chain) (r r' : Ref .frame) :
    Prop :=
  ∃ chain, m.HasChain pending chain ∧ [r, r'] <:+: chain

/-- **The links of the machine come to an end.** -/
structure Machine.Founded (m : Machine (.frames hops)) (pending : List Chain) : Prop where
  /-- A frame is enclosed by at most one frame. -/
  functional : Functional (m.Encloses pending)
  /-- From the first frame of a chain the links lead through the chain, to no frame twice, and to
  the global frame last. -/
  frames : ∀ chain, m.HasChain pending chain → Leads (m.Encloses pending) chain ∧ chain.Nodup ∧
    chain.getLast? = some globalFrame ∧ ∀ r ∈ chain, Arena.Holds m.store.memory r
  /-- From a class the links lead through its line, to no class twice, and to a class that does not
  inherit last. -/
  classes : ∀ c, Leads m.store.Inherits (m.store.line c) ∧ (m.store.line c).Nodup ∧
    (m.store.classes.Holds c → ∀ p ∈ m.store.line c, m.store.classes.Holds p)
  /-- What values refer to is there. -/
  values : m.store.AllValues (·.In m.store)
  instances : ∀ o, m.store.objects.Holds o → m.store.classes.Holds (m.store.objects.get o).cls

namespace Store

variable {σ : Scoping}

theorem functional_inherits (s : Store σ) : Functional s.Inherits := by
  intro c p p' h h'
  rw [Inherits] at h h'
  rw [h] at h'
  exact Option.some.inj h'

namespace Sound

variable {world : List Chain} {s : Store (.frames hops)}

/-- The classes of a line are older than those in front of them. -/
theorem descends (h : s.Sound world) (c : Ref .cls) :
    (s.line c).Pairwise fun c c' => c'.index < c.index := by
  induction hn : c.index using Nat.strongRecOn generalizing c with
  | ind n ih =>
    rw [line]
    obtain hnone | ⟨p, hlt, hline⟩ := h.lines c
    · rw [hnone]
      exact List.pairwise_singleton _ _
    · have hp := ih p.index (hn ▸ hlt) p rfl
      rw [hline]
      refine List.pairwise_cons.2 ⟨fun c' hc' => ?_, hp⟩
      obtain rfl | hc' := List.mem_cons.1 hc'
      · exact hlt
      · exact Nat.lt_trans ((List.pairwise_cons.1 hp).1 c' hc') hlt

theorem leads_line (h : s.Sound world) (c : Ref .cls) : Leads s.Inherits (s.line c) := by
  induction hn : c.index using Nat.strongRecOn generalizing c with
  | ind n ih =>
    obtain hnone | ⟨p, hlt, hline⟩ := h.lines c
    · rw [line, hnone]
      refine .stop fun p hp => ?_
      rw [Inherits, hnone] at hp
      cases hp
    · have hp := ih p.index (hn ▸ hlt) p rfl
      have hlink : s.Inherits c p := by
        rw [Inherits, hline, line, List.head?_cons]
      rw [line, hline]
      exact .go hlink hp

theorem holds_of_mem_line (h : s.Sound world) {c p : Ref .cls} (hc : s.classes.Holds c)
    (hp : p ∈ s.line c) : s.classes.Holds p := by
  have hc : c.index < s.classes.cells.size := hc
  obtain rfl | hp := List.mem_cons.1 hp
  · exact hc
  · exact Nat.lt_trans ((List.pairwise_cons.1 (h.descends c)).1 p hp) hc

variable {m : Machine (.frames hops)} {pending : List Chain}

theorem mem_of_hasChain (h : m.store.Sound world) (hscope : m.scope ∈ world)
    (hpending : ∀ chain ∈ pending, chain ∈ world) {chain : Chain}
    (hchain : m.HasChain pending chain) : chain ∈ world := by
  cases hchain with
  | current => exact hscope
  | globals => exact h.grown.globalChain_mem
  | pending hmem => exact hpending _ hmem
  | function => exact h.functions _
  | method hf => exact h.methods _ _ _ hf

/-- A link is the beginning of a chain of the world. -/
theorem exists_of_encloses (h : m.store.Sound world) (hscope : m.scope ∈ world)
    (hpending : ∀ chain ∈ pending, chain ∈ world) {r r' : Ref .frame}
    (hlink : m.Encloses pending r r') : ∃ rest, r :: r' :: rest ∈ world := by
  obtain ⟨chain, hchain, front, rest, rfl⟩ := hlink
  refine ⟨rest, h.grown.mem_of_suffix (h.mem_of_hasChain hscope hpending hchain) ?_ (by simp)⟩
  exact ⟨front, by simp⟩

/-- **A machine that goes with a world is founded.** -/
theorem founded (h : m.store.Sound world) (hscope : m.scope ∈ world)
    (hpending : ∀ chain ∈ pending, chain ∈ world) : m.Founded pending where
  functional := by
    intro r r' r'' hr' hr''
    obtain ⟨rest, hrest⟩ := h.exists_of_encloses hscope hpending hr'
    obtain ⟨rest', hrest'⟩ := h.exists_of_encloses hscope hpending hr''
    have heq := h.grown.eq_of_cons_mem hrest hrest'
    cases heq
    rfl
  frames := by
    intro chain hchain
    have hmem := h.mem_of_hasChain hscope hpending hchain
    have hlast := h.grown.getLast? hmem
    refine ⟨leads_of_links ?_ ?_ ?_, h.grown.nodup hmem, hlast, fun r hr => ?_⟩
    · rintro rfl
      cases hlast
    · exact fun r r' hr => ⟨chain, hchain, hr⟩
    · intro r hr r' hlink
      rw [hlast] at hr
      cases hr
      -- The chain of the global frame has no other frame.
      obtain ⟨rest, hrest⟩ := h.exists_of_encloses hscope hpending hlink
      have heq := h.grown.eq_of_cons_mem hrest h.grown.globalChain_mem
      cases heq
    · show r.index < _
      rw [h.frames]
      exact h.grown.index_lt hmem hr
  classes c := by
    refine ⟨h.leads_line c, nodup_of_descending (h.descends c), fun hc p hp => ?_⟩
    exact h.holds_of_mem_line hc hp
  values := h.values
  instances := h.instances

end Sound

end Store

/-- **The loops that follow links come to an end,** each with one result, which is what is found in
the chain or in the line. -/
structure Machine.LoopsEnd (m : Machine (.frames hops)) (pending : List Chain) : Prop where
  /-- Looking up a variable, from the first frame of a chain outward. -/
  lookup : ∀ r outer x result, m.HasChain pending (r :: outer) →
    (Finds (m.Encloses pending) (fun r => (Arena.get m.store.memory r).get? x) r result ↔
      result = Frames.lookup? m.store.memory (r :: outer) x)
  /-- Looking for the frame that has a variable. -/
  holder : ∀ r outer x result, m.HasChain pending (r :: outer) →
    (Finds (m.Encloses pending)
        (fun r => if (Arena.get m.store.memory r).contains x then some r else none) r result ↔
      result = Frames.holder? m.store.memory (r :: outer) x)
  /-- Going a number of frames outward. -/
  climb : ∀ r outer n r', m.HasChain pending (r :: outer) →
    (Climbs (m.Encloses pending) n r r' ↔ Frames.frameAt (r :: outer) n = .ok r')
  /-- Looking for a method, from a class on. -/
  method : ∀ c x result,
    Finds m.store.Inherits (fun c => (m.store.classes.get c).methods.get? x) c result ↔
      result = m.store.method? c x

theorem Frames.lookup?_eq_findSome? (frames : Frames) (chain : Chain) (x : String) :
    lookup? frames chain x = chain.findSome? fun r => (frames.get r).get? x := by
  induction chain with
  | nil => rfl
  | cons r chain ih =>
    rw [lookup?, List.findSome?_cons, ih]
    cases (frames.get r).get? x <;> rfl

theorem Frames.holder?_eq_findSome? (frames : Frames) (chain : Chain) (x : String) :
    holder? frames chain x =
      chain.findSome? fun r => if (frames.get r).contains x then some r else none := by
  induction chain with
  | nil => rfl
  | cons r chain ih =>
    rw [holder?] at ih ⊢
    rw [List.find?_cons, List.findSome?_cons, ih]
    cases (frames.get r).contains x <;> rfl

theorem Machine.Founded.loopsEnd {m : Machine (.frames hops)} {pending : List Chain}
    (h : m.Founded pending) : m.LoopsEnd pending where
  lookup r outer x result hchain := by
    rw [Frames.lookup?_eq_findSome?]
    exact (h.frames _ hchain).1.finds_iff h.functional
  holder r outer x result hchain := by
    rw [Frames.holder?_eq_findSome?]
    exact (h.frames _ hchain).1.finds_iff h.functional
  climb r outer n r' hchain := by
    rw [Frames.frameAt_eq_ok_iff]
    exact (h.frames _ hchain).1.climbs_iff h.functional
  method c x result := (h.classes c).1.finds_iff m.store.functional_inherits

end LoxLang
