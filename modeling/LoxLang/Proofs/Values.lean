import LoxLang.Proofs.Lockstep

/-!
# Operations on values

Much of what a program does is done to values, lists, maps and streams only: operators, elements,
printing, native functions. Such an operation leaves the variables, the functions, the classes and
the current scope as they are (`Machine.SameCode`), and it does the same on every two machines that
are alike apart from their code (`Machine.Alike`), even if their scopings differ. It may halt with a
fault, which has a place unless it comes from a native function, or because the stack is used up. It
does not run into a `Defect`: what it takes for granted has been checked before.

All of this is `Eval.OnValues`. The tracing of a run and its standard streams are no part of what
makes machines alike: no operation depends on them.
-/

namespace LoxLang

variable {σ τ : Scoping} {α β : Type}

/-- The second machine has the variables, functions and classes of the first, and the same scope is
current. -/
structure Machine.SameCode (m n : Machine σ) : Prop where
  memory : n.store.memory = m.store.memory
  functions : n.store.functions = m.store.functions
  classes : n.store.classes = m.store.classes
  scope : n.scope = m.scope

namespace Machine.SameCode

variable {l m n : Machine σ}

theorem refl (m : Machine σ) : m.SameCode m := ⟨rfl, rfl, rfl, rfl⟩

theorem trans (hlm : l.SameCode m) (hmn : m.SameCode n) : l.SameCode n :=
  ⟨hmn.memory.trans hlm.memory, hmn.functions.trans hlm.functions,
    hmn.classes.trans hlm.classes, hmn.scope.trans hlm.scope⟩

theorem arity? (h : m.SameCode n) (v : Value) : n.store.arity? v = m.store.arity? v := by
  cases v <;> simp [Store.arity?, Store.method?, Store.line, h.functions, h.classes]

end Machine.SameCode

/-- The stores have the same lists, maps and objects, and functions and classes with the same names
that take as many arguments. -/
structure Store.Alike (s : Store σ) (t : Store τ) : Prop where
  lists : s.lists = t.lists
  maps : s.maps = t.maps
  objects : s.objects = t.objects
  functionName : ∀ r, s.functionName r = t.functionName r
  className : ∀ r, s.className r = t.className r
  arity : ∀ v, s.arity? v = t.arity? v

/-- The machines are alike apart from variables, code, and what they have written. -/
structure Machine.Alike (m : Machine σ) (n : Machine τ) : Prop where
  store : m.store.Alike n.store
  calls : m.calls = n.calls
  effects : m.effects = n.effects
  input : m.input = n.input
  clock : m.clock = n.clock

theorem Store.Alike.calleeName {s : Store σ} {t : Store τ} (h : s.Alike t) (v : Value) :
    s.calleeName v = t.calleeName v := by
  cases v with
  | function r => exact h.functionName r
  | cls r => exact h.className r
  | _ => rfl

theorem Store.Alike.refl (s : Store σ) : s.Alike s :=
  ⟨rfl, rfl, rfl, fun _ => rfl, fun _ => rfl, fun _ => rfl⟩

theorem Machine.Alike.refl (m : Machine σ) : m.Alike m := ⟨.refl _, rfl, rfl, rfl, rfl⟩

/-- Of a jump that nothing has taken. -/
def Cause.isStray : Cause → Bool
  | returnAtTopLevel | outsideLoop _ => true
  | _ => false

namespace Halt

/-- Not a defect, nor a fault for a jump that nothing has taken. -/
def Sound : Halt → Prop
  | fault f => f.cause.isStray = false
  | defect _ => False
  | _ => True

/-- As `Halt.Sound`, nor a fault without a place. -/
def Placed : Halt → Prop
  | fault f => f.place.isSome ∧ f.cause.isStray = false
  | defect _ => False
  | _ => True

theorem Sound.placed_blame {h : Halt} (hh : h.Sound) (place : Token) :
    (Eval.blame place h).Placed := by
  cases h with
  | fault f =>
    obtain ⟨cause, place'⟩ := f
    cases place' <;> exact ⟨rfl, hh⟩
  | defect d => exact hh
  | exhausted => trivial
  | unfinished => trivial

variable {L : Token → Token → Prop}

/-- Two runs halt for the same reason, at places that correspond. -/
inductive Pairs (L : Token → Token → Prop) : Halt → Halt → Prop where
  | placed {cause : Cause} {place place' : Token} (h : L place place') :
    Pairs L (fault ⟨cause, some place⟩) (fault ⟨cause, some place'⟩)
  | unplaced {cause : Cause} : Pairs L (fault ⟨cause, none⟩) (fault ⟨cause, none⟩)
  | defect {d : Defect} : Pairs L (defect d) (defect d)
  | exhausted : Pairs L exhausted exhausted
  | unfinished : Pairs L unfinished unfinished

theorem Pairs.eq {h k : Halt} (hh : Pairs L h k) (hL : ∀ t u, L t u → t = u) : h = k := by
  cases hh with
  | placed h => rw [hL _ _ h]
  | _ => rfl

theorem Pairs.blame {h k : Halt} (hh : Pairs L h k) {place place' : Token} (hp : L place place') :
    Pairs L (Eval.blame place h) (Eval.blame place' k) := by
  cases hh with
  | placed h => exact .placed h
  | unplaced => exact .placed hp
  | defect => exact .defect
  | exhausted => exact .exhausted
  | unfinished => exact .unfinished

end Halt

/-- Two machines that were alike are so still, and each has its code. -/
structure Machine.Stay (m : Machine σ) (n : Machine τ) (m' : Machine σ) (n' : Machine τ) :
    Prop where
  left : m.SameCode m'
  right : n.SameCode n'
  alike : m'.Alike n'

namespace Eval

/-- The operations work on values only and do the same, and halt as `H` says. -/
def OnValues (L : Token → Token → Prop) (H : Halt → Prop) (x : Eval σ α) (y : Eval τ α) : Prop :=
  ∀ m n, m.Alike n → x.Pairs y m n (fun a b m' n' => a = b ∧ m.Stay n m' n')
    fun h k m' n' => Halt.Pairs L h k ∧ H h ∧ m.Stay n m' n'

variable {L : Token → Token → Prop} {H : Halt → Prop} {x : Eval σ α} {y : Eval τ α}
  {f : α → Eval σ β} {g : α → Eval τ β}

/-- What an operation on values does by itself. -/
theorem OnValues.ends {x : Eval σ α} (hx : OnValues Eq H x x) (m : Machine σ) :
    x.Ends m (fun _ n => m.SameCode n) fun h n => m.SameCode n ∧ H h :=
  (hx m m (.refl m)).ends.mono (fun _ _ h => h.2.left) fun _ _ h => ⟨h.2.2.left, h.2.1⟩

theorem OnValues.bind (hx : OnValues L H x y) (hf : ∀ a, OnValues L H (f a) (g a)) :
    OnValues L H (x >>= f) (y >>= g) := by
  intro m n hmn
  refine pairs_bind ((hx m n hmn).mono ?_ fun _ _ _ _ h => h)
  rintro a _ m' n' ⟨rfl, hs⟩
  refine (hf a m' n' hs.alike).mono (fun b c _ _ ⟨hbc, hs'⟩ => ⟨hbc, ?_⟩)
    fun h k _ _ ⟨hhk, hH, hs'⟩ => ⟨hhk, hH, ?_⟩
  · exact ⟨hs.left.trans hs'.left, hs.right.trans hs'.right, hs'.alike⟩
  · exact ⟨hs.left.trans hs'.left, hs.right.trans hs'.right, hs'.alike⟩

theorem onValues_pure {a : α} : OnValues L H (pure a : Eval σ α) (pure a : Eval τ α) :=
  fun _ _ h => ⟨rfl, .refl _, .refl _, h⟩

theorem onValues_mapM {γ : Type} {f : γ → Eval σ α} {g : γ → Eval τ α} {l : List γ}
    (hf : ∀ c, OnValues L H (f c) (g c)) : OnValues L H (l.mapM f) (l.mapM g) := by
  induction l with
  | nil => exact onValues_pure
  | cons c l ih =>
    rw [List.mapM_cons, List.mapM_cons]
    exact (hf c).bind fun _ => ih.bind fun _ => onValues_pure

theorem onValues_halt {h k : Halt} (hhk : Halt.Pairs L h k) (hh : H h) :
    OnValues L H (halt h : Eval σ α) (halt k : Eval τ α) :=
  fun _ _ hmn => ⟨hhk, hh, .refl _, .refl _, hmn⟩

theorem onValues_fault {cause : Cause} {place place' : Token} (hp : L place place')
    (hcause : cause.isStray = false) :
    OnValues L Halt.Placed (fault cause place : Eval σ α) (fault cause place' : Eval τ α) :=
  onValues_halt (.placed hp) ⟨rfl, hcause⟩

/-- A look at the machine. -/
theorem onValues_get {f : Machine σ → Eval σ β} {g : Machine τ → Eval τ β}
    (hf : ∀ m n, m.Alike n → OnValues L H (f m) (g n)) :
    OnValues L H (do f (← get)) (do g (← get)) :=
  fun m n hmn => pairs_bind (hf m n hmn m n hmn)

/-- A look at the store. -/
theorem onValues_store {f : Store σ → Eval σ β} {g : Store τ → Eval τ β}
    (hf : ∀ s t, s.Alike t → OnValues L H (f s) (g t)) :
    OnValues L H (do f (← store)) (do g (← store)) :=
  fun m n hmn => pairs_bind (hf m.store n.store hmn.store m n hmn)

theorem onValues_write {message ending : String} :
    OnValues L H (write message ending : Eval σ Unit) (write message ending : Eval τ Unit) :=
  fun _ _ h => ⟨rfl, ⟨rfl, rfl, rfl, rfl⟩, ⟨rfl, rfl, rfl, rfl⟩, h.store, h.calls,
    congrArg _ h.effects, h.input, h.clock⟩

/-- Tracing is not seen by the program. -/
theorem trace_eq (m : Machine σ) (words : List String) :
    ∃ errors, (m.tracing = false → errors = m.errors) ∧
      trace words m = .ok () { m with errors := errors } := by
  by_cases ht : m.tracing = true
  · refine ⟨_, fun hnot => ?_, congrArg (EStateM.Result.ok ()) (if_pos ht)⟩
    rw [ht] at hnot
    cases hnot
  · exact ⟨m.errors, fun _ => rfl, congrArg (EStateM.Result.ok ()) (if_neg ht)⟩

theorem onValues_trace {words words' : List String} :
    OnValues L H (trace words : Eval σ Unit) (trace words' : Eval τ Unit) := by
  intro m n h
  obtain ⟨e, -, he⟩ := trace_eq m words
  obtain ⟨e', -, he'⟩ := trace_eq n words'
  unfold Pairs
  rw [he, he']
  exact ⟨rfl, ⟨rfl, rfl, rfl, rfl⟩, ⟨rfl, rfl, rfl, rfl⟩, h.store, h.calls, h.effects, h.input,
    h.clock⟩

theorem onValues_readLine : OnValues L H (readLine : Eval σ Value) (readLine : Eval τ Value) := by
  intro m n h
  unfold readLine
  rw [pairs_modifyGet, ← h.input]
  cases m.input with
  | nil => exact ⟨rfl, .refl _, .refl _, h⟩
  | cons line lines =>
    exact ⟨rfl, ⟨rfl, rfl, rfl, rfl⟩, ⟨rfl, rfl, rfl, rfl⟩, h.store, h.calls, h.effects, rfl,
      h.clock⟩

theorem onValues_readClock : OnValues L H (readClock : Eval σ Value) (readClock : Eval τ Value) :=
  fun _ _ h => ⟨by rw [h.clock], ⟨rfl, rfl, rfl, rfl⟩, ⟨rfl, rfl, rfl, rfl⟩, h.store, h.calls,
    h.effects, h.input, congrArg Clock.advance h.clock⟩

/-- A change to the stores that leaves the code. -/
theorem onValues_modifyStore {f : Store σ → Store σ} {g : Store τ → Store τ}
    (hf : ∀ m : Machine σ, m.SameCode { m with store := f m.store })
    (hg : ∀ n : Machine τ, n.SameCode { n with store := g n.store })
    (h : ∀ s t, s.Alike t → (f s).Alike (g t)) : OnValues L H (modifyStore f) (modifyStore g) :=
  fun m n hmn => ⟨rfl, hf m, hg n, h _ _ hmn.store, hmn.calls, hmn.effects, hmn.input, hmn.clock⟩

theorem onValues_modifyList {ref : Ref .list} {g : Elements → Elements} :
    OnValues L H (modifyStore (σ := σ) (·.modifyList ref g))
      (modifyStore (σ := τ) (·.modifyList ref g)) :=
  onValues_modifyStore (fun _ => ⟨rfl, rfl, rfl, rfl⟩) (fun _ => ⟨rfl, rfl, rfl, rfl⟩)
    fun _ _ h => { h with lists := by rw [Store.modifyList, h.lists]; rfl }

theorem onValues_modifyMap {ref : Ref .map} {g : Entries → Entries} :
    OnValues L H (modifyStore (σ := σ) (·.modifyMap ref g))
      (modifyStore (σ := τ) (·.modifyMap ref g)) :=
  onValues_modifyStore (fun _ => ⟨rfl, rfl, rfl, rfl⟩) (fun _ => ⟨rfl, rfl, rfl, rfl⟩)
    fun _ _ h => { h with maps := by rw [Store.modifyMap, h.maps]; rfl }

theorem onValues_setField {ref : Ref .object} {name : String} {v : Value} :
    OnValues L H (modifyStore (σ := σ) (·.setField ref name v))
      (modifyStore (σ := τ) (·.setField ref name v)) :=
  onValues_modifyStore (fun _ => ⟨rfl, rfl, rfl, rfl⟩) (fun _ => ⟨rfl, rfl, rfl, rfl⟩)
    fun _ _ h => { h with objects := by rw [Store.setField, h.objects]; rfl }

/-- Something new in the stores that leaves the code. -/
theorem onValues_alloc {f : Store σ → α × Store σ} {g : Store τ → α × Store τ}
    (hf : ∀ m : Machine σ, m.SameCode { m with store := (f m.store).2 })
    (hg : ∀ n : Machine τ, n.SameCode { n with store := (g n.store).2 })
    (h : ∀ s t, s.Alike t → (f s).1 = (g t).1 ∧ (f s).2.Alike (g t).2) :
    OnValues L H (alloc f) (alloc g) :=
  fun m n hmn => ⟨(h _ _ hmn.store).1, hf m, hg n, (h _ _ hmn.store).2, hmn.calls, hmn.effects,
    hmn.input, hmn.clock⟩

theorem onValues_newList {elements : Elements} :
    OnValues L H (alloc (σ := σ) (·.newList elements)) (alloc (σ := τ) (·.newList elements)) :=
  onValues_alloc (fun _ => ⟨rfl, rfl, rfl, rfl⟩) (fun _ => ⟨rfl, rfl, rfl, rfl⟩) fun _ _ h =>
    ⟨by rw [Store.newList, h.lists]; rfl,
      { h with lists := by rw [Store.newList, h.lists]; rfl }⟩

theorem onValues_newMap {entries : Entries} :
    OnValues L H (alloc (σ := σ) (·.newMap entries)) (alloc (σ := τ) (·.newMap entries)) :=
  onValues_alloc (fun _ => ⟨rfl, rfl, rfl, rfl⟩) (fun _ => ⟨rfl, rfl, rfl, rfl⟩) fun _ _ h =>
    ⟨by rw [Store.newMap, h.maps]; rfl, { h with maps := by rw [Store.newMap, h.maps]; rfl }⟩

theorem onValues_popCall : OnValues L H (popCall : Eval σ Unit) (popCall : Eval τ Unit) :=
  fun _ _ h => ⟨rfl, ⟨rfl, rfl, rfl, rfl⟩, ⟨rfl, rfl, rfl, rfl⟩, h.store,
    congrArg List.tail h.calls, h.effects, h.input, h.clock⟩

theorem onValues_pushCall {call : PendingCall} :
    OnValues L H (pushCall call : Eval σ Unit) (pushCall call : Eval τ Unit) :=
  fun _ _ h => ⟨rfl, ⟨rfl, rfl, rfl, rfl⟩, ⟨rfl, rfl, rfl, rfl⟩, h.store,
    congrArg _ h.calls, h.effects, h.input, h.clock⟩

end Eval

/-! ### Texts and comparisons -/

namespace Value

variable {s : Store σ} {t : Store τ}

/-- Values have the same text on stores that are alike. -/
theorem text?_eq (h : s.Alike t) (depth : Nat) : text? s depth = text? t depth := by
  induction depth with
  | zero => rfl
  | succ depth ih =>
    funext level v
    cases v <;>
      simp only [text?, ih, h.lists, h.maps, h.functionName, h.className, Store.objectClassName,
        h.objects]

/-- Values are as equal on stores that are alike. -/
theorem equal_eq (h : s.Alike t) (depth : Nat) : equal s depth = equal t depth := by
  induction depth with
  | zero => rfl
  | succ depth ih =>
    funext a b
    simp only [equal, ih, h.lists, h.maps]

theorem allPairs_ne_error {test : Value → Value → Except Halt Bool} {h : Halt}
    (htest : ∀ a b, test a b ≠ .error h) (pairs : List (Value × Value)) :
    allPairs test pairs ≠ .error h := by
  induction pairs with
  | nil => nofun
  | cons pair pairs ih =>
    obtain ⟨a, b⟩ := pair
    unfold allPairs
    intro he
    cases ht : test a b with
    | error h' =>
      simp only [ht, bind, Except.bind, Except.error.injEq] at he
      exact htest a b (ht.trans (congrArg _ he))
    | ok answer =>
      cases answer
      · simp [ht, bind, Except.bind, pure, Except.pure] at he
      · exact ih (by simpa [ht, bind, Except.bind] using he)

theorem mapM_withOther_ne_error {other : Entries} {h : Halt} (entries : List (Key × Value × Value))
    (hk : ∀ e ∈ entries, other.contains e.1) : entries.mapM (withOther other) ≠ .error h := by
  induction entries with
  | nil => nofun
  | cons e entries ih =>
    intro he
    have hsome : (other.get? e.1).isSome := by
      rw [← Table.contains_eq_isSome]
      exact hk e List.mem_cons_self
    obtain ⟨⟨k, v⟩, hv⟩ := Option.isSome_iff_exists.1 hsome
    simp only [List.mapM_cons, withOther, hv, bind, Except.bind] at he
    split at he
    · rename_i h' hrest
      exact ih (fun e' he' => hk e' (List.mem_cons_of_mem _ he')) (hrest.trans he)
    · cases he

/-- Comparing two values halts only if the levels do not suffice. -/
theorem equal_ne_error {store : Store σ} {depth : Nat} {a b : Value} {h : Halt}
    (hh : h ≠ .exhausted) : a.equal store depth b ≠ .error h := by
  induction depth generalizing a b with
  | zero => exact fun he => hh (Except.error.inj he).symm
  | succ depth ih =>
    unfold equal
    split
    · simp
    · split
      · simp
      · dsimp only
        split
        · exact allPairs_ne_error (fun a b => ih) _
        · simp
    · split
      · simp
      · dsimp only
        split
        · rename_i x y _ hkeys
          -- The keys are the same, so each entry has one in the other map to be compared with.
          have hk : ∀ e ∈ (store.maps.get x).entries, (store.maps.get y).contains e.1 := by
            simp only [sameKeys, Bool.and_eq_true, List.all_eq_true] at hkeys
            exact fun e he => hkeys.2 e.1 (List.mem_map_of_mem he)
          intro he
          cases hpairs : (store.maps.get x).entries.mapM (withOther (store.maps.get y)) with
          | error h' => exact mapM_withOther_ne_error _ hk hpairs
          | ok pairs =>
            rw [hpairs] at he
            exact allPairs_ne_error (fun a b => ih) pairs he
        · simp
    · simp

end Value

namespace Eval

variable {L : Token → Token → Prop} {H : Halt → Prop}

theorem onValues_text {depth : Nat} {level : Int} {v : Value} (hH : H .exhausted) :
    OnValues L H (text depth level v : Eval σ String) (text depth level v : Eval τ String) := by
  refine onValues_store fun s t h => ?_
  rw [Value.text?_eq h]
  cases v.text? t (depth / levelsPerStep) level with
  | none => exact onValues_halt .exhausted hH
  | some text => exact onValues_pure

theorem onValues_equal {depth : Nat} {a b : Value} :
    OnValues L Halt.Placed (equal depth a b : Eval σ Bool) (equal depth a b : Eval τ Bool) := by
  refine onValues_store fun s t h => ?_
  rw [Value.equal_eq h]
  cases he : a.equal t (depth / levelsPerStep) b with
  | ok answer => exact onValues_pure
  | error why =>
    by_cases hwhy : why = .exhausted
    · subst hwhy
      exact onValues_halt .exhausted trivial
    · exact absurd he (Value.equal_ne_error hwhy)

theorem onValues_printValue {depth : Nat} {v : Value} :
    OnValues L Halt.Placed (printValue depth v : Eval σ Unit) (printValue depth v : Eval τ Unit) :=
  (onValues_text trivial).bind fun _ => onValues_write

end Eval

/-! ### Elements -/

namespace Entries

theorem exists_key_of_isKey {v : Value} (h : isKey v = true) :
    ∃ k, Key.ofValue? v = some k ∧ key v = .ok k := by
  obtain ⟨k, hk⟩ := Option.isSome_iff_exists.1 h
  exact ⟨k, hk, by rw [key, hk]⟩

theorem exists_write_of_isKey (entries : Entries) {v : Value} (value : Value)
    (h : isKey v = true) : ∃ written, entries.write v value = .ok written := by
  obtain ⟨k, -, hk⟩ := exists_key_of_isKey h
  exact ⟨_, by rw [write, hk]; rfl⟩

theorem exists_take_of_isKey (entries : Entries) {v : Value} (h : isKey v = true) :
    ∃ taken, entries.take v = .ok taken := by
  obtain ⟨k, -, hk⟩ := exists_key_of_isKey h
  exact ⟨_, by rw [take, hk]; rfl⟩

theorem exists_read_of_has {entries : Entries} {v : Value} (h : entries.has v = true) :
    ∃ value, entries.read v = .ok value := by
  unfold has at h
  cases hk : Key.ofValue? v with
  | none => simp [hk] at h
  | some k =>
    rw [hk, Option.any_some, Table.contains_eq_isSome] at h
    obtain ⟨⟨shown, value⟩, hv⟩ := Option.isSome_iff_exists.1 h
    refine ⟨value, ?_⟩
    simp [read, key, hk, hv, bind, Except.bind, pure, Except.pure]

end Entries

namespace Elements

theorem index?_eq_some {size : Nat} {i : Int} (h₀ : 0 ≤ i) (h : i < size) :
    index? size i = some i.toNat := by
  have hn : ¬ i < 0 := by omega
  simp [index?, hn, h₀, h]

theorem exists_at? (elements : Elements) {i : Int} (h₀ : 0 ≤ i) (h : i < elements.size) :
    ∃ value, elements.at? i = some value := by
  have hlt : i.toNat < elements.size := by omega
  exact ⟨elements[i.toNat], by simp [at?, index?_eq_some h₀ h, hlt]⟩

end Elements

theorem Number.exists_truncate_of_isWhole {x : Number} (h : x.isWhole = true) :
    ∃ i, x.truncate? = some i := by
  simp only [isWhole, Bool.and_eq_true] at h
  exact ⟨_, by rw [truncate?, if_pos h.1]⟩

namespace Eval

variable {L : Token → Token → Prop} {bracket bracket' place place' : Token}

/-- A value that is accepted as a key is one. -/
theorem onValues_checkKey {key : Value} {f : Eval σ α} {g : Eval τ α} (hp : L place place')
    (hf : Entries.isKey key = true → OnValues L Halt.Placed f g) :
    OnValues L Halt.Placed (do checkKey key place; f) (do checkKey key place'; g) := by
  unfold checkKey
  by_cases hkey : Entries.isKey key = true
  · simp only [hkey, if_true]
    exact onValues_pure.bind fun _ => hf hkey
  · simp only [hkey]
    exact fun _ _ h => ⟨.placed hp, ⟨rfl, rfl⟩, .refl _, .refl _, h⟩

/-- A position that is accepted is one of the list. -/
theorem onValues_listPosition {size : Nat} {position : Value} {f : Int → Eval σ α}
    {g : Int → Eval τ α} (hp : L bracket bracket')
    (hf : ∀ i : Int, 0 ≤ i → i < size → OnValues L Halt.Placed (f i) (g i)) :
    OnValues L Halt.Placed (do f (← listPosition size position bracket))
      (do g (← listPosition size position bracket')) := by
  have hfault {cause : Cause} (hcause : cause.isStray = false) :
      OnValues L Halt.Placed (do f (← fault cause bracket)) (do g (← fault cause bracket')) :=
    fun _ _ h => ⟨.placed hp, ⟨rfl, hcause⟩, .refl _, .refl _, h⟩
  cases position with
  | number x =>
    by_cases hx : x.isWhole = true
    · obtain ⟨i, hi⟩ := Number.exists_truncate_of_isWhole hx
      by_cases hrange : i < 0 ∨ size ≤ i
      · simp only [listPosition, hx, hi, hrange, if_true]
        exact hfault rfl
      · simp only [listPosition, hx, hi, hrange, if_true, if_false, pure_bind]
        exact hf i (by omega) (by omega)
    · simp only [listPosition, hx]
      exact hfault rfl
  | _ => exact hfault rfl

theorem onValues_element {depth : Nat} {container position : Value} (hp : L bracket bracket') :
    OnValues L Halt.Placed (element depth container position bracket : Eval σ Value)
      (element depth container position bracket' : Eval τ Value) := by
  unfold element
  split
  · rename_i ref
    refine onValues_store fun s t h => ?_
    rw [h.lists]
    refine onValues_listPosition hp fun i h₀ hi => ?_
    obtain ⟨v, hv⟩ := Elements.exists_at? _ h₀ hi
    simp only [hv]
    exact onValues_pure
  · rename_i ref
    refine onValues_checkKey hp fun _ => onValues_store fun s t h => ?_
    rw [h.maps]
    dsimp only
    split
    · obtain ⟨v, hv⟩ := Entries.exists_read_of_has ‹_›
      rw [hv]
      exact onValues_pure
    · exact (onValues_text trivial).bind fun _ => onValues_fault hp rfl
  · exact onValues_fault hp rfl

theorem onValues_setElement {container position value : Value} (hp : L bracket bracket') :
    OnValues L Halt.Placed (setElement container position value bracket : Eval σ Unit)
      (setElement container position value bracket' : Eval τ Unit) := by
  unfold setElement
  split
  · rename_i ref
    refine onValues_store fun s t h => ?_
    rw [h.lists]
    refine onValues_listPosition hp fun i h₀ hi => ?_
    simp only [Elements.index?_eq_some h₀ hi]
    exact onValues_modifyList
  · rename_i ref
    refine onValues_checkKey hp fun hkey => onValues_store fun s t h => ?_
    rw [h.maps]
    obtain ⟨written, hw⟩ := Entries.exists_write_of_isKey (t.maps.get ref) value hkey
    rw [hw]
    exact onValues_pure.bind fun _ => onValues_modifyMap
  · exact onValues_fault hp rfl

theorem onValues_writeEntry {written : Entries} {key value : Value} (hp : L place place') :
    OnValues L Halt.Placed (writeEntry place written key value : Eval σ Entries)
      (writeEntry place' written key value : Eval τ Entries) := by
  refine onValues_checkKey hp fun hkey => ?_
  obtain ⟨written', hw⟩ := Entries.exists_write_of_isKey written value hkey
  rw [hw]
  exact onValues_pure

end Eval

/-! ### Operators -/

namespace Number

theorem exists_divide (x y : Number) : ∃ z, x.divide y = .ok z := by
  unfold divide
  split
  · split <;> exact ⟨_, rfl⟩
  · rename_i hy
    exact ⟨x / y, by simp [quotient?, hy]⟩

theorem exists_modulo (x y : Number) : ∃ z, x.modulo y = .ok z := by
  unfold modulo
  split
  · exact ⟨_, rfl⟩
  · rename_i hxy
    cases hr : x.remainder? y with
    | some z => exact ⟨z, rfl⟩
    | none =>
      exfalso
      -- There is a remainder unless one of the numbers is excluded before.
      rw [Bool.or_comm] at hxy
      unfold remainder? at hr
      rw [if_neg hxy] at hr
      repeat' split at hr
      all_goals cases hr

end Number

/-- Every operator makes something of two numbers. -/
theorem BinaryOp.exists_onNumbers (op : BinaryOp) (x y : Number) :
    ∃ v, op.onNumbers x y = .ok v := by
  cases op with
  | divide =>
    obtain ⟨z, hz⟩ := x.exists_divide y
    exact ⟨.number z, by rw [onNumbers, hz]; rfl⟩
  | remainder =>
    obtain ⟨z, hz⟩ := x.exists_modulo y
    exact ⟨.number z, by rw [onNumbers, hz]; rfl⟩
  | _ => exact ⟨_, rfl⟩


namespace Eval

variable {L : Token → Token → Prop}

theorem onValues_unary {op : UnaryOp} {line line' : Int} {v : Value}
    (hp : L (.ofSymbol op.symbol line) (.ofSymbol op.symbol line')) :
    OnValues L Halt.Placed (op.apply line v : Eval σ Value) (op.apply line' v : Eval τ Value) := by
  unfold UnaryOp.apply
  split
  · exact onValues_pure
  · exact onValues_pure
  · exact onValues_fault hp rfl

theorem onValues_onNumbers {op : BinaryOp} {x y : Number} :
    OnValues L Halt.Placed (expect (op.onNumbers x y) : Eval σ Value)
      (expect (op.onNumbers x y) : Eval τ Value) := by
  obtain ⟨v, hv⟩ := op.exists_onNumbers x y
  rw [hv]
  exact onValues_pure

theorem onValues_binary {depth : Nat} {op : BinaryOp} {line line' : Int} {left right : Value}
    (hp : L (.ofSymbol op.symbol line) (.ofSymbol op.symbol line')) :
    OnValues L Halt.Placed (op.apply depth line left right : Eval σ Value)
      (op.apply depth line' left right : Eval τ Value) := by
  unfold BinaryOp.apply
  dsimp only
  split
  · exact onValues_equal.bind fun _ => onValues_pure
  · exact onValues_equal.bind fun _ => onValues_pure
  · split
    · exact onValues_onNumbers
    · exact onValues_pure
    · exact onValues_fault hp rfl
  · split
    · exact onValues_onNumbers
    · exact onValues_fault hp rfl

end Eval

/-! ### Native functions and calls -/

namespace Native

open Eval

variable {L : Token → Token → Prop}

theorem onValues_fault {cause : Cause} (hcause : cause.isStray = false) :
    OnValues L Halt.Sound (fault cause : Eval σ α) (fault cause : Eval τ α) :=
  onValues_halt .unplaced hcause

theorem onValues_expectList {f : Native} {v : Value} :
    OnValues L Halt.Sound (expectList f v : Eval σ (Ref .list))
      (expectList f v : Eval τ (Ref .list)) := by
  unfold expectList
  split
  · exact onValues_pure
  · exact onValues_fault rfl

theorem onValues_expectMap {f : Native} {v : Value} :
    OnValues L Halt.Sound (expectMap f v : Eval σ (Ref .map))
      (expectMap f v : Eval τ (Ref .map)) := by
  unfold expectMap
  split
  · exact onValues_pure
  · exact onValues_fault rfl

theorem onValues_length {v : Value} :
    OnValues L Halt.Sound (length v : Eval σ Value) (length v : Eval τ Value) := by
  unfold length
  split
  · exact onValues_pure
  · refine onValues_store fun s t h => ?_
    rw [h.lists]
    exact onValues_pure
  · refine onValues_store fun s t h => ?_
    rw [h.maps]
    exact onValues_pure
  · exact onValues_fault rfl

theorem onValues_removeKey {ref : Ref .map} {key : Value} :
    OnValues L Halt.Sound (removeKey ref key : Eval σ Value)
      (removeKey ref key : Eval τ Value) := by
  unfold removeKey
  split
  · refine onValues_store fun s t h => ?_
    rw [h.maps]
    obtain ⟨⟨found, entries⟩, ht⟩ := Entries.exists_take_of_isKey (t.maps.get ref) ‹_›
    rw [ht]
    exact onValues_pure.bind fun _ => onValues_modifyMap.bind fun _ => onValues_pure
  · exact onValues_fault rfl

theorem onValues_popLast {ref : Ref .list} :
    OnValues L Halt.Sound (popLast ref : Eval σ Value) (popLast ref : Eval τ Value) := by
  refine onValues_store fun s t h => ?_
  rw [h.lists]
  dsimp only
  split
  · exact onValues_fault rfl
  · rename_i hne
    cases hb : (t.lists.get ref).back? with
    | none => exact absurd (by simpa [Array.back?_eq_none_iff] using hb) hne
    | some last => exact onValues_modifyList.bind fun _ => onValues_pure

/-- A native function that is called with as many arguments as it takes works on values only. -/
theorem onValues_call (depth : Nat) {f : Native} {arguments : List Value}
    (harity : arguments.length = f.arity) :
    OnValues L Halt.Sound (f.call depth arguments : Eval σ Value)
      (f.call depth arguments : Eval τ Value) := by
  cases f with
  | clock =>
    match arguments, harity with
    | [], _ => exact onValues_readClock
  | input =>
    match arguments, harity with
    | [_], _ =>
      exact (onValues_text trivial).bind fun _ => onValues_write.bind fun _ => onValues_readLine
  | len =>
    match arguments, harity with
    | [_], _ => exact onValues_length
  | pop =>
    match arguments, harity with
    | [_], _ => exact onValues_expectList.bind fun _ => onValues_popLast
  | contains =>
    match arguments, harity with
    | [_, _], _ =>
      refine onValues_expectMap.bind fun ref => onValues_store fun s t h => ?_
      rw [h.maps]
      exact onValues_pure
  | remove =>
    match arguments, harity with
    | [_, _], _ => exact onValues_expectMap.bind fun _ => onValues_removeKey
  | push =>
    match arguments, harity with
    | [_, _], _ =>
      exact onValues_expectList.bind fun _ => onValues_modifyList.bind fun _ => onValues_pure

end Native

/-- A call that has been noted is one of a value that takes as many arguments as there are. -/
theorem noteCall_pairs {L : Token → Token → Prop} {callee : Value} {arguments : List Value}
    {paren paren' : Token} (hp : L paren paren') {m : Machine σ} {n : Machine τ} (hmn : m.Alike n) :
    (noteCall callee arguments paren).Pairs (noteCall callee arguments paren') m n
      (fun _ _ m' n' => m.Stay n m' n' ∧ m'.store.arity? callee = some arguments.length)
      fun h k m' n' => Halt.Pairs L h k ∧ h.Placed ∧ m.Stay n m' n' := by
  have hstay : m.Stay n m n := ⟨.refl m, .refl n, hmn⟩
  refine Eval.pairs_bind (Eval.pairs_store.2 ?_)
  rw [← hmn.store.arity callee, ← hmn.store.calleeName callee]
  cases ha : m.store.arity? callee with
  | none => exact ⟨.placed hp, ⟨rfl, rfl⟩, hstay⟩
  | some arity =>
    dsimp only
    split
    · exact ⟨.placed hp, ⟨rfl, rfl⟩, hstay⟩
    · rename_i hlength
      rw [ne_eq, Decidable.not_not] at hlength
      have hnote : Eval.OnValues L Halt.Placed
          (do
            Eval.trace ["call", m.store.calleeName callee, "line", toString paren.line]
            Eval.pushCall (σ := σ) ⟨m.store.calleeName callee, arguments⟩)
          (do
            Eval.trace ["call", m.store.calleeName callee, "line", toString paren'.line]
            Eval.pushCall (σ := τ) ⟨m.store.calleeName callee, arguments⟩) :=
        Eval.onValues_trace.bind fun _ => Eval.onValues_pushCall
      refine (hnote m n hmn).mono (fun _ _ m' n' hs => ⟨hs.2, ?_⟩) fun _ _ _ _ h => h
      rw [hs.2.left.arity?, ha, hlength]

/-- A call is noted if the value takes as many arguments as there are, and is a fault if not. -/
theorem noteCall_eq (callee : Value) (arguments : List Value) (paren : Token) (m : Machine σ) :
    (m.store.arity? callee = some arguments.length ∧
      ∃ errors, (m.tracing = false → errors = m.errors) ∧ noteCall callee arguments paren m =
        .ok () { m with
          errors := errors, calls := ⟨m.store.calleeName callee, arguments⟩ :: m.calls }) ∨
    (m.store.arity? callee ≠ some arguments.length ∧ ∃ cause, noteCall callee arguments paren m =
      .error (.fault ⟨cause, some paren⟩) m) := by
  rw [noteCall, Eval.bind_of_ok (x := Eval.store) (a := m.store) (n := m) rfl]
  cases m.store.arity? callee with
  | none => exact .inr ⟨Option.some_ne_none _ ∘ Eq.symm, _, rfl⟩
  | some arity =>
    by_cases hlength : arguments.length = arity
    · obtain ⟨errors, herrors, htrace⟩ :=
        Eval.trace_eq m ["call", m.store.calleeName callee, "line", toString paren.line]
      refine .inl ⟨by rw [hlength], errors, herrors, ?_⟩
      simp only [ne_eq, hlength, not_true_eq_false, if_false]
      exact Eval.bind_of_ok htrace _
    · refine .inr ⟨fun h => hlength (Option.some.inj h).symm,
        .wrongArity arity arguments.length, ?_⟩
      simp only [ne_eq, hlength, not_false_eq_true, if_true]
      rfl

theorem noteCall_ends {callee : Value} {arguments : List Value} {paren : Token} (m : Machine σ) :
    (noteCall callee arguments paren).Ends m
      (fun _ n => m.SameCode n ∧ n.store.arity? callee = some arguments.length)
      fun h n => m.SameCode n ∧ h.Placed :=
  (noteCall_pairs (L := Eq) rfl (.refl m)).ends.mono (fun _ _ h => ⟨h.1.left, h.2⟩)
    fun _ _ h => ⟨h.2.2.left, h.2.1⟩

end LoxLang
