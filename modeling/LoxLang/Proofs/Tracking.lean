import LoxLang.Proofs.Jumps
import LoxLang.Proofs.Operations

/-!
# Runs with blocks in place of markers

A simulation may allow the second program to have an empty block where the first one has a marker
(`Simulation.Spares`). Both do nothing, but a block takes up a level of the stack more. So the runs
are in lockstep unless the second one uses up the stack (`Eval.Tracks`, `Simulation.run_tracks`),
and sessions in which it does not do so look the same (`Session.views_eq_of_tracks`).
-/

namespace LoxLang

open Dialogue

variable {σ τ : Scoping} {α β γ δ : Type}

namespace Eval

/-- The computation uses up the stack. -/
def Exhausts (x : Eval σ α) (m : Machine σ) : Prop := ∃ n, x m = .error .exhausted n

instance (x : Eval σ α) (m : Machine σ) : Decidable (x.Exhausts m) :=
  match h : x m with
  | .error .exhausted n => .isTrue ⟨n, h⟩
  | .error (.fault _) _ => .isFalse fun ⟨_, hn⟩ => by cases h.symm.trans hn
  | .error (.defect _) _ => .isFalse fun ⟨_, hn⟩ => by cases h.symm.trans hn
  | .error .unfinished _ => .isFalse fun ⟨_, hn⟩ => by cases h.symm.trans hn
  | .ok _ _ => .isFalse fun ⟨_, hn⟩ => by cases h.symm.trans hn

/-- The second computation uses up the stack, or both are in lockstep. -/
def Tracks (x : Eval σ α) (y : Eval τ β) (m : Machine σ) (n : Machine τ)
    (Q : α → β → Machine σ → Machine τ → Prop) (H : Halt → Halt → Machine σ → Machine τ → Prop) :
    Prop :=
  y.Exhausts n ∨ x.Pairs y m n Q H

variable {x : Eval σ α} {y : Eval τ β} {f : α → Eval σ γ} {g : β → Eval τ δ} {m : Machine σ}
  {n : Machine τ} {Q Q' : α → β → Machine σ → Machine τ → Prop}
  {H H' : Halt → Halt → Machine σ → Machine τ → Prop}

theorem Tracks.mono (h : x.Tracks y m n Q H) (hQ : ∀ a b m n, Q a b m n → Q' a b m n)
    (hH : ∀ h k m n, H h k m n → H' h k m n) : x.Tracks y m n Q' H' :=
  h.imp_right fun h => h.mono hQ hH

theorem Tracks.of_eq {x' : Eval σ α} {y' : Eval τ β} {m' : Machine σ} {n' : Machine τ}
    (h : x'.Tracks y' m' n' Q H) (hx : x m = x' m') (hy : y n = y' n') : x.Tracks y m n Q H :=
  h.imp (fun ⟨n₁, h⟩ => ⟨n₁, hy.trans h⟩) fun h => h.of_eq hx hy

theorem tracks_bind {Q : γ → δ → Machine σ → Machine τ → Prop}
    (h : x.Tracks y m n (fun a b m n => (f a).Tracks (g b) m n Q H) H) :
    (x >>= f).Tracks (y >>= g) m n Q H := by
  obtain ⟨n', hy⟩ | h := h
  · exact .inl ⟨n', bind_of_error hy g⟩
  · cases hy : y n with
    | ok b n' =>
      obtain ⟨a, m', hx, hrest⟩ := h.exists_of_ok hy
      exact hrest.of_eq (bind_of_ok hx f) (bind_of_ok hy g)
    | error k n' =>
      obtain ⟨why, m', hx, hH⟩ := h.exists_of_error hy
      right
      unfold Pairs
      rw [bind_of_error hx f, bind_of_error hy g]
      exact hH

/-- What comes of a computation, apart from the machine that it leaves. -/
def answer (x : Eval σ α) (m : Machine σ) : Except Halt α :=
  match x m with
  | .ok a _ => .ok a
  | .error why _ => .error why

/-- If the second computation does not use up the stack, the same comes of both. -/
theorem Tracks.answer_eq {x : Eval σ α} {y : Eval τ α} {P : Machine σ → Machine τ → Prop}
    (h : x.Tracks y m n (fun a b m n => a = b ∧ P m n) fun why why' m n => why = why' ∧ P m n)
    (hfits : ¬ y.Exhausts n) : x.answer m = y.answer n ∧ P (x.leaves m) (y.leaves n) := by
  have h := h.resolve_left hfits
  unfold answer
  cases hy : y n with
  | ok b n' =>
    obtain ⟨_, m', hx, rfl, hP⟩ := h.exists_of_ok hy
    rw [hx, leaves_of_ok hx, leaves_of_ok hy]
    exact ⟨rfl, hP⟩
  | error k n' =>
    obtain ⟨_, m', hx, rfl, hP⟩ := h.exists_of_error hy
    rw [hx, leaves_of_error hx, leaves_of_error hy]
    exact ⟨rfl, hP⟩

end Eval

namespace Dialogue

variable {P : Pact σ τ} {m : Machine σ} {n : Machine τ} {p : Dialogue σ α} {q : Dialogue τ β}
  {Q : α → β → Machine σ → Machine τ → Prop} {H : Halt → Halt → Machine σ → Machine τ → Prop}

/-- Dialogues end as they do by the pact as long as the second one does not use up the stack, if the
tasks do. -/
theorem Relates.tracks {self : (t : Task σ) → Eval σ t.Answer}
    {self' : (u : Task τ) → Eval τ u.Answer}
    (hself : ∀ g t u m n, P.before g t u m n →
      (self t).Tracks (self' u) m n (P.after g t u m n) (P.halts g t u m n))
    (h : p.Relates P q m n Q H) : (p.run self).Tracks (q.run self') m n Q H := by
  refine Relates.byStep (fun _ _ _ _ h => .inr h) (fun _ _ _ _ _ _ h => Eval.tracks_bind (.inr h))
    ?_ h
  exact fun g t u next next' m n hg hafter hhalts =>
    Eval.tracks_bind ((hself g t u m n hg).mono hafter hhalts)

end Dialogue

/-! ### Tasks -/

/-- A task uses up the stack if its body does. -/
theorem Task.run_exhausts {rounds depth : Nat} {t : Task σ} {m : Machine σ}
    (h : ((t.body rounds depth).run (Task.run rounds depth)).Exhausts (t.enter m)) :
    (Task.run rounds (depth + 1) t).Exhausts m := by
  obtain ⟨n, h⟩ := h
  refine ⟨t.leave m.scope n, ?_⟩
  rw [Task.run_of_error h]
  cases t <;> rfl

/-- Executing a marker leaves a note, if anything. -/
theorem Task.run_marker (rounds depth : Nat) (line : Int) (marker : Marker σ.Mark) (m : Machine σ) :
    ∃ errors, Task.run rounds (depth + 1) (.exec (.marker line marker)) m =
      .ok none { m with errors := errors } := by
  obtain ⟨errors, -, htrace⟩ := Eval.trace_eq m
    ["no-op statement", marker.keyword.text, "line", toString line]
  refine ⟨errors, Task.run_of_ok (t := .exec (.marker line marker)) ?_⟩
  exact Eval.bind_of_ok htrace _

/-- Executing an empty block leaves a scope that nothing sees. It takes two levels of the stack. -/
theorem Task.run_emptyBlock (rounds depth : Nat) (m : Machine σ) :
    Task.run rounds (depth + 2) (.exec (.block [])) m =
      .ok none { m with store := (m.store.enter m.scope []).2 } := by
  have hopen : (openBlock : Eval σ σ.Scope) m =
      .ok (m.store.enter m.scope []).1 { m with store := (m.store.enter m.scope []).2 } := rfl
  have hblock (inner : σ.Scope) (n : Machine σ) :
      Task.run rounds (depth + 1) (.block inner []) n = .ok none n := rfl
  refine Task.run_of_ok (t := .exec (.block [])) ((Eval.bind_of_ok hopen _).trans ?_)
  exact Eval.bind_of_ok (hblock _ _) _

variable {S : Simulation σ τ} {w : S.World} {p : S.Place} {o : S.Owner} {m : Machine σ}
  {n : Machine τ}

/-- A marker and an empty block leave machines that correspond. -/
theorem Machine.SimAt.follows_spared (hm : m.SimAt S w p o n) (hS : S.Spares) (errors : String) :
    m.Follows S none w n { m with errors := errors }
      { n with store := (n.store.enter n.scope []).2 } := by
  obtain ⟨w₁, hw, hmemory⟩ := S.spare hS hm.sim.store.memory hm.scopes
  have hstore := hm.sim.store.withMemory hw hmemory
  exact ⟨w₁, hw, ⟨hstore, hm.sim.calls, hm.sim.effects, hm.sim.input, hm.sim.clock⟩, rfl, rfl⟩

/-- An empty block is executed in place of a marker, if there is a level of the stack for it. -/
theorem Task.Spared.run_tracks (rounds depth : Nat) {g : S.Spot} {t : Task σ} {u : Task τ}
    (h : t.Spared u) (ht : S.pact.before g t u m n) :
    (Task.run rounds (depth + 1) t).Tracks (Task.run rounds (depth + 1) u) m n
      (S.pact.after g t u m n) (S.pact.halts g t u m n) := by
  have hS := h.spares ht
  obtain ⟨line, marker, rfl, rfl⟩ := h
  cases depth with
  | zero => exact .inl ⟨_, rfl⟩
  | succ depth =>
    obtain ⟨errors, hleft⟩ := Task.run_marker rounds (depth + 1) line marker m
    have hm : m.SimAt S g.world g.place g.owner n := ⟨ht.1, ht.2.2⟩
    right
    unfold Eval.Pairs
    rw [hleft, Task.run_emptyBlock rounds depth n]
    exact ⟨.none, .inl ⟨rfl, hm.follows_spared hS errors⟩⟩

/-- **Simulated runs are in lockstep,** unless the second one uses up the stack. -/
theorem Simulation.run_tracks (rounds depth : Nat) {g : S.Spot} {t : Task σ} {u : Task τ}
    (ht : S.pact.before g t u m n) :
    (Task.run rounds depth t).Tracks (Task.run rounds depth u) m n (S.pact.after g t u m n)
      (S.pact.halts g t u m n) := by
  induction depth generalizing g t u m n with
  | zero => exact .inl ⟨n, rfl⟩
  | succ depth ih =>
    by_cases hspared : t.Spared u
    · exact hspared.run_tracks rounds depth ht
    · obtain hbody | hbody :=
        (Task.relates_body rounds depth ht hspared).tracks fun _ _ _ _ _ hg => ih hg
      · exact .inl (Task.run_exhausts hbody)
      · exact .inr (Task.run_pairs hbody)

/-! ### Sessions -/

namespace Session

/-- Programs that correspond have the same reports, unless the second one uses up the stack. -/
theorem runBound_tracks (limits : Limits) (hS : ∀ t u, S.AnyTokens t u → t = u) (hp : S.Stays p)
    {program : Program σ.Mark} {program' : Program τ.Mark} (hm : m.SimAt S w p o n)
    (h : Stmt.AllSim S p program program') :
    (runBound limits program).Tracks (runBound limits program') m n
      (fun r r' m' n' => r = r' ∧ ∃ w₁, m'.SimAt S w₁ p o n')
      fun why why' m' n' => why = why' ∧ ∃ w₁, m'.SimAt S w₁ p o n' := by
  have hrun := (Program.relates_body hp hm h).tracks
    fun _ _ _ _ _ hg => Simulation.run_tracks limits.rounds limits.depth hg
  obtain ⟨n', hright⟩ | hrun := hrun
  · exact .inl ⟨n', runBound_of_halt limits hright (by simp)⟩
  · exact .inr (runBound_pairs_of_run limits hS hrun)

variable {globals : σ.Memory → Frame} {globals' : τ.Memory → Frame} {levels : Nat}

theorem views_cons (run : String → Eval σ Report) (text : String) (texts : List String)
    (m : Machine σ) :
    views globals levels run (text :: texts) m =
      view globals levels ((run text).answer m) ((run text).leaves m) ::
        views globals levels run texts ((run text).leaves m) := by
  rw [views, Eval.answer, Eval.leaves]
  cases run text m <;> rfl

/-- None of the texts uses up the stack. -/
def Fits (run : String → Eval σ Report) : List String → Machine σ → Prop
  | [], _ => True
  | text :: texts, m => ¬ (run text).Exhausts m ∧ Fits run texts ((run text).leaves m)

instance decidableFits (run : String → Eval σ Report) :
    (texts : List String) → (m : Machine σ) → Decidable (Fits run texts m)
  | [], _ => instDecidableTrue
  | _ :: texts, _ => @instDecidableAnd _ _ instDecidableNot (decidableFits run texts _)

/-- **Sessions look the same** if each text is tracked and the second session fits into the stack;
and the machines correspond after every text. -/
theorem views_eq_of_tracks {run : String → Eval σ Report} {run' : String → Eval τ Report}
    {texts texts' : List String}
    (hglobals : ∀ w mem mem', S.Memories w mem mem' → globals mem = globals' mem')
    (hrun : List.Forall₂ (fun text text' => ∀ w m n, m.SimAt S w p o n →
      (run text).Tracks (run' text') m n
        (fun r r' m' n' => r = r' ∧ ∃ w₁, m'.SimAt S w₁ p o n')
        fun why why' m' n' => why = why' ∧ ∃ w₁, m'.SimAt S w₁ p o n') texts texts')
    (hm : m.SimAt S w p o n) (hfits : Fits run' texts' n) :
    views globals levels run texts m = views globals' levels run' texts' n ∧
      ∀ count, ∃ w₁,
        (leaves run (texts.take count) m).SimAt S w₁ p o (leaves run' (texts'.take count) n) := by
  induction hrun generalizing m n w with
  | nil =>
    refine ⟨rfl, fun count => ⟨w, ?_⟩⟩
    rw [List.take_nil]
    exact hm
  | @cons text text' texts texts' htext _ ih =>
    obtain ⟨hanswer, w₁, hm₁⟩ := (htext w m n hm).answer_eq hfits.1
    obtain ⟨hviews, hleaves⟩ := ih hm₁ hfits.2
    refine ⟨?_, fun count => ?_⟩
    · rw [views_cons, views_cons, hanswer, view_eq hglobals _ hm₁.sim, hviews]
    · cases count with
      | zero => exact ⟨w, hm⟩
      | succ count => exact hleaves count

end Session

end LoxLang
