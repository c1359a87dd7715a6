import LoxLang.Proofs.Lines
import LoxLang.Proofs.Marks
import LoxLang.Proofs.Reports
import LoxLang.Proofs.Unmarking

/-!
# Where tokens come from

A run can blame a token only if it is part of the program that is run, or of a function that is left
from a text before. `Simulation.relines` compares two runs in which the program of one text is on
different lines and all else is the same, and it keeps account of the texts that tokens are from. A
program that has been read and bound corresponds to itself on other lines (`Program.sim_mapLines`),
and so does a machine between two texts to itself (`Session.selfSim_relines`).
-/

namespace LoxLang

variable {β γ : Type}

/-! ### Marks are not written -/

section

variable (mark : β → γ)

mutual

theorem Expr.parts_mapMarks (e : Expr β) : (e.mapMarks mark).parts = e.parts := by
  cases e with
  | constant => rfl
  | group inner => simp only [mapMarks, parts, inner.parts_mapMarks]
  | unary op line operand => simp only [mapMarks, parts, operand.parts_mapMarks]
  | binary left op line right =>
    simp only [mapMarks, parts, left.parts_mapMarks, right.parts_mapMarks]
  | logical left op line right =>
    simp only [mapMarks, parts, left.parts_mapMarks, right.parts_mapMarks]
  | var => rfl
  | assign name value use => simp only [mapMarks, parts, value.parts_mapMarks]
  | call callee arguments line =>
    simp only [mapMarks, parts, callee.parts_mapMarks, eachParts_mapMarks arguments]
  | list elements line => simp only [mapMarks, parts, eachParts_mapMarks elements]
  | map entries line => simp only [mapMarks, parts, entryParts_mapMarks entries]
  | index container position line =>
    simp only [mapMarks, parts, container.parts_mapMarks, position.parts_mapMarks]
  | setIndex container position value line =>
    simp only [mapMarks, parts, container.parts_mapMarks, position.parts_mapMarks,
      value.parts_mapMarks]
  | get object name => simp only [mapMarks, parts, object.parts_mapMarks]
  | set object name value =>
    simp only [mapMarks, parts, object.parts_mapMarks, value.parts_mapMarks]
  | thisRef => rfl
  | superRef => rfl

theorem Expr.eachParts_mapMarks (es : List (Expr β)) :
    eachParts (mapAllMarks mark es) = eachParts es := by
  cases es with
  | nil => rfl
  | cons e es => simp only [mapAllMarks, eachParts, e.parts_mapMarks, eachParts_mapMarks es]

theorem Expr.entryParts_mapMarks (entries : List (Expr β × Expr β)) :
    entryParts (mapEntryMarks mark entries) = entryParts entries := by
  cases entries with
  | nil => rfl
  | cons entry entries =>
    obtain ⟨key, value⟩ := entry
    simp only [mapEntryMarks, entryParts, key.parts_mapMarks, value.parts_mapMarks,
      entryParts_mapMarks entries]

end

theorem Marker.parts_mapMarks (m : Marker β) : (m.mapMarks mark).parts = m.parts := by
  cases m <;> simp only [mapMarks, parts, Expr.parts_mapMarks, Expr.eachParts_mapMarks]

mutual

theorem Stmt.parts_mapMarks (s : Stmt β) : (s.mapMarks mark).parts = s.parts := by
  cases s with
  | var name initializer =>
    cases initializer <;>
      simp only [Stmt.mapMarks, Option.map_none, Option.map_some, Stmt.parts, Expr.parts_mapMarks]
  | block body => simp only [Stmt.mapMarks, Stmt.parts, Stmt.allParts_mapMarks body]
  | branch condition yes no =>
    cases no with
    | none => simp only [Stmt.mapMarks, Stmt.parts, Expr.parts_mapMarks, yes.parts_mapMarks]
    | some no =>
      simp only [Stmt.mapMarks, Stmt.parts, Expr.parts_mapMarks, yes.parts_mapMarks,
        no.parts_mapMarks]
  | whileLoop condition body =>
    simp only [Stmt.mapMarks, Stmt.parts, Expr.parts_mapMarks, body.parts_mapMarks]
  | doWhile body condition =>
    simp only [Stmt.mapMarks, Stmt.parts, Expr.parts_mapMarks, body.parts_mapMarks]
  | returnValue line value =>
    cases value <;>
      simp only [Stmt.mapMarks, Option.map_none, Option.map_some, Stmt.parts, Expr.parts_mapMarks]
  | function decl => simp only [Stmt.mapMarks, Stmt.parts, decl.parts_mapMarks]
  | classDecl name superclass methods =>
    rcases superclass with _ | ⟨parent, use⟩ <;>
      simp only [Stmt.mapMarks, Option.map_none, Option.map_some, Stmt.parts,
        Function.allParts_mapMarks methods]
  | marker line m =>
    have hkeyword : (m.mapMarks mark).keyword = m.keyword := by cases m <;> rfl
    simp only [Stmt.mapMarks, Stmt.parts, m.parts_mapMarks, hkeyword]
  | _ => simp only [Stmt.mapMarks, Stmt.parts, Expr.parts_mapMarks]

theorem Stmt.allParts_mapMarks (ss : List (Stmt β)) :
    Stmt.allParts (Stmt.mapAllMarks mark ss) = Stmt.allParts ss := by
  cases ss with
  | nil => rfl
  | cons s ss =>
    simp only [Stmt.mapAllMarks, Stmt.allParts, s.parts_mapMarks, Stmt.allParts_mapMarks ss]

theorem Function.parts_mapMarks (decl : Function β) : (decl.mapMarks mark).parts = decl.parts := by
  obtain ⟨name, params, body⟩ := decl
  simp only [Function.mapMarks, Function.parts, Stmt.allParts_mapMarks body]

theorem Function.allParts_mapMarks (decls : List (Function β)) :
    Function.allParts (Function.mapAllMarks mark decls) = Function.allParts decls := by
  cases decls with
  | nil => rfl
  | cons decl decls =>
    simp only [Function.mapAllMarks, Function.allParts, decl.parts_mapMarks,
      Function.allParts_mapMarks decls]

end

end

/-- A program that has been read and bound without a report tells of tokens of its text. -/
theorem Program.within_resolve {text : String} (h : (Source.ofText text).diagnostics = []) :
    Part.Within (· ∈ (Scan.ofText text).tokens) (Session.program text).parts := by
  obtain ⟨-, hread⟩ := List.append_eq_nil_iff.1 h
  obtain ⟨-, hspells⟩ := Source.found_ofTokens _ hread
  have hforget : Program.mapMarks (fun _ => ()) (Session.program text) =
      (Source.ofText text).program := Program.forget_resolveWith _
  have hparts : (Session.program text).parts = (Source.ofText text).program.parts := by
    conv_rhs => rw [← hforget]
    exact (Stmt.allParts_mapMarks _ _).symm
  rw [hparts]
  exact Spans.within hspells

/-! ### Trees on other lines -/

section

variable {ι : Type} {M : Marking ι} {clean : ι → Prop}

/-- At the place, the simulation relates programs on lines that are changed by `f` to the same
programs on lines that are changed by `g`, as long as they tell of the given tokens. -/
structure Simulation.Relines (S : Simulation M.scoping M.scoping) (p : S.Place)
    (tokens : Token → Prop) (f g : Int → Int) : Prop where
  tokens : ∀ t, tokens t → S.Tokens p (t.mapLine f) (t.mapLine g)
  uses : ∀ use x mark, S.Uses p use x x mark mark
  declares : ∀ x, S.Declares p x x p
  enters : ∀ xs, S.Enters p xs xs p

variable {S : Simulation M.scoping M.scoping} {p : S.Place} {tokens : Token → Prop}
  {f g : Int → Int}

open LoxLang.Part (Within)

mutual

theorem Expr.sim_mapLines (hS : S.Relines p tokens f g) (e : Expr M.Mark)
    (he : Within tokens e.parts) : (e.mapLines f).Sim S p (e.mapLines g) := by
  match e with
  | .constant value => exact .constant
  | .group inner =>
    exact .group (inner.sim_mapLines hS (by simpa [parts] using he))
  | .unary op line operand =>
    obtain ⟨hop, ho⟩ : tokens (.ofSymbol op.symbol line) ∧ Within tokens operand.parts := by
      simpa [parts] using he
    exact .unary (operand.sim_mapLines hS ho) (hS.tokens _ hop)
  | .binary left op line right =>
    obtain ⟨hl, hop, hr⟩ : Within tokens left.parts ∧ tokens (.ofSymbol op.symbol line) ∧
        Within tokens right.parts := by
      simpa [parts] using he
    exact .binary (left.sim_mapLines hS hl) (right.sim_mapLines hS hr) (hS.tokens _ hop)
  | .logical left op line right =>
    -- No run blames the operator, and so its token does not have to correspond.
    obtain ⟨hl, -, hr⟩ : Within tokens left.parts ∧ tokens (.ofKeyword op.keyword line) ∧
        Within tokens right.parts := by
      simpa [parts] using he
    exact .logical (left.sim_mapLines hS hl) (right.sim_mapLines hS hr)
  | .var name mark =>
    have hn : tokens name.token := by simpa [parts] using he
    exact .var (hS.uses _ _ _) (hS.tokens _ hn)
  | .assign name value mark =>
    obtain ⟨hn, hv⟩ : tokens name.token ∧ Within tokens value.parts := by
      simpa [parts] using he
    exact .assign (value.sim_mapLines hS hv) (hS.uses _ _ _) (hS.tokens _ hn)
  | .call callee arguments line =>
    obtain ⟨hc, ha, hp⟩ : Within tokens callee.parts ∧
        (∀ ps ∈ eachParts arguments, Within tokens ps) ∧ tokens (.ofSymbol .rightParen line) := by
      simpa [parts] using he
    exact .call (callee.sim_mapLines hS hc) (Expr.allSim_mapLines hS arguments ha) (hS.tokens _ hp)
  | .list elements line =>
    obtain ⟨-, hes⟩ : tokens (.ofSymbol .leftBracket line) ∧
        ∀ ps ∈ eachParts elements, Within tokens ps := by
      simpa [parts] using he
    exact .list (Expr.allSim_mapLines hS elements hes)
  | .map entries line =>
    obtain ⟨hb, hes⟩ : tokens (.ofSymbol .leftBrace line) ∧
        ∀ ps ∈ entryParts entries, Within tokens ps := by
      simpa [parts] using he
    have hentries := Expr.entrySim_mapLines hS entries hes
    exact .map hentries.1 hentries.2 (hS.tokens _ hb)
  | .index container position line =>
    obtain ⟨hc, hb, hi⟩ : Within tokens container.parts ∧ tokens (.ofSymbol .leftBracket line) ∧
        Within tokens position.parts := by
      simpa [parts] using he
    exact .index (container.sim_mapLines hS hc) (position.sim_mapLines hS hi) (hS.tokens _ hb)
  | .setIndex container position value line =>
    obtain ⟨hc, hb, hi, hv⟩ : Within tokens container.parts ∧
        tokens (.ofSymbol .leftBracket line) ∧ Within tokens position.parts ∧
          Within tokens value.parts := by
      simpa [parts] using he
    exact .setIndex (container.sim_mapLines hS hc) (position.sim_mapLines hS hi)
      (value.sim_mapLines hS hv) (hS.tokens _ hb)
  | .get object name =>
    obtain ⟨ho, hn⟩ : Within tokens object.parts ∧ tokens name.token := by
      simpa [parts] using he
    exact .get (object.sim_mapLines hS ho) rfl (hS.tokens _ hn)
  | .set object name value =>
    obtain ⟨ho, hn, hv⟩ : Within tokens object.parts ∧ tokens name.token ∧
        Within tokens value.parts := by
      simpa [parts] using he
    exact .set (object.sim_mapLines hS ho) (value.sim_mapLines hS hv) rfl (hS.tokens _ hn)
  | .thisRef line mark =>
    have ht : tokens (.ofKeyword .thisWord line) := by simpa [parts] using he
    exact .thisRef (hS.uses _ _ _) (hS.tokens _ ht)
  | .superRef line method mark =>
    obtain ⟨-, hn⟩ : tokens (.ofKeyword .superWord line) ∧ tokens method.token := by
      simpa [parts] using he
    exact .superRef (hS.uses _ _ _) rfl (hS.tokens _ hn)

theorem Expr.allSim_mapLines (hS : S.Relines p tokens f g) (es : List (Expr M.Mark))
    (hes : ∀ ps ∈ eachParts es, Within tokens ps) :
    List.Forall₂ (Expr.Sim S p) (mapAllLines f es) (mapAllLines g es) := by
  match es with
  | [] => exact .nil
  | e :: es =>
    obtain ⟨he, hes⟩ := List.forall_mem_cons.1 hes
    exact .cons (e.sim_mapLines hS he) (Expr.allSim_mapLines hS es hes)

theorem Expr.entrySim_mapLines (hS : S.Relines p tokens f g)
    (entries : List (Expr M.Mark × Expr M.Mark))
    (hes : ∀ ps ∈ entryParts entries, Within tokens ps) :
    List.Forall₂ (Expr.Sim S p) ((mapEntryLines f entries).map Prod.fst)
        ((mapEntryLines g entries).map Prod.fst) ∧
      List.Forall₂ (Expr.Sim S p) ((mapEntryLines f entries).map Prod.snd)
        ((mapEntryLines g entries).map Prod.snd) := by
  match entries with
  | [] => exact ⟨.nil, .nil⟩
  | (key, value) :: entries =>
    obtain ⟨he, hes⟩ := List.forall_mem_cons.1 hes
    obtain ⟨hk, hv⟩ : Within tokens key.parts ∧ Within tokens value.parts := by simpa using he
    have hentries := Expr.entrySim_mapLines hS entries hes
    exact ⟨.cons (key.sim_mapLines hS hk) hentries.1, .cons (value.sim_mapLines hS hv) hentries.2⟩

end

mutual

/-- A bound statement on some lines corresponds to the same one on others. -/
theorem Stmt.sim_mapLines (hS : S.Relines p tokens f g) {site : Site ι} {s : Stmt M.Mark}
    (hs : s.BoundAt M clean site) (ht : Within tokens s.parts) :
    Stmt.Sim S p (s.mapLines f) (s.mapLines g) p := by
  match s with
  | .expression value =>
    exact .expression (value.sim_mapLines hS (by simpa [Stmt.parts] using ht))
  | .print value => exact .print (value.sim_mapLines hS (by simpa [Stmt.parts] using ht))
  | .var name none => exact .var .none (hS.declares _)
  | .var name (some value) =>
    obtain ⟨-, hv⟩ : tokens name.token ∧ Within tokens value.parts := by
      simpa [Stmt.parts] using ht
    exact .var (.some (value.sim_mapLines hS hv)) (hS.declares _)
  | .block body =>
    exact .block (hS.enters []) (Stmt.allSim_mapLines hS hs (by simpa [Stmt.parts] using ht))
  | .branch condition yes none =>
    obtain ⟨-, hyes, hyn⟩ := hs
    obtain ⟨hc, hy⟩ : Within tokens condition.parts ∧ Within tokens yes.parts := by
      simpa [Stmt.parts] using ht
    exact .when (condition.sim_mapLines hS hc) (Stmt.sim_mapLines hS hyes hy) (by simp [hyn])
  | .branch condition yes (some no) =>
    obtain ⟨-, hyes, hyn, hno, hnn⟩ := hs
    obtain ⟨hc, hy, hn⟩ : Within tokens condition.parts ∧ Within tokens yes.parts ∧
        Within tokens no.parts := by
      simpa [Stmt.parts] using ht
    exact .branch (condition.sim_mapLines hS hc) (Stmt.sim_mapLines hS hyes hy) (by simp [hyn])
      (Stmt.sim_mapLines hS hno hn) (by simp [hnn])
  | .whileLoop condition body =>
    obtain ⟨-, hbody, hbn⟩ := hs
    obtain ⟨hc, hb⟩ : Within tokens condition.parts ∧ Within tokens body.parts := by
      simpa [Stmt.parts] using ht
    exact .whileLoop (condition.sim_mapLines hS hc) (Stmt.sim_mapLines hS hbody hb) (by simp [hbn])
  | .doWhile body condition =>
    obtain ⟨-, hbody, hbn⟩ := hs
    obtain ⟨hb, hc⟩ : Within tokens body.parts ∧ Within tokens condition.parts := by
      simpa [Stmt.parts] using ht
    exact .doWhile (condition.sim_mapLines hS hc) (Stmt.sim_mapLines hS hbody hb) (by simp [hbn])
  | .breakLoop line =>
    have hb : tokens (.ofKeyword .breakWord line) := by simpa [Stmt.parts] using ht
    exact .breakLoop (hS.tokens _ hb)
  | .continueLoop line =>
    have hc : tokens (.ofKeyword .continueWord line) := by simpa [Stmt.parts] using ht
    exact .continueLoop (hS.tokens _ hc)
  | .returnValue line none =>
    have hr : tokens (.ofKeyword .returnWord line) := by simpa [Stmt.parts] using ht
    exact .returnValue .none (hS.tokens _ hr)
  | .returnValue line (some value) =>
    obtain ⟨hr, hv⟩ : tokens (.ofKeyword .returnWord line) ∧ Within tokens value.parts := by
      simpa [Stmt.parts] using ht
    exact .returnValue (.some (value.sim_mapLines hS hv)) (hS.tokens _ hr)
  | .function ⟨name, params, body⟩ =>
    exact .function (hS.declares _)
      (Function.sim_mapLines hS hs.2.2 (by simpa [Stmt.parts] using ht))
  | .classDecl name none methods =>
    obtain ⟨-, -, hmethods⟩ := hs
    obtain ⟨-, hm⟩ : tokens name.token ∧ Within tokens (Function.allParts methods) := by
      simpa [Stmt.parts] using ht
    exact .classDecl rfl (hS.declares _) .none rfl (hS.enters _)
      (Function.allSim_mapLines hS hmethods hm)
  | .classDecl name (some (parent, mark)) methods =>
    obtain ⟨-, -, -, -, hmethods⟩ := hs
    obtain ⟨-, hp, hm⟩ : tokens name.token ∧ tokens parent.token ∧
        Within tokens (Function.allParts methods) := by
      simpa [Stmt.parts] using ht
    exact .classDecl rfl (hS.declares _) (.some ⟨hS.uses _ _ _, hS.tokens _ hp⟩) (hS.enters _)
      (hS.enters _) (Function.allSim_mapLines hS hmethods hm)
  | .marker line m => exact .marker

theorem Stmt.allSim_mapLines (hS : S.Relines p tokens f g) {site : Site ι}
    {ss : List (Stmt M.Mark)} (hs : Stmt.AllBoundAt M clean site ss)
    (ht : Within tokens (Stmt.allParts ss)) :
    Stmt.AllSim S p (Stmt.mapAllLines f ss) (Stmt.mapAllLines g ss) := by
  match ss with
  | [] => exact .nil
  | s :: ss =>
    obtain ⟨hfirst, hrest⟩ : Within tokens s.parts ∧ Within tokens (Stmt.allParts ss) := by
      simpa [Stmt.allParts] using ht
    exact .cons (Stmt.sim_mapLines hS hs.1 hfirst) (Stmt.allSim_mapLines hS hs.2 hrest)

theorem Function.sim_mapLines (hS : S.Relines p tokens f g) {site : Site ι}
    {decl : Function M.Mark} (hd : decl.BoundAt M clean site) (ht : Within tokens decl.parts) :
    Function.Sim S p (decl.mapLines f) (decl.mapLines g) := by
  match decl with
  | ⟨name, params, body⟩ =>
    have hparams (f : Int → Int) : (params.map (Name.mapLine f)).map Name.text =
        params.map Name.text := by
      simp
    obtain ⟨-, -, hb⟩ : tokens name.token ∧ (∀ ps ∈ Name.eachParts params, Within tokens ps) ∧
        Within tokens (Stmt.allParts body) := by
      simpa [Function.parts] using ht
    have henters := hS.enters (params.map Name.text)
    refine .intro rfl (by simp) ?_ (Stmt.allSim_mapLines hS hd.2.2 hb)
    rwa [hparams f, hparams g]

theorem Function.allSim_mapLines (hS : S.Relines p tokens f g) {site : Site ι}
    {decls : List (Function M.Mark)} (hd : Function.AllBoundAt M clean site decls)
    (ht : Within tokens (Function.allParts decls)) :
    Function.AllSim S p (Function.mapAllLines f decls) (Function.mapAllLines g decls) := by
  match decls with
  | [] => exact .nil
  | decl :: decls =>
    obtain ⟨hfirst, hrest⟩ : Within tokens decl.parts ∧
        Within tokens (Function.allParts decls) := by
      simpa [Function.allParts] using ht
    exact .cons (Function.sim_mapLines hS hd.1 hfirst) (Function.allSim_mapLines hS hd.2 hrest)

end

end

/-! ### Machines that correspond to themselves -/

section

variable {σ : Scoping} {S : Simulation σ σ} {p : S.Place} {o : S.Owner} {m n : Machine σ}

variable (S) in
/-- The machine corresponds to itself at the place. -/
def Machine.SelfSim (p : S.Place) (o : S.Owner) (m : Machine σ) : Prop := ∃ w, m.SimAt S w p o m

/-- Only variables, code and the current scope matter. -/
theorem Machine.SelfSim.sameCode (h : m.SelfSim S p o) (hmn : m.SameCode n) : n.SelfSim S p o := by
  obtain ⟨w, hm⟩ := h
  obtain ⟨hmemory, hfunctions, hclasses, hscope⟩ := hmn
  have hstore := hm.sim.store
  refine ⟨w, ⟨⟨?_, rfl, rfl, rfl, rfl, ?_, rfl, ?_⟩, rfl, rfl, rfl, rfl⟩, ?_⟩
  · exact hmemory ▸ hstore.memory
  · exact hfunctions ▸ hstore.functions
  · exact hclasses ▸ hstore.classes
  · exact hscope ▸ hm.current

/-- A program that corresponds to itself leaves a machine that does. -/
theorem Session.selfSim_runBound [S.Lockstep] (hp : S.Stays p) (limits : Limits)
    {program : Program σ.Mark}
    (hprogram : Stmt.AllSim S p program program) (hm : m.SelfSim S p o) :
    (runBound limits program).Ends m (fun _ n => n.SelfSim S p o) fun _ n => n.SelfSim S p o := by
  obtain ⟨w, hm⟩ := hm
  have hrun := ((S.pact_kept limits.rounds).program_run limits.depth
    (Program.relates_body hp hm hprogram)).ends
  refine ends_runBound limits (hrun.mono ?_ ?_)
  · rintro v n ⟨-, w₁, -, hn⟩
    exact (report_ends (.success v) n).mono (fun _ _ h => h.2 ▸ ⟨w₁, hn⟩) fun _ _ h => h.elim
  · rintro why n ⟨-, w₁, -, hn⟩
    have hn : n.SelfSim S p o := ⟨w₁, hn⟩
    cases why with
    | fault f =>
      exact (reportFault_ends limits.depth f n).mono (fun _ _ h => hn.sameCode h.2.2)
        fun _ _ h => hn.sameCode h.2
    | _ => exact hn

end

namespace Session

variable {S : Simulation .bound .bound} {p : S.Place} {o : S.Owner} {m : Machine .bound}

theorem selfSim_run [S.Lockstep] (hp : S.Stays p) (limits : Limits) {text : String}
    (hprogram : Accepts text → Stmt.AllSim S p (program text) (program text))
    (hm : m.SelfSim S p o) :
    (run limits text).Ends m (fun _ n => n.SelfSim S p o) fun _ n => n.SelfSim S p o := by
  have hcleared (errors : String) : (m.cleared errors).SelfSim S p o :=
    hm.sameCode ⟨rfl, rfl, rfl, rfl⟩
  by_cases haccepts : Accepts text
  · obtain ⟨errors, hrun⟩ := run_of_accepted limits haccepts m
    exact .of_eq (selfSim_runBound hp limits (hprogram haccepts) (hcleared errors)) hrun
  · obtain ⟨diagnostics, errors, -, hrun⟩ := run_of_not_accepts limits haccepts m
    exact .of_eq ((reject_ends diagnostics (m.cleared errors)).mono
      (fun _ _ h => (hcleared errors).sameCode h.2) fun _ _ h => h.elim) hrun

theorem selfSim_leaves [S.Lockstep] (hp : S.Stays p) (limits : Limits) {texts : List String}
    (hprogram : ∀ text ∈ texts, Accepts text → Stmt.AllSim S p (program text) (program text))
    (hm : m.SelfSim S p o) :
    (leaves (run limits) texts m).SelfSim S p o := by
  induction texts generalizing m with
  | nil => exact hm
  | cons text texts ih =>
    refine ih (fun t ht => hprogram t (List.mem_cons_of_mem _ ht)) ?_
    have hends := selfSim_run hp limits (hprogram text List.mem_cons_self) hm
    exact (hends.mono (fun _ _ h => h) fun _ _ h => And.intro h trivial).leaves

end Session

/-! ### One text on other lines -/

/-- Whether code is from the text that is moved or from one before it. -/
inductive Origin where
  | earlier
  | moved

namespace Simulation

variable (old new : Token → Prop) (f g : Int → Int)

/-- Runs that are the same but for the lines of one text. Its tokens are `new`, and those of the
texts before it are `old`. -/
def relines : Simulation .bound .bound :=
  .inFrames (.plain : Marking Unit) Origin.earlier fun
    | .earlier, t, u => old t ∧ u = t
    | .moved, t, u => ∃ s, new s ∧ t = s.mapLine f ∧ u = s.mapLine g

instance : (relines old new f g).Lockstep := ⟨id⟩

theorem stays_relines (p : Origin) : (relines old new f g).Stays p := fun _ _ _ h => h.2

theorem relines_earlier :
    Relines (M := (.plain : Marking Unit)) (relines old new f g) Origin.earlier old id id where
  tokens _ ht := ⟨ht, rfl⟩
  uses _ _ _ := ⟨rfl, rfl⟩
  declares _ := ⟨rfl, rfl⟩
  enters _ := ⟨rfl, rfl⟩

theorem relines_moved :
    Relines (M := (.plain : Marking Unit)) (relines old new f g) Origin.moved new f g where
  tokens t ht := ⟨t, ht, rfl, rfl⟩
  uses _ _ _ := ⟨rfl, rfl⟩
  declares _ := ⟨rfl, rfl⟩
  enters _ := ⟨rfl, rfl⟩

end Simulation

/-- A text that is accepted has a program that corresponds to itself on other lines. -/
theorem Program.sim_mapLines {text : String} (haccepts : Session.Accepts text)
    {S : Simulation .bound .bound} {p : S.Place} {tokens : Token → Prop} {f g : Int → Int}
    (hS : Simulation.Relines (M := (.plain : Marking Unit)) S p tokens f g)
    (htokens : ∀ t ∈ (Scan.ofText text).tokens, tokens t) :
    Stmt.AllSim S p ((Session.program text).mapLines f) ((Session.program text).mapLines g) := by
  have hbound : Stmt.AllBoundAt (.plain : Marking Unit) (fun _ => True) (.top ())
      (Session.program text) :=
    Program.boundAt_resolveWith (Source.proper_ofText text) fun _ => haccepts.2
  have hwithin := Program.within_resolve haccepts.1
  exact Stmt.allSim_mapLines hS hbound fun w line excess hmem hw =>
    htokens _ (hwithin w line excess hmem hw)

/-- After any texts, all code that there is has tokens of those texts. -/
theorem Session.selfSim_relines (limits : Limits) (natives : List Native) (input : List String)
    (output : Option String) (tracing : Bool) (clock : Clock) {texts : List String}
    {old new : Token → Prop} {f g : Int → Int}
    (hold : ∀ text ∈ texts, ∀ t ∈ (Scan.ofText text).tokens, old t) :
    (leaves (run limits) texts (.start natives input output tracing clock)).SelfSim
      (.relines old new f g) Origin.earlier () := by
  refine selfSim_leaves (Simulation.stays_relines old new f g _) limits
    (fun text htext haccepts => ?_) ?_
  · have hsim := Program.sim_mapLines haccepts (Simulation.relines_earlier old new f g)
      (hold text htext)
    rwa [Program.mapLines_id] at hsim
  · exact ⟨(), ⟨⟨Store.sim_ofMemory rfl, rfl, rfl, rfl, rfl⟩, rfl, List.cons_ne_nil _ _⟩⟩

end LoxLang
