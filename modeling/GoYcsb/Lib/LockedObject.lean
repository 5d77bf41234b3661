import GoYcsb.Lib.Locks

/-!
This module contains the rule by which calls that run in locked sections are shown to be linearizable: it is enough to
explain each section as the moment of its call, or as one of the sections before it.
-/

namespace Locks

open Threads AtomicObject

variable {W ι σ C R : Type} [DecidableEq W] [DecidableEq ι]

abbrev Explains (W ι σ C R : Type) := W → C → Prog ι σ R → Observed.Config W C R (ι → σ) → Prop

/--
`explains` is what is known about a call that has not had its moment yet, with `rest` ahead of it. It is known from the
invocation on, and it stays so while other threads go on. A section is the moment of the call, or the call goes on with
the cells as they are.
-/
structure Explanation (prog : C → Prog ι σ R) (allowed : C → Prop) (spec : Spec C R (ι → σ)) (obj : ι → σ)
    (explains : Explains W ι σ C R) : Prop where
  invoke : ∀ cfg w call, Observed.Reachable spec obj cfg → cfg.phase w = .idle → allowed call →
    explains w call (prog call) (cfg.invoke w call)
  other : ∀ cfg cfg' w w' call rest, Observed.Reachable spec obj cfg → explains w call rest cfg → w ≠ w' →
    Observed.Step spec w' cfg cfg' → explains w call rest cfg'
  running : ∀ cfg w call out, ¬ explains w call (.done out) cfg
  next : ∀ cfg w call seen rest rest' cell, Observed.Reachable spec obj cfg → cfg.phase w = .pending call seen →
    explains w call rest cfg → runSection rest cfg.obj = some (rest', cell) →
    (∃ res, rest' = .done (.ret res) ∧ spec cfg.obj call res cell)
      ∨
    (∃ res o, rest' = .done (.ret res) ∧ cell = cfg.obj ∧ seen o ∧ spec o call res o)
      ∨
    (cell = cfg.obj ∧ explains w call rest' cfg)

inductive Matches (explains : Explains W ι σ C R) (cfg : Observed.Config W C R (ι → σ)) (w : W)
    : LockThread ι σ C R → Observed.Phase C R (ι → σ) → Prop where
  | idle : Matches explains cfg w .idle .idle
  | pending {call : C} {seen : (ι → σ) → Prop} {rest : Prog ι σ R} : explains w call rest cfg →
      Matches explains cfg w (.busy call rest) (.pending call seen)
  | taken {call : C} {res : R} : Matches explains cfg w (.busy call (.done (.ret res))) (.taken call res)

structure Simulates (explains : Explains W ι σ C R) (s : AtomicState W ι σ C R)
    (cfg : Observed.Config W C R (ι → σ)) : Prop where
  history : cfg.history = s.history
  obj : cfg.obj = s.server
  thread : ∀ w, Matches explains cfg w (s.thread w) (cfg.phase w)

section

variable {prog : C → Prog ι σ R} {allowed : C → Prop} {spec : Spec C R (ι → σ)} {obj : ι → σ}
  {explains : Explains W ι σ C R} {s t : AtomicState W ι σ C R} {cfg cfg' : Observed.Config W C R (ι → σ)} {w : W}

theorem Explanation.matches_step (h : Explanation prog allowed spec obj explains)
    (hreach : Observed.Reachable spec obj cfg) (hsim : Simulates explains s cfg) (hstep : Observed.Step spec w cfg cfg')
    {thread : LockThread ι σ C R} (hthread : Matches explains cfg' w thread (cfg'.phase w)) (w' : W)
    : Matches explains cfg' w' (Function.update s.thread w thread w') (cfg'.phase w') := by
  by_cases heq : w' = w
  . subst heq
    rw [Function.update_self]
    exact hthread
  . rw [Function.update_of_ne heq]
    have hmatches := hsim.thread w'
    have hphase := hstep.phase_of_ne heq
    generalize s.thread w' = thread' at hmatches
    generalize cfg.phase w' = phase' at hmatches hphase
    cases hmatches with
    | idle =>
      rcases hphase with ⟨hphase, _⟩ | ⟨_, hphase⟩
      . rw [hphase]
        exact .idle
      . rw [hphase]
        exact .idle
    | pending hexplains =>
      have hexplains' := h.other _ _ _ _ _ _ hreach hexplains heq hstep
      rcases hphase with ⟨hphase, _⟩ | ⟨_, hphase⟩
      . rw [hphase]
        exact .pending hexplains'
      . rw [hphase]
        exact .pending hexplains'
    | taken =>
      rcases hphase with ⟨hphase, _⟩ | ⟨_, hphase⟩
      . rw [hphase]
        exact .taken
      . rw [hphase]
        exact .taken

def Allows (allowed : C → Prop) (label : Label W C Unit) : Prop :=
  match label with
  | .invoke _ call => allowed call
  | .request _ _ | .respond _ => True

instance [DecidablePred allowed] (label : Label W C Unit) : Decidable (Allows allowed label) :=
  match label with
  | .invoke _ call => inferInstanceAs (Decidable (allowed call))
  | .request _ _ | .respond _ => .isTrue trivial

theorem Explanation.step (h : Explanation prog allowed spec obj explains) (hreach : Observed.Reachable spec obj cfg)
    (hsim : Simulates explains s cfg) {label : Label W C Unit} (hallowed : Allows allowed label)
    (hstep : AtomicTakes prog s label t)
    : ∃ cfg', Observed.Reachable spec obj cfg' ∧ Simulates explains t cfg' := by
  cases hstep with
  | @invoke w call hidle =>
    have hmatches := hsim.thread w
    rw [hidle] at hmatches
    generalize hphase : cfg.phase w = phase at hmatches
    cases hmatches with
    | idle =>
      have hinvoke : Observed.Step spec w cfg (cfg.invoke w call) := .invoke hphase
      refine ⟨_, hreach.step hinvoke, ?_, hsim.obj, h.matches_step hreach hsim hinvoke ?_⟩
      . unfold Observed.Config.invoke State.invoke
        dsimp only
        rw [hsim.history]
      . unfold Observed.Config.invoke
        dsimp only
        rw [Function.update_self]
        exact .pending (h.invoke cfg w call hreach hphase hallowed)
  | @respond w call res hbusy =>
    have hmatches := hsim.thread w
    rw [hbusy] at hmatches
    generalize hphase : cfg.phase w = phase at hmatches
    cases hmatches with
    | pending hexplains => exact absurd hexplains (h.running cfg w call _)
    | taken =>
      have hrespond : Observed.Step spec w cfg (cfg.respond w call res) := .respond hphase
      refine ⟨_, hreach.step hrespond, ?_, hsim.obj, h.matches_step hreach hsim hrespond ?_⟩
      . unfold Observed.Config.respond State.respond
        dsimp only
        rw [hsim.history]
      . unfold Observed.Config.respond
        dsimp only
        rw [Function.update_self]
        exact .idle
  | @request w call rest rest' cell hbusy hsection =>
    have hmatches := hsim.thread w
    rw [hbusy] at hmatches
    generalize hphase : cfg.phase w = phase at hmatches
    cases hmatches with
    | taken => contradiction
    | pending hexplains =>
      rw [← hsim.obj] at hsection
      rcases h.next _ _ _ _ _ _ _ hreach hphase hexplains hsection with
        ⟨res, rfl, hspec⟩ | ⟨res, o, rfl, rfl, hseen, hspec⟩ | ⟨rfl, hexplains'⟩
      . have htake : Observed.Step spec w cfg (cfg.take w call res cell) := .take hphase hspec
        refine ⟨_, hreach.step htake, hsim.history, rfl, h.matches_step hreach hsim htake ?_⟩
        unfold Observed.Config.take
        dsimp only
        rw [Function.update_self]
        exact .taken
      . have hremember : Observed.Step spec w cfg (cfg.remember w call res) := .remember hphase hseen hspec
        refine ⟨_, hreach.step hremember, hsim.history, rfl, h.matches_step hreach hsim hremember ?_⟩
        unfold Observed.Config.remember
        dsimp only
        rw [Function.update_self]
        exact .taken
      . refine ⟨cfg, hreach, hsim.history, rfl, ?_⟩
        intro w'
        unfold State.resume
        dsimp only
        by_cases heq : w' = w
        . subst heq
          rw [Function.update_self, hphase]
          exact .pending hexplains'
        . rw [Function.update_of_ne heq]
          exact hsim.thread w'

/--
Calls whose sections are explained are linearizable in every interleaving of their accesses to the cells.
-/
theorem Explanation.linearizable (h : Explanation prog allowed spec obj explains)
    (hprog : ∀ call, Disciplined none (prog call)) {s : State W ι σ C R} {labels : List (Label W C Unit)}
    (hrun : Run (system prog).step (fun _ => Allows allowed) (init (.new obj)) labels s)
    : Linearizable spec obj s.history := by
  rcases run_abstract (fun _ => Allows allowed) hprog (fun _ _ h => h) hrun with ⟨labels', hrun'⟩
  have hinit : Simulates explains (init obj) (Observed.start obj) := ⟨rfl, rfl, fun _ => .idle⟩
  have hreach : ∃ cfg, Observed.Reachable spec obj cfg ∧ Simulates explains (abstract s) cfg := by
    apply Observed.exists_reachable hinit _ hrun'
    intro s cfg label t hreach hsim hallowed hstep
    exact h.step hreach hsim hallowed (atomicTakes_of_step hstep)
  rcases hreach with ⟨cfg, hreach, hsim⟩
  have hlinear := hreach.linearizable
  rw [hsim.history] at hlinear
  exact hlinear

theorem explanation_of_sections
    (h : ∀ call, allowed call → ∀ cell, ∃ res cell',
      runSection (prog call) cell = some (.done (.ret res), cell') ∧ spec cell call res cell')
    : Explanation (W := W) prog allowed spec obj (fun _ call rest _ => allowed call ∧ rest = prog call) where
  invoke := fun _ _ _ _ _ hallowed => ⟨hallowed, rfl⟩
  other := fun _ _ _ _ _ _ _ hexplains _ _ => hexplains
  running := by
    rintro cfg w call out ⟨hallowed, hrest⟩
    rcases h call hallowed cfg.obj with ⟨res, cell', hsection, _⟩
    rw [← hrest] at hsection
    contradiction
  next := by
    rintro cfg w call seen rest rest' cell _ _ ⟨hallowed, rfl⟩ hsection
    rcases h call hallowed cfg.obj with ⟨res, cell', hsection', hspec⟩
    rw [hsection] at hsection'
    cases hsection'
    exact .inl ⟨res, rfl, hspec⟩

end

end Locks
