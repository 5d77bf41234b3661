import GoYcsb.Client.Lemmas.Load
import GoYcsb.Client.Lemmas.Run

/-!
This module contains the connection of the two models of the workers: every run of `Run` is a run of the workers without
time, in which an operation is made of the steps that it takes.
-/

namespace Client

section

variable {W : Type} [DecidableEq W] {P : Platform} {env : Build → Prop} {c : Core} {worker : W → Worker} {s : Client W}
  {w : W}

theorem goto_goto (s : Client W) (w : W) (pc pc' : Worker.PC) : (s.goto w pc).goto w pc' = s.goto w pc' := by
  simp [goto]

theorem exists_taken (halive : s.crashed = false) (hbuilds : ∀ keyNum, Load.BuildsKey P env c keyNum)
    (henv : ∃ build, env build) (worker : W → Worker) (w : W) (left : Nat) (keyNums : List Int)
    : ∃ labels keySequence keyNums',
        Run (step P c worker) (Allowed env) (s.goto w (.next left keyNums)) labels
          ({ s with keySequence }.goto w (.next 0 keyNums')) := by
  induction left generalizing s keyNums with
  | zero => exact ⟨[], s.keySequence, keyNums, .nil⟩
  | succ left ih =>
    rcases henv with ⟨build, hbuild⟩
    rcases hbuilds s.keySequence.next.1 (fun _ => build) (fun _ => hbuild) with ⟨values, hvalues⟩
    let answer : Answer := ⟨none, fun _ => build⟩
    let t : Client W := { s with keySequence := s.keySequence.next.2 }
    have hallowed : (s.goto w (.next (left + 1) keyNums)).Allowed env (.step w answer) := fun _ => hbuild
    have htake : (s.goto w (.next (left + 1) keyNums)).step P c worker (.step w answer)
        = some (t.goto w (.next left (keyNums ++ [s.keySequence.next.1]))) := by
      simp [step, workerStep, goto, halive, answer, t, hvalues]
    rcases ih (s := t) halive (keyNums ++ [s.keySequence.next.1]) with ⟨labels, keySequence, keyNums', hrun⟩
    exact ⟨_, keySequence, keyNums', hrun.cons hallowed htake⟩

theorem exists_operation (halive : s.crashed = false) (hpc : s.pc w = (worker w).operation)
    (hbuilds : ∀ keyNum, Load.BuildsKey P env c keyNum) (henv : ∃ build, env build)
    : ∃ labels keySequence calls,
        Run (step P c worker) (Allowed env) s labels ({ s with keySequence, calls }.goto w .count)
          ∧
        calls.length = s.calls.length + (!(worker w).doTransactions).toNat := by
  rcases henv with ⟨build, hbuild⟩
  let answer : Answer := ⟨some "error", fun _ => build⟩
  have hallowed : ∀ s : Client W, s.Allowed env (.step w answer) := fun _ _ => hbuild
  by_cases htransactions : (worker w).doTransactions = true
  . have hturn : s.pc w = .transaction := by
      rw [hpc, Worker.operation, if_pos htransactions]
    have htake : s.step P c worker (.step w answer) = some (s.goto w .count) := by
      simp [step, workerStep, halive, hturn]
    refine ⟨_, s.keySequence, s.calls, Run.cons (hallowed _) htake .nil, ?_⟩
    simp [htransactions]
  . have hturn : ∃ left, s.pc w = .next left [] := by
      rw [hpc, Worker.operation, if_neg htransactions]
      split
      . exact ⟨_, rfl⟩
      . exact ⟨_, rfl⟩
    rcases hturn with ⟨left, hnext⟩
    have hself : s.goto w (.next left []) = s := by
      simp [goto, ← hnext]
    rcases exists_taken halive hbuilds ⟨build, hbuild⟩ worker w left [] with ⟨labels, keySequence, keyNums, hrun⟩
    rw [hself] at hrun
    have hinsert : ({ s with keySequence }.goto w (.next 0 keyNums)).step P c worker (.step w answer)
        = some ({ s with keySequence }.goto w (.insert keyNums 0)) := by
      simp [step, workerStep, goto, halive]
    have hcall : ({ s with keySequence }.goto w (.insert keyNums 0)).step P c worker (.step w answer)
        = some ({ s with keySequence, calls := s.calls ++ [keyNums] }.goto w .count) := by
      simp [step, workerStep, goto, halive, answer, Load.afterCall]
    have hends := Run.cons (hallowed _) hinsert (Run.cons (hallowed _) hcall .nil)
    refine ⟨_, keySequence, s.calls ++ [keyNums], hrun.trans hends, ?_⟩
    simp [htransactions]

end

end Client

namespace ClientRun

def PC.untimed (worker : Worker) (pc : PC) : Worker.PC :=
  match pc with
  | .notStarted | .starting | .spread _ | .test | .crashed => .test
  | .operation => worker.operation
  | .count => .count
  | .throttle | .wait _ | .select => .select
  | .cleanup | .leave | .ended => .returned

def MeasurerPC.warmingUp (measurer : MeasurerPC) : Prop :=
  match measurer with
  | .start | .warmUp _ | .enable => True
  | .loop | .send | .ended | .crashed => False

variable {n : Nat}

def Config.workers (cfg : Config n) (i : Fin n) : Worker := (cfg.worker i).toWorker

def Config.inserts (cfg : Config n) (event : Event n) : Bool :=
  match event with
  | .operation i => !(cfg.workers i).doTransactions
  | .cleanup _ | .summary | .analyze | .returned => false

/--
The workers without time are where those of `Run` are, and have made as many calls as the log has operations.
-/
structure Untimed (cfg : Config n) (s : State n) (t : Client (Fin n)) : Prop where
  alive : t.crashed = false
  pc : ∀ i, t.pc i = (s.goroutine i).pc.untimed (cfg.workers i)
  opsDone : ∀ i, t.opsDone i = (s.goroutine i).opsDone
  warmUp : t.warmUp = s.env.warmUp
  warmingUp : s.measurer.warmingUp → t.warmingUp = true
  canceled : t.ctxErr.isSome = s.env.canceled
  calls : t.calls.length = s.events.countP cfg.inserts

section

variable {cfg : Config n} {P : Platform} {env : Build → Prop} {c : Core} {s s' : State n} {t t' : Client (Fin n)}
  {label : Label n}

theorem untimed_init {p : Properties} (hwarm : cfg.warmUpTime = p.getWarmUpTime) (now : Int)
    : Untimed cfg (cfg.init now) (Client.new p c) where
  alive := rfl
  pc := fun _ => rfl
  opsDone := fun _ => rfl
  warmUp := by simp [Config.init, Client.new, hwarm]
  warmingUp := fun _ => rfl
  canceled := rfl
  calls := rfl

theorem Untimed.worker (h : Untimed cfg s t) {i : Fin n} {g : Goroutine} {wg : Int}
    (hpc : t'.pc = Function.update t.pc i (g.pc.untimed (cfg.workers i)))
    (hops : t'.opsDone = Function.update t.opsDone i g.opsDone)
    (hsame : t'.crashed = t.crashed ∧ t'.warmUp = t.warmUp ∧ t'.warmingUp = t.warmingUp ∧ t'.ctxErr = t.ctxErr)
    (hcalls : t'.calls.length = t.calls.length + (Config.eventsOf i (s.goroutine i).pc).countP cfg.inserts)
    : Untimed cfg { s with
        goroutine := Function.update s.goroutine i g
        wg := wg
        events := s.events ++ Config.eventsOf i (s.goroutine i).pc
      } t' := by
  rcases hsame with ⟨hcrashed, hwarm, hwarming, hctx⟩
  refine ⟨hcrashed.trans h.alive, ?_, ?_, hwarm.trans h.warmUp, ?_, ?_, ?_⟩
  . intro j
    rw [hpc]
    dsimp only
    by_cases heq : j = i
    . subst heq
      rw [Function.update_self, Function.update_self]
    . rw [Function.update_of_ne heq, Function.update_of_ne heq, h.pc]
  . intro j
    rw [hops]
    dsimp only
    by_cases heq : j = i
    . subst heq
      rw [Function.update_self, Function.update_self]
    . rw [Function.update_of_ne heq, Function.update_of_ne heq, h.opsDone]
  . rw [hwarming]
    exact h.warmingUp
  . rw [hctx]
    exact h.canceled
  . rw [hcalls, h.calls, List.countP_append]

theorem Untimed.goto (h : Untimed cfg s t) {i : Fin n} {g : Goroutine} (wg : Int)
    (hops : g.opsDone = (s.goroutine i).opsDone)
    (hevents : (Config.eventsOf i (s.goroutine i).pc).countP cfg.inserts = 0)
    : Untimed cfg { s with
        goroutine := Function.update s.goroutine i g
        wg := wg
        events := s.events ++ Config.eventsOf i (s.goroutine i).pc
      } (t.goto i (g.pc.untimed (cfg.workers i))) := by
  apply h.worker
  . rfl
  . rw [hops, ← h.opsDone, Function.update_eq_self]
    rfl
  . exact ⟨rfl, rfl, rfl, rfl⟩
  . rw [hevents]
    rfl

theorem Untimed.stay (h : Untimed cfg s t) {i : Fin n} {g : Goroutine} {wg : Int}
    (hpc : g.pc.untimed (cfg.workers i) = (s.goroutine i).pc.untimed (cfg.workers i))
    (hops : g.opsDone = (s.goroutine i).opsDone)
    (hevents : (Config.eventsOf i (s.goroutine i).pc).countP cfg.inserts = 0)
    : Untimed cfg { s with
        goroutine := Function.update s.goroutine i g
        wg := wg
        events := s.events ++ Config.eventsOf i (s.goroutine i).pc
      } t := by
  have hself : t.goto i (g.pc.untimed (cfg.workers i)) = t := by
    simp [Client.goto, hpc, ← h.pc]
  have hgoto := h.goto wg hops hevents
  rwa [hself] at hgoto

theorem Untimed.next (henv : ∃ build, env build) (h : Untimed cfg s t) {i : Fin n} {g : Goroutine} {wg : Int}
    {pc : PC} (hat : (s.goroutine i).pc = pc) (hops : g.opsDone = (s.goroutine i).opsDone)
    (hevents : (Config.eventsOf i pc).countP cfg.inserts = 0)
    (htake : ∀ answer, t.step P c cfg.workers (.step i answer) = some (t.goto i (g.pc.untimed (cfg.workers i))))
    : ∃ labels t',
        Run (Client.step P c cfg.workers) (Client.Allowed env) t labels t'
          ∧
        Untimed cfg { s with
          goroutine := Function.update s.goroutine i g
          wg := wg
          events := s.events ++ Config.eventsOf i (s.goroutine i).pc
        } t' := by
  rcases henv with ⟨build, hbuild⟩
  have hallowed : t.Allowed env (.step i ⟨none, fun _ => build⟩) := fun _ => hbuild
  rw [← hat] at hevents
  exact ⟨_, _, Run.cons hallowed (htake _) .nil, h.goto wg hops hevents⟩

theorem Untimed.takes (hbuilds : ∀ keyNum, Load.BuildsKey P env c keyNum) (henv : ∃ build, env build)
    (h : Untimed cfg s t) {i : Fin n} {g : Goroutine} {wg : Int}
    (htakes : (cfg.worker i).Takes s.env (s.goroutine i) g)
    : ∃ labels t',
        Run (Client.step P c cfg.workers) (Client.Allowed env) t labels t'
          ∧
        Untimed cfg { s with
          goroutine := Function.update s.goroutine i g
          wg := wg
          events := s.events ++ Config.eventsOf i (s.goroutine i).pc
        } t' := by
  have hpc := h.pc i
  have hops := h.opsDone i
  have halive := h.alive
  have hcanceled := h.canceled
  cases htakes with
  | turn hat hturn =>
    rw [hat] at hpc
    have htest : (cfg.workers i).opCount = 0 ∨ t.opsDone i < (cfg.workers i).opCount := by
      rw [hops]
      exact hturn
    refine h.next henv hat rfl rfl (fun answer => ?_)
    simp [Client.step, Client.workerStep, halive, hpc, PC.untimed, htest]
  | finish hat hle hne =>
    rw [hat] at hpc
    have htest : ¬ ((cfg.workers i).opCount = 0 ∨ t.opsDone i < (cfg.workers i).opCount) := by
      rw [hops]
      exact not_or.mpr ⟨hne, Int.not_lt.mpr hle⟩
    refine h.next henv hat rfl rfl (fun answer => ?_)
    simp [Client.step, Client.workerStep, halive, hpc, PC.untimed, htest]
  | operation hat =>
    rw [hat] at hpc
    rcases Client.exists_operation halive hpc hbuilds henv with ⟨labels, keySequence, calls, hrun, hcalls⟩
    refine ⟨labels, _, hrun, h.worker rfl ?_ ⟨rfl, rfl, rfl, rfl⟩ ?_⟩
    . dsimp only [Client.goto]
      rw [← hops, Function.update_eq_self]
    . dsimp only [Client.goto]
      rw [hcalls, hat]
      cases htransactions : (cfg.workers i).doTransactions with
      | true => simp [Config.eventsOf, Config.inserts, htransactions]
      | false => simp [Config.eventsOf, Config.inserts, htransactions]
  | warm hat hwarm =>
    rw [hat] at hpc
    refine h.next henv hat rfl rfl (fun answer => ?_)
    simp [Client.step, Client.workerStep, halive, hpc, PC.untimed, h.warmUp, hwarm]
  | count hat hwarm =>
    rw [hat] at hpc
    rcases henv with ⟨build, hbuild⟩
    let t' : Client (Fin n) :=
      { t with opsDone := Function.update t.opsDone i (I64.add (t.opsDone i) (cfg.workers i).opsCount) }
    have hallowed : t.Allowed env (.step i ⟨none, fun _ => build⟩) := fun _ => hbuild
    have htake : t.step P c cfg.workers (.step i ⟨none, fun _ => build⟩) = some (t'.goto i .select) := by
      simp [Client.step, Client.workerStep, halive, hpc, PC.untimed, h.warmUp, hwarm, t']
    refine ⟨_, _, Run.cons hallowed htake .nil, h.worker rfl ?_ ⟨rfl, rfl, rfl, rfl⟩ ?_⟩
    . rw [← hops]
      rfl
    . rw [hat]
      rfl
  | cancel hat hcancel =>
    rw [hat] at hpc
    rw [hcancel, Option.isSome_iff_exists] at hcanceled
    rcases hcanceled with ⟨err, herr⟩
    refine h.next henv hat rfl rfl (fun answer => ?_)
    simp [Client.step, Client.workerStep, halive, hpc, PC.untimed, herr]
  | next hat hcancel =>
    rw [hat] at hpc
    rw [hcancel, Option.isSome_eq_false_iff, Option.isNone_iff_eq_none] at hcanceled
    refine h.next henv hat rfl rfl (fun answer => ?_)
    simp [Client.step, Client.workerStep, halive, hpc, PC.untimed, hcanceled]
  | _ hat =>
    refine ⟨[], t, .nil, h.stay ?_ rfl ?_⟩
    . rw [hat]
      rfl
    . rw [hat]
      rfl

theorem Untimed.step (hbuilds : ∀ keyNum, Load.BuildsKey P env c keyNum) (henv : ∃ build, env build)
    (hinv : Inv cfg s) (h : Untimed cfg s t) (hstep : cfg.Takes s label s')
    : ∃ labels t',
        Run (Client.step P c cfg.workers) (fun t label' => t.Allowed env label' ∨ label = .cancel) t labels t'
          ∧
        Untimed cfg s' t' := by
  have halive := h.alive
  have hwarming := h.warmingUp
  -- `EnableWarmUp`
  have hfinish : t.warmingUp = true →
      Run (Client.step P c cfg.workers) (fun t label' => t.Allowed env label' ∨ label = .cancel) t [.finishWarmUp]
        { t with warmUp := false, warmingUp := false } := by
    intro hflag
    have htake : t.step P c cfg.workers .finishWarmUp = some { t with warmUp := false, warmingUp := false } := by
      simp [Client.step, halive, hflag]
    exact Run.cons (.inl trivial) htake .nil
  cases hstep with
  | cancel hcanceled =>
    have hctx := h.canceled
    rw [hcanceled, Option.isSome_eq_false_iff, Option.isNone_iff_eq_none] at hctx
    have htake : t.step P c cfg.workers (.cancel .canceled) = some { t with ctxErr := some .canceled } := by
      simp [Client.step, halive, hctx]
    exact ⟨_, _, Run.cons (.inr rfl) htake .nil, { h with canceled := rfl }⟩
  | @spawn i hmain =>
    have hat : (s.goroutine i).pc = .notStarted := by
      rw [hinv.pending, hmain]
      exact Nat.le_refl _
    have hstay : Untimed cfg { s with
        goroutine := Function.update s.goroutine i { s.goroutine i with pc := .starting }
        wg := s.wg
        events := s.events ++ Config.eventsOf i (s.goroutine i).pc
      } t := by
      apply h.stay
      . rw [hat]
        rfl
      . rfl
      . rw [hat]
        rfl
    rw [hat, Config.eventsOf, List.append_nil] at hstay
    exact ⟨[], t, .nil, { hstay with }⟩
  | analyze hmain => exact ⟨[], t, .nil, { h with calls := by simp [h.calls, Config.inserts] }⟩
  | receive hmain hch => exact ⟨[], t, .nil, { h with calls := by simp [h.calls, Config.inserts] }⟩
  | start hmeasurer hnext =>
    rw [hmeasurer] at hwarming
    exact ⟨[], t, .nil, { h with warmingUp := fun _ => hwarming trivial }⟩
  | warmUp hmeasurer =>
    rw [hmeasurer] at hwarming
    exact ⟨[], t, .nil, { h with warmingUp := fun _ => hwarming trivial }⟩
  | warmUpCanceled hmeasurer hcanceled => exact ⟨[], t, .nil, { h with warmingUp := False.elim }⟩
  | enable hmeasurer _ =>
    rw [hmeasurer] at hwarming
    exact ⟨_, _, hfinish (hwarming trivial), { h with warmUp := rfl, warmingUp := False.elim }⟩
  | crash hmeasurer hle =>
    rw [hmeasurer] at hwarming
    exact ⟨_, _, hfinish (hwarming trivial), { h with warmUp := rfl, warmingUp := False.elim }⟩
  | summary hmeasurer hticked => exact ⟨[], t, .nil, { h with calls := by simp [h.calls, Config.inserts] }⟩
  | stop hmeasurer hdone => exact ⟨[], t, .nil, { h with warmingUp := False.elim }⟩
  | send hmeasurer => exact ⟨[], t, .nil, { h with warmingUp := False.elim }⟩
  | worker htakes =>
    rcases h.takes hbuilds henv htakes with ⟨labels, t', hrun, hu⟩
    exact ⟨labels, t', hrun.mono (fun _ _ => .inl), hu⟩
  | _ => exact ⟨[], t, .nil, { h with }⟩

/--
Every run of `Run` is one of the workers without time. Their context is canceled only if that of `Run` is.
-/
theorem exists_untimed {p : Properties} (hsound : ∀ i, (cfg.worker i).Sound) (hinterval : 0 < seconds cfg.logInterval)
    (hwarm : cfg.warmUpTime = p.getWarmUpTime) (hbuilds : ∀ keyNum, Load.BuildsKey P env c keyNum)
    (henv : ∃ build, env build) {now : Int} {labels : List (Label n)}
    (hrun : Run cfg.step (fun _ _ => True) (cfg.init now) labels s)
    : ∃ labels' t,
        Run (Client.step P c cfg.workers) (fun t label => t.Allowed env label ∨ .cancel ∈ labels) (Client.new p c)
          labels' t
          ∧
        Untimed cfg s t := by
  induction hrun with
  | nil => exact ⟨[], _, .nil, untimed_init hwarm now⟩
  | snoc hrun _ htake ih =>
    rcases ih with ⟨labels', t, hrun', h⟩
    have hinv := inv_of_run hsound hinterval hrun
    rcases h.step hbuilds henv hinv (Config.takes_of_step htake) with ⟨labels'', t', hrun'', h'⟩
    refine ⟨labels' ++ labels'', t', (hrun'.mono ?_).trans (hrun''.mono ?_), h'⟩
    . intro t label hallowed
      exact hallowed.imp_right (List.mem_append_left _)
    . intro t label hallowed
      apply hallowed.imp_right
      intro heq
      rw [heq]
      exact List.mem_append_right _ List.mem_cons_self

/--
What the workers load without time, they load with it: as many calls as the log has operations pass the key numbers.
-/
theorem exists_calls_of_loadsExactly {p : Properties} (hsound : ∀ i, (cfg.worker i).Sound)
    (hinterval : 0 < seconds cfg.logInterval) (hwarm : cfg.warmUpTime = p.getWarmUpTime)
    (hbuilds : ∀ keyNum, Load.BuildsKey P env c keyNum) (henv : ∃ build, env build) {keys : List Int}
    (hloads : Client.LoadsExactly P env c cfg.workers (Client.new p c) keys) {now : Int} {labels : List (Label n)}
    (hrun : Run cfg.step (fun _ _ => True) (cfg.init now) labels s) (hcancel : .cancel ∉ labels)
    : ∃ calls : List (List Int),
        calls.length = s.events.countP cfg.inserts
          ∧
        calls.flatten.Subperm keys
          ∧
        (s.main = .returned → calls.flatten.Perm keys) := by
  rcases exists_untimed hsound hinterval hwarm hbuilds henv hrun with ⟨labels', t, hrun', h⟩
  have hallowed : Run (Client.step P c cfg.workers) (Client.Allowed env) (Client.new p c) labels' t :=
    hrun'.mono (fun _ _ hallowed => hallowed.resolve_right hcancel)
  rcases hloads.2.2 labels' t hallowed with ⟨hsubperm, hperm⟩
  refine ⟨t.calls, h.calls, hsubperm, ?_⟩
  intro hreturned
  apply hperm
  intro i
  have hended : (s.goroutine i).pc = .ended := by
    apply (inv_of_run hsound hinterval hrun).joined
    rw [hreturned]
    exact trivial
  rw [h.pc, hended]
  rfl

end

end ClientRun
