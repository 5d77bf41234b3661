import GoYcsb.Client.Lemmas.Throttle
import Mathlib.Algebra.BigOperators.Fin

/-!
This module contains what holds of `Run` in every interleaving of its goroutines: it returns after everybody else has
ended, it does return, and the workers keep to the target.
-/

namespace ClientRun

variable {n : Nat}

namespace Config

variable (cfg : Config n)

/--
What a step can be. The steps of a worker are those of `TargetWorker.Takes`.
-/
inductive Takes (s : State n) : Label n → State n → Prop where
  | pass (d : Nat) : Takes s (.pass d) { s with env := { s.env with now := s.env.now + d } }
  | cancel : s.env.canceled = false → Takes s .cancel { s with env := { s.env with canceled := true } }
  | tick {nextTick : Int} : s.measurer = .loop → Takes s .tick { s with ticked := true, nextTick := nextTick }
  | spawn {i : Fin n} : s.main = .spawn i → Takes s .main { s with
      main := .spawn (i + 1)
      goroutine := Function.update s.goroutine i { s.goroutine i with pc := .starting }
    }
  | spawned {i : Nat} : s.main = .spawn i → n ≤ i → Takes s .main { s with main := .wait }
  | join {main : MainPC} : s.main = .wait → s.wg = 0 → main = .analyze ∨ main = .cancel →
      Takes s .main { s with main := main }
  | analyze : s.main = .analyze → Takes s .main { s with main := .cancel, events := s.events ++ [.analyze] }
  | measureCancel : s.main = .cancel → Takes s .main { s with main := .receive, measureCanceled := true }
  | receive : s.main = .receive → s.measureCh = true →
      Takes s .main { s with main := .returned, measureCh := false, events := s.events ++ [.returned] }
  | start {timer : Bool} {measurer : MeasurerPC} : s.measurer = .start →
      (∃ deadline, measurer = .warmUp deadline) ∨ measurer = .enable →
      Takes s (.measurer timer) { s with measurer := measurer }
  | warmUp {deadline : Int} : s.measurer = .warmUp deadline → Takes s (.measurer true) { s with measurer := .enable }
  | warmUpCanceled {deadline : Int} : s.measurer = .warmUp deadline → s.env.canceled = true →
      Takes s (.measurer false) { s with measurer := .send }
  | enable {timer : Bool} {nextTick : Int} : s.measurer = .enable → 0 < seconds cfg.logInterval →
      Takes s (.measurer timer)
        { s with env := { s.env with warmUp := false }, measurer := .loop, nextTick := nextTick }
  | crash {timer : Bool} : s.measurer = .enable → seconds cfg.logInterval ≤ 0 →
      Takes s (.measurer timer) { s with env := { s.env with warmUp := false }, measurer := .crashed }
  | summary : s.measurer = .loop → s.ticked = true →
      Takes s (.measurer true) { s with ticked := false, events := s.events ++ [.summary] }
  | stop : s.measurer = .loop → s.env.canceled = true ∨ s.measureCanceled = true →
      Takes s (.measurer false) { s with measurer := .send }
  | send {timer : Bool} : s.measurer = .send →
      Takes s (.measurer timer) { s with measurer := .ended, measureCh := true }
  | worker {i : Fin n} {delay : Int} {g : Goroutine} : (cfg.worker i).Takes s.env (s.goroutine i) g →
      Takes s (.worker i delay) { s with
        goroutine := Function.update s.goroutine i g
        wg := if (s.goroutine i).pc = .leave then s.wg - 1 else s.wg
        events := s.events ++ eventsOf i (s.goroutine i).pc
      }

variable {cfg} {s t : State n} {label : Label n}

theorem takes_of_mainStep (h : cfg.mainStep s = some t) : cfg.Takes s .main t := by
  unfold mainStep at h
  split at h
  . next i hmain =>
    split at h
    . next hi =>
      cases h
      exact .spawn (i := ⟨i, hi⟩) hmain
    . next hi =>
      cases h
      exact .spawned hmain (by omega)
  . next hmain =>
    split at h
    . next hwg =>
      cases h
      apply Takes.join hmain hwg
      split
      . exact .inl rfl
      . exact .inr rfl
    . contradiction
  . next hmain =>
    cases h
    exact .analyze hmain
  . next hmain =>
    cases h
    exact .measureCancel hmain
  . next hmain =>
    split at h
    . next hch =>
      cases h
      exact .receive hmain hch
    . contradiction
  . contradiction

theorem takes_of_measurerStep {timer : Bool} (h : cfg.measurerStep s timer = some t)
    : cfg.Takes s (.measurer timer) t := by
  unfold measurerStep at h
  split at h
  . next hmeasurer =>
    split at h
    . cases h
      exact .start hmeasurer (.inl ⟨_, rfl⟩)
    . cases h
      exact .start hmeasurer (.inr rfl)
  . next hmeasurer =>
    cases timer with
    | true =>
      rw [if_pos rfl] at h
      split at h
      . cases h
        exact .warmUp hmeasurer
      . contradiction
    | false =>
      rw [if_neg Bool.false_ne_true] at h
      split at h
      . next hcanceled =>
        cases h
        exact .warmUpCanceled hmeasurer hcanceled
      . contradiction
  . next hmeasurer =>
    split at h
    . next hinterval =>
      cases h
      exact .crash hmeasurer hinterval
    . next hinterval =>
      cases h
      exact .enable hmeasurer (by omega)
  . next hmeasurer =>
    cases timer with
    | true =>
      rw [if_pos rfl] at h
      split at h
      . next hticked =>
        cases h
        exact .summary hmeasurer hticked
      . contradiction
    | false =>
      rw [if_neg Bool.false_ne_true] at h
      split at h
      . next hdone =>
        cases h
        exact .stop hmeasurer hdone
      . contradiction
  . next hmeasurer =>
    cases h
    exact .send hmeasurer
  . contradiction
  . contradiction

theorem takes_of_step (h : cfg.step s label = some t) : cfg.Takes s label t := by
  cases label with
  | pass d =>
    cases h
    exact .pass d
  | cancel =>
    dsimp only [step] at h
    split at h
    . contradiction
    . next hcanceled =>
      cases h
      exact .cancel (Bool.eq_false_of_not_eq_true hcanceled)
  | tick =>
    dsimp only [step] at h
    split at h
    . next htick =>
      cases h
      exact .tick htick.1
    . contradiction
  | main => exact takes_of_mainStep h
  | measurer timer => exact takes_of_measurerStep h
  | worker i delay =>
    dsimp only [step, workerStep] at h
    split at h
    . next hstep =>
      cases h
      exact .worker (TargetWorker.takes_of_step hstep)
    . contradiction

end Config

def MainPC.pending (main : MainPC) (i : Nat) : Prop :=
  match main with
  | .spawn j => j ≤ i
  | .wait | .analyze | .cancel | .receive | .returned => False

def MainPC.joined (main : MainPC) : Prop :=
  match main with
  | .analyze | .cancel | .receive | .returned => True
  | .spawn _ | .wait => False

def Goroutine.running (g : Goroutine) : Nat := if g.pc = .ended then 0 else 1

theorem sum_update (f : Fin n → Goroutine → Nat) (goroutine : Fin n → Goroutine) (i : Fin n) (g : Goroutine)
    : ∑ j, f j (Function.update goroutine i g j) + f i (goroutine i) = ∑ j, f j (goroutine j) + f i g := by
  rw [← Finset.add_sum_erase Finset.univ _ (Finset.mem_univ i),
    ← Finset.add_sum_erase Finset.univ (fun j => f j (goroutine j)) (Finset.mem_univ i)]
  have hrest : ∑ j ∈ Finset.univ.erase i, f j (Function.update goroutine i g j)
      = ∑ j ∈ Finset.univ.erase i, f j (goroutine j) := by
    apply Finset.sum_congr rfl
    intro j hj
    rw [Function.update_of_ne (Finset.ne_of_mem_erase hj)]
  rw [hrest, Function.update_self]
  omega

structure Inv (cfg : Config n) (s : State n) : Prop where
  counts : ∀ i, (cfg.worker i).Counts s.env (s.goroutine i)
  pending : ∀ i, (s.goroutine i).pc = .notStarted ↔ s.main.pending i
  wg : s.wg = ∑ i, (s.goroutine i).running
  joined : s.main.joined → ∀ i, (s.goroutine i).pc = .ended
  canceled : s.main = .receive → s.measureCanceled = true
  channel : s.measurer = .ended ↔ s.measureCh = true ∨ s.main = .returned
  crashed : s.measurer ≠ .crashed

section

variable {cfg : Config n} {s t : State n} {label : Label n}

theorem inv_init (cfg : Config n) (now : Int) : Inv cfg (cfg.init now) where
  counts := fun _ => rfl
  pending := fun i => ⟨fun _ => Nat.zero_le i, fun _ => rfl⟩
  wg := by simp [Config.init, Goroutine.running]
  joined := fun h => h.elim
  canceled := by simp [Config.init]
  channel := by simp [Config.init]
  crashed := by simp [Config.init]

theorem all_ended (h : ((∑ i, (s.goroutine i).running : Nat) : Int) = 0) (i : Fin n) : (s.goroutine i).pc = .ended := by
  have hzero : ∑ i, (s.goroutine i).running = 0 := by exact_mod_cast h
  have hi := (Finset.sum_eq_zero_iff.mp hzero) i (Finset.mem_univ i)
  unfold Goroutine.running at hi
  by_contra hne
  rw [if_neg hne] at hi
  contradiction

theorem Inv.spawn (h : Inv cfg s) {i : Fin n} (hmain : s.main = .spawn i)
    : Inv cfg { s with
        main := .spawn (i + 1)
        goroutine := Function.update s.goroutine i { s.goroutine i with pc := .starting }
      } := by
  have hpc : (s.goroutine i).pc = .notStarted := by
    rw [h.pending, hmain]
    exact Nat.le_refl _
  have hchannel := h.channel
  rw [hmain] at hchannel
  refine { h with counts := ?_, pending := ?_, wg := ?_, joined := fun h => h.elim, canceled := ?_, channel := ?_ }
  . intro j
    have hj := h.counts j
    dsimp only
    by_cases heq : j = i
    . subst heq
      unfold TargetWorker.Counts at hj
      rw [hpc] at hj
      rw [Function.update_self]
      exact hj
    . rw [Function.update_of_ne heq]
      exact hj
  . intro j
    dsimp only
    by_cases heq : j = i
    . subst heq
      rw [Function.update_self]
      simp [MainPC.pending]
    . have hne : (j : Nat) ≠ i := fun h => heq (Fin.ext h)
      rw [Function.update_of_ne heq, h.pending, hmain]
      unfold MainPC.pending
      dsimp only
      omega
  . have hsum := sum_update (fun _ => Goroutine.running) s.goroutine i { s.goroutine i with pc := .starting }
    have hsame : Goroutine.running { s.goroutine i with pc := .starting } = (s.goroutine i).running := by
      unfold Goroutine.running
      rw [hpc]
      rfl
    dsimp only at hsum ⊢
    rw [hsame] at hsum
    rw [h.wg]
    omega
  . simp
  . simpa using hchannel

theorem Inv.worker (hsound : ∀ i, (cfg.worker i).Sound) (h : Inv cfg s) {i : Fin n} {g : Goroutine}
    (hstep : (cfg.worker i).Takes s.env (s.goroutine i) g) (events : List (Event n))
    : Inv cfg { s with
        goroutine := Function.update s.goroutine i g
        wg := if (s.goroutine i).pc = .leave then s.wg - 1 else s.wg
        events := events
      } := by
  refine { h with counts := ?_, pending := ?_, wg := ?_, joined := ?_ }
  . intro j
    dsimp only
    by_cases heq : j = i
    . subst heq
      rw [Function.update_self]
      exact (h.counts j).step (hsound j) hstep
    . rw [Function.update_of_ne heq]
      exact h.counts j
  . intro j
    dsimp only
    by_cases heq : j = i
    . subst heq
      rw [Function.update_self, ← h.pending]
      simp [hstep.started]
    . rw [Function.update_of_ne heq]
      exact h.pending j
  . have hsum := sum_update (fun _ => Goroutine.running) s.goroutine i g
    have hended := hstep.ended_iff
    have hnot := hstep.not_ended
    have hwg := h.wg
    dsimp only at hsum ⊢
    unfold Goroutine.running at hsum hwg ⊢
    rw [if_neg hnot] at hsum
    split
    . next hleave =>
      rw [if_pos (hended.mpr hleave)] at hsum
      omega
    . next hleave =>
      rw [if_neg (fun h => hleave (hended.mp h))] at hsum
      omega
  . intro hjoined
    exact absurd (h.joined hjoined i) hstep.not_ended

theorem Inv.step (hsound : ∀ i, (cfg.worker i).Sound) (hinterval : 0 < seconds cfg.logInterval) (h : Inv cfg s)
    (hstep : cfg.Takes s label t)
    : Inv cfg t := by
  have hchannel := h.channel
  have hcrashed := h.crashed
  cases hstep with
  | pass d => exact { h with counts := fun i => (h.counts i).mono id }
  | cancel hcanceled => exact { h with counts := fun i => (h.counts i).mono (fun _ => rfl) }
  | tick hmeasurer => exact { h with }
  | spawn hmain => exact h.spawn hmain
  | @spawned i hmain hle =>
    rw [hmain] at hchannel
    refine { h with pending := ?_, joined := fun h => h.elim, canceled := by simp, channel := by simpa using hchannel }
    intro j
    rw [h.pending, hmain]
    have hlt := j.isLt
    exact iff_of_false (fun hj => absurd hj (by dsimp only [MainPC.pending]; omega)) id
  | join hmain hwg hnext =>
    rw [hmain] at hchannel
    have hpending := h.pending
    rw [hmain] at hpending
    have hall := h.wg
    rw [hwg] at hall
    refine { h with pending := ?_, joined := fun _ => all_ended hall.symm, canceled := ?_, channel := ?_ }
    . rcases hnext with rfl | rfl
      . exact hpending
      . exact hpending
    . rcases hnext with rfl | rfl
      . simp
      . simp
    . rcases hnext with rfl | rfl
      . simpa using hchannel
      . simpa using hchannel
  | analyze hmain =>
    rw [hmain] at hchannel
    have hpending := h.pending
    have hjoined := h.joined
    rw [hmain] at hpending hjoined
    exact { h with
      pending := hpending
      joined := hjoined
      canceled := by simp
      channel := by simpa using hchannel
    }
  | measureCancel hmain =>
    rw [hmain] at hchannel
    have hpending := h.pending
    have hjoined := h.joined
    rw [hmain] at hpending hjoined
    exact { h with
      pending := hpending
      joined := hjoined
      canceled := fun _ => rfl
      channel := by simpa using hchannel
    }
  | receive hmain hch =>
    have hpending := h.pending
    have hjoined := h.joined
    rw [hmain] at hpending hjoined
    exact { h with
      pending := hpending
      joined := hjoined
      canceled := by simp
      channel := ⟨fun _ => .inr rfl, fun _ => hchannel.mpr (.inl hch)⟩
    }
  | start hmeasurer hnext =>
    rw [hmeasurer] at hchannel
    rcases hnext with ⟨deadline, rfl⟩ | rfl
    . exact { h with channel := by simpa using hchannel, crashed := by simp }
    . exact { h with channel := by simpa using hchannel, crashed := by simp }
  | warmUp hmeasurer =>
    rw [hmeasurer] at hchannel
    exact { h with channel := by simpa using hchannel, crashed := by simp }
  | warmUpCanceled hmeasurer hcanceled =>
    rw [hmeasurer] at hchannel
    exact { h with channel := by simpa using hchannel, crashed := by simp }
  | enable hmeasurer _ =>
    rw [hmeasurer] at hchannel
    exact { h with
      counts := fun i => (h.counts i).mono id
      channel := by simpa using hchannel
      crashed := by simp
    }
  | crash hmeasurer hle => omega
  | summary hmeasurer hticked => exact { h with }
  | stop hmeasurer hdone =>
    rw [hmeasurer] at hchannel
    exact { h with channel := by simpa using hchannel, crashed := by simp }
  | send hmeasurer => exact { h with channel := by simp, crashed := by simp }
  | worker hstep => exact h.worker hsound hstep _

theorem inv_of_run (hsound : ∀ i, (cfg.worker i).Sound) (hinterval : 0 < seconds cfg.logInterval) {now : Int}
    {labels : List (Label n)} (hrun : Run cfg.step (fun _ _ => True) (cfg.init now) labels s)
    : Inv cfg s := by
  apply hrun.invariant (I := fun s => Inv cfg s)
  . exact inv_init cfg now
  . intro s label t h _ hstep
    exact h.step hsound hinterval (Config.takes_of_step hstep)

theorem Config.Takes.later (h : cfg.Takes s label t)
    : s.env.now ≤ t.env.now ∧ (s.env.canceled = true → t.env.canceled = true) := by
  cases h with
  | pass d => exact ⟨by dsimp only; omega, id⟩
  | cancel hcanceled => exact ⟨le_rfl, fun _ => rfl⟩
  | _ => exact ⟨le_rfl, id⟩

structure OnTime (cfg : Config n) (began : Int) (s : State n) : Prop where
  now : began ≤ s.env.now
  timely : ∀ i, (cfg.worker i).Timely began s.env (s.goroutine i)

theorem OnTime.step {began : Int} (hsound : ∀ i, (cfg.worker i).Sound) (hpaced : ∀ i, (cfg.worker i).Paced)
    (hinv : Inv cfg s) (h : OnTime cfg began s) (hstep : cfg.Takes s label t)
    : OnTime cfg began t := by
  have hlater := hstep.later
  have hmono : ∀ i, (cfg.worker i).Timely began t.env (s.goroutine i) :=
    fun i => (h.timely i).mono hlater.1 hlater.2
  refine ⟨le_trans h.now hlater.1, ?_⟩
  cases hstep with
  | @spawn i hmain =>
    have hpc : (s.goroutine i).pc = .notStarted := by
      rw [hinv.pending, hmain]
      exact Nat.le_refl _
    intro j
    dsimp only
    by_cases heq : j = i
    . subst heq
      have hj := h.timely j
      unfold TargetWorker.Timely at hj
      rw [hpc] at hj
      rw [Function.update_self]
      exact hj
    . rw [Function.update_of_ne heq]
      exact h.timely j
  | @worker i _ g htakes =>
    intro j
    dsimp only
    by_cases heq : j = i
    . subst heq
      rw [Function.update_self]
      exact (h.timely j).step (hsound j) (hpaced j) (hinv.counts j) h.now htakes
    . rw [Function.update_of_ne heq]
      exact h.timely j
  | _ => exact hmono

theorem onTime_of_run (hsound : ∀ i, (cfg.worker i).Sound) (hpaced : ∀ i, (cfg.worker i).Paced)
    (hinterval : 0 < seconds cfg.logInterval) {now : Int} {labels : List (Label n)}
    (hrun : Run cfg.step (fun _ _ => True) (cfg.init now) labels s)
    : OnTime cfg now s := by
  have hboth : Inv cfg s ∧ OnTime cfg now s := by
    apply hrun.invariant (I := fun s => Inv cfg s ∧ OnTime cfg now s)
    . exact ⟨inv_init cfg now, le_rfl, fun _ => rfl⟩
    . intro s label t h _ hstep
      have htakes := Config.takes_of_step hstep
      exact ⟨h.1.step hsound hinterval htakes, h.2.step hsound hpaced h.1 htakes⟩
  exact hboth.2

end

def Event.isOf (i : Fin n) (event : Event n) : Bool :=
  match event with
  | .operation j | .cleanup j => j = i
  | .summary | .analyze | .returned => false

def PC.cleaned (pc : PC) : Bool :=
  match pc with
  | .leave | .ended => true
  | .notStarted | .starting | .spread _ | .test | .operation | .count | .throttle | .wait _ | .select | .cleanup
  | .crashed => false

def logOf (i : Fin n) (k : Nat) (pc : PC) : List (Event n) :=
  List.replicate k (.operation i) ++ if pc.cleaned then [.cleanup i] else []

/--
What the log says about each goroutine is where the goroutine is.
-/
structure Logged (s : State n) : Prop where
  worker : ∀ i, ∃ k, s.events.filter (Event.isOf i) = logOf i k (s.goroutine i).pc
  going : s.main ≠ .returned → .returned ∉ s.events
  returned : s.main = .returned → ∃ before, s.events = before ++ [.returned] ∧ .returned ∉ before

section

variable {cfg : Config n} {s t : State n} {label : Label n}

theorem TargetWorker.Takes.cleaned {worker : TargetWorker} {env : Env} {g g' : Goroutine} (h : worker.Takes env g g')
    : g'.pc.cleaned = (g.pc.cleaned || decide (g.pc = .cleanup)) := by
  cases h with
  | _ hpc => simp [hpc, PC.cleaned]

theorem filter_eventsOf_of_ne {i j : Fin n} (hne : j ≠ i) (pc : PC)
    : (Config.eventsOf i pc).filter (Event.isOf j) = [] := by
  cases pc with
  | operation => simp [Config.eventsOf, Event.isOf, Ne.symm hne]
  | cleanup => simp [Config.eventsOf, Event.isOf, Ne.symm hne]
  | _ => rfl

theorem returned_notMem_eventsOf (i : Fin n) (pc : PC) : .returned ∉ Config.eventsOf i pc := by
  cases pc with
  | operation => simp [Config.eventsOf]
  | cleanup => simp [Config.eventsOf]
  | _ => simp [Config.eventsOf]

theorem filter_worker {i : Fin n} {env : Env} {g g' : Goroutine} (htakes : (cfg.worker i).Takes env g g')
    {events : List (Event n)} {k : Nat} (h : events.filter (Event.isOf i) = logOf i k g.pc)
    : ∃ k', (events ++ Config.eventsOf i g.pc).filter (Event.isOf i) = logOf i k' g'.pc := by
  rw [List.filter_append, h]
  unfold logOf
  rw [htakes.cleaned]
  cases htakes with
  | operation hpc =>
    refine ⟨k + 1, ?_⟩
    rw [hpc, List.replicate_succ']
    simp [PC.cleaned, Config.eventsOf, Event.isOf]
  | cleanup hpc =>
    refine ⟨k, ?_⟩
    rw [hpc]
    simp [PC.cleaned, Config.eventsOf, Event.isOf]
  | _ hpc =>
    refine ⟨k, ?_⟩
    rw [hpc]
    simp [PC.cleaned, Config.eventsOf]

theorem Logged.concat (h : Logged s) {event : Event n} (hof : ∀ i, event.isOf i = false) (i : Fin n)
    : ∃ k, (s.events ++ [event]).filter (Event.isOf i) = logOf i k (s.goroutine i).pc := by
  rcases h.worker i with ⟨k, hk⟩
  refine ⟨k, ?_⟩
  rw [List.filter_append, hk, List.filter_singleton, hof i]
  simp

theorem Logged.step (hinv : Inv cfg s) (h : Logged s) (hstep : cfg.Takes s label t) : Logged t := by
  have hgoing := h.going
  cases hstep with
  | pass d => exact { h with }
  | cancel hcanceled => exact { h with }
  | tick hmeasurer => exact { h with }
  | @spawn i hmain =>
    rw [hmain] at hgoing
    have hpc : (s.goroutine i).pc = .notStarted := by
      rw [hinv.pending, hmain]
      exact Nat.le_refl _
    refine { h with worker := ?_, going := fun _ => hgoing (by simp), returned := by simp }
    intro j
    rcases h.worker j with ⟨k, hk⟩
    refine ⟨k, ?_⟩
    dsimp only
    by_cases heq : j = i
    . subst heq
      rw [hk, Function.update_self, hpc]
      rfl
    . rw [hk, Function.update_of_ne heq]
  | spawned hmain hle =>
    rw [hmain] at hgoing
    exact { h with going := fun _ => hgoing (by simp), returned := by simp }
  | join hmain hwg hnext =>
    rw [hmain] at hgoing
    refine { h with going := fun _ => hgoing (by simp), returned := ?_ }
    rcases hnext with rfl | rfl
    . simp
    . simp
  | analyze hmain =>
    rw [hmain] at hgoing
    exact {
      worker := h.concat (fun _ => rfl)
      going := by simpa using hgoing
      returned := by simp
    }
  | measureCancel hmain =>
    rw [hmain] at hgoing
    exact { h with going := fun _ => hgoing (by simp), returned := by simp }
  | receive hmain hch =>
    rw [hmain] at hgoing
    exact {
      worker := h.concat (fun _ => rfl)
      going := by simp
      returned := fun _ => ⟨s.events, rfl, hgoing (by simp)⟩
    }
  | start hmeasurer hnext => exact { h with }
  | warmUp hmeasurer => exact { h with }
  | warmUpCanceled hmeasurer hcanceled => exact { h with }
  | enable hmeasurer _ => exact { h with }
  | crash hmeasurer hle => exact { h with }
  | summary hmeasurer hticked =>
    -- the goroutine of the summaries has ended when `Run` returns
    have hmain : s.main ≠ .returned := by
      intro hmain
      have hended := hinv.channel.mpr (.inr hmain)
      rw [hmeasurer] at hended
      contradiction
    exact {
      worker := h.concat (fun _ => rfl)
      going := by simpa using hgoing
      returned := fun hreturned => absurd hreturned hmain
    }
  | stop hmeasurer hdone => exact { h with }
  | send hmeasurer => exact { h with }
  | @worker i _ g htakes =>
    have hmain : s.main ≠ .returned := by
      intro hmain
      apply htakes.not_ended
      apply hinv.joined
      rw [hmain]
      exact trivial
    refine { worker := ?_, going := ?_, returned := fun hreturned => absurd hreturned hmain }
    . intro j
      rcases h.worker j with ⟨k, hk⟩
      dsimp only
      by_cases heq : j = i
      . subst heq
        rw [Function.update_self]
        exact filter_worker htakes hk
      . refine ⟨k, ?_⟩
        rw [List.filter_append, filter_eventsOf_of_ne heq, List.append_nil, Function.update_of_ne heq, hk]
    . intro _
      dsimp only
      rw [List.mem_append, not_or]
      exact ⟨hgoing hmain, returned_notMem_eventsOf i _⟩

theorem logged_of_run (hsound : ∀ i, (cfg.worker i).Sound) (hinterval : 0 < seconds cfg.logInterval) {now : Int}
    {labels : List (Label n)} (hrun : Run cfg.step (fun _ _ => True) (cfg.init now) labels s)
    : Logged s := by
  have hboth : Inv cfg s ∧ Logged s := by
    apply hrun.invariant (I := fun s => Inv cfg s ∧ Logged s)
    . refine ⟨inv_init cfg now, fun _ => ⟨0, rfl⟩, ?_, ?_⟩
      . simp [Config.init]
      . simp [Config.init]
    . intro s label t h _ hstep
      have htakes := Config.takes_of_step hstep
      exact ⟨h.1.step hsound hinterval htakes, h.2.step h.1 htakes⟩
  exact hboth.2

end

end ClientRun
