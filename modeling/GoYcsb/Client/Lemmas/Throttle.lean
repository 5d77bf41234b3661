import GoYcsb.Client.Impl.Run

/-!
This module contains what one worker of `Run` does while time passes: how its operations are counted and paced, and how
far it is from its end.
-/

namespace ClientRun

namespace TargetWorker

variable (worker : TargetWorker)

inductive Takes (env : Env) (g : Goroutine) : Goroutine → Prop where
  | spread {delay : Int} : g.pc = .starting → 0 < worker.targetOpsTickNs → 0 ≤ delay →
      Takes env g { g with pc := .spread (env.now + delay) }
  | crash : g.pc = .starting → worker.spreads = true → worker.targetOpsTickNs ≤ 0 →
      Takes env g { g with pc := .crashed }
  | start : g.pc = .starting → Takes env g { g with pc := .test, startTime := env.now }
  | wake {deadline : Int} : g.pc = .spread deadline → Takes env g { g with pc := .test, startTime := env.now }
  | turn : g.pc = .test → worker.opCount = 0 ∨ g.opsDone < worker.opCount → Takes env g { g with pc := .operation }
  | finish : g.pc = .test → worker.opCount ≤ g.opsDone → worker.opCount ≠ 0 → Takes env g { g with pc := .cleanup }
  | operation : g.pc = .operation → Takes env g { g with pc := .count }
  | warm : g.pc = .count → env.warmUp = true → Takes env g { g with pc := .select }
  | count : g.pc = .count → env.warmUp = false →
      Takes env g { g with pc := .throttle, opsDone := I64.add g.opsDone worker.opsCount }
  | late : g.pc = .throttle →
      (worker.hasTarget = true → g.startTime + I64.mul g.opsDone worker.targetOpsTickNs < env.now) →
      Takes env g { g with pc := .select }
  | wait : g.pc = .throttle →
      Takes env g { g with pc := .wait (g.startTime + I64.mul g.opsDone worker.targetOpsTickNs) }
  | wakeUp {deadline : Int} : g.pc = .wait deadline → env.canceled = true ∨ deadline ≤ env.now →
      Takes env g { g with pc := .select }
  | cancel : g.pc = .select → env.canceled = true → Takes env g { g with pc := .cleanup }
  | next : g.pc = .select → env.canceled = false → Takes env g { g with pc := .test }
  | cleanup : g.pc = .cleanup → Takes env g { g with pc := .leave }
  | leave : g.pc = .leave → Takes env g { g with pc := .ended }

variable {worker} {env env' : Env} {g g' : Goroutine}

theorem takes_of_step {delay : Int} (h : worker.step env g delay = some g') : worker.Takes env g g' := by
  unfold step at h
  split at h
  . contradiction
  . next hpc =>
    split at h
    . next hspreads =>
      split at h
      . next htick =>
        cases h
        exact .crash hpc hspreads htick
      . split at h
        . next hdelay =>
          cases h
          exact .spread hpc (by omega) hdelay.1
        . contradiction
    . cases h
      exact .start hpc
  . next hpc =>
    split at h
    . cases h
      exact .wake hpc
    . contradiction
  . next hpc =>
    split at h
    . next hturn =>
      cases h
      exact .turn hpc hturn
    . next hturn =>
      cases h
      exact .finish hpc (by omega) (by omega)
  . next hpc =>
    cases h
    exact .operation hpc
  . next hpc =>
    split at h
    . next hwarm =>
      cases h
      exact .warm hpc hwarm
    . next hwarm =>
      cases h
      exact .count hpc (Bool.eq_false_of_not_eq_true hwarm)
  . next hpc =>
    split at h
    . dsimp only at h
      split at h
      . next hlate =>
        cases h
        exact .late hpc (fun _ => by omega)
      . cases h
        exact .wait hpc
    . next htarget =>
      cases h
      exact .late hpc (fun h => absurd h htarget)
  . next hpc =>
    split at h
    . next hready =>
      cases h
      exact .wakeUp hpc hready
    . contradiction
  . next hpc =>
    split at h
    . next hcanceled =>
      cases h
      exact .cancel hpc hcanceled
    . next hcanceled =>
      cases h
      exact .next hpc (Bool.eq_false_of_not_eq_true hcanceled)
  . next hpc =>
    cases h
    exact .cleanup hpc
  . next hpc =>
    cases h
    exact .leave hpc
  . contradiction
  . contradiction

theorem Takes.started (h : worker.Takes env g g') : g.pc ≠ .notStarted ∧ g'.pc ≠ .notStarted := by
  cases h with
  | _ hpc => simp [hpc]

theorem Takes.not_ended (h : worker.Takes env g g') : g.pc ≠ .ended := by
  cases h with
  | _ hpc => simp [hpc]

theorem Takes.ended_iff (h : worker.Takes env g g') : g'.pc = .ended ↔ g.pc = .leave := by
  cases h with
  | _ hpc => simp [hpc]

structure Sound (worker : TargetWorker) : Prop where
  pos : 0 < worker.opCount
  size : 0 < worker.opsCount
  fits : worker.opCount + worker.opsCount ≤ 2 ^ 63
  spread : worker.spreads = true → 0 < worker.targetOpsTickNs

def Counts (worker : TargetWorker) (env : Env) (g : Goroutine) : Prop :=
  match g.pc with
  | .notStarted | .starting | .spread _ => g.opsDone = 0
  | .test | .throttle | .wait _ | .select => 0 ≤ g.opsDone ∧ g.opsDone < worker.opCount + worker.opsCount
  | .operation | .count => 0 ≤ g.opsDone ∧ g.opsDone < worker.opCount
  | .cleanup | .leave | .ended =>
    0 ≤ g.opsDone ∧ g.opsDone < worker.opCount + worker.opsCount
      ∧ (env.canceled = true ∨ worker.opCount ≤ g.opsDone)
  | .crashed => False

theorem Counts.bounds (hsound : worker.Sound) (h : worker.Counts env g)
    : 0 ≤ g.opsDone ∧ g.opsDone < worker.opCount + worker.opsCount := by
  have hpos := hsound.pos
  have hsize := hsound.size
  unfold Counts at h
  split at h
  . omega
  . omega
  . omega
  . exact h
  . exact h
  . exact h
  . exact h
  . omega
  . omega
  . exact ⟨h.1, h.2.1⟩
  . exact ⟨h.1, h.2.1⟩
  . exact ⟨h.1, h.2.1⟩
  . exact h.elim

theorem Counts.mono (h : worker.Counts env g) (hcanceled : env.canceled = true → env'.canceled = true)
    : worker.Counts env' g := by
  unfold Counts at h ⊢
  split at h
  all_goals try exact h
  all_goals exact ⟨h.1, h.2.1, h.2.2.imp_left hcanceled⟩

theorem Counts.step (hsound : worker.Sound) (h : worker.Counts env g) (hstep : worker.Takes env g g')
    : worker.Counts env g' := by
  have hpos := hsound.pos
  have hsize := hsound.size
  have hfits := hsound.fits
  unfold Counts at h
  cases hstep with
  | spread hpc =>
    rw [hpc] at h
    exact h
  | crash hpc hspreads htick =>
    have := hsound.spread hspreads
    omega
  | start hpc =>
    rw [hpc] at h
    exact ⟨h.ge, by dsimp only at h ⊢; omega⟩
  | wake hpc =>
    rw [hpc] at h
    exact ⟨h.ge, by dsimp only at h ⊢; omega⟩
  | turn hpc hturn =>
    rw [hpc] at h
    exact ⟨h.1, by dsimp only; omega⟩
  | finish hpc hle =>
    rw [hpc] at h
    exact ⟨h.1, h.2, .inr hle⟩
  | operation hpc =>
    rw [hpc] at h
    exact h
  | warm hpc hwarm =>
    rw [hpc] at h
    exact ⟨h.1, by dsimp only at h ⊢; omega⟩
  | count hpc hwarm =>
    rw [hpc] at h
    dsimp only at h
    have hadd : I64.add g.opsDone worker.opsCount = g.opsDone + worker.opsCount := by
      apply I64.add_eq
      unfold I64.InRange
      omega
    rw [hadd]
    exact ⟨by dsimp only; omega, by dsimp only; omega⟩
  | late hpc hlate =>
    rw [hpc] at h
    exact h
  | wait hpc =>
    rw [hpc] at h
    exact h
  | wakeUp hpc hready =>
    rw [hpc] at h
    exact h
  | cancel hpc hcanceled =>
    rw [hpc] at h
    exact ⟨h.1, h.2, .inl hcanceled⟩
  | next hpc hcanceled =>
    rw [hpc] at h
    exact h
  | cleanup hpc =>
    rw [hpc] at h
    exact h
  | leave hpc =>
    rw [hpc] at h
    exact h

/--
The schedule of a worker with a target can be kept: its last deadline is a time that fits.
-/
structure Paced (worker : TargetWorker) : Prop where
  target : worker.hasTarget = true
  nonneg : 0 ≤ worker.targetOpsTickNs
  fits : (worker.opCount + worker.opsCount) * worker.targetOpsTickNs < 2 ^ 63

def due (worker : TargetWorker) (g : Goroutine) : Int := g.startTime + g.opsDone * worker.targetOpsTickNs

def slack (worker : TargetWorker) : Int := worker.opsCount * worker.targetOpsTickNs

/--
A worker begins with an operation only when all operations before are due. `began` is when `Run` was called.
-/
def Timely (worker : TargetWorker) (began : Int) (env : Env) (g : Goroutine) : Prop :=
  match g.pc with
  | .notStarted | .starting | .spread _ | .crashed => g.opsDone = 0
  | .test | .operation | .count => began ≤ g.startTime ∧ worker.due g ≤ env.now
  | .throttle | .cleanup | .leave | .ended => began ≤ g.startTime ∧ worker.due g ≤ env.now + worker.slack
  | .wait deadline =>
    began ≤ g.startTime ∧ worker.due g ≤ env.now + worker.slack ∧ deadline = worker.due g
  | .select =>
    began ≤ g.startTime ∧ worker.due g ≤ env.now + worker.slack ∧ (env.canceled = true ∨ worker.due g ≤ env.now)

variable {began : Int}

theorem Timely.mono (h : worker.Timely began env g) (hnow : env.now ≤ env'.now)
    (hcanceled : env.canceled = true → env'.canceled = true)
    : worker.Timely began env' g := by
  have hlate : worker.due g ≤ env.now → worker.due g ≤ env'.now := fun hdue => le_trans hdue hnow
  have hslack : worker.due g ≤ env.now + worker.slack → worker.due g ≤ env'.now + worker.slack :=
    fun hdue => le_trans hdue (by omega)
  unfold Timely at h ⊢
  split at h
  . exact h
  . exact h
  . exact h
  . exact h
  . exact ⟨h.1, hlate h.2⟩
  . exact ⟨h.1, hlate h.2⟩
  . exact ⟨h.1, hlate h.2⟩
  . exact ⟨h.1, hslack h.2⟩
  . exact ⟨h.1, hslack h.2⟩
  . exact ⟨h.1, hslack h.2⟩
  . exact ⟨h.1, hslack h.2⟩
  . exact ⟨h.1, hslack h.2.1, h.2.2⟩
  . exact ⟨h.1, hslack h.2.1, h.2.2.imp hcanceled hlate⟩

theorem Paced.slack_nonneg (hsound : worker.Sound) (hpaced : worker.Paced) : 0 ≤ worker.slack :=
  mul_nonneg hsound.size.le hpaced.nonneg

theorem Paced.deadline (hsound : worker.Sound) (hpaced : worker.Paced) (hcounts : worker.Counts env g)
    : g.startTime + I64.mul g.opsDone worker.targetOpsTickNs = worker.due g := by
  have hbounds := hcounts.bounds hsound
  have hlower : 0 ≤ g.opsDone * worker.targetOpsTickNs := mul_nonneg hbounds.1 hpaced.nonneg
  have hupper : g.opsDone * worker.targetOpsTickNs < 2 ^ 63 :=
    lt_of_le_of_lt (mul_le_mul_of_nonneg_right hbounds.2.le hpaced.nonneg) hpaced.fits
  have hmul : I64.mul g.opsDone worker.targetOpsTickNs = g.opsDone * worker.targetOpsTickNs := by
    apply I64.wrap_eq_self
    unfold I64.InRange
    omega
  rw [hmul]
  rfl

theorem due_start (h : g.opsDone = 0) (now : Int) : worker.due { g with pc := .test, startTime := now } ≤ now := by
  unfold due
  dsimp only
  rw [h, zero_mul, add_zero]

theorem due_count (hadd : I64.add g.opsDone worker.opsCount = g.opsDone + worker.opsCount)
    : worker.due { g with pc := .throttle, opsDone := I64.add g.opsDone worker.opsCount }
        = worker.due g + worker.slack := by
  unfold due slack
  dsimp only
  rw [hadd, add_mul, add_assoc]

theorem Timely.step (hsound : worker.Sound) (hpaced : worker.Paced) (hcounts : worker.Counts env g)
    (hbegan : began ≤ env.now) (h : worker.Timely began env g) (hstep : worker.Takes env g g')
    : worker.Timely began env g' := by
  have hslack := hpaced.slack_nonneg hsound
  have hdeadline := hpaced.deadline hsound hcounts
  unfold Timely at h
  cases hstep with
  | spread hpc =>
    rw [hpc] at h
    exact h
  | crash hpc =>
    rw [hpc] at h
    exact h
  | start hpc =>
    rw [hpc] at h
    exact ⟨hbegan, due_start h env.now⟩
  | wake hpc =>
    rw [hpc] at h
    exact ⟨hbegan, due_start h env.now⟩
  | turn hpc =>
    rw [hpc] at h
    exact h
  | finish hpc =>
    rw [hpc] at h
    exact ⟨h.1, le_trans h.2 (by omega)⟩
  | operation hpc =>
    rw [hpc] at h
    exact h
  | warm hpc =>
    rw [hpc] at h
    exact ⟨h.1, le_trans h.2 (by omega), .inr h.2⟩
  | count hpc =>
    rw [hpc] at h
    refine ⟨h.1, ?_⟩
    rw [due_count]
    . exact add_le_add_left h.2 _
    . have hfits := hsound.fits
      have hsize := hsound.size
      unfold Counts at hcounts
      rw [hpc] at hcounts
      dsimp only at hcounts
      apply I64.add_eq
      unfold I64.InRange
      omega
  | late hpc hlate =>
    rw [hpc] at h
    have hnow := hlate hpaced.target
    rw [hdeadline] at hnow
    exact ⟨h.1, h.2, .inr hnow.le⟩
  | wait hpc =>
    rw [hpc] at h
    exact ⟨h.1, h.2, hdeadline⟩
  | wakeUp hpc hready =>
    rw [hpc] at h
    rw [h.2.2] at hready
    exact ⟨h.1, h.2.1, hready⟩
  | cancel hpc =>
    rw [hpc] at h
    exact ⟨h.1, h.2.1⟩
  | next hpc hcanceled =>
    rw [hpc] at h
    refine ⟨h.1, h.2.2.resolve_left ?_⟩
    rw [hcanceled]
    exact Bool.false_ne_true
  | cleanup hpc =>
    rw [hpc] at h
    exact h
  | leave hpc =>
    rw [hpc] at h
    exact h

theorem Timely.opsDone_le (hsound : worker.Sound) (hpaced : worker.Paced) (hbegan : began ≤ env.now)
    (h : worker.Timely began env g)
    : g.opsDone * worker.targetOpsTickNs ≤ env.now - began + worker.opsCount * worker.targetOpsTickNs := by
  have hslack := hpaced.slack_nonneg hsound
  unfold slack at hslack
  unfold Timely due slack at h
  split at h
  . rw [h, zero_mul]
    omega
  . rw [h, zero_mul]
    omega
  . rw [h, zero_mul]
    omega
  . rw [h, zero_mul]
    omega
  all_goals omega

end TargetWorker

def PC.toEnd (pc : PC) : Nat :=
  match pc with
  | .notStarted => 11
  | .starting => 10
  | .spread _ => 9
  | .test => 8
  | .operation => 7
  | .count => 6
  | .throttle => 5
  | .wait _ => 4
  | .select => 3
  | .cleanup => 2
  | .leave => 1
  | .ended | .crashed => 0

def PC.inTurn (pc : PC) : Nat :=
  match pc with
  | .notStarted | .throttle => 6
  | .starting | .wait _ => 5
  | .spread _ | .select => 4
  | .test => 3
  | .operation | .cleanup => 2
  | .count | .leave => 1
  | .ended | .crashed => 0

namespace TargetWorker

variable {worker : TargetWorker} {env : Env} {g g' : Goroutine}

def rank (worker : TargetWorker) (canceled : Bool) (g : Goroutine) : Nat :=
  if canceled then
    g.pc.toEnd
  else
    6 * (worker.opCount - g.opsDone).toNat + g.pc.inTurn + 11

theorem rank_cancel (worker : TargetWorker) (g : Goroutine) : worker.rank true g ≤ worker.rank false g := by
  have hle : g.pc.toEnd ≤ 11 := by
    unfold PC.toEnd
    split <;> omega
  unfold rank
  rw [if_pos rfl, if_neg Bool.false_ne_true]
  omega

theorem rank_step (hsound : worker.Sound) (hcounts : worker.Counts env g)
    (hdraining : env.canceled = true ∨ env.warmUp = false) (hstep : worker.Takes env g g')
    : worker.rank env.canceled g' < worker.rank env.canceled g := by
  have hpos := hsound.pos
  have hsize := hsound.size
  have hfits := hsound.fits
  unfold rank
  cases hcanceled : env.canceled with
  | true =>
    rw [if_pos rfl, if_pos rfl]
    cases hstep with
    | next hpc hnot =>
      rw [hcanceled] at hnot
      contradiction
    | _ hpc =>
      rw [hpc]
      dsimp only [PC.toEnd]
      omega
  | false =>
    rw [if_neg Bool.false_ne_true, if_neg Bool.false_ne_true]
    cases hstep with
    | cancel hpc hcancel =>
      rw [hcanceled] at hcancel
      contradiction
    | warm hpc hwarm =>
      rw [hcanceled, hwarm] at hdraining
      simp at hdraining
    | count hpc hwarm =>
      unfold Counts at hcounts
      rw [hpc] at hcounts ⊢
      dsimp only at hcounts
      have hadd : I64.add g.opsDone worker.opsCount = g.opsDone + worker.opsCount := by
        apply I64.add_eq
        unfold I64.InRange
        omega
      rw [hadd]
      dsimp only [PC.inTurn]
      omega
    | _ hpc =>
      rw [hpc]
      dsimp only [PC.inTurn]
      omega

theorem exists_step (hcounts : worker.Counts env g) (hstarted : g.pc ≠ .notStarted) (hended : g.pc ≠ .ended)
    : ∃ (d : Nat) (delay : Int) (g' : Goroutine), worker.step { env with now := env.now + d } g delay = some g' := by
  rcases g with ⟨pc, startTime, opsDone⟩
  cases pc with
  | notStarted => contradiction
  | ended => contradiction
  | crashed => exact hcounts.elim
  | starting =>
    refine ⟨0, 0, ?_⟩
    unfold step
    dsimp only
    by_cases hspreads : worker.spreads = true
    . rw [if_pos hspreads]
      by_cases htick : worker.targetOpsTickNs ≤ 0
      . exact ⟨_, if_pos htick⟩
      . rw [if_neg htick, if_pos ⟨le_rfl, by omega⟩]
        exact ⟨_, rfl⟩
    . exact ⟨_, if_neg hspreads⟩
  | spread deadline =>
    refine ⟨(deadline - env.now).toNat, 0, _, if_pos ?_⟩
    dsimp only
    omega
  | test =>
    refine ⟨0, 0, ?_⟩
    unfold step
    dsimp only
    split
    . exact ⟨_, rfl⟩
    . exact ⟨_, rfl⟩
  | operation => exact ⟨0, 0, _, rfl⟩
  | count =>
    refine ⟨0, 0, ?_⟩
    unfold step
    dsimp only
    split
    . exact ⟨_, rfl⟩
    . exact ⟨_, rfl⟩
  | throttle =>
    refine ⟨0, 0, ?_⟩
    unfold step
    dsimp only
    split
    . split
      . exact ⟨_, rfl⟩
      . exact ⟨_, rfl⟩
    . exact ⟨_, rfl⟩
  | wait deadline =>
    refine ⟨(deadline - env.now).toNat, 0, _, if_pos ?_⟩
    right
    dsimp only
    omega
  | select =>
    refine ⟨0, 0, ?_⟩
    unfold step
    dsimp only
    split
    . exact ⟨_, rfl⟩
    . exact ⟨_, rfl⟩
  | cleanup => exact ⟨0, 0, _, rfl⟩
  | leave => exact ⟨0, 0, _, rfl⟩

end TargetWorker

end ClientRun
