import GoYcsb.Client.Lemmas.Run

/-!
This module contains why `Run` returns: once the warm-up is over or the context is canceled, each step of a goroutine
brings it nearer to its end, and as long as it has not returned some goroutine can go on.
-/

namespace ClientRun

variable {n : Nat}

def MainPC.rank (n : Nat) (main : MainPC) : Nat :=
  match main with
  | .spawn i => n - i + 5
  | .wait => 4
  | .analyze => 3
  | .cancel => 2
  | .receive => 1
  | .returned => 0

def MeasurerPC.rank (measurer : MeasurerPC) : Nat :=
  match measurer with
  | .start => 5
  | .warmUp _ => 4
  | .enable => 3
  | .loop => 2
  | .send => 1
  | .ended | .crashed => 0

-- A bound for the steps that are left, save for the summaries of ticks that are still to come.
def Config.rank (cfg : Config n) (s : State n) : Nat :=
  s.main.rank n + (s.measurer.rank + s.ticked.toNat) + ∑ i, (cfg.worker i).rank s.env.canceled (s.goroutine i)

def State.Draining (s : State n) : Prop := s.env.canceled = true ∨ s.env.warmUp = false

section

variable {cfg : Config n} {s t : State n} {label : Label n}

theorem State.Draining.step (h : s.Draining) (hstep : cfg.Takes s label t) : t.Draining := by
  cases hstep with
  | cancel hcanceled => exact .inl rfl
  | enable hmeasurer _ => exact .inr rfl
  | crash hmeasurer _ => exact .inr rfl
  | _ => exact h

theorem sum_rank_update {canceled : Bool} {goroutine : Fin n → Goroutine} {i : Fin n} {g : Goroutine}
    (h : (cfg.worker i).rank canceled g < (cfg.worker i).rank canceled (goroutine i))
    : ∑ j, (cfg.worker j).rank canceled (Function.update goroutine i g j)
        <
      ∑ j, (cfg.worker j).rank canceled (goroutine j) := by
  have hsum := sum_update (fun j => (cfg.worker j).rank canceled) goroutine i g
  omega

theorem rank_starting {worker : TargetWorker} {canceled : Bool} {g : Goroutine} (h : g.pc = .notStarted)
    : worker.rank canceled { g with pc := .starting } < worker.rank canceled g := by
  unfold TargetWorker.rank
  rw [h]
  dsimp only [PC.toEnd, PC.inTurn]
  split
  . omega
  . omega

theorem rank_step (hsound : ∀ i, (cfg.worker i).Sound) (hinv : Inv cfg s) (hdraining : s.Draining)
    (hstep : cfg.Takes s label t)
    : cfg.rank t + label.isOwn.toNat ≤ cfg.rank s + label.isTick.toNat := by
  unfold Config.rank
  cases hstep with
  | pass d => exact le_rfl
  | cancel hcanceled =>
    dsimp only [Label.isOwn, Label.isTick]
    have hsum : ∑ i, (cfg.worker i).rank true (s.goroutine i) ≤ ∑ i, (cfg.worker i).rank false (s.goroutine i) :=
      Finset.sum_le_sum (fun i _ => TargetWorker.rank_cancel _ _)
    rw [hcanceled]
    omega
  | tick hmeasurer =>
    have hle := Bool.toNat_le s.ticked
    dsimp only [Label.isOwn, Label.isTick, Bool.toNat_true, Bool.toNat_false]
    omega
  | @spawn i hmain =>
    have hpc : (s.goroutine i).pc = .notStarted := by
      rw [hinv.pending, hmain]
      exact Nat.le_refl _
    have hlower : (cfg.worker i).rank s.env.canceled { s.goroutine i with pc := .starting }
        < (cfg.worker i).rank s.env.canceled (s.goroutine i) := rank_starting hpc
    have hsum := sum_rank_update hlower
    have hlt := i.isLt
    dsimp only [Label.isOwn, Label.isTick, MainPC.rank, Bool.toNat_true, Bool.toNat_false] at hsum ⊢
    rw [hmain]
    dsimp only
    omega
  | spawned hmain hle =>
    dsimp only [Label.isOwn, Label.isTick, MainPC.rank, Bool.toNat_true, Bool.toNat_false]
    rw [hmain]
    dsimp only
    omega
  | join hmain hwg hnext =>
    rw [hmain]
    rcases hnext with rfl | rfl
    . dsimp only [Label.isOwn, Label.isTick, MainPC.rank, Bool.toNat_true, Bool.toNat_false]
      omega
    . dsimp only [Label.isOwn, Label.isTick, MainPC.rank, Bool.toNat_true, Bool.toNat_false]
      omega
  | analyze hmain =>
    rw [hmain]
    dsimp only [Label.isOwn, Label.isTick, MainPC.rank, Bool.toNat_true, Bool.toNat_false]
    omega
  | measureCancel hmain =>
    rw [hmain]
    dsimp only [Label.isOwn, Label.isTick, MainPC.rank, Bool.toNat_true, Bool.toNat_false]
    omega
  | receive hmain hch =>
    rw [hmain]
    dsimp only [Label.isOwn, Label.isTick, MainPC.rank, Bool.toNat_true, Bool.toNat_false]
    omega
  | start hmeasurer hnext =>
    rw [hmeasurer]
    rcases hnext with ⟨deadline, rfl⟩ | rfl
    . dsimp only [Label.isOwn, Label.isTick, MeasurerPC.rank, Bool.toNat_true, Bool.toNat_false]
      omega
    . dsimp only [Label.isOwn, Label.isTick, MeasurerPC.rank, Bool.toNat_true, Bool.toNat_false]
      omega
  | summary hmeasurer hticked =>
    rw [hticked]
    dsimp only [Label.isOwn, Label.isTick, Bool.toNat_true, Bool.toNat_false]
    omega
  | worker htakes =>
    have hlt := TargetWorker.rank_step (hsound _) (hinv.counts _) hdraining htakes
    have hsum := sum_rank_update hlt
    dsimp only [Label.isOwn, Label.isTick, Bool.toNat_true, Bool.toNat_false] at hsum ⊢
    omega
  | _ hmeasurer =>
    rw [hmeasurer]
    dsimp only [Label.isOwn, Label.isTick, MeasurerPC.rank, Bool.toNat_true, Bool.toNat_false]
    omega

theorem countP_concat (f : Label n → Bool) (labels : List (Label n)) (label : Label n)
    : (labels ++ [label]).countP f = labels.countP f + (f label).toNat := by
  rw [List.countP_append, List.countP_singleton]
  cases f label with
  | true => rfl
  | false => rfl

theorem own_le (hsound : ∀ i, (cfg.worker i).Sound) (hinterval : 0 < seconds cfg.logInterval) (hinv : Inv cfg s)
    (hdraining : s.Draining) {labels : List (Label n)} (hrun : Run cfg.step (fun _ _ => True) s labels t)
    : Inv cfg t ∧ t.Draining
        ∧ labels.countP Label.isOwn + cfg.rank t ≤ cfg.rank s + labels.countP Label.isTick := by
  induction hrun with
  | nil => exact ⟨hinv, hdraining, by simp⟩
  | snoc _ _ hstep ih =>
    rcases ih with ⟨hinv', hdraining', hle⟩
    have htakes := Config.takes_of_step hstep
    have hrank := rank_step hsound hinv' hdraining' htakes
    refine ⟨hinv'.step hsound hinterval htakes, hdraining'.step htakes, ?_⟩
    rw [countP_concat, countP_concat]
    omega

def State.CanGoOn (cfg : Config n) (s : State n) : Prop :=
  ∃ (d : Nat) (label : Label n) (t : State n),
    Run cfg.step (fun _ _ => True) s [.pass d, label] t ∧ label.isOwn = true

theorem canGoOn_of_step {d : Nat} (hown : label.isOwn = true)
    (hstep : cfg.step { s with env := { s.env with now := s.env.now + d } } label = some t)
    : s.CanGoOn cfg := by
  refine ⟨d, label, t, ?_, hown⟩
  have hpass : cfg.step s (.pass d) = some { s with env := { s.env with now := s.env.now + d } } := rfl
  exact Run.cons trivial hpass (Run.cons trivial hstep .nil)

theorem canGoOn_worker (hinv : Inv cfg s) {i : Fin n} (hstarted : (s.goroutine i).pc ≠ .notStarted)
    (hended : (s.goroutine i).pc ≠ .ended)
    : s.CanGoOn cfg := by
  rcases TargetWorker.exists_step (hinv.counts i) hstarted hended with ⟨d, delay, g, hstep⟩
  have hworker : ∃ t, cfg.step { s with env := { s.env with now := s.env.now + d } } (.worker i delay) = some t := by
    dsimp only [Config.step, Config.workerStep]
    rw [hstep]
    exact ⟨_, rfl⟩
  rcases hworker with ⟨t, ht⟩
  exact canGoOn_of_step rfl ht

theorem canGoOn_measurer (hinv : Inv cfg s) (hcanceled : s.measureCanceled = true) (hended : s.measurer ≠ .ended)
    : s.CanGoOn cfg := by
  have hmeasurer : ∃ (d : Nat) (timer : Bool) (t : State n),
      cfg.measurerStep { s with env := { s.env with now := s.env.now + d } } timer = some t := by
    unfold Config.measurerStep
    dsimp only
    cases hpc : s.measurer with
    | start =>
      refine ⟨0, true, ?_⟩
      dsimp only
      split
      . exact ⟨_, rfl⟩
      . exact ⟨_, rfl⟩
    | warmUp deadline =>
      have hfires : deadline ≤ s.env.now + ((deadline - s.env.now).toNat : Int) := by omega
      refine ⟨(deadline - s.env.now).toNat, true, ?_⟩
      dsimp only
      rw [if_pos rfl, if_pos hfires]
      exact ⟨_, rfl⟩
    | enable =>
      refine ⟨0, true, ?_⟩
      dsimp only
      split
      . exact ⟨_, rfl⟩
      . exact ⟨_, rfl⟩
    | loop =>
      refine ⟨0, false, ?_⟩
      dsimp only
      rw [if_neg Bool.false_ne_true, if_pos (.inr hcanceled)]
      exact ⟨_, rfl⟩
    | send => exact ⟨0, true, _, rfl⟩
    | ended => exact absurd hpc hended
    | crashed => exact absurd hpc hinv.crashed
  rcases hmeasurer with ⟨d, timer, t, ht⟩
  have hstep : cfg.step { s with env := { s.env with now := s.env.now + d } } (.measurer timer) = some t := ht
  exact canGoOn_of_step rfl hstep

theorem canGoOn_main {t : State n}
    (hstep : cfg.mainStep { s with env := { s.env with now := s.env.now + (0 : Nat) } } = some t)
    : s.CanGoOn cfg := by
  have hmain : cfg.step { s with env := { s.env with now := s.env.now + (0 : Nat) } } .main = some t := hstep
  exact canGoOn_of_step rfl hmain

theorem canGoOn (hinv : Inv cfg s) (hreturned : s.main ≠ .returned) : s.CanGoOn cfg := by
  cases hmain : s.main with
  | spawn i =>
    have hstep : ∃ t, cfg.mainStep { s with env := { s.env with now := s.env.now + (0 : Nat) } } = some t := by
      unfold Config.mainStep
      dsimp only
      rw [hmain]
      dsimp only
      split
      . exact ⟨_, rfl⟩
      . exact ⟨_, rfl⟩
    rcases hstep with ⟨t, ht⟩
    exact canGoOn_main ht
  | wait =>
    by_cases hall : ∀ i, (s.goroutine i).pc = .ended
    . -- all workers have left the wait group
      have hwg : s.wg = 0 := by
        rw [hinv.wg]
        exact_mod_cast Finset.sum_eq_zero (fun i _ => if_pos (hall i))
      apply canGoOn_main
      unfold Config.mainStep
      dsimp only
      rw [hmain]
      dsimp only
      rw [if_pos hwg]
    . rw [not_forall] at hall
      rcases hall with ⟨i, hi⟩
      apply canGoOn_worker hinv _ hi
      rw [ne_eq, hinv.pending, hmain]
      exact id
  | analyze =>
    apply canGoOn_main
    unfold Config.mainStep
    dsimp only
    rw [hmain]
  | cancel =>
    apply canGoOn_main
    unfold Config.mainStep
    dsimp only
    rw [hmain]
  | receive =>
    by_cases hended : s.measurer = .ended
    . have hch : s.measureCh = true := by
        rcases hinv.channel.mp hended with hch | hback
        . exact hch
        . exact absurd hback hreturned
      apply canGoOn_main
      unfold Config.mainStep
      dsimp only
      rw [hmain]
      dsimp only
      rw [if_pos hch]
    . exact canGoOn_measurer hinv (hinv.canceled hmain) hended
  | returned => exact absurd hmain hreturned

end

end ClientRun
