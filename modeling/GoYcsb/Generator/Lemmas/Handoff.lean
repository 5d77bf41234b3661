import GoYcsb.Generator.Lemmas.Scan

/-!
This module contains the hand-off between a goroutine that fails to take the lock and the one that
holds it. The holder picks up every slot that is set before its last slot test. A slot that is set
after it is only picked up if its setter gets hold of the lock itself.
-/

open RingBuffer

def PC.StoppedAt (pc : PC) (limit stop : Int) : Prop :=
  match pc with
  | .storeLimit _ index => stop = index
  | .unlock _ => stop = limit + 1
  | .idle | .testSlot _ | .setSlot _ | .tryLock _ | .loadLimit _ | .scan _ _ _ | .panicked _ => False

instance (pc : PC) (limit stop : Int) : Decidable (pc.StoppedAt limit stop) :=
  match pc with
  | .storeLimit _ index => Int.instDecidableEq stop index
  | .unlock _ => Int.instDecidableEq stop (limit + 1)
  | .idle | .testSlot _ | .setSlot _ | .tryLock _ | .loadLimit _ | .scan _ _ _ | .panicked _ =>
    instDecidableFalse

theorem PC.StoppedAt.inScan {pc : PC} {limit stop : Int} (h : pc.StoppedAt limit stop)
    : pc.InScan := by
  cases pc with
  | storeLimit _ _ | unlock _ => trivial
  | idle | testSlot _ | setSlot _ | tryLock _ | loadLimit _ | scan _ _ _ | panicked _ =>
    simp [PC.StoppedAt] at h

namespace Goroutines

variable {G : Type u} [DecidableEq G]

/--
No goroutine gives up on the lock because of a holder that has already left its loop, having found
the very slot empty that this goroutine has set in the meantime.
-/
def NoLostHandoff (s : Goroutines G) (label : Label G) : Prop :=
  match label with
  | .next _ => True
  | .acknowledge _ _ => True
  | .step g =>
    match s.pc g with
    | .tryLock value => ∀ g', ¬ (s.pc g').StoppedAt s.a.limit value
    | _ => True

instance [Fintype G] (s : Goroutines G) (label : Label G) : Decidable (s.NoLostHandoff label) :=
  match label with
  | .next _ => instDecidableTrue
  | .acknowledge _ _ => instDecidableTrue
  | .step g =>
    let decide (pc : PC)
        : Decidable (match pc with
            | .tryLock value => ∀ g', ¬ (s.pc g').StoppedAt s.a.limit value
            | _ => True) :=
      match pc with
      | .tryLock value => inferInstanceAs (Decidable (∀ g', ¬ (s.pc g').StoppedAt s.a.limit value))
      | .idle | .testSlot _ | .setSlot _ | .loadLimit _ | .scan _ _ _ | .storeLimit _ _ | .unlock _
      | .panicked _ => instDecidableTrue
    decide (s.pc g)

/--
The number that keeps the limit from moving on: the one that the holder has stopped at, or the one
after the limit when nobody holds the lock.
-/
def Awaited (s : Goroutines G) (v : Int) : Prop :=
  (∃ g, (s.pc g).StoppedAt s.a.limit v) ∨ ((∀ g, ¬ (s.pc g).InScan) ∧ v = s.a.limit + 1)

-- If the awaited number is set, then its setter has yet to try the lock.
structure Handoff (s : Goroutines G) : Prop where
  called : ∀ v, v ∈ s.called → v ∈ s.marked ∨ ∃ g, (s.pc g).Pending v
  awaited : ∀ v, s.Awaited v → v ∈ s.marked → ∃ g, s.pc g = .tryLock v

namespace Handoff

variable {s t : Goroutines G} {g : G} {label : Label G}

omit [DecidableEq G] in
theorem new (start : Int) : Handoff (Goroutines.new start : Goroutines G) where
  called := by intro v hv; simp [Goroutines.new] at hv
  awaited := by intro v _ hv; simp [Goroutines.new] at hv

theorem tryLock_goto {pc : PC} {v : Int} (h : ∃ g', s.pc g' = .tryLock v)
    (hne : s.pc g ≠ .tryLock v)
    : ∃ g', (s.goto g pc).pc g' = .tryLock v := by
  rcases h with ⟨g', hg'⟩
  have hgg' : g' ≠ g := by
    intro heq
    subst heq
    exact hne hg'
  exact ⟨g', by simpa [goto, hgg'] using hg'⟩

theorem awaited_goto {pc : PC} {v : Int} (hpc : ¬ (s.pc g).InScan) (hpc' : ¬ pc.InScan)
    (h : (s.goto g pc).Awaited v)
    : s.Awaited v := by
  cases h with
  | inl h =>
    rcases h with ⟨g', hg'⟩
    by_cases heq : g' = g
    . subst heq
      simp only [goto, Function.update_self] at hg'
      exact absurd hg'.inScan hpc'
    . exact .inl ⟨g', by simpa [goto, heq] using hg'⟩
  | inr h =>
    refine .inr ⟨?_, h.2⟩
    intro g'
    by_cases heq : g' = g
    . subst heq
      exact hpc
    . simpa [goto, heq] using h.1 g'

theorem awaited_inside {a : AcknowledgedCounter} {pc : PC} {v : Int}
    (hothers : ∀ g', g' ≠ g → ¬ (s.pc g').InScan) (hpc : pc.InScan)
    (h : ({ s with a }.goto g pc).Awaited v)
    : pc.StoppedAt a.limit v := by
  cases h with
  | inl h =>
    rcases h with ⟨g', hg'⟩
    by_cases heq : g' = g
    . subst heq
      simpa [goto] using hg'
    . have : (s.pc g').StoppedAt a.limit v := by simpa [goto, heq] using hg'
      exact absurd this.inScan (hothers g' heq)
  | inr h => exact absurd hpc (by simpa [goto] using h.1 g)

theorem called_goto {pc : PC} (h : Handoff s) (hpc : ∀ v, (s.pc g).Pending v → pc.Pending v)
    : ∀ v, v ∈ s.called → v ∈ s.marked ∨ ∃ g', ((s.goto g pc).pc g').Pending v := by
  intro v hv
  cases h.called v hv with
  | inl hmarked => exact .inl hmarked
  | inr hpending =>
    rcases hpending with ⟨g', hg'⟩
    right
    by_cases heq : g' = g
    . subst heq
      exact ⟨g', by simpa [goto] using hpc v hg'⟩
    . exact ⟨g', by simpa [goto, heq] using hg'⟩

theorem outside {pc : PC} (h : Handoff s) (hpc : ¬ (s.pc g).InScan) (hpc' : ¬ pc.InScan)
    (hne : ∀ v, s.pc g ≠ .tryLock v) (hpending : ∀ v, (s.pc g).Pending v → pc.Pending v)
    : Handoff (s.goto g pc) where
  called := h.called_goto hpending
  awaited := by
    intro v hv hmarked
    exact tryLock_goto (h.awaited v (awaited_goto hpc hpc' hv) hmarked) (hne v)

theorem inside {a : AcknowledgedCounter} {pc : PC} (h : Handoff s)
    (hothers : ∀ g', g' ≠ g → ¬ (s.pc g').InScan) (hpc : pc.InScan)
    (hpending : ∀ v, ¬ (s.pc g).Pending v) (hstop : ∀ v, ¬ pc.StoppedAt a.limit v)
    : Handoff ({ s with a }.goto g pc) where
  called := h.called_goto (fun v hv => absurd hv (hpending v))
  awaited := by
    intro v hv
    exact absurd (awaited_inside hothers hpc hv) (hstop v)

theorem acknowledge {value : Int} (h : Handoff s) (hpc : s.pc g = .idle)
    : Handoff ({ s with called := value :: s.called }.goto g (.testSlot value)) := by
  have hout : Handoff (s.goto g (.testSlot value)) :=
    h.outside (by simp [hpc, PC.InScan]) (by simp [PC.InScan]) (by simp [hpc])
      (by simp [hpc, PC.Pending])
  refine ⟨?_, hout.awaited⟩
  intro v hv
  cases List.mem_cons.mp hv with
  | inl heq =>
    right
    exact ⟨g, by simp [goto, PC.Pending, heq]⟩
  | inr hv => exact hout.called v hv

theorem setSlot {value : Int} (h : Handoff s) (hpc : s.pc g = .setSlot value)
    (window : Fin windowSize → Bool)
    : Handoff ({ s with a := { s.a with window }, marked := value :: s.marked }.goto g
        (.tryLock value)) := by
  constructor
  . intro v hv
    by_cases heq : v = value
    . left
      rw [heq]
      exact List.mem_cons_self
    . cases h.called v hv with
      | inl hmarked => exact .inl (List.mem_cons_of_mem _ hmarked)
      | inr hpending =>
        rcases hpending with ⟨g', hg'⟩
        have hne : g' ≠ g := by
          intro hgg'
          subst hgg'
          simp only [PC.Pending, hpc, reduceCtorEq, PC.setSlot.injEq, false_or] at hg'
          exact heq hg'.symm
        right
        exact ⟨g', by simpa [goto, hne] using hg'⟩
  . intro v hv hmarked
    by_cases heq : v = value
    . exact ⟨g, by simp [goto, heq]⟩
    . have hmarked' : v ∈ s.marked := by
        simpa [goto, heq] using hmarked
      have hgoto : (s.goto g (.tryLock value)).Awaited v := hv
      have hv' : s.Awaited v :=
        awaited_goto (by simp [hpc, PC.InScan]) (by simp [PC.InScan]) hgoto
      exact tryLock_goto (h.awaited v hv' hmarked') (by simp [hpc])

theorem tryLockFail {value : Int} (h : Handoff s) (hmutex : Mutex s)
    (hlost : s.NoLostHandoff (.step g)) (hpc : s.pc g = .tryLock value) (hf : s.a.lock.f ≠ 0)
    : Handoff (s.goto g .idle) where
  called := h.called_goto (by simp [hpc, PC.Pending])
  awaited := by
    intro v hv hmarked
    have hv' : s.Awaited v := awaited_goto (by simp [hpc, PC.InScan]) (by simp [PC.InScan]) hv
    apply tryLock_goto (h.awaited v hv' hmarked)
    intro heq
    simp only [NoLostHandoff, heq] at hlost
    cases hv' with
    | inl hstop =>
      rcases hstop with ⟨g', hg'⟩
      exact hlost g' hg'
    | inr hnone =>
      rcases hmutex.held hf with ⟨g', hg'⟩
      exact hnone.1 g' hg'

theorem scanStop {start value before index : Int} (h : Handoff s) (hinv : Inv start s)
    (hpc : s.pc g = .scan value before index)
    (hstop : index = before ∨ s.a.window (slotOf index) = false)
    : Handoff (s.goto g (.storeLimit value index)) := by
  rcases hinv.scans with ⟨idx, hscans⟩
  have hindex := hscans.cursor.cursor g
  simp only [hpc, PC.CursorAt] at hindex
  have hothers := Cursor.others hinv.mutex (show (s.pc g).InScan by simp [hpc, PC.InScan])
  have hunset : index ∉ s.marked := by
    rw [hindex.1] at hstop ⊢
    apply hscans.not_marked_of_free hinv.values
    cases hstop with
    | inl heq => omega
    | inr hfree => assumption
  constructor
  . exact h.called_goto (by simp [hpc, PC.Pending])
  . intro v hv hmarked
    have hstopped : (PC.storeLimit value index).StoppedAt s.a.limit v :=
      awaited_inside hothers (by simp [PC.InScan]) hv
    simp only [PC.StoppedAt] at hstopped
    rw [hstopped] at hmarked
    exact absurd hmarked hunset

theorem storeLimit {value index : Int} (h : Handoff s) (hmutex : Mutex s)
    (hpc : s.pc g = .storeLimit value index) {limit : Int} (hlimit : limit = index - 1)
    : Handoff ({ s with a := { s.a with limit } }.goto g (.unlock value)) := by
  have hothers := Cursor.others hmutex (show (s.pc g).InScan by simp [hpc, PC.InScan])
  constructor
  . exact h.called_goto (by simp [hpc, PC.Pending])
  . intro v hv hmarked
    have hstopped : (PC.unlock value).StoppedAt limit v :=
      awaited_inside hothers (by simp [PC.InScan]) hv
    have hv' : s.Awaited v := by
      refine .inl ⟨g, ?_⟩
      simp only [PC.StoppedAt] at hstopped
      simp only [hpc, PC.StoppedAt]
      omega
    exact tryLock_goto (h.awaited v hv' hmarked) (by simp [hpc])

theorem unlock {value : Int} (h : Handoff s) (hmutex : Mutex s) (hpc : s.pc g = .unlock value)
    : Handoff ({ s with a := { s.a with lock := SpinLock.unlocked } }.goto g .idle) := by
  have hothers := Cursor.others hmutex (show (s.pc g).InScan by simp [hpc, PC.InScan])
  constructor
  . exact h.called_goto (by simp [hpc, PC.Pending])
  . intro v hv hmarked
    have hv' : s.Awaited v := by
      refine .inl ⟨g, ?_⟩
      simp only [hpc, PC.StoppedAt]
      cases hv with
      | inl hstop =>
        rcases hstop with ⟨g', hg'⟩
        by_cases heq : g' = g
        . subst heq
          simp [goto, PC.StoppedAt] at hg'
        . have : (s.pc g').StoppedAt s.a.limit v := by simpa [goto, heq] using hg'
          exact absurd this.inScan (hothers g' heq)
      | inr hnone => exact hnone.2
    exact tryLock_goto (h.awaited v hv' hmarked) (by simp [hpc])

theorem step {start : Int} (hstart : 1 ≤ start) (h : Handoff s) (hinv : Inv start s)
    (hlost : s.NoLostHandoff label) (htakes : Takes s label t)
    : Handoff t := by
  rcases hinv.scans with ⟨idx, hscans⟩
  cases htakes with
  | next g hpc => exact ⟨h.called, h.awaited⟩
  | acknowledge g value hpc => exact h.acknowledge hpc
  | testSlotPanic g value hpc hset =>
    rw [hscans.slot_free hinv.values (.inl hpc)] at hset
    simp at hset
  | testSlot g value hpc hset =>
    exact h.outside (by simp [hpc, PC.InScan]) (by simp [PC.InScan]) (by simp [hpc])
      (by simp [hpc, PC.Pending])
  | setSlot g value hpc => exact h.setSlot hpc _
  | tryLockFail g value hpc hf => exact h.tryLockFail hinv.mutex hlost hpc hf
  | tryLock g value hpc hf =>
    exact h.inside (fun g' _ => hinv.mutex.free hf g') (by simp [PC.InScan])
      (by simp [hpc, PC.Pending]) (by simp [PC.StoppedAt])
  | loadLimit g value hpc =>
    exact h.inside (Cursor.others hinv.mutex (by simp [hpc, PC.InScan])) (by simp [PC.InScan])
      (by simp [hpc, PC.Pending]) (by simp [PC.StoppedAt])
  | scanClear g value before index hpc hguard hset =>
    exact h.inside (Cursor.others hinv.mutex (by simp [hpc, PC.InScan])) (by simp [PC.InScan])
      (by simp [hpc, PC.Pending]) (by simp [PC.StoppedAt])
  | scanStop g value before index hpc hstop => exact h.scanStop hinv hpc hstop
  | storeLimit g value index hpc =>
    have hindex := hscans.cursor.cursor g
    simp only [hpc, PC.CursorAt] at hindex
    have hle := hscans.idx_le_counter hinv.values
    have hlt := hscans.cursor.lt_idx
    have hlimit := hscans.start_le
    have hfits := hinv.values.fits
    apply h.storeLimit hinv.mutex hpc
    apply I64.sub_eq
    constructor <;> omega
  | unlock g value hpc => exact h.unlock hinv.mutex hpc

end Handoff

theorem quiescent_isFrontier {start : Int} {labels : List (Label G)} {s : Goroutines G}
    (hstart : 1 ≤ start) (hrange : start < 2 ^ 63)
    (hrun : Run step
      (fun s label => s.AcksOnce label ∧ s.InWindow label ∧ s.CounterFits label
        ∧ s.NoLostHandoff label)
      (new start) labels s)
    (hquiet : s.Quiescent)
    : IsFrontier start (· ∈ s.called) s.a.last := by
  have hinv : Inv start s ∧ Handoff s := by
    apply hrun.invariant (I := fun s => Inv start s ∧ Handoff s)
    . exact ⟨Inv.new hstart hrange, Handoff.new start⟩
    . intro s label t h hallowed hstep
      have htakes := takes_of_step hstep
      exact ⟨h.1.step hstart hallowed.1 hallowed.2.1 hallowed.2.2.1 htakes,
        h.2.step hstart h.1 hallowed.2.2.2 htakes⟩
  rcases hinv with ⟨⟨hvalues, hmutex, idx, hscans⟩, hhandoff⟩
  have hnone : ∀ g, ¬ (s.pc g).InScan := by
    intro g
    simp [hquiet g, PC.InScan]
  have hidx := hscans.cursor.rest hnone
  apply IsFrontier.of_not_acked hscans.start_le
  . intro v hv1 hv2
    exact hvalues.marked v (hscans.covered v hv1 (by omega))
  . intro hcalled
    cases hhandoff.called _ hcalled with
    | inl hmarked =>
      rcases hhandoff.awaited _ (.inr ⟨hnone, rfl⟩) hmarked with ⟨g, hg⟩
      simp [hquiet g] at hg
    | inr hpending =>
      rcases hpending with ⟨g, hg⟩
      simp [hquiet g, PC.Pending] at hg

theorem quiescent_isFrontier_handed_off
    : ∃ s : Goroutines Bool,
        Run step
          (fun s label => s.AcksOnce label ∧ s.InWindow label ∧ s.CounterFits label
            ∧ s.NoLostHandoff label)
          (new 1)
          ([.next true, .next false, .acknowledge true 1, .acknowledge false 2] ++
            List.replicate 4 (.step true) ++ List.replicate 3 (.step false) ++
            List.replicate 5 (.step true))
          s
          ∧
        s.a.last = 2
          ∧
        IsFrontier 1 (· ∈ s.called) s.a.last := by
  have hexec : (Run.exec step
      (fun s label => s.AcksOnce label ∧ s.InWindow label ∧ s.CounterFits label
        ∧ s.NoLostHandoff label)
      (new 1)
      ([Label.next true, Label.next false, Label.acknowledge true 1, Label.acknowledge false 2] ++
        List.replicate 4 (Label.step true) ++ List.replicate 3 (Label.step false) ++
        List.replicate 5 (Label.step true))).any
      (fun s : Goroutines Bool => s.a.last = 2 ∧ s.pc true = .idle ∧ s.pc false = .idle) := by
    decide +kernel
  rcases Run.exists_of_exec _ hexec with ⟨s, hrun, hs⟩
  simp only [decide_eq_true_eq] at hs
  have hquiet : s.Quiescent := by
    intro g
    cases g
    . exact hs.2.2
    . exact hs.2.1
  exact ⟨s, hrun, hs.1, quiescent_isFrontier (by decide) (by decide) hrun hquiet⟩

-- The second goroutine sets its slot right after the holder of the lock has found it empty, and gives
-- up on the lock right before the holder releases it.
theorem acknowledgement_left_unreported
    : ¬ ∀ (start : Int) (labels : List (Label Bool)) (s : Goroutines Bool),
        1 ≤ start → start < 2 ^ 63 →
        Run step (fun s label => s.AcksOnce label ∧ s.InWindow label ∧ s.CounterFits label)
          (new start) labels s →
        s.Quiescent → IsFrontier start (· ∈ s.called) s.a.last := by
  intro hreports
  have hexec : (Run.exec step
      (fun s label => s.AcksOnce label ∧ s.InWindow label ∧ s.CounterFits label)
      (new 1)
      ([Label.next true, Label.next false, Label.acknowledge true 1, Label.acknowledge false 2] ++
        List.replicate 6 (Label.step true) ++ List.replicate 3 (Label.step false) ++
        List.replicate 2 (Label.step true))).any
      (fun s : Goroutines Bool => s.a.last = 1 ∧ (1 ∈ s.called ∧ 2 ∈ s.called)
        ∧ s.pc true = .idle ∧ s.pc false = .idle) := by
    decide +kernel
  rcases Run.exists_of_exec _ hexec with ⟨s, hrun, hs⟩
  simp only [decide_eq_true_eq] at hs
  rcases hs with ⟨hlast, hcalled, htrue, hfalse⟩
  have hquiet : s.Quiescent := by
    intro g
    cases g
    . exact hfalse
    . exact htrue
  have hfrontier := hreports 1 _ s (by decide) (by decide) hrun hquiet
  have hle : 2 ≤ s.a.last := by
    apply hfrontier.2
    refine ⟨by decide, ?_⟩
    intro v hv1 hv2
    rcases by omega with rfl | rfl : v = 1 ∨ v = 2
    . exact hcalled.1
    . exact hcalled.2
  omega

end Goroutines
