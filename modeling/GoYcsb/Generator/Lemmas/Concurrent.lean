import GoYcsb.Generator.Impl.Concurrent
import GoYcsb.Generator.Lemmas.AcknowledgedCounter
import Mathlib.Logic.Function.Basic

/-!
This module contains what holds of the goroutines in every interleaving of their atomic steps,
however many values are outstanding: the bookkeeping of the values and the mutual exclusion.
-/

open RingBuffer

namespace Goroutines

variable {G : Type u} [DecidableEq G]

inductive Takes (s : Goroutines G) : Label G → Goroutines G → Prop where
  | next (g : G) : s.pc g = .idle →
      Takes s (.next g) { s with a := s.a.next.2, issued := s.a.next.1 :: s.issued }
  | acknowledge (g : G) (value : Int) : s.pc g = .idle →
      Takes s (.acknowledge g value)
        ({ s with called := value :: s.called }.goto g (.testSlot value))
  | testSlotPanic (g : G) (value : Int) : s.pc g = .testSlot value →
      s.a.window (slotOf value) = true →
      Takes s (.step g) (s.goto g (.panicked value))
  | testSlot (g : G) (value : Int) : s.pc g = .testSlot value →
      s.a.window (slotOf value) = false →
      Takes s (.step g) (s.goto g (.setSlot value))
  | setSlot (g : G) (value : Int) : s.pc g = .setSlot value →
      Takes s (.step g)
        ({ s with
            a := { s.a with window := Function.update s.a.window (slotOf value) true }
            marked := value :: s.marked }.goto g (.tryLock value))
  | tryLockFail (g : G) (value : Int) : s.pc g = .tryLock value → s.a.lock.f ≠ 0 →
      Takes s (.step g) (s.goto g .idle)
  | tryLock (g : G) (value : Int) : s.pc g = .tryLock value → s.a.lock.f = 0 →
      Takes s (.step g) ({ s with a := { s.a with lock := ⟨1⟩ } }.goto g (.loadLimit value))
  | loadLimit (g : G) (value : Int) : s.pc g = .loadLimit value →
      Takes s (.step g)
        (s.goto g (.scan value (I64.land s.a.limit windowMask) (I64.add s.a.limit 1)))
  | scanClear (g : G) (value before index : Int) : s.pc g = .scan value before index →
      index ≠ before → s.a.window (slotOf index) = true →
      Takes s (.step g)
        ({ s with
            a := { s.a with window := Function.update s.a.window (slotOf index) false }
            }.goto g (.scan value before (I64.add index 1)))
  | scanStop (g : G) (value before index : Int) : s.pc g = .scan value before index →
      index = before ∨ s.a.window (slotOf index) = false →
      Takes s (.step g) (s.goto g (.storeLimit value index))
  | storeLimit (g : G) (value index : Int) : s.pc g = .storeLimit value index →
      Takes s (.step g) ({ s with a := { s.a with limit := I64.sub index 1 } }.goto g (.unlock value))
  | unlock (g : G) (value : Int) : s.pc g = .unlock value →
      Takes s (.step g) ({ s with a := { s.a with lock := SpinLock.unlocked } }.goto g .idle)

theorem takes_of_step {s t : Goroutines G} {label : Label G} (h : s.step label = some t)
    : Takes s label t := by
  cases label with
  | next g =>
    simp only [step, Option.ite_none_right_eq_some, Option.some.injEq] at h
    rcases h with ⟨hpc, rfl⟩
    exact .next g hpc
  | acknowledge g value =>
    simp only [step, Option.ite_none_right_eq_some, Option.some.injEq] at h
    rcases h with ⟨hpc, rfl⟩
    exact .acknowledge g value hpc
  | step g =>
    simp only [step] at h
    unfold atomic at h
    split at h
    . simp at h
    . next value hpc =>
      split at h
      . next hset =>
        simp only [Option.some.injEq] at h
        subst h
        exact .testSlotPanic g value hpc hset
      . next hset =>
        simp only [Option.some.injEq] at h
        subst h
        exact .testSlot g value hpc (by simpa using hset)
    . next value hpc =>
      simp only [Option.some.injEq] at h
      subst h
      exact .setSlot g value hpc
    . next value hpc =>
      unfold SpinLock.tryLock at h
      by_cases hf : s.a.lock.f = 0
      . simp only [hf, ↓reduceIte, Option.some.injEq] at h
        subst h
        exact .tryLock g value hpc hf
      . simp only [hf, ↓reduceIte, Option.some.injEq] at h
        subst h
        exact .tryLockFail g value hpc hf
    . next value hpc =>
      simp only [Option.some.injEq] at h
      subst h
      exact .loadLimit g value hpc
    . next value before index hpc =>
      split at h
      . next hguard =>
        split at h
        . next hset =>
          simp only [Option.some.injEq] at h
          subst h
          exact .scanStop g value before index hpc (.inr (by simpa using hset))
        . next hset =>
          simp only [Option.some.injEq] at h
          subst h
          exact .scanClear g value before index hpc hguard (by simpa using hset)
      . next hguard =>
        simp only [Option.some.injEq] at h
        subst h
        exact .scanStop g value before index hpc (.inl (by simpa using hguard))
    . next value index hpc =>
      simp only [Option.some.injEq] at h
      subst h
      exact .storeLimit g value index hpc
    . next value hpc =>
      simp only [Option.some.injEq] at h
      subst h
      exact .unlock g value hpc
    . simp at h

theorem pending_goto {s : Goroutines G} {g : G} {pc : PC}
    (h : ∀ v, pc.Pending v → (s.pc g).Pending v)
    : ∀ g' v, ((s.goto g pc).pc g').Pending v → (s.pc g').Pending v := by
  intro g' v hv
  by_cases heq : g' = g
  . subst heq
    apply h
    simpa [goto] using hv
  . simpa [goto, heq] using hv

theorem inScan_goto {s : Goroutines G} {g : G} {pc : PC} (h : pc.InScan ↔ (s.pc g).InScan)
    : ∀ g', ((s.goto g pc).pc g').InScan ↔ (s.pc g').InScan := by
  intro g'
  by_cases heq : g' = g
  . subst heq
    simpa [goto] using h
  . simp [goto, heq]

section

omit [DecidableEq G]

-- The bookkeeping of the values: a value is issued by `Next`, then `Acknowledge` is called with it and
-- then its slot is set, where at most one goroutine is in charge of it.
structure Values (start : Int) (s : Goroutines G) : Prop where
  start_le : start ≤ s.a.c.counter
  fits : s.a.c.counter < 2 ^ 63
  issued : ∀ v, v ∈ s.issued ↔ start ≤ v ∧ v < s.a.c.counter
  called : ∀ v, v ∈ s.called → v ∈ s.issued
  marked : ∀ v, v ∈ s.marked → v ∈ s.called
  nodup : s.marked.Nodup
  pending : ∀ g v, (s.pc g).Pending v → v ∈ s.called ∧ v ∉ s.marked
  pending_inj : ∀ g g' v, (s.pc g).Pending v → (s.pc g').Pending v → g = g'

namespace Values

variable {start : Int} {s : Goroutines G}

theorem new (hfits : start < 2 ^ 63)
    : Values start (Goroutines.new start : Goroutines G) where
  start_le := Int.le_refl start
  fits := hfits
  issued := by
    intro v
    simp only [Goroutines.new, AcknowledgedCounter.new, Counter.new, List.not_mem_nil, false_iff,
      not_and]
    omega
  called := by intro v hv; simp [Goroutines.new] at hv
  marked := by intro v hv; simp [Goroutines.new] at hv
  nodup := by simp [Goroutines.new]
  pending := by intro g v hv; simp [Goroutines.new, PC.Pending] at hv
  pending_inj := by intro g g' v hv; simp [Goroutines.new, PC.Pending] at hv

theorem issued_of_marked (h : Values start s) {v : Int} (hv : v ∈ s.marked)
    : start ≤ v ∧ v < s.a.c.counter := by
  apply (h.issued v).mp
  apply h.called
  apply h.marked
  assumption

theorem congr {t : Goroutines G} (h : Values start s) (hc : t.a.c = s.a.c)
    (hissued : t.issued = s.issued) (hcalled : t.called = s.called) (hmarked : t.marked = s.marked)
    (hpc : ∀ g v, (t.pc g).Pending v → (s.pc g).Pending v)
    : Values start t where
  start_le := by rw [hc]; exact h.start_le
  fits := by rw [hc]; exact h.fits
  issued := by rw [hc, hissued]; exact h.issued
  called := by rw [hissued, hcalled]; exact h.called
  marked := by rw [hcalled, hmarked]; exact h.marked
  nodup := by rw [hmarked]; exact h.nodup
  pending := by
    intro g v hv
    rw [hcalled, hmarked]
    exact h.pending g v (hpc g v hv)
  pending_inj := by
    intro g g' v hv hv'
    exact h.pending_inj g g' v (hpc g v hv) (hpc g' v hv')

end Values

end

namespace Values

variable {start : Int} {s t : Goroutines G} {label : Label G}

theorem acknowledge {g : G} {value : Int} (h : Values start s) (hpc : s.pc g = .idle)
    (hissued : value ∈ s.issued) (hcalled : value ∉ s.called)
    : Values start ({ s with called := value :: s.called }.goto g (.testSlot value)) := by
  -- the goroutine is in charge of the new value, all the others keep theirs
  have hpending : ∀ g' v, ((s.goto g (.testSlot value)).pc g').Pending v →
      (g' = g ∧ v = value) ∨ (g' ≠ g ∧ (s.pc g').Pending v) := by
    intro g' v hv
    by_cases heq : g' = g
    . subst heq
      simp only [goto, PC.Pending, Function.update_self, PC.testSlot.injEq, reduceCtorEq,
        or_false] at hv
      exact .inl ⟨rfl, hv.symm⟩
    . exact .inr ⟨heq, by simpa [goto, heq] using hv⟩
  refine
    {
      start_le := h.start_le
      fits := h.fits
      issued := h.issued
      called := ?_
      marked := ?_
      nodup := h.nodup
      pending := ?_
      pending_inj := ?_
    }
  . intro v hv
    cases List.mem_cons.mp hv with
    | inl heq =>
      rw [heq]
      exact hissued
    | inr hv => exact h.called v hv
  . intro v hv
    exact List.mem_cons_of_mem _ (h.marked v hv)
  . intro g' v hv
    cases hpending g' v hv with
    | inl heq =>
      rw [heq.2]
      refine ⟨List.mem_cons_self, ?_⟩
      intro hmem
      exact hcalled (h.marked value hmem)
    | inr hold =>
      have := h.pending g' v hold.2
      exact ⟨List.mem_cons_of_mem _ this.1, this.2⟩
  . intro g' g'' v hv hv'
    cases hpending g' v hv with
    | inl heq =>
      cases hpending g'' v hv' with
      | inl heq' => rw [heq.1, heq'.1]
      | inr hold' =>
        rw [heq.2] at hold'
        exact absurd (h.pending g'' value hold'.2).1 hcalled
    | inr hold =>
      cases hpending g'' v hv' with
      | inl heq' =>
        rw [heq'.2] at hold
        exact absurd (h.pending g' value hold.2).1 hcalled
      | inr hold' => exact h.pending_inj g' g'' v hold.2 hold'.2

theorem setSlot {g : G} {value : Int} (h : Values start s) (hpc : s.pc g = .setSlot value)
    (a : AcknowledgedCounter) (hc : a.c = s.a.c)
    : Values start ({ s with a, marked := value :: s.marked }.goto g (.tryLock value)) := by
  have hvalue : (s.pc g).Pending value := by simp [PC.Pending, hpc]
  have hpending : ∀ g' v, ((s.goto g (.tryLock value)).pc g').Pending v →
      v ≠ value ∧ (s.pc g').Pending v := by
    intro g' v hv
    by_cases heq : g' = g
    . subst heq
      simp [goto, PC.Pending] at hv
    . have hold : (s.pc g').Pending v := by simpa [goto, heq] using hv
      refine ⟨?_, hold⟩
      intro hveq
      subst hveq
      exact heq (h.pending_inj g' g v hold hvalue)
  refine
    {
      start_le := by simp only [goto, hc]; exact h.start_le
      fits := by simp only [goto, hc]; exact h.fits
      issued := by simp only [goto, hc]; exact h.issued
      called := h.called
      marked := ?_
      nodup := ?_
      pending := ?_
      pending_inj := ?_
    }
  . intro v hv
    cases List.mem_cons.mp hv with
    | inl heq =>
      rw [heq]
      exact (h.pending g value hvalue).1
    | inr hv => exact h.marked v hv
  . exact List.nodup_cons.mpr ⟨(h.pending g value hvalue).2, h.nodup⟩
  . intro g' v hv
    rcases hpending g' v hv with ⟨hne, hold⟩
    have := h.pending g' v hold
    refine ⟨this.1, ?_⟩
    intro hmem
    cases List.mem_cons.mp hmem with
    | inl heq => exact hne heq
    | inr hmem => exact this.2 hmem
  . intro g' g'' v hv hv'
    exact h.pending_inj g' g'' v (hpending g' v hv).2 (hpending g'' v hv').2

theorem step (hstart : 1 ≤ start) (h : Values start s) (honce : s.AcksOnce label)
    (hfits : s.CounterFits label) (htakes : Takes s label t)
    : Values start t := by
  have hle := h.start_le
  cases htakes with
  | next g hpc =>
    have hnext : s.a.c.next = (s.a.c.counter, ⟨s.a.c.counter + 1⟩) :=
      Counter.next_eq hfits (by omega)
    simp only [AcknowledgedCounter.next, hnext]
    exact
      {
        start_le := by simp only; omega
        fits := hfits
        issued := by
          intro v
          simp only [List.mem_cons, h.issued]
          omega
        called := by
          intro v hv
          exact List.mem_cons_of_mem _ (h.called v hv)
        marked := h.marked
        nodup := h.nodup
        pending := h.pending
        pending_inj := h.pending_inj
      }
  | acknowledge g value hpc => exact h.acknowledge hpc honce.1 honce.2
  | testSlotPanic g value hpc hset =>
    exact h.congr rfl rfl rfl rfl (pending_goto (by simp [PC.Pending]))
  | testSlot g value hpc hset =>
    exact h.congr rfl rfl rfl rfl (pending_goto (by simp [PC.Pending, hpc]))
  | setSlot g value hpc => exact h.setSlot hpc _ rfl
  | tryLockFail g value hpc hf =>
    exact h.congr rfl rfl rfl rfl (pending_goto (by simp [PC.Pending]))
  | tryLock g value hpc hf =>
    exact h.congr rfl rfl rfl rfl (pending_goto (by simp [PC.Pending]))
  | loadLimit g value hpc =>
    exact h.congr rfl rfl rfl rfl (pending_goto (by simp [PC.Pending]))
  | scanClear g value before index hpc hguard hset =>
    exact h.congr rfl rfl rfl rfl (pending_goto (by simp [PC.Pending]))
  | scanStop g value before index hpc hstop =>
    exact h.congr rfl rfl rfl rfl (pending_goto (by simp [PC.Pending]))
  | storeLimit g value index hpc =>
    exact h.congr rfl rfl rfl rfl (pending_goto (by simp [PC.Pending]))
  | unlock g value hpc =>
    exact h.congr rfl rfl rfl rfl (pending_goto (by simp [PC.Pending]))

end Values

structure Mutex (s : Goroutines G) : Prop where
  free : s.a.lock.f = 0 → ∀ g, ¬ (s.pc g).InScan
  held : s.a.lock.f ≠ 0 → ∃ g, (s.pc g).InScan
  unique : ∀ g g', (s.pc g).InScan → (s.pc g').InScan → g = g'

namespace Mutex

variable {s t : Goroutines G} {label : Label G}

omit [DecidableEq G] in
theorem new (start : Int) : Mutex (Goroutines.new start : Goroutines G) where
  free := by intro _ g; simp [Goroutines.new, PC.InScan]
  held := by intro hf; exact absurd rfl hf
  unique := by intro g g' hg; simp [Goroutines.new, PC.InScan] at hg

omit [DecidableEq G] in
theorem congr (h : Mutex s) (hlock : t.a.lock = s.a.lock)
    (hpc : ∀ g, (t.pc g).InScan ↔ (s.pc g).InScan)
    : Mutex t where
  free := by
    intro hf g
    rw [hpc]
    rw [hlock] at hf
    exact h.free hf g
  held := by
    intro hf
    rw [hlock] at hf
    rcases h.held hf with ⟨g, hg⟩
    exact ⟨g, (hpc g).mpr hg⟩
  unique := by
    intro g g' hg hg'
    exact h.unique g g' ((hpc g).mp hg) ((hpc g').mp hg')

theorem tryLock {g : G} {value : Int} (h : Mutex s) (hf : s.a.lock.f = 0)
    : Mutex ({ s with a := { s.a with lock := ⟨1⟩ } }.goto g (.loadLimit value)) where
  free := by intro hf; simp [goto] at hf
  held := by intro _; exact ⟨g, by simp [goto, PC.InScan]⟩
  unique := by
    -- the lock was free, so nobody but `g` can be in the section now
    have hone : ∀ g', ((s.goto g (.loadLimit value)).pc g').InScan → g' = g := by
      intro g' hg'
      by_contra hne
      have : (s.pc g').InScan := by simpa [goto, hne] using hg'
      exact h.free hf g' this
    intro g' g'' hg' hg''
    rw [hone g' hg', hone g'' hg'']

theorem unlock {g : G} {value : Int} (h : Mutex s) (hpc : s.pc g = .unlock value)
    : Mutex ({ s with a := { s.a with lock := SpinLock.unlocked } }.goto g .idle) := by
  have hnone : ∀ g', ¬ ((s.goto g .idle).pc g').InScan := by
    intro g' hg'
    by_cases heq : g' = g
    . subst heq
      simp [goto, PC.InScan] at hg'
    . have hg'' : (s.pc g').InScan := by simpa [goto, heq] using hg'
      exact heq (h.unique g' g hg'' (by simp [hpc, PC.InScan]))
  exact
    {
      free := by intro _; exact hnone
      held := by intro hf; exact absurd rfl hf
      unique := by intro g' g'' hg'; exact absurd hg' (hnone g')
    }

theorem step (h : Mutex s) (htakes : Takes s label t) : Mutex t := by
  cases htakes with
  | next g hpc => exact h.congr rfl (fun _ => Iff.rfl)
  | acknowledge g value hpc => exact h.congr rfl (inScan_goto (by simp [PC.InScan, hpc]))
  | testSlotPanic g value hpc hset => exact h.congr rfl (inScan_goto (by simp [PC.InScan, hpc]))
  | testSlot g value hpc hset => exact h.congr rfl (inScan_goto (by simp [PC.InScan, hpc]))
  | setSlot g value hpc => exact h.congr rfl (inScan_goto (by simp [PC.InScan, hpc]))
  | tryLockFail g value hpc hf => exact h.congr rfl (inScan_goto (by simp [PC.InScan, hpc]))
  | tryLock g value hpc hf => exact h.tryLock hf
  | loadLimit g value hpc => exact h.congr rfl (inScan_goto (by simp [PC.InScan, hpc]))
  | scanClear g value before index hpc hguard hset =>
    exact h.congr rfl (inScan_goto (by simp [PC.InScan, hpc]))
  | scanStop g value before index hpc hstop =>
    exact h.congr rfl (inScan_goto (by simp [PC.InScan, hpc]))
  | storeLimit g value index hpc => exact h.congr rfl (inScan_goto (by simp [PC.InScan, hpc]))
  | unlock g value hpc => exact h.unlock hpc

end Mutex

end Goroutines
