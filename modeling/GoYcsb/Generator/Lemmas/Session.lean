import GoYcsb.Generator.Impl.Session
import GoYcsb.Generator.Lemmas.AcknowledgedCounter

/-!
This module contains the proof that the ring of reused slots of an `AcknowledgedCounter` simulates
the unbounded set of acknowledged numbers, for calls that are executed one at a time.
-/

open RingBuffer

namespace Session

/--
The ring simulates the set of acknowledged numbers: everything up to the limit is acknowledged, the
number after the limit is not, and the slots of the window after the limit say which of its numbers
are.
-/
structure Inv (start : Int) (s : Session) : Prop where
  start_le : start - 1 ≤ s.a.limit
  lock : s.a.lock = SpinLock.unlocked
  covered : ∀ v, start ≤ v → v ≤ s.a.limit → v ∈ s.acked
  tracks : Tracks s.a.window s.a.limit (s.a.limit + 1) (· ∈ s.acked)
  acked_le : ∀ v, v ∈ s.acked → v ≤ s.a.limit + windowSize
  stop : s.a.limit + 1 ∉ s.acked
  issued : ∀ v, v ∈ s.issued ↔ start ≤ v ∧ v < s.a.c.counter
  acked : ∀ v, v ∈ s.acked → v ∈ s.issued
  fits : s.a.c.counter < 2 ^ 63
  start_le_counter : start ≤ s.a.c.counter

theorem inv_new {start : Int} (hstart : 1 ≤ start) (hfits : start < 2 ^ 63)
    : Inv start (new start) := by
  have hlimit : (new start).a.limit = start - 1 := by
    apply I64.sub_eq
    constructor <;> omega
  refine
    {
      start_le := by omega
      lock := rfl
      covered := by intros; omega
      tracks := ?_
      acked_le := by intro v hv; simp [new] at hv
      stop := by simp [new]
      issued := by
        intro v
        simp only [new, AcknowledgedCounter.new, Counter.new, List.not_mem_nil, false_iff, not_and]
        omega
      acked := by intro v hv; simp [new] at hv
      fits := hfits
      start_le_counter := Int.le_refl start
    }
  refine ⟨by omega, by omega, by intros; omega, ?_⟩
  simp [new, AcknowledgedCounter.new]

theorem inv_next {start : Int} {s : Session} (hstart : 1 ≤ start) (hinv : Inv start s)
    (hfits : s.CounterFits .next)
    : Inv start s.next := by
  have hle := hinv.start_le_counter
  have hnext : s.a.c.next = (s.a.c.counter, ⟨s.a.c.counter + 1⟩) :=
    Counter.next_eq hfits (by omega)
  unfold next AcknowledgedCounter.next
  rw [hnext]
  exact
    {
      start_le := hinv.start_le
      lock := hinv.lock
      covered := hinv.covered
      tracks := hinv.tracks
      acked_le := hinv.acked_le
      stop := hinv.stop
      issued := by
        intro v
        simp only [List.mem_cons, hinv.issued]
        omega
      acked := by
        intro v hv
        exact List.mem_cons_of_mem _ (hinv.acked v hv)
      fits := hfits
      start_le_counter := by simp only; omega
    }

theorem Inv.limit_lt_counter {start : Int} {s : Session} (hinv : Inv start s)
    : s.a.limit < s.a.c.counter := by
  have hle := hinv.start_le_counter
  by_cases h : start ≤ s.a.limit
  . have hacked := hinv.covered s.a.limit h (Int.le_refl _)
    exact ((hinv.issued _).mp (hinv.acked _ hacked)).2
  . omega

section Acknowledge

variable {start value : Int} {s : Session}

theorem Inv.limit_lt (hinv : Inv start s) (hissued : value ∈ s.issued) (hacked : value ∉ s.acked)
    : s.a.limit < value := by
  by_contra hge
  apply hacked
  apply hinv.covered value ((hinv.issued value).mp hissued).1
  omega

theorem Inv.issued_cons (hinv : Inv start s) (hissued : value ∈ s.issued)
    : ∀ i, i = value ∨ i ∈ s.acked → i ∈ s.issued := by
  rintro i (rfl | hi)
  . assumption
  . apply hinv.acked i hi

theorem Inv.acked_cons_le (hinv : Inv start s) (hle : value ≤ s.a.limit + windowSize)
    : ∀ i, i = value ∨ i ∈ s.acked → i ≤ s.a.limit + windowSize := by
  rintro i (rfl | hi)
  . assumption
  . apply hinv.acked_le i hi

theorem Inv.consume {window : Fin windowSize → Bool} {index : Int} (hinv : Inv start s)
    (hissued : value ∈ s.issued) (hle : value ≤ s.a.limit + windowSize)
    (htracks : Tracks window s.a.limit index (fun i => i = value ∨ i ∈ s.acked))
    (hindex : s.a.limit + 1 ≤ index)
    (hall : ∀ i, s.a.limit + 1 ≤ i → i < index → i = value ∨ i ∈ s.acked)
    (hstop : ¬ (index = value ∨ index ∈ s.acked))
    : Inv start
        { s with
          a := { s.a with window, limit := index - 1, lock := SpinLock.unlocked }
          acked := value :: s.acked } := by
  have hstart_le := hinv.start_le
  have hbounded := hinv.acked_cons_le hle
  have hadvance := htracks.advance hbounded
  exact
    {
      start_le := by simp only; omega
      lock := rfl
      covered := by
        intro v hv1 hv2
        by_cases h : v ≤ s.a.limit
        . exact List.mem_cons_of_mem _ (hinv.covered v hv1 h)
        . have := hall v (by omega) (by simp only at hv2; omega)
          simpa using this
      tracks := by
        simp only [Int.sub_add_cancel, List.mem_cons]
        exact hadvance
      acked_le := by
        intro v hv
        have := hbounded v (by simpa using hv)
        simp only
        omega
      stop := by
        simpa using hstop
      issued := hinv.issued
      acked := by
        intro v hv
        exact hinv.issued_cons hissued v (by simpa using hv)
      fits := hinv.fits
      start_le_counter := hinv.start_le_counter
    }

theorem acknowledge_spec {fuel : Nat} (hstart : 1 ≤ start) (hfuel : windowSize < fuel)
    (hinv : Inv start s) (hissued : value ∈ s.issued) (hacked : value ∉ s.acked)
    (hle : value ≤ s.a.limit + windowSize)
    : ∃ t,
        s.acknowledge fuel value = .ret t
          ∧
        Inv start t
          ∧
        t.acked = value :: s.acked
          ∧
        t.issued = s.issued
          ∧
        t.a.c = s.a.c
          ∧
        s.a.limit ≤ t.a.limit := by
  have hstart_le := hinv.start_le
  have hgt := hinv.limit_lt hissued hacked
  have hfree : s.a.window (slot windowSize value) = false :=
    hinv.tracks.flag_eq_false (by omega) hle hacked
  have htracks := hinv.tracks.set (by omega) hle
  have hlimit := hinv.limit_lt_counter
  have hcounter := hinv.fits
  have hrange : ∀ i, i = value ∨ i ∈ s.acked → 0 ≤ i ∧ i + 1 < 2 ^ 63 := by
    intro i hi
    have := (hinv.issued i).mp (hinv.issued_cons hissued i hi)
    constructor <;> omega
  have hadd : I64.add s.a.limit 1 = s.a.limit + 1 := by
    apply I64.add_eq
    constructor <;> omega
  have hbefore : I64.land s.a.limit windowMask < s.a.limit + 1 := by
    have : I64.land s.a.limit windowMask ≤ s.a.limit :=
      AcknowledgedCounter.land_windowMask_le (by omega)
    omega
  rcases AcknowledgedCounter.scan_spec (hinv.acked_cons_le hle) hrange fuel hbefore htracks (by omega)
    with ⟨window, index, hscan, htracks', hindex, hall, hstop⟩
  have hsub : I64.sub index 1 = index - 1 := by
    apply I64.sub_eq
    by_cases h : index = s.a.limit + 1
    . constructor <;> omega
    . have := hrange (index - 1) (hall (index - 1) (by omega) (by omega))
      constructor <;> omega
  refine ⟨_, ?_, hinv.consume hissued hle htracks' hindex hall hstop, rfl, rfl, rfl, ?_⟩
  . unfold acknowledge AcknowledgedCounter.acknowledge
    simp only [slotOf_eq_slot, hfree, Bool.false_eq_true, ↓reduceIte, hinv.lock,
      SpinLock.tryLock_unlocked, hadd, hscan, Outcome.ret_bind, Outcome.pure_eq, hsub,
      SpinLock.unlock_eq]
  . simp only
    omega

end Acknowledge

theorem Inv.isFrontier {start : Int} {s : Session} (hinv : Inv start s)
    : IsFrontier start (· ∈ s.acked) s.a.last :=
  .of_not_acked hinv.start_le hinv.covered hinv.stop

theorem step_cases {fuel : Nat} {s t : Session} {call : Call} (h : s.step fuel call = some t)
    : (call = .next ∧ t = s.next)
        ∨
      (∃ value, call = .acknowledge value ∧ s.acknowledge fuel value = .ret t) := by
  unfold step at h
  rw [Outcome.toOption_eq_some] at h
  cases call with
  | next =>
    simp only [Session.call, Outcome.ret.injEq] at h
    exact .inl ⟨rfl, h.symm⟩
  | acknowledge value => exact .inr ⟨value, rfl, h⟩

theorem acknowledge_slot_free {fuel : Nat} {s t : Session} {value : Int}
    (h : s.acknowledge fuel value = .ret t)
    : s.a.window (slotOf value) = false := by
  unfold acknowledge AcknowledgedCounter.acknowledge at h
  by_contra hset
  rw [Bool.not_eq_false] at hset
  simp [hset] at h

theorem inv_step {start : Int} {fuel : Nat} {s t : Session} {call : Call} (hstart : 1 ≤ start)
    (hfuel : windowSize < fuel) (hinv : Inv start s) (honce : s.AcksOnce call)
    (hfits : s.CounterFits call) (hoverrun : s.NoOverrun call) (hstep : s.step fuel call = some t)
    : Inv start t := by
  rcases step_cases hstep with ⟨rfl, rfl⟩ | ⟨value, rfl, hack⟩
  . exact inv_next hstart hinv hfits
  . have hle : value ≤ s.a.limit + windowSize := by
      cases hoverrun with
      | inl hle => exact hle
      | inr hset =>
        rw [acknowledge_slot_free hack] at hset
        simp at hset
    rcases acknowledge_spec hstart hfuel hinv honce.1 honce.2 hle with ⟨t', ht', hinv', -⟩
    rw [hack] at ht'
    simp only [Outcome.ret.injEq] at ht'
    rw [ht']
    exact hinv'

theorem acked_of_le_last {start : Int} {fuel : Nat} {calls : List Call} {s : Session}
    (hstart : 1 ≤ start) (hrange : start < 2 ^ 63) (hfuel : windowSize < fuel)
    (hrun : Run (step fuel) (fun s call => s.AcksOnce call ∧ s.CounterFits call ∧ s.NoOverrun call)
      (new start) calls s)
    : ∀ v, start ≤ v → v ≤ s.a.last → v ∈ s.acked := by
  have hinv : Inv start s := by
    apply hrun.invariant (inv_new hstart hrange)
    intro s call t hinv hallowed hstep
    exact inv_step hstart hfuel hinv hallowed.1 hallowed.2.1 hallowed.2.2 hstep
  exact hinv.covered

theorem acked_of_le_last_reversed
    : ∃ s : Session,
        Run (step (windowSize + 1))
          (fun s call => s.AcksOnce call ∧ s.CounterFits call ∧ s.NoOverrun call)
          (new 5) [.next, .next, .next, .acknowledge 6, .acknowledge 5] s
          ∧
        s.a.last = 6
          ∧
        ∀ v, 5 ≤ v → v ≤ s.a.last → v ∈ s.acked := by
  have hexec : (Run.exec (step (windowSize + 1))
      (fun s call => s.AcksOnce call ∧ s.CounterFits call ∧ s.NoOverrun call)
      (new 5) [.next, .next, .next, .acknowledge 6, .acknowledge 5]).any (fun s => s.a.last = 6) := by
    decide +kernel
  rcases Run.exists_of_exec _ hexec with ⟨s, hrun, hlast⟩
  have h := acked_of_le_last (by decide) (by decide) (by decide) hrun
  exact ⟨s, hrun, by simpa using hlast, h⟩

def IssuedInWindow (s : Session) : Prop := s.a.c.counter ≤ s.a.limit + windowSize + 1

theorem issuedInWindow_new {start : Int} (hstart : 1 ≤ start) (hfits : start < 2 ^ 63)
    : IssuedInWindow (new start) := by
  have hlimit : (new start).a.limit = start - 1 := by
    apply I64.sub_eq
    constructor <;> omega
  have hcounter : (new start).a.c.counter = start := rfl
  unfold IssuedInWindow
  omega

theorem Inv.le_of_issued {start : Int} {s : Session} (hinv : Inv start s) (hin : IssuedInWindow s)
    {value : Int} (hissued : value ∈ s.issued)
    : value ≤ s.a.limit + windowSize := by
  have := (hinv.issued value).mp hissued
  unfold IssuedInWindow at hin
  omega

theorem inv_inWindow_step {start : Int} {fuel : Nat} {s t : Session} {call : Call}
    (hstart : 1 ≤ start) (hfuel : windowSize < fuel) (hinv : Inv start s) (hin : IssuedInWindow s)
    (honce : s.AcksOnce call) (hwindow : s.InWindow call) (hfits : s.CounterFits call)
    (hstep : s.step fuel call = some t)
    : Inv start t ∧ IssuedInWindow t := by
  rcases step_cases hstep with ⟨rfl, rfl⟩ | ⟨value, rfl, hack⟩
  . have hle := hinv.start_le_counter
    have hnext : s.a.c.next = (s.a.c.counter, ⟨s.a.c.counter + 1⟩) :=
      Counter.next_eq hfits (by omega)
    refine ⟨inv_next hstart hinv hfits, ?_⟩
    simp only [InWindow, AcknowledgedCounter.next, hnext, AcknowledgedCounter.last] at hwindow
    simp only [IssuedInWindow, next, AcknowledgedCounter.next, hnext]
    omega
  . rcases acknowledge_spec hstart hfuel hinv honce.1 honce.2 (hinv.le_of_issued hin honce.1)
      with ⟨t', ht', hinv', -, -, hc, hlimit⟩
    rw [hack] at ht'
    simp only [Outcome.ret.injEq] at ht'
    subst ht'
    refine ⟨hinv', ?_⟩
    unfold IssuedInWindow at *
    rw [hc]
    omega

theorem last_isFrontier {start : Int} {fuel : Nat} {calls : List Call} {s : Session}
    (hstart : 1 ≤ start) (hrange : start < 2 ^ 63) (hfuel : windowSize < fuel)
    (hrun : Run (step fuel) (fun s call => s.AcksOnce call ∧ s.InWindow call ∧ s.CounterFits call)
      (new start) calls s)
    : (∀ call, s.AcksOnce call → ∃ t, s.call fuel call = .ret t)
        ∧
      IsFrontier start (· ∈ s.acked) s.a.last
        ∧
      ∀ i, s.a.last < i → i ≤ s.a.last + windowSize →
        (s.a.window (slotOf i) = true ↔ i ∈ s.acked) := by
  have hinv : Inv start s ∧ IssuedInWindow s := by
    apply hrun.invariant (I := fun s => Inv start s ∧ IssuedInWindow s)
    . exact ⟨inv_new hstart hrange, issuedInWindow_new hstart hrange⟩
    . intro s call t hinv hallowed hstep
      exact inv_inWindow_step hstart hfuel hinv.1 hinv.2 hallowed.1 hallowed.2.1 hallowed.2.2 hstep
  refine ⟨?_, hinv.1.isFrontier, ?_⟩
  . intro call honce
    cases call with
    | next => exact ⟨_, rfl⟩
    | acknowledge value =>
      rcases acknowledge_spec hstart hfuel hinv.1 honce.1 honce.2 (hinv.1.le_of_issued hinv.2 honce.1)
        with ⟨t, ht, -⟩
      exact ⟨t, ht⟩
  . intro i hi1 hi2
    rw [slotOf_eq_slot]
    apply hinv.1.tracks.iff i ?_ hi2
    unfold AcknowledgedCounter.last at hi1
    omega

theorem last_isFrontier_out_of_order
    : ∃ s : Session,
        Run (step (windowSize + 1))
          (fun s call => s.AcksOnce call ∧ s.InWindow call ∧ s.CounterFits call)
          (new 1) [.next, .next, .acknowledge 2, .acknowledge 1] s
          ∧
        IsFrontier 1 (· ∈ s.acked) s.a.last
          ∧
        s.a.last = 2 := by
  have hexec : (Run.exec (step (windowSize + 1))
      (fun s call => s.AcksOnce call ∧ s.InWindow call ∧ s.CounterFits call)
      (new 1) [.next, .next, .acknowledge 2, .acknowledge 1]).any (fun s => s.a.last = 2) := by
    decide +kernel
  rcases Run.exists_of_exec _ hexec with ⟨s, hrun, hlast⟩
  have h := last_isFrontier (by decide) (by decide) (by decide) hrun
  exact ⟨s, hrun, h.2.1, by simpa using hlast⟩

theorem iterate_next (s : Session) (n : Nat)
    : (next^[n] s).a.window = s.a.window
        ∧
      (next^[n] s).a.limit = s.a.limit
        ∧
      (next^[n] s).a.lock = s.a.lock
        ∧
      (next^[n] s).acked = s.acked := by
  induction n with
  | zero => exact ⟨rfl, rfl, rfl, rfl⟩
  | succ n ih =>
    rw [Function.iterate_succ_apply']
    exact ih

theorem run_replicate_next {allowed : Session → Call → Prop} (hallowed : ∀ s, allowed s .next)
    (fuel : Nat) (s : Session) (n : Nat)
    : Run (step fuel) allowed s (List.replicate n .next) (next^[n] s) := by
  induction n with
  | zero => exact .nil
  | succ n ih =>
    rw [List.replicate_succ', Function.iterate_succ_apply']
    exact .snoc ih (hallowed _) rfl

theorem inv_iterate_next {start : Int} {n : Nat} (hstart : 1 ≤ start) (hfits : start + n < 2 ^ 63)
    : Inv start (next^[n] (new start)) ∧ (next^[n] (new start)).a.c.counter = start + n := by
  induction n with
  | zero =>
    refine ⟨inv_new hstart (by omega), ?_⟩
    simp [new, AcknowledgedCounter.new, Counter.new]
  | succ n ih =>
    rcases ih (by omega) with ⟨hinv, hcounter⟩
    have hnext : (next^[n] (new start)).CounterFits .next := by
      simp only [CounterFits]
      omega
    rw [Function.iterate_succ_apply']
    refine ⟨inv_next hstart hinv hnext, ?_⟩
    simp only [next, AcknowledgedCounter.next]
    rw [Counter.next_eq hnext (by omega)]
    simp only
    omega

-- An acknowledged value that shares its slot with the number after the limit is taken for that
-- number, whatever its own distance from the limit is.
theorem acknowledge_alias {s : Session} (fuel : Nat) (value : Int)
    (hlock : s.a.lock = SpinLock.unlocked) (hlimit : 0 ≤ s.a.limit) (hfits : s.a.limit + 2 < 2 ^ 63)
    (halias : slot windowSize value = slot windowSize (s.a.limit + 1))
    (hfirst : s.a.window (slot windowSize (s.a.limit + 1)) = false)
    (hsecond : s.a.window (slot windowSize (s.a.limit + 1 + 1)) = false)
    : ∃ t,
        s.acknowledge (fuel + 2) value = .ret t
          ∧
        t.a.limit = s.a.limit + 1
          ∧
        t.acked = value :: s.acked := by
  have hsize : (windowSize : Int) = 1048576 := rfl
  have hadd1 : I64.add s.a.limit 1 = s.a.limit + 1 := by
    apply I64.add_eq
    constructor <;> omega
  have hadd2 : I64.add (s.a.limit + 1) 1 = s.a.limit + 1 + 1 := by
    apply I64.add_eq
    constructor <;> omega
  have hsub : I64.sub (s.a.limit + 1 + 1) 1 = s.a.limit + 1 := by
    rw [I64.sub_eq]
    . omega
    . constructor <;> omega
  have hbefore : I64.land s.a.limit windowMask ≤ s.a.limit :=
    AcknowledgedCounter.land_windowMask_le hlimit
  have hguard1 : s.a.limit + 1 ≠ I64.land s.a.limit windowMask := by omega
  have hguard2 : s.a.limit + 1 + 1 ≠ I64.land s.a.limit windowMask := by omega
  have hne : slot windowSize (s.a.limit + 1 + 1) ≠ slot windowSize (s.a.limit + 1) := by
    intro heq
    have : s.a.limit + 1 + 1 = s.a.limit + 1 :=
      slot_inj (show s.a.limit < _ by omega) (by omega) (by omega) (by omega) heq
    omega
  unfold acknowledge AcknowledgedCounter.acknowledge
  simp [slotOf_eq_slot, halias, hfirst, hlock, hadd1, AcknowledgedCounter.scan, hguard1, hguard2,
    hadd2, hne, hsecond, hsub]

-- With `WindowSize + 1` values outstanding, the last of them takes the slot of the first one. The
-- guard finds this slot free, and the limit moves over the first value.
theorem overrun_covers_unacknowledged
    : ¬ ∀ (start : Int) (fuel : Nat) (calls : List Call) (s : Session),
        1 ≤ start → start < 2 ^ 63 → windowSize < fuel →
        Run (step fuel) (fun s call => s.AcksOnce call) (new start) calls s →
        ∀ v, start ≤ v → v ≤ s.a.last → v ∈ s.acked := by
  intro hcovered
  have hsize : (windowSize : Int) = 1048576 := rfl
  rcases iterate_next (new 1) (windowSize + 1) with ⟨hwindow, hlimit, hlock, hacked⟩
  have hinv : Inv 1 _ ∧ _ := inv_iterate_next (n := windowSize + 1) (by decide) (by decide)
  have hnexts : Run (step (windowSize + 2)) (fun s call => s.AcksOnce call) (new 1)
      (List.replicate (windowSize + 1) .next) _ := run_replicate_next (fun _ => trivial) _ _ _
  generalize next^[windowSize + 1] (new 1) = s at *
  have hlimit0 : s.a.limit = 0 := hlimit
  have hacked0 : s.acked = [] := hacked
  have halias : slot windowSize ((windowSize : Int) + 1) = slot windowSize (s.a.limit + 1) := by
    rw [hlimit0, Int.add_comm]
    exact slot_add_n 1
  rcases acknowledge_alias windowSize (windowSize + 1) hlock (by omega) (by omega) halias
    (by rw [hwindow]; rfl) (by rw [hwindow]; rfl) with ⟨t, hack, htlimit, htacked⟩
  have hissued : (windowSize : Int) + 1 ∈ s.issued := by
    rw [hinv.1.issued, hinv.2]
    omega
  have honce : s.AcksOnce (.acknowledge (windowSize + 1)) := ⟨hissued, by simp [hacked0]⟩
  have hstep : s.step (windowSize + 2) (.acknowledge (windowSize + 1)) = some t := by
    simp [step, call, hack]
  have hrun := hnexts.snoc honce hstep
  have hmem := hcovered 1 (windowSize + 2) _ t (by decide) (by decide) (by decide) hrun 1 (by decide)
    (by simp [AcknowledgedCounter.last, htlimit, hlimit0])
  rw [htacked, hacked0] at hmem
  simp only [List.mem_singleton] at hmem
  omega

end Session
