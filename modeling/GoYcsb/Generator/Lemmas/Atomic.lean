import GoYcsb.Generator.Impl.Concurrent

/-!
This module contains the proof that the atomic steps of `GoYcsb.Generator.Impl.Concurrent` are those of
`Acknowledge`: a goroutine that nobody interrupts computes `AcknowledgedCounter.acknowledge`.
-/

namespace AcknowledgedCounter

theorem scan_ne_panic (fuel : Nat) (window : Fin windowSize → Bool) (before index : Int) (msg : String)
    : scan fuel window before index ≠ .panic msg := by
  induction fuel generalizing window index with
  | zero => simp [scan]
  | succ fuel ih =>
    unfold scan
    dsimp only
    split
    . split
      . simp
      . apply ih
    . simp

theorem window_of_panic {fuel : Nat} {a : AcknowledgedCounter} {value : Int} {msg : String}
    (h : a.acknowledge fuel value = .panic msg)
    : a.window (slotOf value) = true := by
  unfold acknowledge at h
  dsimp only at h
  split at h
  . assumption
  . split at h
    . contradiction
    . generalize hscan : scan fuel _ _ _ = res at h
      cases res with
      | panic msg' => exact absurd hscan (scan_ne_panic _ _ _ _ _)
      | ret _ => contradiction
      | exit _ => contradiction
      | running => contradiction

end AcknowledgedCounter

namespace Goroutines

variable {G : Type u} [DecidableEq G]

def Solo (g : G) (s t : Goroutines G) : Prop :=
  ∃ n, Run step (fun _ _ => True) s (List.replicate n (.step g)) t

variable {g : G} {s t u : Goroutines G} {value : Int}

theorem Solo.single (hstep : s.atomic g = some t) : Solo g s t :=
  ⟨1, Run.cons trivial hstep .nil⟩

theorem Solo.cons (hstep : s.atomic g = some t) (h : Solo g t u) : Solo g s u := by
  rcases h with ⟨n, hrun⟩
  exact ⟨n + 1, Run.cons trivial hstep hrun⟩

theorem goto_pc_self (s : Goroutines G) (g : G) (pc : PC) : (s.goto g pc).pc g = pc := by
  simp [goto]

theorem goto_goto (s : Goroutines G) (g : G) (pc pc' : PC) (a : AcknowledgedCounter) (marked : List Int)
    : { s.goto g pc with a, marked }.goto g pc' = { s with a, marked }.goto g pc' := by
  simp [goto]

theorem solo_unlock (hpc : s.pc g = .unlock value)
    : Solo g s ({ s with a := { s.a with lock := s.a.lock.unlock } }.goto g .idle) := by
  apply Solo.single
  simp [atomic, hpc]

theorem solo_storeLimit {index : Int} (hpc : s.pc g = .storeLimit value index)
    : Solo g s
        ({ s with
            a := { s.a with limit := I64.sub index 1, lock := s.a.lock.unlock } }.goto g .idle) := by
  have hstep : s.atomic g
      = some ({ s with a := { s.a with limit := I64.sub index 1 } }.goto g (.unlock value)) := by
    simp [atomic, hpc]
  have hrest := solo_unlock (goto_pc_self { s with a := { s.a with limit := I64.sub index 1 } } g (.unlock value))
  rw [goto_goto] at hrest
  apply Solo.cons hstep hrest

theorem solo_scan {fuel : Nat} {window : Fin windowSize → Bool} {before index index' : Int}
    (hpc : s.pc g = .scan value before index)
    (hscan : AcknowledgedCounter.scan fuel s.a.window before index = .ret (window, index'))
    : Solo g s
        ({ s with
            a := { s.a with window, limit := I64.sub index' 1, lock := s.a.lock.unlock }
          }.goto g .idle) := by
  induction fuel generalizing s index with
  | zero => simp [AcknowledgedCounter.scan] at hscan
  | succ fuel ih =>
    unfold AcknowledgedCounter.scan at hscan
    dsimp only at hscan
    by_cases hloop : index ≠ before ∧ s.a.window (slotOf index) = true
    . let cleared := { s with
        a := { s.a with window := Function.update s.a.window (slotOf index) false } }
      have hstep : s.atomic g = some (cleared.goto g (.scan value before (I64.add index 1))) := by
        simp [atomic, hpc, hloop, cleared]
      have hrest : AcknowledgedCounter.scan fuel cleared.a.window before (I64.add index 1)
          = .ret (window, index') := by
        simpa [hloop.1, hloop.2] using hscan
      have hsolo := ih (goto_pc_self cleared g _) hrest
      rw [goto_goto] at hsolo
      apply Solo.cons hstep hsolo
    . have hstep : s.atomic g = some (s.goto g (.storeLimit value index)) := by
        grind [atomic]
      have heq : s.a.window = window ∧ index = index' := by
        grind
      apply Solo.cons hstep
      rw [← heq.1, ← heq.2]
      have hsolo := solo_storeLimit (goto_pc_self s g (.storeLimit value index))
      rwa [goto_goto] at hsolo

theorem solo_tryLock {fuel : Nat} {window : Fin windowSize → Bool} {index : Int} {lock : SpinLock}
    (hpc : s.pc g = .tryLock value) (hlock : s.a.lock.tryLock = (true, lock))
    (hscan : AcknowledgedCounter.scan fuel s.a.window (I64.land s.a.limit windowMask) (I64.add s.a.limit 1)
      = .ret (window, index))
    : Solo g s
        ({ s with a := { s.a with window, limit := I64.sub index 1, lock := lock.unlock } }.goto g .idle) := by
  let locked := { s with a := { s.a with lock } }
  have hstep : s.atomic g = some (locked.goto g (.loadLimit value)) := by
    simp [atomic, hpc, hlock, locked]
  have hload : (locked.goto g (.loadLimit value)).atomic g
      = some (locked.goto g (.scan value (I64.land s.a.limit windowMask) (I64.add s.a.limit 1))) := by
    simp [atomic, goto, locked]
  have hsolo := solo_scan (goto_pc_self locked g (.scan value _ _)) hscan
  rw [goto_goto] at hsolo
  apply Solo.cons hstep
  apply Solo.cons hload hsolo

theorem solo_setSlot {fuel : Nat} {a : AcknowledgedCounter} (hpc : s.pc g = .setSlot value)
    (hfree : s.a.window (slotOf value) = false) (hack : s.a.acknowledge fuel value = .ret a)
    : Solo g s ({ s with a, marked := value :: s.marked }.goto g .idle) := by
  let raised := { s with
    a := { s.a with window := Function.update s.a.window (slotOf value) true },
    marked := value :: s.marked }
  have hstep : s.atomic g = some (raised.goto g (.tryLock value)) := by
    simp [atomic, hpc, raised]
  apply Solo.cons hstep
  simp only [AcknowledgedCounter.acknowledge, hfree, Bool.false_eq_true, if_false] at hack
  split at hack
  . next lock hlock =>
    rw [Outcome.ret.injEq] at hack
    apply Solo.single
    simp [atomic, goto, raised, hlock, ← hack]
  . next lock hlock =>
    rcases Outcome.bind_eq_ret hack with ⟨⟨window, index⟩, hscan, hret⟩
    simp only [Outcome.pure_eq, Outcome.ret.injEq] at hret
    have hsolo := solo_tryLock (goto_pc_self raised g (.tryLock value)) hlock hscan
    rw [goto_goto] at hsolo
    rwa [← hret]

theorem solo_acknowledge {fuel : Nat} {a : AcknowledgedCounter} (hidle : s.pc g = .idle)
    (hack : s.a.acknowledge fuel value = .ret a)
    : ∃ n,
        Run step (fun _ _ => True) s (.acknowledge g value :: List.replicate n (.step g))
          { s with a, called := value :: s.called, marked := value :: s.marked } := by
  have hfree : s.a.window (slotOf value) = false := by
    cases hslot : s.a.window (slotOf value) with
    | false => rfl
    | true => simp [AcknowledgedCounter.acknowledge, hslot] at hack
  let called := { s with called := value :: s.called }
  have hcall : s.step (.acknowledge g value) = some (called.goto g (.testSlot value)) := by
    simp [step, hidle, called]
  have htest : (called.goto g (.testSlot value)).atomic g = some (called.goto g (.setSlot value)) := by
    simp [atomic, goto, called, hfree]
  have hsolo := solo_setSlot (goto_pc_self called g _) hfree hack
  rcases Solo.cons htest hsolo with ⟨n, hrun⟩
  have hpc : Function.update s.pc g PC.idle = s.pc := by
    rw [← hidle, Function.update_eq_self]
  refine ⟨n, Run.cons trivial hcall ?_⟩
  simpa [goto, called, hpc] using hrun

theorem solo_acknowledge_panics {fuel : Nat} {msg : String} (hidle : s.pc g = .idle)
    (hack : s.a.acknowledge fuel value = .panic msg)
    : Run step (fun _ _ => True) s [.acknowledge g value, .step g]
        ({ s with called := value :: s.called }.goto g (.panicked value)) := by
  have hset := AcknowledgedCounter.window_of_panic hack
  let called := { s with called := value :: s.called }
  have hcall : s.step (.acknowledge g value) = some (called.goto g (.testSlot value)) := by
    simp [step, hidle, called]
  have htest : (called.goto g (.testSlot value)).atomic g = some (called.goto g (.panicked value)) := by
    simp [atomic, goto, called, hset]
  have hrun : Run step (fun _ _ => True) (called.goto g (.testSlot value)) [.step g]
      (called.goto g (.panicked value)) := Run.cons trivial htest .nil
  apply Run.cons trivial hcall hrun

end Goroutines
