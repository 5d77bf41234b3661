import GoYcsb.Client.Impl.Client
import GoYcsb.Lib.Dispenser
import GoYcsb.Lib.Run

/-!
This module contains what holds of the load in every interleaving of its workers: every key number that
the key sequence has handed out is accounted for, and the number of them follows from the operations that
the workers have counted.
-/

namespace Worker

namespace PC

def held (pc : PC) : List Int :=
  match pc with
  | .next _ keyNums | .insert keyNums _ => keyNums
  | .test | .transaction | .count | .select | .returned => []

-- The number of the key numbers that belong to an operation which is not counted yet.
def inFlight (size : Nat) (pc : PC) : Nat :=
  match pc with
  | .next _ keyNums | .insert keyNums _ => keyNums.length
  | .count => size
  | .test | .transaction | .select | .returned => 0

end PC

structure Loads (size : Nat) (worker : Worker) : Prop where
  opsCount : worker.opsCount = size
  operation : worker.operation = .next size []
  pos : 0 < worker.opCount
  fits : worker.opCount < 2 ^ 63

def Round (size : Nat) (worker : Worker) (opsDone : Int) (pc : PC) : Prop :=
  match pc with
  | .next left keyNums => keyNums.length + left = size ∧ opsDone < worker.opCount
  | .insert keyNums numOfRetries =>
    keyNums.length = size ∧ numOfRetries = 0 ∧ opsDone < worker.opCount
  | .count => opsDone < worker.opCount
  | .test | .select => True
  | .returned => worker.opCount ≤ opsDone
  | .transaction => False

structure Progress (size : Nat) (worker : Worker) (opsDone : Int) : Prop where
  nonneg : 0 ≤ opsDone
  dvd : (size : Int) ∣ opsDone
  le : (size : Int) ∣ worker.opCount → opsDone ≤ worker.opCount

theorem Loads.lt_of_test {size : Nat} {worker : Worker} (h : Loads size worker) {opsDone : Int}
    (htest : worker.opCount = 0 ∨ opsDone < worker.opCount)
    : opsDone < worker.opCount := by
  have := h.pos
  omega

theorem Progress.count {size : Nat} {worker : Worker} {opsDone : Int} (h : Progress size worker opsDone)
    (hlt : opsDone < worker.opCount)
    : Progress size worker (opsDone + size) where
  nonneg := by
    have := h.nonneg
    omega
  dvd := Int.dvd_add h.dvd (Int.dvd_refl _)
  le := by
    intro hdvd
    rcases h.dvd with ⟨j, rfl⟩
    rcases hdvd with ⟨k, hk⟩
    rw [hk] at hlt ⊢
    have hsize : (0 : Int) ≤ size := Int.natCast_nonneg size
    have hjk : j < k := lt_of_mul_lt_mul_left hlt hsize
    calc (size : Int) * j + size = size * (j + 1) := by ring
      _ ≤ size * k := mul_le_mul_of_nonneg_left hjk hsize

theorem Progress.add_opsCount {size : Nat} {worker : Worker} {opsDone : Int}
    (h : Progress size worker opsDone) (hops : worker.opsCount = size) (hfits : opsDone + size < 2 ^ 63)
    : I64.add opsDone worker.opsCount = opsDone + size := by
  have hnonneg := h.nonneg
  rw [hops]
  apply I64.add_eq
  unfold I64.InRange
  omega

-- A bound for the steps that a worker still has to take. A turn of the loop has `size + 5` of them.
def weight (size : Nat) (worker : Worker) (opsDone : Int) (pc : PC) : Nat :=
  let left := (worker.opCount - opsDone).toNat
  match pc with
  | .test => (size + 6) * left + 1
  | .next n _ => (size + 6) * (left - 1) + 5 + n
  | .insert _ _ => (size + 6) * (left - 1) + 4
  | .count => (size + 6) * (left - 1) + 3
  | .select => (size + 6) * left + 2
  | .transaction | .returned => 0

theorem weight_next_lt {size : Nat} {worker : Worker} {opsDone : Int} (h : opsDone < worker.opCount)
    : worker.weight size opsDone (.next size []) < worker.weight size opsDone .test := by
  unfold weight
  dsimp only
  rcases Nat.exists_eq_add_of_lt (n := (worker.opCount - opsDone).toNat) (m := 0) (by omega)
    with ⟨k, hk⟩
  rw [hk]
  simp only [Nat.zero_add, Nat.add_sub_cancel, Nat.mul_add, Nat.mul_one]
  omega

theorem weight_select_lt {size : Nat} {worker : Worker} {opsDone : Int} (hsize : 0 < size)
    (h : opsDone < worker.opCount)
    : worker.weight size (opsDone + size) .select < worker.weight size opsDone .count := by
  unfold weight
  dsimp only
  have hle : (worker.opCount - (opsDone + size)).toNat ≤ (worker.opCount - opsDone).toNat - 1 := by
    omega
  have := Nat.mul_le_mul_left (size + 6) hle
  omega

end Worker

theorem Counter.next_eq_add {keySequence : Counter} {start : Int} {n : Nat}
    (h : keySequence.counter = I64.add start n)
    : keySequence.next = (I64.add start n, ⟨I64.add start (n + 1 : Nat)⟩) := by
  unfold Counter.next
  dsimp only
  rw [h, I64.add_add, I64.sub_add, Int.add_sub_cancel]
  rfl

theorem Load.afterCall_zero (err : Option String)
    : ∃ res, Load.afterCall 0 0 none err = .ret res := by
  cases err with
  | some err => exact ⟨some err, rfl⟩
  | none => exact ⟨none, rfl⟩

namespace Client

variable {W : Type} [DecidableEq W]

inductive Takes (P : Platform) (c : Core) (worker : W → Worker) (s : Client W) : Label W → Client W → Prop where
  | test (w : W) (answer : Answer) : s.pc w = .test →
      ((worker w).opCount = 0 ∨ s.opsDone w < (worker w).opCount) →
      Takes P c worker s (.step w answer) (s.goto w (worker w).operation)
  | exit (w : W) (answer : Answer) : s.pc w = .test →
      (worker w).opCount ≠ 0 → (worker w).opCount ≤ s.opsDone w →
      Takes P c worker s (.step w answer) (s.goto w .returned)
  | transaction (w : W) (answer : Answer) : s.pc w = .transaction →
      Takes P c worker s (.step w answer) (s.goto w .count)
  | next (w : W) (answer : Answer) (left : Nat) (keyNums : List Int) (values : Load.Values) :
      s.pc w = .next (left + 1) keyNums →
      Load.buildRecord P c answer.builds s.keySequence.next.1 = .ret values →
      Takes P c worker s (.step w answer)
        ({ s with keySequence := s.keySequence.next.2 }.goto w
          (.next left (keyNums ++ [s.keySequence.next.1])))
  | crash (w : W) (answer : Answer) (left : Nat) (keyNums : List Int) : s.pc w = .next (left + 1) keyNums →
      (∀ values, Load.buildRecord P c answer.builds s.keySequence.next.1 ≠ .ret values) →
      Takes P c worker s (.step w answer) { s with keySequence := s.keySequence.next.2, crashed := true }
  | taken (w : W) (answer : Answer) (keyNums : List Int) : s.pc w = .next 0 keyNums →
      Takes P c worker s (.step w answer) (s.goto w (.insert keyNums 0))
  | retry (w : W) (answer : Answer) (keyNums : List Int) (numOfRetries numOfRetries' : Int) :
      s.pc w = .insert keyNums numOfRetries →
      Load.afterCall c.insertionRetryLimit numOfRetries s.ctxErr answer.err = .again numOfRetries' →
      Takes P c worker s (.step w answer)
        ({ s with calls := s.calls ++ [keyNums] }.goto w (.insert keyNums numOfRetries'))
  | inserted (w : W) (answer : Answer) (keyNums : List Int) (numOfRetries : Int)
      (res : Option String) : s.pc w = .insert keyNums numOfRetries →
      Load.afterCall c.insertionRetryLimit numOfRetries s.ctxErr answer.err = .ret res →
      Takes P c worker s (.step w answer) ({ s with calls := s.calls ++ [keyNums] }.goto w .count)
  | uncounted (w : W) (answer : Answer) : s.pc w = .count → s.warmUp = true →
      Takes P c worker s (.step w answer) (s.goto w .select)
  | counted (w : W) (answer : Answer) : s.pc w = .count → s.warmUp = false →
      Takes P c worker s (.step w answer)
        ({ s with
            opsDone := Function.update s.opsDone w (I64.add (s.opsDone w) (worker w).opsCount)
            }.goto w .select)
  | canceled (w : W) (answer : Answer) : s.pc w = .select → s.ctxErr ≠ none →
      Takes P c worker s (.step w answer) (s.goto w .returned)
  | again (w : W) (answer : Answer) : s.pc w = .select → s.ctxErr = none →
      Takes P c worker s (.step w answer) (s.goto w .test)
  | finishWarmUp : s.warmingUp = true →
      Takes P c worker s .finishWarmUp { s with warmUp := false, warmingUp := false }
  | cancel (err : Load.CtxErr) : s.ctxErr = none →
      Takes P c worker s (.cancel err) { s with ctxErr := some err }

theorem takes_of_step {P : Platform} {c : Core} {worker : W → Worker} {s t : Client W} {label : Label W}
    (h : s.step P c worker label = some t)
    : Takes P c worker s label t := by
  unfold step at h
  split at h
  . contradiction
  cases label with
  | step w answer =>
    dsimp only at h
    unfold workerStep at h
    split at h
    . next hpc =>
      split at h
      . next hlt =>
        cases h
        exact .test w answer hpc hlt
      . next hlt =>
        cases h
        rw [not_or, Int.not_lt] at hlt
        exact .exit w answer hpc hlt.1 hlt.2
    . next hpc =>
      cases h
      exact .transaction w answer hpc
    . next left keyNums hpc =>
      dsimp only at h
      split at h
      . next values hbuilt =>
        cases h
        exact .next w answer left keyNums values hpc hbuilt
      . next msg hbuilt =>
        cases h
        exact .crash w answer left keyNums hpc (by rw [hbuilt]; exact nofun)
      . next msg hbuilt =>
        cases h
        exact .crash w answer left keyNums hpc (by rw [hbuilt]; exact nofun)
      . contradiction
    . next keyNums hpc =>
      cases h
      exact .taken w answer keyNums hpc
    . next keyNums numOfRetries hpc =>
      dsimp only at h
      split at h
      . next numOfRetries' hcall =>
        cases h
        exact .retry w answer keyNums numOfRetries numOfRetries' hpc hcall
      . next res hcall =>
        cases h
        exact .inserted w answer keyNums numOfRetries res hpc hcall
    . next hpc =>
      split at h
      . next hwarm =>
        cases h
        exact .uncounted w answer hpc hwarm
      . next hwarm =>
        cases h
        exact .counted w answer hpc (by simpa using hwarm)
    . next hpc =>
      split at h
      . next hctx =>
        cases h
        exact .canceled w answer hpc (by simp [hctx])
      . next hctx =>
        cases h
        exact .again w answer hpc hctx
    . contradiction
  | finishWarmUp =>
    dsimp only at h
    split at h
    . next hwarm =>
      cases h
      exact .finishWarmUp hwarm
    . contradiction
  | cancel err =>
    dsimp only at h
    split at h
    . contradiction
    . next hctx =>
      cases h
      exact .cancel err hctx

theorem isSome_step (P : Platform) (c : Core) (worker : W → Worker) {s : Client W} {w : W} (halive : s.crashed = false)
    (h : s.pc w ≠ .returned) (answer : Answer)
    (hbuilds : ∀ left keyNums, s.pc w = .next (left + 1) keyNums →
      ∃ values, Load.buildRecord P c answer.builds s.keySequence.next.1 = .ret values)
    : (s.step P c worker (.step w answer)).isSome = true := by
  unfold step
  rw [if_neg (by simp [halive])]
  dsimp only
  unfold workerStep
  split
  . split <;> rfl
  . rfl
  . next left keyNums hpc =>
    rcases hbuilds left keyNums hpc with ⟨values, hvalues⟩
    dsimp only
    rw [hvalues]
    rfl
  . rfl
  . dsimp only
    split <;> rfl
  . split <;> rfl
  . split <;> rfl
  . contradiction

theorem warmUp_of_takes {P : Platform} {c : Core} {worker : W → Worker} {s t : Client W} {label : Label W}
    (htakes : Takes P c worker s label t) (h : s.warmUp = false)
    : t.warmUp = false := by
  cases htakes with
  | finishWarmUp => rfl
  | _ => exact h

def Busy (worker : W → Worker) (s : Client W) : Prop :=
  ∀ w, s.opsDone w < (worker w).opCount ∧ s.pc w ≠ .returned

theorem pc_goto_self (s : Client W) (w : W) (pc : Worker.PC) : (s.goto w pc).pc w = pc := by
  unfold goto
  dsimp only
  rw [Function.update_self]

theorem pc_goto_of_ne (s : Client W) {w w' : W} (pc : Worker.PC) (h : w' ≠ w)
    : (s.goto w pc).pc w' = s.pc w' := by
  unfold goto
  dsimp only
  rw [Function.update_of_ne h]

theorem held_goto (s : Client W) {w : W} {pc : Worker.PC} (h : pc.held = (s.pc w).held) (w' : W)
    : ((s.goto w pc).pc w').held = (s.pc w').held := by
  by_cases heq : w' = w
  . rw [heq, pc_goto_self, h]
  . rw [pc_goto_of_ne s pc heq]

theorem Busy.goto {worker : W → Worker} {s : Client W} (h : s.Busy worker) {w : W} {pc : Worker.PC}
    (hpc : pc ≠ .returned)
    : (s.goto w pc).Busy worker := by
  intro w'
  refine ⟨(h w').1, ?_⟩
  by_cases heq : w' = w
  . rw [heq, pc_goto_self]
    exact hpc
  . rw [pc_goto_of_ne s pc heq]
    exact (h w').2

theorem Busy.step {P : Platform} {c : Core} {worker : W → Worker} {s t : Client W} {label : Label W}
    (h : s.Busy worker) (hactive : s.ctxErr = none) (htakes : Takes P c worker s label t)
    (hcount : ∀ w answer, label = .step w answer → s.pc w = .count → s.warmUp = false →
      I64.add (s.opsDone w) (worker w).opsCount < (worker w).opCount)
    : t.Busy worker := by
  cases htakes with
  | test w answer hpc hlt =>
    apply h.goto
    unfold Worker.operation
    split
    . simp
    . split <;> simp
  | exit w answer hpc _ hle =>
    have := (h w).1
    omega
  | counted w answer hpc hwarm =>
    apply Busy.goto _ (by simp)
    intro w'
    refine ⟨?_, (h w').2⟩
    dsimp only
    by_cases heq : w' = w
    . subst heq
      rw [Function.update_self]
      exact hcount w' answer rfl hpc hwarm
    . rw [Function.update_of_ne heq]
      exact (h w').1
  | canceled w answer hpc hctx => exact absurd hactive hctx
  | transaction w answer hpc => exact h.goto (by simp)
  | next w answer left keyNums values hpc hbuilt => exact Busy.goto h (by simp)
  | crash w answer left keyNums hpc hbuilt => exact h
  | taken w answer keyNums hpc => exact h.goto (by simp)
  | retry w answer keyNums numOfRetries numOfRetries' hpc hcall => exact Busy.goto h (by simp)
  | inserted w answer keyNums numOfRetries res hpc hcall => exact Busy.goto h (by simp)
  | uncounted w answer hpc hwarm => exact h.goto (by simp)
  | again w answer hpc hctx => exact h.goto (by simp)
  | finishWarmUp hwarm => exact h
  | cancel err hctx => exact h

section

variable [Fintype W]

-- `extra` is the number of records that were inserted and not counted.
structure Accounts (size : Nat) (worker : W → Worker) (start : Int) (extra : Nat) (s : Client W)
    : Prop where
  active : s.ctxErr = none
  alive : s.crashed = false
  progress : ∀ w, (worker w).Progress size (s.opsDone w)
  rounds : ∀ w, (worker w).Round size (s.opsDone w) (s.pc w)
  sizes : ∀ call ∈ s.calls, call.length = size
  keys : ∃ n : Nat,
    s.keySequence.counter = I64.add start n
      ∧
    Dispensed (fun i => I64.add start i) n (fun w => (s.pc w).held) s.calls.flatten
      ∧
    (n : Int) = (∑ w, (s.opsDone w + (s.pc w).inFlight size)) + extra

variable {size : Nat} {worker : W → Worker} {start : Int} {extra : Nat} {s : Client W}

theorem Accounts.move (h : Accounts size worker start extra s) (w : W) {t : Client W} (m extra' : Nat)
    (hactive : t.ctxErr = none) (halive : t.crashed = false) (hpc : ∀ w', w' ≠ w → t.pc w' = s.pc w')
    (hopsDone : ∀ w', w' ≠ w → t.opsDone w' = s.opsDone w')
    (hprogress : (worker w).Progress size (t.opsDone w))
    (hround : (worker w).Round size (t.opsDone w) (t.pc w))
    (hsizes : ∀ call ∈ t.calls, call.length = size)
    (hkeys : ∀ n : Nat, s.keySequence.counter = I64.add start n →
      Dispensed (fun i => I64.add start i) n (fun w => (s.pc w).held) s.calls.flatten →
      t.keySequence.counter = I64.add start (n + m : Nat)
        ∧
      Dispensed (fun i => I64.add start i) (n + m) (fun w => (t.pc w).held) t.calls.flatten)
    (hcount : t.opsDone w + (t.pc w).inFlight size + extra'
      = s.opsDone w + (s.pc w).inFlight size + m + extra)
    : Accounts size worker start extra' t where
  active := hactive
  alive := halive
  progress := by
    intro w'
    by_cases heq : w' = w
    . rw [heq]
      exact hprogress
    . rw [hopsDone w' heq]
      apply h.progress
  rounds := by
    intro w'
    by_cases heq : w' = w
    . rw [heq]
      exact hround
    . rw [hopsDone w' heq, hpc w' heq]
      apply h.rounds
  sizes := hsizes
  keys := by
    rcases h.keys with ⟨n, hcounter, hdispensed, hsum⟩
    rcases hkeys n hcounter hdispensed with ⟨hcounter', hdispensed'⟩
    refine ⟨n + m, hcounter', hdispensed', ?_⟩
    have hagree := sum_add_eq_of_agree (f := fun w => s.opsDone w + ((s.pc w).inFlight size : Int))
      (g := fun w => t.opsDone w + ((t.pc w).inFlight size : Int)) w
      (fun w' heq => by rw [hpc w' heq, hopsDone w' heq])
    push_cast
    omega

theorem Accounts.goto (h : Accounts size worker start extra s) {w : W} {old pc : Worker.PC}
    (hpc : s.pc w = old) (hround : (worker w).Round size (s.opsDone w) pc) (hheld : pc.held = old.held)
    (hflight : pc.inFlight size = old.inFlight size)
    : Accounts size worker start extra (s.goto w pc) := by
  rw [← hpc] at hheld hflight
  refine h.move w 0 extra h.active h.alive (fun w' => pc_goto_of_ne s pc) (fun _ _ => rfl) (h.progress w)
    ?_ ?_ ?_ ?_
  . rw [pc_goto_self]
    exact hround
  . exact h.sizes
  . intro n hcounter hdispensed
    exact ⟨hcounter, hdispensed.congr (held_goto s hheld)⟩
  . rw [pc_goto_self, hflight]
    push_cast
    rw [Int.add_zero]
    rfl

theorem Accounts.next (h : Accounts size worker start extra s) {w : W} {left : Nat} {keyNums : List Int}
    (hpc : s.pc w = .next (left + 1) keyNums)
    : Accounts size worker start extra
        ({ s with keySequence := s.keySequence.next.2 }.goto w
          (.next left (keyNums ++ [s.keySequence.next.1]))) := by
  have hround := h.rounds w
  rw [hpc] at hround
  refine h.move w 1 extra h.active h.alive (fun w' => pc_goto_of_ne _ _) (fun _ _ => rfl) (h.progress w)
    ?_ ?_ ?_ ?_
  . rw [pc_goto_self]
    refine ⟨?_, hround.2⟩
    rw [List.length_append, List.length_singleton]
    have := hround.1
    omega
  . exact h.sizes
  . intro n hcounter hdispensed
    rw [Counter.next_eq_add hcounter]
    refine ⟨rfl, hdispensed.draw w ?_ ?_⟩
    . intro w' hne
      dsimp only
      rw [pc_goto_of_ne _ _ hne]
    . dsimp only
      rw [pc_goto_self, hpc]
      rfl
  . rw [pc_goto_self, hpc]
    dsimp only [Worker.PC.inFlight]
    rw [List.length_append, List.length_singleton]
    push_cast
    rw [← Int.add_assoc]
    rfl

theorem Accounts.inserted (h : Accounts size worker start extra s) {w : W} {keyNums : List Int}
    {numOfRetries : Int} (hpc : s.pc w = .insert keyNums numOfRetries)
    : Accounts size worker start extra ({ s with calls := s.calls ++ [keyNums] }.goto w .count) := by
  have hround := h.rounds w
  rw [hpc] at hround
  refine h.move w 0 extra h.active h.alive (fun w' => pc_goto_of_ne _ _) (fun _ _ => rfl) (h.progress w)
    ?_ ?_ ?_ ?_
  . rw [pc_goto_self]
    exact hround.2.2
  . intro call hcall
    cases List.mem_append.mp hcall with
    | inl hcall => exact h.sizes call hcall
    | inr hcall =>
      rw [List.mem_singleton] at hcall
      rw [hcall]
      exact hround.1
  . intro n hcounter hdispensed
    refine ⟨hcounter, ?_⟩
    have hheld : (s.pc w).held = keyNums := by
      rw [hpc]
      rfl
    have hused : (s.calls ++ [keyNums]).flatten = s.calls.flatten ++ (s.pc w).held := by
      rw [List.flatten_append, List.flatten_singleton, hheld]
    dsimp only [Client.goto]
    rw [hused]
    apply hdispensed.use w
    . intro w' hne
      rw [Function.update_of_ne hne]
    . rw [Function.update_self]
      rfl
  . rw [pc_goto_self, hpc]
    dsimp only [Worker.PC.inFlight]
    rw [hround.1, Int.natCast_zero, Int.add_zero]
    rfl

theorem Accounts.counted (h : Accounts size worker start extra s) {w : W} (hpc : s.pc w = .count)
    (hops : (worker w).opsCount = size) (hfits : s.opsDone w + size < 2 ^ 63)
    : Accounts size worker start extra
        ({ s with
            opsDone := Function.update s.opsDone w (I64.add (s.opsDone w) (worker w).opsCount)
            }.goto w .select) := by
  have hround := h.rounds w
  have hheld : Worker.PC.select.held = (s.pc w).held := by
    rw [hpc]
    rfl
  rw [hpc] at hround
  have hdone : ∀ w', w' ≠ w → Function.update s.opsDone w (s.opsDone w + size) w' = s.opsDone w' :=
    fun w' hne => Function.update_of_ne hne _ _
  rw [(h.progress w).add_opsCount hops hfits]
  refine h.move w 0 extra h.active h.alive (fun w' => pc_goto_of_ne _ _) hdone ?_ ?_ ?_ ?_ ?_
  . dsimp only [Client.goto]
    rw [Function.update_self]
    exact (h.progress w).count hround
  . rw [pc_goto_self]
    trivial
  . exact h.sizes
  . intro n hcounter hdispensed
    exact ⟨hcounter, hdispensed.congr (held_goto _ hheld)⟩
  . rw [pc_goto_self, hpc]
    dsimp only [Client.goto, Worker.PC.inFlight]
    rw [Function.update_self, Int.natCast_zero, Int.add_zero]

theorem Accounts.uncounted (h : Accounts size worker start extra s) {w : W} (hpc : s.pc w = .count)
    : Accounts size worker start (extra + size) (s.goto w .select) := by
  have hheld : Worker.PC.select.held = (s.pc w).held := by
    rw [hpc]
    rfl
  refine h.move w 0 (extra + size) h.active h.alive (fun w' => pc_goto_of_ne _ _) (fun _ _ => rfl) (h.progress w)
    ?_ ?_ ?_ ?_
  . rw [pc_goto_self]
    trivial
  . exact h.sizes
  . intro n hcounter hdispensed
    exact ⟨hcounter, hdispensed.congr (held_goto _ hheld)⟩
  . rw [pc_goto_self, hpc]
    dsimp only [Client.goto, Worker.PC.inFlight]
    push_cast
    omega

omit [DecidableEq W] in
theorem Accounts.pc_ne_transaction (h : Accounts size worker start extra s) (w : W)
    : s.pc w ≠ .transaction := by
  intro hpc
  have hround := h.rounds w
  rw [hpc] at hround
  exact hround

omit [DecidableEq W] in
theorem Accounts.afterCall_ne_again (h : Accounts size worker start extra s) {w : W} {keyNums : List Int}
    {numOfRetries : Int} (hpc : s.pc w = .insert keyNums numOfRetries) (err : Option String)
    (numOfRetries' : Int)
    : Load.afterCall 0 numOfRetries s.ctxErr err ≠ .again numOfRetries' := by
  have hround := h.rounds w
  rw [hpc] at hround
  rcases Load.afterCall_zero err with ⟨res, hret⟩
  rw [hround.2.1, h.active, hret]
  simp

theorem Accounts.step (h : Accounts size worker start extra s) {P : Platform} {env : Build → Prop} {c : Core}
    {label : Label W} {t : Client W} (hworker : ∀ w, (worker w).Loads size) (hretry : c.insertionRetryLimit = 0)
    (htakes : Takes P c worker s label t) (hallowed : s.Allowed env label) (halive : t.crashed = false)
    (hcount : ∀ w answer, label = .step w answer → s.pc w = .count →
      s.warmUp = false ∧ s.opsDone w + size < 2 ^ 63)
    : Accounts size worker start extra t := by
  cases htakes with
  | test w answer hpc hlt =>
    rw [(hworker w).operation]
    exact h.goto hpc ⟨Nat.zero_add _, (hworker w).lt_of_test hlt⟩ rfl rfl
  | exit w answer hpc _ hle =>
    have hround : (worker w).Round size (s.opsDone w) .returned := hle
    exact h.goto hpc hround rfl rfl
  | transaction w answer hpc => exact absurd hpc (h.pc_ne_transaction w)
  | next w answer left keyNums values hpc hbuilt => exact h.next hpc
  | crash w answer left keyNums hpc hbuilt => contradiction
  | taken w answer keyNums hpc =>
    have hround := h.rounds w
    rw [hpc] at hround
    exact h.goto hpc ⟨hround.1, rfl, hround.2⟩ rfl rfl
  | retry w answer keyNums numOfRetries numOfRetries' hpc hcall =>
    rw [hretry] at hcall
    exact absurd hcall (h.afterCall_ne_again hpc answer.err numOfRetries')
  | inserted w answer keyNums numOfRetries res hpc hcall => exact h.inserted hpc
  | uncounted w answer hpc hwarm =>
    have := (hcount w answer rfl hpc).1
    rw [hwarm] at this
    contradiction
  | counted w answer hpc hwarm => exact h.counted hpc (hworker w).opsCount (hcount w answer rfl hpc).2
  | canceled w answer hpc hctx => exact absurd h.active hctx
  | again w answer hpc hctx =>
    have hround : (worker w).Round size (s.opsDone w) .test := trivial
    exact h.goto hpc hround rfl rfl
  | finishWarmUp hwarm => exact ⟨h.active, h.alive, h.progress, h.rounds, h.sizes, h.keys⟩
  | cancel err hctx => exact hallowed.elim

def measure (size : Nat) (worker : W → Worker) (s : Client W) : Nat :=
  (∑ w, (worker w).weight size (s.opsDone w) (s.pc w)) + if s.warmingUp then 1 else 0

theorem measure_lt_of_move (w : W) {t : Client W} (hpc : ∀ w', w' ≠ w → t.pc w' = s.pc w')
    (hopsDone : ∀ w', w' ≠ w → t.opsDone w' = s.opsDone w') (hwarm : t.warmingUp = s.warmingUp)
    (hlt : (worker w).weight size (t.opsDone w) (t.pc w) < (worker w).weight size (s.opsDone w) (s.pc w))
    : measure size worker t < measure size worker s := by
  have hagree := sum_add_eq_of_agree (f := fun w => (worker w).weight size (s.opsDone w) (s.pc w))
    (g := fun w => (worker w).weight size (t.opsDone w) (t.pc w)) w
    (fun w' heq => by rw [hpc w' heq, hopsDone w' heq])
  unfold measure
  rw [hwarm]
  omega

theorem measure_goto_lt {w : W} {pc : Worker.PC}
    (hlt : (worker w).weight size (s.opsDone w) pc < (worker w).weight size (s.opsDone w) (s.pc w))
    : measure size worker (s.goto w pc) < measure size worker s := by
  apply measure_lt_of_move w (fun w' => pc_goto_of_ne s pc) (fun _ _ => rfl) rfl
  rw [pc_goto_self]
  exact hlt

theorem Accounts.measure_lt (h : Accounts size worker start extra s) {P : Platform} {env : Build → Prop} {c : Core}
    {label : Label W} {t : Client W} (hsize : 0 < size) (hworker : ∀ w, (worker w).Loads size)
    (hretry : c.insertionRetryLimit = 0) (htakes : Takes P c worker s label t)
    (hallowed : s.Allowed env label) (halive : t.crashed = false)
    (hcount : ∀ w answer, label = .step w answer → s.pc w = .count →
      s.warmUp = false ∧ s.opsDone w + size < 2 ^ 63)
    : measure size worker t < measure size worker s := by
  cases htakes with
  | test w answer hpc hlt =>
    apply measure_goto_lt
    rw [hpc, (hworker w).operation]
    apply Worker.weight_next_lt ((hworker w).lt_of_test hlt)
  | exit w answer hpc _ hle =>
    apply measure_goto_lt
    rw [hpc]
    exact Nat.succ_pos _
  | transaction w answer hpc => exact absurd hpc (h.pc_ne_transaction w)
  | next w answer left keyNums values hpc hbuilt =>
    apply measure_lt_of_move w (fun w' => pc_goto_of_ne _ _) (fun _ _ => rfl) rfl
    rw [pc_goto_self, hpc]
    dsimp only [Client.goto, Worker.weight]
    omega
  | crash w answer left keyNums hpc hbuilt => contradiction
  | taken w answer keyNums hpc =>
    apply measure_goto_lt
    rw [hpc]
    exact Nat.lt_succ_self _
  | retry w answer keyNums numOfRetries numOfRetries' hpc hcall =>
    rw [hretry] at hcall
    exact absurd hcall (h.afterCall_ne_again hpc answer.err numOfRetries')
  | inserted w answer keyNums numOfRetries res hpc hcall =>
    apply measure_lt_of_move w (fun w' => pc_goto_of_ne _ _) (fun _ _ => rfl) rfl
    rw [pc_goto_self, hpc]
    exact Nat.lt_succ_self _
  | uncounted w answer hpc hwarm =>
    have := (hcount w answer rfl hpc).1
    rw [hwarm] at this
    contradiction
  | counted w answer hpc hwarm =>
    have hround := h.rounds w
    rw [hpc] at hround
    refine measure_lt_of_move w (fun w' => pc_goto_of_ne _ _)
      (fun w' hne => Function.update_of_ne hne _ _) rfl ?_
    dsimp only [Client.goto]
    rw [Function.update_self, Function.update_self, hpc]
    rw [(h.progress w).add_opsCount (hworker w).opsCount (hcount w answer rfl hpc).2]
    exact Worker.weight_select_lt hsize hround
  | canceled w answer hpc hctx => exact absurd h.active hctx
  | again w answer hpc hctx =>
    apply measure_goto_lt
    rw [hpc]
    exact Nat.lt_succ_self _
  | finishWarmUp hwarm =>
    unfold measure
    rw [hwarm]
    exact Nat.lt_succ_self _
  | cancel err hctx => exact hallowed.elim

end

end Client
