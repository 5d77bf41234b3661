import GoYcsb.Client.Impl.Measure
import GoYcsb.Client.Lemmas.DbWrapper
import GoYcsb.Lib.Dispenser
import GoYcsb.Measurement.Lemmas.Prometheus

/-!
This module contains when the number of operations that `GoYcsb.Client.Impl.Measure` records as `TOTAL` is the number
of operations it records without an error.
-/

open Measurement

namespace MeasurePC

def left (pc : MeasurePC) : List Operation :=
  match pc with
  | .idle => []
  | .isWarmUpFinished op rest => op :: rest
  | .record op rest => op :: rest

@[simp]
theorem left_next (ops : List Operation) : (next ops).left = ops := by
  cases ops with
  | nil => rfl
  | cons op rest => rfl

end MeasurePC

namespace Measuring

def totals (ops : List Operation) : Nat := ops.count .total

def dones (ops : List Operation) : Nat := (Call.all.map (fun op => ops.count (.done op))).sum

theorem totals_nil : totals [] = 0 := rfl

theorem dones_nil : dones [] = 0 := rfl

theorem totals_append (xs ys : List Operation) : totals (xs ++ ys) = totals xs + totals ys := List.count_append

theorem dones_append (xs ys : List Operation) : dones (xs ++ ys) = dones xs + dones ys := by
  unfold dones
  rw [← List.sum_map_add]
  simp only [List.count_append]

theorem totals_cons (op : Operation) (ops : List Operation) : totals (op :: ops) = totals [op] + totals ops :=
  totals_append [op] ops

theorem dones_cons (op : Operation) (ops : List Operation) : dones (op :: ops) = dones [op] + dones ops :=
  dones_append [op] ops

theorem dones_done (op : Call) : dones [.done op] = 1 := by
  cases op <;> decide

theorem dones_error (op : Call) : dones [.error op] = 0 := by
  cases op <;> decide

theorem totals_eq_of_suffix {op : Call} {err : Option String} {ops : List Operation}
    (h : ops <:+ MeasurePC.measure op err)
    : totals ops = dones ops + if ops = [.total] then 1 else 0 := by
  have hdone := dones_done op
  have herror := dones_error op
  cases err with
  | some err =>
    rw [MeasurePC.measure, List.suffix_cons_iff, List.suffix_nil] at h
    rcases h with rfl | rfl
    . simp [totals, herror]
    . decide
  | none =>
    rw [MeasurePC.measure, List.suffix_cons_iff, List.suffix_cons_iff, List.suffix_nil] at h
    rcases h with rfl | rfl | rfl
    . rw [totals_cons, dones_cons, hdone]
      simp [totals, dones, Call.all]
    . decide
    . decide

variable {W : Type} [Fintype W] [DecidableEq W] {s t : Measuring W}

-- No worker has left out its operation and is about to measure the total when the warm-up comes to its end.
def Calm (s : Measuring W) (label : Label W) : Prop :=
  match label with
  | .finishWarmUp => s.warmUp = true → ∀ w, (s.pc w).left ≠ [.total]
  | .measure _ _ _ => True
  | .step _ => True

def Quiescent (s : Measuring W) : Prop := ∀ w, s.pc w = .idle

def TotalIsSum (s : Measuring W) : Prop := totals s.recorded = dones s.recorded

def late (s : Measuring W) : Nat := ∑ w, if (s.pc w).left = [.total] then 1 else 0

omit [DecidableEq W] in
theorem late_eq_zero_iff : s.late = 0 ↔ ∀ w, (s.pc w).left ≠ [.total] := by
  simp [late]

structure Accounts (s : Measuring W) (late : Nat) : Prop where
  shape : ∀ w, ∃ op err, (s.pc w).left <:+ MeasurePC.measure op err
  warm : s.warmUp = true → s.recorded = [] ∧ late = 0 ∧ ∀ w op rest, s.pc w ≠ .record op rest
  counts : s.warmUp = false →
    totals s.recorded + ∑ w, totals (s.pc w).left = dones s.recorded + (∑ w, dones (s.pc w).left) + late

theorem sum_goto (f : MeasurePC → Nat) (s : Measuring W) (w : W) (pc : MeasurePC)
    : (∑ w', f ((s.goto w pc).pc w')) + f (s.pc w) = (∑ w', f (s.pc w')) + f pc := by
  have hsum := sum_add_eq_of_agree (f := fun w' => f (s.pc w')) (g := fun w' => f ((s.goto w pc).pc w')) w (by
    intro w' hne
    simp [goto, hne])
  simpa [goto] using hsum

theorem Accounts.move {late : Nat} (h : s.Accounts late) (w : W) (pc : MeasurePC) (added : List Operation)
    (hshape : ∃ op err, pc.left <:+ MeasurePC.measure op err)
    (hwarm : s.warmUp = true → added = [] ∧ ∀ op rest, pc ≠ .record op rest)
    (hcounts : s.warmUp = false →
      totals added + totals pc.left + dones (s.pc w).left = dones added + dones pc.left + totals (s.pc w).left)
    : ({ s with recorded := s.recorded ++ added }.goto w pc).Accounts late where
  shape := by
    intro w'
    by_cases heq : w' = w
    . subst heq
      simpa [goto] using hshape
    . simpa [goto, heq] using h.shape w'
  warm := by
    intro hwarmUp
    rcases h.warm hwarmUp with ⟨hrecorded, hlate, hpc⟩
    rcases hwarm hwarmUp with ⟨hadded, hpc'⟩
    refine ⟨?_, hlate, ?_⟩
    . simp [goto, hrecorded, hadded]
    . intro w'
      by_cases heq : w' = w
      . subst heq
        simpa [goto] using hpc'
      . simpa [goto, heq] using hpc w'
  counts := by
    intro hwarmUp
    have hbefore := h.counts hwarmUp
    have hmove := hcounts hwarmUp
    have htotals := sum_goto (fun pc => totals pc.left) { s with recorded := s.recorded ++ added } w pc
    have hdones := sum_goto (fun pc => dones pc.left) { s with recorded := s.recorded ++ added } w pc
    have hrecorded : ({ s with recorded := s.recorded ++ added }.goto w pc).recorded = s.recorded ++ added := rfl
    rw [hrecorded, totals_append, dones_append]
    dsimp only at htotals hdones
    omega

omit [DecidableEq W] in
theorem init_accounts (warmUp : Bool) : (init warmUp : Measuring W).Accounts 0 where
  shape := by
    intro w
    exact ⟨.read, none, List.nil_suffix⟩
  warm := by
    intro _
    exact ⟨rfl, rfl, nofun⟩
  counts := by
    intro _
    simp [init, MeasurePC.left, totals_nil, dones_nil]

theorem Accounts.measure {late : Nat} (h : s.Accounts late) {w : W} (hpc : s.pc w = .idle) (op : Call)
    (err : Option String)
    : (s.goto w (.next (MeasurePC.measure op err))).Accounts late := by
  have hmove := h.move w (.next (MeasurePC.measure op err)) [] ⟨op, err, ?_⟩ ?_ ?_
  . rw [List.append_nil] at hmove
    exact hmove
  . rw [MeasurePC.left_next]
  . intro _
    cases err with
    | some err => exact ⟨rfl, nofun⟩
    | none => exact ⟨rfl, nofun⟩
  . intro _
    have heq := totals_eq_of_suffix (List.suffix_refl (MeasurePC.measure op err))
    have hne : MeasurePC.measure op err ≠ [.total] := by
      cases err with
      | some err => simp [MeasurePC.measure]
      | none => simp [MeasurePC.measure]
    rw [if_neg hne, Nat.add_zero] at heq
    rw [MeasurePC.left_next, hpc, heq]
    rfl

theorem Accounts.skip {late : Nat} (h : s.Accounts late) {w : W} {op : Operation} {rest : List Operation}
    (hpc : s.pc w = .isWarmUpFinished op rest) (hwarm : s.warmUp = true)
    : (s.goto w (.next rest)).Accounts late := by
  have hmove := h.move w (.next rest) [] ?_ ?_ ?_
  . rw [List.append_nil] at hmove
    exact hmove
  . rcases h.shape w with ⟨op', err, hsuffix⟩
    rw [hpc] at hsuffix
    rw [MeasurePC.left_next]
    exact ⟨op', err, (List.suffix_cons op rest).trans hsuffix⟩
  . intro _
    cases rest with
    | nil => exact ⟨rfl, nofun⟩
    | cons op rest => exact ⟨rfl, nofun⟩
  . intro hfinished
    rw [hwarm] at hfinished
    cases hfinished

theorem Accounts.find {late : Nat} (h : s.Accounts late) {w : W} {op : Operation} {rest : List Operation}
    (hpc : s.pc w = .isWarmUpFinished op rest) (hwarm : s.warmUp = false)
    : (s.goto w (.record op rest)).Accounts late := by
  have hleft : (MeasurePC.record op rest).left = (s.pc w).left := by
    rw [hpc]
    rfl
  have hmove := h.move w (.record op rest) [] ?_ ?_ ?_
  . rw [List.append_nil] at hmove
    exact hmove
  . rw [hleft]
    exact h.shape w
  . intro hwarm'
    rw [hwarm] at hwarm'
    cases hwarm'
  . intro _
    rw [hleft, totals_nil, dones_nil]
    omega

theorem Accounts.record {late : Nat} (h : s.Accounts late) {w : W} {op : Operation} {rest : List Operation}
    (hpc : s.pc w = .record op rest)
    : ({ s with recorded := s.recorded ++ [op] }.goto w (.next rest)).Accounts late := by
  apply h.move w (.next rest) [op]
  . rcases h.shape w with ⟨op', err, hsuffix⟩
    rw [hpc] at hsuffix
    rw [MeasurePC.left_next]
    exact ⟨op', err, (List.suffix_cons op rest).trans hsuffix⟩
  . intro hwarm
    exact absurd hpc ((h.warm hwarm).2.2 w op rest)
  . intro _
    have htotals := totals_cons op rest
    have hdones := dones_cons op rest
    rw [MeasurePC.left_next, hpc]
    dsimp only [MeasurePC.left]
    omega

omit [DecidableEq W] in
theorem Accounts.finishWarmUp {n : Nat} (h : s.Accounts n) (hwarm : s.warmUp = true)
    : ({ s with warmUp := false } : Measuring W).Accounts s.late where
  shape := h.shape
  warm := nofun
  counts := by
    intro _
    rw [(h.warm hwarm).1]
    have hsum : ∑ w, totals (s.pc w).left = (∑ w, dones (s.pc w).left) + s.late := by
      rw [late, ← Finset.sum_add_distrib]
      apply Finset.sum_congr rfl
      intro w _
      rcases h.shape w with ⟨op, err, hsuffix⟩
      exact totals_eq_of_suffix hsuffix
    dsimp only
    rw [hsum, totals_nil, dones_nil, Nat.zero_add, Nat.zero_add]

theorem Accounts.step {late : Nat} (h : s.Accounts late) {label : Label W} (htake : s.step label = some t)
    (hlabel : label = .finishWarmUp → s.warmUp = false)
    : t.Accounts late := by
  cases label with
  | measure w op err =>
    rw [Measuring.step] at htake
    split at htake
    . next hpc =>
      cases htake
      exact h.measure hpc op err
    . cases htake
    . cases htake
  | step w =>
    rw [Measuring.step] at htake
    split at htake
    . cases htake
    . next hpc =>
      split at htake
      . next hwarm =>
        cases htake
        exact h.skip hpc hwarm
      . next hwarm =>
        cases htake
        exact h.find hpc (by simpa using hwarm)
    . next hpc =>
      cases htake
      exact h.record hpc
  | finishWarmUp =>
    cases htake
    have heq : ({ s with warmUp := false } : Measuring W) = s := by
      rw [← hlabel rfl]
    rw [heq]
    exact h

theorem exists_accounts {warmUp : Bool} {labels : List (Label W)}
    (hrun : Run step (fun _ _ => True) (init warmUp) labels s)
    : ∃ late, s.Accounts late ∧ (late = 0 ↔ Run step Calm (init warmUp) labels s) := by
  induction hrun with
  | nil => exact ⟨0, init_accounts warmUp, iff_of_true rfl .nil⟩
  | @snoc labels s t label hrun _ htake ih =>
    rcases ih with ⟨late, haccounts, hlate⟩
    by_cases hfinish : label = .finishWarmUp ∧ s.warmUp = true
    . rcases hfinish with ⟨rfl, hwarm⟩
      cases htake
      refine ⟨s.late, haccounts.finishWarmUp hwarm, ?_⟩
      rw [hrun.snoc_iff rfl, ← hlate, late_eq_zero_iff]
      constructor
      . intro hleft
        exact ⟨(haccounts.warm hwarm).2.1, fun _ => hleft⟩
      . intro hcalm
        exact hcalm.2 hwarm
    . have hlabel : label = .finishWarmUp → s.warmUp = false := by
        intro heq
        simpa [heq] using hfinish
      refine ⟨late, haccounts.step htake hlabel, ?_⟩
      rw [hrun.snoc_iff htake, hlate]
      have hcalm : s.Calm label := by
        cases label with
        | measure w op err => trivial
        | step w => trivial
        | finishWarmUp =>
          intro hwarm
          rw [hlabel rfl] at hwarm
          cases hwarm
      exact (and_iff_left hcalm).symm

theorem totalIsSum_iff_calm {warmUp : Bool} {labels : List (Label W)} {s : Measuring W}
    (hrun : Run step (fun _ _ => True) (init warmUp) labels s) (hquiet : s.Quiescent)
    : s.TotalIsSum ↔ Run step Calm (init warmUp) labels s := by
  rcases exists_accounts hrun with ⟨late, haccounts, hlate⟩
  rw [← hlate, TotalIsSum]
  cases hwarm : s.warmUp with
  | true =>
    rcases haccounts.warm hwarm with ⟨hrecorded, hzero, _⟩
    rw [hrecorded]
    exact iff_of_true rfl hzero
  | false =>
    have hcounts := haccounts.counts hwarm
    have hleft (w : W) : (s.pc w).left = [] := by
      rw [hquiet w]
      rfl
    simp only [hleft, totals_nil, dones_nil, Finset.sum_const_zero, Nat.add_zero] at hcounts
    omega

section

omit [Fintype W]

theorem exists_run_next (s : Measuring W) (w : W) (ops : List Operation)
    : ∃ labels,
        Run step (fun _ _ => True) (s.goto w (.next ops)) labels
          ({ s with recorded := s.recorded ++ if s.warmUp then [] else ops }.goto w .idle) := by
  induction ops generalizing s with
  | nil =>
    refine ⟨[], ?_⟩
    rw [ite_self, List.append_nil]
    exact .nil
  | cons op rest ih =>
    rcases s with ⟨warmUp, recorded, pc⟩
    cases warmUp with
    | true =>
      have htake : step (goto ⟨true, recorded, pc⟩ w (.isWarmUpFinished op rest)) (.step w)
          = some (goto ⟨true, recorded, pc⟩ w (.next rest)) := by
        simp [step, goto]
      rcases ih ⟨true, recorded, pc⟩ with ⟨labels, hrun⟩
      exact ⟨.step w :: labels, hrun.cons trivial htake⟩
    | false =>
      have hfind : step (goto ⟨false, recorded, pc⟩ w (.isWarmUpFinished op rest)) (.step w)
          = some (goto ⟨false, recorded, pc⟩ w (.record op rest)) := by
        simp [step, goto]
      have hrecord : step (goto ⟨false, recorded, pc⟩ w (.record op rest)) (.step w)
          = some (goto ⟨false, recorded ++ [op], pc⟩ w (.next rest)) := by
        simp [step, goto]
      rcases ih ⟨false, recorded ++ [op], pc⟩ with ⟨labels, hrun⟩
      rw [List.append_assoc] at hrun
      exact ⟨.step w :: .step w :: labels, (hrun.cons trivial hrecord).cons trivial hfind⟩

theorem exists_run_measure {σ : Type} (env : DbWrapper.Env σ) (d : DbWrapper.State σ) (w : W) (op : Call)
    (err : Option String) (hpc : s.pc w = .idle) (hwarm : s.warmUp = !env.isWarmUpFinished d.db)
    (hrecorded : s.recorded = d.recorded)
    : ∃ labels t,
        Run step (fun _ _ => True) s labels t
          ∧
        t.pc w = .idle
          ∧
        t.recorded = (DbWrapper.measure env op err d).recorded := by
  have htake : step s (.measure w op err) = some (s.goto w (.next (MeasurePC.measure op err))) := by
    simp [step, hpc]
  rcases exists_run_next s w (MeasurePC.measure op err) with ⟨labels, hrun⟩
  refine ⟨_, _, hrun.cons trivial htake, by simp [goto], ?_⟩
  rw [DbWrapper.measure_eq]
  show s.recorded ++ _ = d.recorded ++ DbWrapper.marks env op err d.db
  rw [hrecorded, hwarm]
  cases hfinished : env.isWarmUpFinished d.db with
  | false => simp [DbWrapper.marks, hfinished]
  | true =>
    cases err with
    | some err => simp [DbWrapper.marks, hfinished, MeasurePC.measure]
    | none => simp [DbWrapper.marks, hfinished, MeasurePC.measure]

end

instance (s : Measuring W) (label : Label W) : Decidable (s.Calm label) :=
  match label with
  | .finishWarmUp => inferInstanceAs (Decidable (_ → _))
  | .measure _ _ _ => isTrue trivial
  | .step _ => isTrue trivial

theorem totalIsSum_finished_before_measure
    : ∃ s : Measuring Unit,
        Run step (fun _ _ => True) (init true)
          ([.measure () .read none, .finishWarmUp] ++ List.replicate 4 (.step ())) s
          ∧
        totals s.recorded = 1
          ∧
        s.TotalIsSum := by
  have hexec : (Run.exec step Calm (init true)
      ([Label.measure () .read none, .finishWarmUp] ++ List.replicate 4 (Label.step ()))).any
      (fun s : Measuring Unit => totals s.recorded = 1 ∧ s.pc () = .idle) := by
    decide +kernel
  rcases Run.exists_of_exec _ hexec with ⟨s, hcalm, hs⟩
  simp only [decide_eq_true_eq] at hs
  have hrun : Run step (fun _ _ => True) (init true) _ s := hcalm.mono (fun _ _ _ => trivial)
  exact ⟨s, hrun, hs.1, (totalIsSum_iff_calm hrun (fun _ => hs.2)).mpr hcalm⟩

theorem total_without_operation
    : ∃ s : Measuring Unit,
        Run step (fun _ _ => True) (init true)
          [.measure () .read none, .step (), .finishWarmUp, .step (), .step ()] s
          ∧
        s.Quiescent
          ∧
        s.recorded = [.total]
          ∧
        ¬s.TotalIsSum := by
  have hexec : (Run.exec step (fun _ _ => True) (init true)
      [Label.measure () .read none, .step (), .finishWarmUp, .step (), .step ()]).any
      (fun s : Measuring Unit => s.recorded = [.total] ∧ s.pc () = .idle) := by
    decide +kernel
  rcases Run.exists_of_exec _ hexec with ⟨s, hrun, hs⟩
  simp only [decide_eq_true_eq] at hs
  refine ⟨s, hrun, fun _ => hs.2, hs.1, ?_⟩
  rw [TotalIsSum, hs.1]
  decide

end Measuring
