import GoYcsb.Client.Lemmas.Ends
import GoYcsb.Client.Lemmas.Worker
import Mathlib.Data.Rat.Floor

/-!
This module contains the results on `Run` for the workers that `newWorker` makes. For the schedule that a target gives,
the arithmetic on it is taken as exact.
-/

namespace ClientRun

variable {n : Nat}

structure Config.From (P : Platform) (p : Properties) (target : Option I64.Value) (cfg : Config n) : Prop where
  threadCount : p.getThreadCount = n
  worker : ∀ i : Fin n, newTargetWorker P p target i n = .ret (cfg.worker i)
  doTransactions : cfg.doTransactions = p.getDoTransactions
  warmUpTime : cfg.warmUpTime = p.getWarmUpTime

def Config.Spreads (cfg : Config n) : Prop :=
  ∀ i, (cfg.worker i).spreads = true → 0 < (cfg.worker i).targetOpsTickNs

-- The nanoseconds that a worker has for one operation.
def tickOf (target : Int) (n : Nat) : Int := 1000000000 * n / target

section

variable {P : Platform} {p : Properties} {target : Option I64.Value}

theorem toInt64_tick {v : Int} (hv : 0 < v) (hpos : 0 < n) (hn : n < 2 ^ 33)
    : ((F64.ofInt .exactAmd64 1000000).div .exactAmd64 (.fin ((v : Rat) / n / 1000))).toInt64 .exactAmd64
        = tickOf v n := by
  have hquot : (0 : Rat) < (v : Rat) / n / 1000 := by positivity
  have hdiv : (F64.ofInt .exactAmd64 1000000).div .exactAmd64 (.fin ((v : Rat) / n / 1000))
      = .fin (((1000000000 * n : Int) : Rat) / ((v.toNat : Nat) : Rat)) := by
    have hcast : ((v.toNat : Nat) : Rat) = (v : Rat) := by
      have hnat : ((v.toNat : Nat) : Int) = v := Int.toNat_of_nonneg hv.le
      exact_mod_cast congrArg (Int.cast : Int → Rat) hnat
    unfold F64.div F64.ofInt
    dsimp only
    rw [if_neg hquot.ne', hcast]
    dsimp only [Platform.exactAmd64, id]
    congr 1
    push_cast
    field_simp
    norm_num
  have hnonneg : (0 : Rat) ≤ ((1000000000 * n : Int) : Rat) / ((v.toNat : Nat) : Rat) := by positivity
  have htrunc : F64.trunc (((1000000000 * n : Int) : Rat) / ((v.toNat : Nat) : Rat)) = tickOf v n := by
    rw [F64.trunc_eq_floor hnonneg, Rat.floor_intCast_div_natCast, Int.toNat_of_nonneg hv.le]
    rfl
  rw [hdiv]
  unfold F64.toInt64
  dsimp only
  rw [htrunc, if_pos]
  have hlower : 0 ≤ tickOf v n := Int.ediv_nonneg (by omega) hv.le
  have hupper : tickOf v n ≤ 1000000000 * n := Int.ediv_le_self _ (by omega)
  unfold I64.InRange
  omega

theorem from_newWorker {i : Fin n} {worker : TargetWorker}
    (h : newTargetWorker P p target i n = .ret worker)
    : newWorker p i n = .ret worker.toWorker := by
  rcases Outcome.bind_eq_ret h with ⟨base, hbase, hrest⟩
  dsimp only at hrest
  generalize (if 0 < getInt64 target 0 then _ else _ : F64) = targetPerThreadPerms at hrest
  split at hrest
  . cases hrest
    exact hbase
  . cases hrest
    exact hbase

theorem from_target {i : Fin n} {worker : TargetWorker} (hn : n < 2 ^ 33)
    (h : newTargetWorker .exactAmd64 p target i n = .ret worker) (hv : 0 < getInt64 target 0)
    : worker.targetOpsPerMs = .fin ((getInt64 target 0 : Rat) / n / 1000)
        ∧
      worker.targetOpsTickNs = tickOf (getInt64 target 0) n := by
  have hpos : 0 < n := Nat.zero_lt_of_lt i.isLt
  have hne : ((n : Int) : Rat) ≠ 0 := by
    have : n ≠ 0 := by omega
    exact_mod_cast this
  have hquot : (0 : Rat) < (getInt64 target 0 : Rat) / n / 1000 := by positivity
  have hperms : ((F64.ofInt .exactAmd64 (getInt64 target 0)).div .exactAmd64 (F64.ofInt .exactAmd64 n)).div .exactAmd64
      (F64.ofInt .exactAmd64 1000) = .fin ((getInt64 target 0 : Rat) / n / 1000) := by
    unfold F64.ofInt F64.div
    dsimp only [Platform.exactAmd64, id]
    rw [if_neg hne]
    dsimp only
    rw [if_neg (by norm_num)]
    norm_num
  have hlt : (F64.ofInt .exactAmd64 0).lt (.fin ((getInt64 target 0 : Rat) / n / 1000)) = true := by
    unfold F64.ofInt F64.lt
    dsimp only [Platform.exactAmd64, id]
    rw [decide_eq_true_eq]
    exact_mod_cast hquot
  rcases Outcome.bind_eq_ret h with ⟨base, hbase, hrest⟩
  dsimp only at hrest
  rw [if_pos hv, hperms, if_pos hlt, toInt64_tick hv hpos hn] at hrest
  cases hrest
  exact ⟨rfl, rfl⟩

theorem from_noTarget {i : Fin n} {worker : TargetWorker} (h : newTargetWorker P p target i n = .ret worker)
    (hv : ¬ 0 < getInt64 target 0)
    : worker.targetOpsPerMs = .fin 0 := by
  have hlt : (F64.ofInt P 0).lt (F64.ofInt P (-1)) = false := by
    have hle := P.rnd_mono ((-1 : Int) : Rat) ((0 : Int) : Rat) (by norm_num)
    unfold F64.ofInt F64.lt
    rw [decide_eq_false_iff_not, not_lt]
    exact hle
  rcases Outcome.bind_eq_ret h with ⟨base, hbase, hrest⟩
  dsimp only at hrest
  rw [if_neg hv, hlt] at hrest
  cases hrest
  rfl

theorem le_one_of_le {q : Rat} (h : ((F64.fin q).lt (.fin 1) || (F64.fin q == .fin 1 && F64.fin q != .nan)) = true)
    : q ≤ 1 := by
  unfold F64.lt at h
  rw [Bool.or_eq_true, decide_eq_true_eq, Bool.and_eq_true, beq_iff_eq, F64.fin.injEq] at h
  rcases h with h | h
  . exact h.le
  . exact h.1.le

-- At most one operation in a millisecond leaves a million nanoseconds for each.
theorem tick_pos {v : Int} (hv : 0 < v) (hpos : 0 < n) (hle : (v : Rat) / n / 1000 ≤ 1) : 0 < tickOf v n := by
  have hnpos : (0 : Rat) < n := by exact_mod_cast hpos
  rw [div_le_one (by norm_num), div_le_iff₀ hnpos] at hle
  have hint : v ≤ 1000 * n := by exact_mod_cast hle
  have hmillion : 1000000 ≤ tickOf v n := by
    apply Int.le_ediv_of_mul_le hv
    omega
  omega

def sizeOf (p : Properties) : Int := if 1 < p.getBatchSize then p.getBatchSize else 1

theorem sizeOf_pos (p : Properties) : 0 < sizeOf p := by
  unfold sizeOf
  split <;> omega

variable {cfg : Config n}

theorem Config.From.opsCount (h : cfg.From P p target) (i : Fin n)
    : (cfg.worker i).opsCount = sizeOf p ∧ (cfg.worker i).opCount = share p.totalOpCount.toNat n i
        ∧ (n : Int) ≤ p.totalOpCount := by
  have hworker := from_newWorker (h.worker i)
  have htotal := le_totalOpCount_of_newWorker hworker
  rw [newWorker_eq i.isLt htotal, Outcome.ret.injEq] at hworker
  refine ⟨?_, ?_, htotal⟩
  . rw [← hworker]
    unfold Worker.opsCount sizeOf
    simp
  . rw [← hworker]

theorem Config.From.spreads_of_noTarget (h : cfg.From P p target) (hv : ¬ 0 < getInt64 target 0) : cfg.Spreads := by
  intro i hspreads
  rw [TargetWorker.spreads, from_noTarget (h.worker i) hv] at hspreads
  contradiction

theorem Config.From.spreads (h : cfg.From .exactAmd64 p target) (hn : n < 2 ^ 33) : cfg.Spreads := by
  by_cases hv : 0 < getInt64 target 0
  . intro i hspreads
    rcases from_target hn (h.worker i) hv with ⟨hperms, htick⟩
    unfold TargetWorker.spreads F64.le at hspreads
    rw [hperms, Bool.and_eq_true] at hspreads
    rw [htick]
    exact tick_pos hv (Nat.zero_lt_of_lt i.isLt) (le_one_of_le hspreads.2)
  . exact h.spreads_of_noTarget hv

theorem Config.From.sound (h : cfg.From P p target) (hspreads : cfg.Spreads)
    (hfits : p.totalOpCount + sizeOf p ≤ 2 ^ 63) (i : Fin n)
    : (cfg.worker i).Sound := by
  have hpos : 0 < n := Nat.zero_lt_of_lt i.isLt
  rcases h.opsCount i with ⟨hsize, hcount, htotal⟩
  have hle : share p.totalOpCount.toNat n i ≤ p.totalOpCount.toNat := share_le i.isLt
  refine { pos := ?_, size := ?_, fits := ?_, spread := hspreads i }
  . rw [hcount]
    have hshare : 0 < share p.totalOpCount.toNat n i := share_pos hpos (by omega) i
    omega
  . rw [hsize]
    exact sizeOf_pos p
  . rw [hcount, hsize]
    omega

theorem Config.From.paced (h : cfg.From .exactAmd64 p target) (hn : n < 2 ^ 33) (hv : 0 < getInt64 target 0)
    (hfits : (p.totalOpCount + sizeOf p) * tickOf (getInt64 target 0) n < 2 ^ 63) (i : Fin n)
    : (cfg.worker i).Paced := by
  rcases h.opsCount i with ⟨hsize, hcount, htotal⟩
  rcases from_target hn (h.worker i) hv with ⟨hperms, htick⟩
  have hpos : 0 < n := Nat.zero_lt_of_lt i.isLt
  have hquot : (0 : Rat) < (getInt64 target 0 : Rat) / n / 1000 := by positivity
  have hnonneg : 0 ≤ tickOf (getInt64 target 0) n := Int.ediv_nonneg (by omega) hv.le
  refine { target := ?_, nonneg := ?_, fits := ?_ }
  . unfold TargetWorker.hasTarget F64.le F64.lt
    rw [hperms]
    simp [hquot.ne', hquot.le]
  . rw [htick]
    exact hnonneg
  . have hle : share p.totalOpCount.toNat n i ≤ p.totalOpCount.toNat := share_le i.isLt
    rw [htick, hcount, hsize]
    exact lt_of_le_of_lt (mul_le_mul_of_nonneg_right (by omega) hnonneg) hfits

theorem inRange_three : I64.InRange 3 := by
  decide

-- Two workers that make three operations, a thousand in a second at most.
def threeOperations : Properties where
  doTransactions := some true
  operationCount := some ⟨3, inRange_three⟩
  threadCount := some ⟨2, I64.inRange_two⟩

def thousand : Option I64.Value := some ⟨1000, by decide⟩

def first : Fin 2 := ⟨0, Nat.two_pos⟩

def second : Fin 2 := ⟨1, Nat.one_lt_two⟩

def pairConfig : Config 2 where
  worker := fun i =>
    {
      doTransactions := true
      doBatch := false
      batchSize := 1
      opCount := if i = first then 2 else 1
      threadID := i
      targetOpsPerMs := .fin (1 / 2)
      targetOpsTickNs := 2000000
    }
  doTransactions := true
  analyzeDB := false
  warmUpTime := 0
  logInterval := 10

theorem pairConfig_from : pairConfig.From .exactAmd64 threeOperations thousand where
  threadCount := rfl
  worker := by decide +kernel
  doTransactions := rfl
  warmUpTime := rfl

def steps (i : Fin 2) (k : Nat) : List (Label 2) := List.replicate k (.worker i 0)

def turn (i : Fin 2) : List (Label 2) := steps i 4 ++ Label.pass 2000000 :: steps i 2

def opening : List (Label 2) :=
  [.main, .main, .main, .worker first 0, .worker second 0, .measurer true, .measurer true, .measurer true]

def wholeRun : List (Label 2) :=
  opening
    ++ (steps first 1 ++ turn first ++ turn first ++ steps first 3)
    ++ (steps second 1 ++ turn second ++ steps second 3)
    ++ [Label.main, Label.main, Label.measurer false, Label.measurer false, Label.main]

theorem exists_wholeRun
    : ∃ s, Run pairConfig.step (fun _ _ => True) (pairConfig.init 0) wholeRun s
        ∧
      s.main = .returned ∧ s.env.canceled = false ∧ (s.goroutine 0).opsDone = 2 := by
  have hexec : (Run.exec pairConfig.step (fun _ _ => True) (pairConfig.init 0) wholeRun).any
      (fun s => s.main == .returned && (s.env.canceled == false && (s.goroutine 0).opsDone == 2)) = true := by
    decide +kernel
  rcases Run.exists_of_exec _ hexec with ⟨s, hrun, hs⟩
  rw [Bool.and_eq_true, Bool.and_eq_true, beq_iff_eq, beq_iff_eq, beq_iff_eq] at hs
  exact ⟨s, hrun, hs⟩

/--
With a target, the operations that are counted by any moment of a run are no more than the time since its begin allows,
save for the last turn of each worker. During the warm-up nothing is counted.
-/
theorem target_kept (hcfg : cfg.From .exactAmd64 p target) (hn : n < 2 ^ 33) (hv : 0 < getInt64 target 0)
    (hinterval : 0 < seconds cfg.logInterval) (hcount : p.totalOpCount + sizeOf p ≤ 2 ^ 63)
    (hfits : (p.totalOpCount + sizeOf p) * tickOf (getInt64 target 0) n < 2 ^ 63) {now : Int} {labels : List (Label n)}
    {s : State n} (hrun : Run cfg.step (fun _ _ => True) (cfg.init now) labels s)
    : (∑ i, (s.goroutine i).opsDone) * tickOf (getInt64 target 0) n
        ≤
      n * (s.env.now - now + sizeOf p * tickOf (getInt64 target 0) n) := by
  have hsound := hcfg.sound (hcfg.spreads hn) hcount
  have hpaced := hcfg.paced hn hv hfits
  have htime := onTime_of_run hsound hpaced hinterval hrun
  have hworker : ∀ i ∈ Finset.univ, (s.goroutine i).opsDone * tickOf (getInt64 target 0) n
      ≤ s.env.now - now + sizeOf p * tickOf (getInt64 target 0) n := by
    intro i _
    have hi := (htime.timely i).opsDone_le (hsound i) (hpaced i) htime.now
    rwa [(from_target hn (hcfg.worker i) hv).2, (hcfg.opsCount i).1] at hi
  rw [Finset.sum_mul]
  have hsum := Finset.sum_le_card_nsmul Finset.univ _ _ hworker
  rwa [Finset.card_univ, Fintype.card_fin, nsmul_eq_mul] at hsum

theorem target_kept_wholeRun
    : ∃ s, Run pairConfig.step (fun _ _ => True) (pairConfig.init 0) wholeRun s
        ∧
      (s.goroutine 0).opsDone = 2
        ∧
      (∑ i, (s.goroutine i).opsDone) * tickOf 1000 2
        ≤ (2 : Nat) * (s.env.now - 0 + sizeOf threeOperations * tickOf 1000 2) := by
  rcases exists_wholeRun with ⟨s, hrun, _, _, hops⟩
  refine ⟨s, hrun, hops, ?_⟩
  exact target_kept pairConfig_from (by decide) (by decide) (by decide) (by decide) (by decide) hrun

/--
When `Run` returns, everybody else has ended: each worker has called `CleanupThread` once, after its last operation, and
nothing follows in the log. Without a cancellation all operations are made, and less than one turn more for each worker.
-/
theorem run_returns_last (hcfg : cfg.From P p target) (hspreads : cfg.Spreads) (hinterval : 0 < seconds cfg.logInterval)
    (hcount : p.totalOpCount + sizeOf p ≤ 2 ^ 63) {now : Int} {labels : List (Label n)} {s : State n}
    (hrun : Run cfg.step (fun _ _ => True) (cfg.init now) labels s) (hreturned : s.main = .returned)
    : ((∀ i, (s.goroutine i).pc = .ended) ∧ s.measurer = .ended)
        ∧
      (∃ before, s.events = before ++ [.returned] ∧ .returned ∉ before)
        ∧
      (∀ i, ∃ k, s.events.filter (Event.isOf i) = List.replicate k (.operation i) ++ [.cleanup i])
        ∧
      (s.env.canceled = false → 0 < n →
        p.totalOpCount ≤ ∑ i, (s.goroutine i).opsDone
          ∧ ∑ i, (s.goroutine i).opsDone ≤ p.totalOpCount + n * (sizeOf p - 1)) := by
  have hsound := hcfg.sound hspreads hcount
  have hinv := inv_of_run hsound hinterval hrun
  have hlogged := logged_of_run hsound hinterval hrun
  have hended : ∀ i, (s.goroutine i).pc = .ended := by
    apply hinv.joined
    rw [hreturned]
    exact trivial
  refine ⟨⟨hended, hinv.channel.mpr (.inr hreturned)⟩, hlogged.returned hreturned, ?_, ?_⟩
  . intro i
    rcases hlogged.worker i with ⟨k, hk⟩
    rw [hended i] at hk
    exact ⟨k, hk⟩
  . intro hcanceled hpos
    have hworker : ∀ i, (cfg.worker i).opCount ≤ (s.goroutine i).opsDone
        ∧ (s.goroutine i).opsDone ≤ (cfg.worker i).opCount + (sizeOf p - 1) := by
      intro i
      have hi := hinv.counts i
      unfold TargetWorker.Counts at hi
      rw [hended i, (hcfg.opsCount i).1] at hi
      rcases hi with ⟨_, hlt, hcan | hle⟩
      . rw [hcanceled] at hcan
        contradiction
      . exact ⟨hle, by omega⟩
    have htotal : ∑ i, (cfg.worker i).opCount = p.totalOpCount := by
      have hle := (hcfg.opsCount ⟨0, hpos⟩).2.2
      calc ∑ i, (cfg.worker i).opCount = ∑ i : Fin n, (share p.totalOpCount.toNat n i : Int) :=
            Finset.sum_congr rfl (fun i _ => (hcfg.opsCount i).2.1)
        _ = ((∑ i : Fin n, share p.totalOpCount.toNat n i : Nat) : Int) := (Nat.cast_sum _ _).symm
        _ = p.totalOpCount := by rw [sum_share hpos, Int.toNat_of_nonneg (by omega)]
    constructor
    . rw [← htotal]
      exact Finset.sum_le_sum (fun i _ => (hworker i).1)
    . have hsum := Finset.sum_le_sum (fun i (_ : i ∈ Finset.univ) => (hworker i).2)
      rwa [Finset.sum_add_distrib, htotal, Finset.sum_const, Finset.card_univ, Fintype.card_fin, nsmul_eq_mul] at hsum

theorem run_returns_last_wholeRun
    : ∃ s, Run pairConfig.step (fun _ _ => True) (pairConfig.init 0) wholeRun s
        ∧
      ((∀ i, (s.goroutine i).pc = .ended) ∧ s.measurer = .ended)
        ∧
      (∃ before, s.events = before ++ [.returned] ∧ .returned ∉ before)
        ∧
      (∀ i, ∃ k, s.events.filter (Event.isOf i) = List.replicate k (.operation i) ++ [.cleanup i])
        ∧
      (threeOperations.totalOpCount ≤ ∑ i, (s.goroutine i).opsDone
        ∧ ∑ i, (s.goroutine i).opsDone ≤ threeOperations.totalOpCount + (2 : Nat) * (sizeOf threeOperations - 1)) := by
  rcases exists_wholeRun with ⟨s, hrun, hreturned, hcanceled, _⟩
  have hspreads := pairConfig_from.spreads (by decide)
  rcases run_returns_last pairConfig_from hspreads (by decide) (by decide) hrun hreturned
    with ⟨hended, hlast, hlog, htotal⟩
  exact ⟨s, hrun, hended, hlast, hlog, htotal hcanceled (by decide)⟩

/--
Once the warm-up is over or the context is canceled, `Run` returns: its goroutines take a limited number of steps, one
more for each tick, and as long as it has not returned one of them goes on after some time.
-/
theorem run_ends (hcfg : cfg.From P p target) (hspreads : cfg.Spreads) (hinterval : 0 < seconds cfg.logInterval)
    (hcount : p.totalOpCount + sizeOf p ≤ 2 ^ 63) {now : Int} {labels labels' : List (Label n)} {s t : State n}
    (hrun : Run cfg.step (fun _ _ => True) (cfg.init now) labels s) (hdraining : s.Draining)
    (hrun' : Run cfg.step (fun _ _ => True) s labels' t)
    : labels'.countP Label.isOwn ≤ cfg.rank s + labels'.countP Label.isTick
        ∧
      (t.main ≠ .returned → t.CanGoOn cfg) := by
  have hsound := hcfg.sound hspreads hcount
  have hinv := inv_of_run hsound hinterval hrun
  rcases own_le hsound hinterval hinv hdraining hrun' with ⟨hinv', _, hle⟩
  exact ⟨by omega, canGoOn hinv'⟩

-- The workers wake up, make the operation they begin with and find the context canceled.
def lastTurns : List (Label 2) :=
  steps first 4 ++ steps second 4
    ++ [Label.pass 10000000000, Label.tick, Label.measurer true]
    ++ steps second 4 ++ steps first 4
    ++ [Label.main, Label.measurer false, Label.main, Label.measurer true]

-- The workers are still at their first sleep when the context is canceled, and `Run` has only to receive at the end.
theorem run_ends_lastTurns
    : ∃ s t,
        Run pairConfig.step (fun _ _ => True) (pairConfig.init 0) (opening ++ [.cancel]) s
          ∧
        Run pairConfig.step (fun _ _ => True) s lastTurns t
          ∧
        t.main = .receive
          ∧
        lastTurns.countP Label.isOwn ≤ pairConfig.rank s + lastTurns.countP Label.isTick
          ∧
        t.CanGoOn pairConfig := by
  have hexec : (Run.exec pairConfig.step (fun _ _ => True) (pairConfig.init 0) (opening ++ [.cancel])).any
      (fun s => s.env.canceled
        && (Run.exec pairConfig.step (fun _ _ => True) s lastTurns).any (fun t => t.main == .receive)) = true := by
    decide +kernel
  rcases Run.exists_of_exec _ hexec with ⟨s, hrun, hs⟩
  rw [Bool.and_eq_true] at hs
  rcases Run.exists_of_exec _ hs.2 with ⟨t, hrun', ht⟩
  rw [beq_iff_eq] at ht
  have hmain : t.main ≠ .returned := by
    rw [ht]
    exact MainPC.noConfusion
  have hspreads := pairConfig_from.spreads (by decide)
  rcases run_ends pairConfig_from hspreads (by decide) (by decide) hrun (.inl hs.1) hrun' with ⟨hle, hgo⟩
  exact ⟨s, t, hrun, hrun', ht, hle, hgo hmain⟩

end

end ClientRun
