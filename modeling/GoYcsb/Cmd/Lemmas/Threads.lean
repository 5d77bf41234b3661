import GoYcsb.Cmd.Impl.Count
import Mathlib.Algebra.Order.BigOperators.Group.Finset

/-!
This module contains the verification of the threads of `runScanBasedCount` from `GoYcsb.Cmd.Impl.Count`: when they take
each index once, and when their scans find as many records as there are.
-/

namespace Count

section Ranges

structure Sane (recordCount : Int) (flags : Flags) : Prop where
  recordCount_nonneg : 0 ≤ recordCount
  recordCount_lt : recordCount < 2 ^ 63
  countThreads_pos : 1 ≤ flags.countThreads
  countThreads_lt : flags.countThreads < 2 ^ 63
  countBatch_pos : 1 ≤ flags.countBatch
  countBatch_lt : flags.countBatch < 2 ^ 63

section

variable (recordCount : Int) (flags : Flags)

def share : Int := max 1 (recordCount / flags.countThreads)

def shareStart (i : Int) : Int := i * share recordCount flags

def shareEnd (i : Int) : Int := if i = flags.countThreads - 1 then recordCount else (i + 1) * share recordCount flags

theorem share_pos : 1 ≤ share recordCount flags := Int.le_max_left _ _

end

variable {recordCount : Int} {flags : Flags} (h : Sane recordCount flags)

include h

theorem keysPerThread_eq : keysPerThread recordCount flags = share recordCount flags := by
  have hnonneg := Int.ediv_nonneg h.recordCount_nonneg (Int.le_trans (by decide) h.countThreads_pos)
  unfold keysPerThread share
  dsimp only
  rw [Int.tdiv_eq_ediv_of_nonneg h.recordCount_nonneg]
  split
  . omega
  . omega

theorem share_eq_one (hlt : recordCount < flags.countThreads) : share recordCount flags = 1 := by
  unfold share
  rw [Int.ediv_eq_zero_of_lt h.recordCount_nonneg hlt]
  rfl

theorem mul_share_le (hle : flags.countThreads ≤ recordCount)
    : flags.countThreads * share recordCount flags ≤ recordCount := by
  have hpos := h.countThreads_pos
  have hone : 1 ≤ recordCount / flags.countThreads := by
    rw [Int.le_ediv_iff_mul_le (by omega)]
    omega
  unfold share
  rw [Int.max_eq_right hone]
  exact Int.mul_ediv_self_le (by omega)

theorem mul_le_max {i : Int} (hi : i ≤ flags.countThreads)
    : i * share recordCount flags ≤ max recordCount flags.countThreads := by
  have hpos := share_pos recordCount flags
  by_cases hle : flags.countThreads ≤ recordCount
  . calc i * share recordCount flags
        ≤ flags.countThreads * share recordCount flags := Int.mul_le_mul_of_nonneg_right hi (by omega)
      _ ≤ recordCount := mul_share_le h hle
      _ ≤ max recordCount flags.countThreads := Int.le_max_left _ _
  . rw [share_eq_one h (by omega), Int.mul_one]
    omega

variable {i : Int} (hi : 0 ≤ i) (hlt : i < flags.countThreads)

include hi hlt

theorem startIdx_eq : startIdx recordCount flags i = shareStart recordCount flags i := by
  have hmax := mul_le_max h (Int.le_of_lt hlt)
  have hnonneg := Int.mul_nonneg hi (Int.le_trans (by decide) (share_pos recordCount flags))
  have hrecordCount := h.recordCount_lt
  have hcountThreads := h.countThreads_lt
  unfold startIdx
  rw [keysPerThread_eq h]
  apply I64.wrap_eq_self
  unfold I64.InRange
  omega

theorem endIdx_eq : endIdx recordCount flags i = shareEnd recordCount flags i := by
  have hmax := mul_le_max h (show i + 1 ≤ flags.countThreads by omega)
  have hnonneg := Int.mul_nonneg hi (Int.le_trans (by decide) (share_pos recordCount flags))
  have hpos := share_pos recordCount flags
  have hrecordCount := h.recordCount_lt
  have hcountThreads := h.countThreads_lt
  have hnext := add_one_mul i (share recordCount flags)
  unfold endIdx shareEnd
  rw [I64.sub_eq (by unfold I64.InRange; omega), startIdx_eq h hi hlt, keysPerThread_eq h, hnext]
  split
  . rfl
  . apply I64.add_eq
    unfold I64.InRange shareStart
    omega

end Ranges

section Partition

/--
Every index below the record count, and no other one, is in the range of one thread.
-/
structure Partition (recordCount : Int) (flags : Flags) : Prop where
  covers : ∀ idx, (∃ i : ThreadID flags, startIdx recordCount flags i.val ≤ idx ∧ idx < endIdx recordCount flags i.val)
    ↔ 0 ≤ idx ∧ idx < recordCount
  disjoint : ∀ (i j : ThreadID flags) idx,
    startIdx recordCount flags i.val ≤ idx → idx < endIdx recordCount flags i.val
    → startIdx recordCount flags j.val ≤ idx → idx < endIdx recordCount flags j.val → i = j

variable {recordCount : Int} {flags : Flags} (h : Sane recordCount flags)

theorem threadID_lt (i : ThreadID flags) : (i.val : Int) < flags.countThreads := by
  have hlt := i.isLt
  omega

theorem shareStart_nonneg (i : ThreadID flags) : 0 ≤ shareStart recordCount flags i.val :=
  Int.mul_nonneg (Int.natCast_nonneg _) (Int.le_trans (by decide) (share_pos recordCount flags))

theorem shareEnd_le_shareStart {i j : ThreadID flags} (hlt : i < j)
    : shareEnd recordCount flags i.val ≤ shareStart recordCount flags j.val := by
  have hpos := share_pos recordCount flags
  have hj := threadID_lt j
  have hval : i.val < j.val := hlt
  unfold shareEnd shareStart
  rw [if_neg (by omega)]
  exact Int.mul_le_mul_of_nonneg_right (by omega) (by omega)

include h

theorem startIdx_threadID (i : ThreadID flags)
    : startIdx recordCount flags i.val = shareStart recordCount flags i.val :=
  startIdx_eq h (Int.natCast_nonneg _) (threadID_lt i)

theorem endIdx_threadID (i : ThreadID flags)
    : endIdx recordCount flags i.val = shareEnd recordCount flags i.val :=
  endIdx_eq h (Int.natCast_nonneg _) (threadID_lt i)

theorem last_start_le (hthreads : flags.countThreads ≤ recordCount + 1)
    : (flags.countThreads - 1) * share recordCount flags ≤ recordCount := by
  have hpos := share_pos recordCount flags
  by_cases hle : flags.countThreads ≤ recordCount
  . have hmul := mul_share_le h hle
    rw [Int.sub_mul, Int.one_mul]
    omega
  . rw [share_eq_one h (by omega)]
    omega

section

variable (hthreads : flags.countThreads ≤ recordCount + 1)

include hthreads

theorem shareEnd_le (i : ThreadID flags) : shareEnd recordCount flags i.val ≤ recordCount := by
  have hpos := share_pos recordCount flags
  have hlt := threadID_lt i
  unfold shareEnd
  split
  . exact Int.le_refl _
  . calc ((i.val : Int) + 1) * share recordCount flags
        ≤ (flags.countThreads - 1) * share recordCount flags := Int.mul_le_mul_of_nonneg_right (by omega) (by omega)
      _ ≤ recordCount := last_start_le h hthreads

theorem shareStart_le_shareEnd (i : ThreadID flags)
    : shareStart recordCount flags i.val ≤ shareEnd recordCount flags i.val := by
  have hpos := share_pos recordCount flags
  have hnext := add_one_mul (i.val : Int) (share recordCount flags)
  unfold shareStart shareEnd
  split
  . next hi =>
    rw [hi]
    exact last_start_le h hthreads
  . omega

omit hthreads in
theorem exists_thread {idx : Int} (hnonneg : 0 ≤ idx) (hlt : idx < recordCount)
    : ∃ i : ThreadID flags, shareStart recordCount flags i.val ≤ idx ∧ idx < shareEnd recordCount flags i.val := by
  have hpos := share_pos recordCount flags
  have hcount := h.countThreads_pos
  unfold shareStart shareEnd
  by_cases hlast : (flags.countThreads - 1) * share recordCount flags ≤ idx
  . refine ⟨⟨(flags.countThreads - 1).toNat, by omega⟩, ?_⟩
    dsimp only
    rw [Int.toNat_of_nonneg (by omega), if_pos rfl]
    exact ⟨hlast, hlt⟩
  . have hdiv : idx / share recordCount flags < flags.countThreads - 1 := Int.ediv_lt_of_lt_mul (by omega) (by omega)
    have hdivNonneg : 0 ≤ idx / share recordCount flags := Int.ediv_nonneg hnonneg (by omega)
    refine ⟨⟨(idx / share recordCount flags).toNat, by omega⟩, ?_⟩
    dsimp only
    rw [Int.toNat_of_nonneg hdivNonneg, if_neg (by omega)]
    exact ⟨Int.ediv_mul_le idx (by omega), Int.lt_ediv_add_one_mul_self idx (by omega)⟩

theorem partition_of_le : Partition recordCount flags where
  covers := by
    intro idx
    simp only [startIdx_threadID h, endIdx_threadID h]
    constructor
    . rintro ⟨i, hstart, hend⟩
      exact ⟨Int.le_trans (shareStart_nonneg i) hstart, Int.lt_of_lt_of_le hend (shareEnd_le h hthreads i)⟩
    . rintro ⟨hnonneg, hlt⟩
      exact exists_thread h hnonneg hlt
  disjoint := by
    intro i j idx
    simp only [startIdx_threadID h, endIdx_threadID h]
    intro hi hi' hj hj'
    rcases lt_trichotomy i j with hlt | heq | hlt
    . have hle := @shareEnd_le_shareStart recordCount flags i j hlt
      omega
    . exact heq
    . have hle := @shareEnd_le_shareStart recordCount flags j i hlt
      omega

end

theorem le_of_partition (hpartition : Partition recordCount flags) : flags.countThreads ≤ recordCount + 1 := by
  by_contra hlt
  have hnonneg := h.recordCount_nonneg
  have hone := share_eq_one h (by omega)
  have hcovered := (hpartition.covers recordCount).mp ⟨⟨recordCount.toNat, by omega⟩, by
    rw [startIdx_threadID h, endIdx_threadID h, shareStart, shareEnd, hone]
    dsimp only
    rw [Int.toNat_of_nonneg hnonneg, if_neg (by omega)]
    omega⟩
  omega

end Partition

section Threads

variable (keys : List Bytes) (keyPrefix : Bytes)

def available (idx : Int) : Nat := keys.countP (fun key => keyPrefix ++ sprintfDecimal idx ≤ key)

def Finds (countBatch start stop : Int) : Prop :=
  ∀ j : Nat, start + j * countBatch < stop
    → min countBatch (stop - (start + j * countBatch)) ≤ available keys keyPrefix (start + j * countBatch)

def Fits (countBatch start stop : Int) : Prop :=
  ∀ j : Nat, start + j * countBatch < stop → start + j * countBatch + countBatch < 2 ^ 63

theorem length_scan (key : Bytes) (count : Int)
    : ∃ rows,
        orderedScan keys key count = .ok rows
          ∧
        rows.length = min count.toNat (keys.countP (fun k => key ≤ k)) := by
  refine ⟨_, rfl, ?_⟩
  rw [List.length_take, (KeyRange.perm_keysWhere _ keys).length_eq, List.countP_eq_length_filter]

variable {keys keyPrefix} {countBatch stop : Int}

theorem turn_eq {idx : Int} (hidx : idx < stop) (localCount : Int)
    : turn (orderedScan keys) keyPrefix countBatch stop ⟨idx, localCount⟩
        =
      .inl {
        idx := I64.add idx countBatch,
        localCount :=
          I64.add localCount (min (if stop < I64.add idx countBatch then I64.sub stop idx else countBatch).toNat
            (available keys keyPrefix idx) : Nat)
      } := by
  rcases length_scan keys (keyPrefix ++ sprintfDecimal idx)
    (if stop < I64.add idx countBatch then I64.sub stop idx else countBatch) with ⟨rows, hrows, hlength⟩
  unfold turn
  dsimp only
  rw [if_pos hidx, hrows]
  dsimp only
  rw [hlength]
  rfl

theorem turn_of_fits {idx localCount : Int} (hpos : 1 ≤ countBatch) (hstop : stop < 2 ^ 63) (hnonneg : 0 ≤ idx)
    (hidx : idx < stop) (hfits : idx + countBatch < 2 ^ 63) (hlocal : 0 ≤ localCount)
    (hbound : localCount + (stop - idx) < 2 ^ 63)
    : turn (orderedScan keys) keyPrefix countBatch stop ⟨idx, localCount⟩
        =
      .inl ⟨idx + countBatch, localCount + min (min countBatch (stop - idx)) (available keys keyPrefix idx)⟩ := by
  have hadd : I64.add idx countBatch = idx + countBatch := I64.add_eq (by unfold I64.InRange; omega)
  have hsub : I64.sub stop idx = stop - idx := I64.sub_eq (by unfold I64.InRange; omega)
  have hsize : ((if stop < idx + countBatch then stop - idx else countBatch).toNat : Int)
      = min countBatch (stop - idx) := by
    split
    . omega
    . omega
  rw [turn_eq hidx, hadd, hsub]
  congr 2
  rw [Nat.cast_min, hsize]
  apply I64.add_eq
  unfold I64.InRange
  omega

theorem forall_batches_iff {P : Int → Prop} {start : Int} (hstart : start < stop)
    : (∀ j : Nat, start + j * countBatch < stop → P (start + j * countBatch))
        ↔
      P start ∧ ∀ j : Nat, start + countBatch + j * countBatch < stop → P (start + countBatch + j * countBatch) := by
  have hshift : ∀ j : Nat, start + countBatch + j * countBatch = start + ((j + 1 : Nat) : Int) * countBatch := by
    intro j
    push_cast
    rw [add_one_mul]
    omega
  constructor
  . intro h
    refine ⟨?_, ?_⟩
    . have hzero := h 0
      simp only [Nat.cast_zero, Int.zero_mul, Int.add_zero] at hzero
      exact hzero hstart
    . intro j
      rw [hshift]
      exact h (j + 1)
  . rintro ⟨hzero, hsucc⟩ j
    cases j with
    | zero =>
      simp only [Nat.cast_zero, Int.zero_mul, Int.add_zero]
      intro _
      exact hzero
    | succ j =>
      rw [← hshift]
      exact hsucc j

-- What a thread has counted at its end, by induction on the indices that are left.
theorem exists_ends {ι : Type} {m : ForkJoin.Machine ι Thread Int} {i : ι}
    (hturn : m.turn i = turn (orderedScan keys) keyPrefix countBatch stop) (hpos : 1 ≤ countBatch)
    (hstop : stop < 2 ^ 63) {idx localCount : Int} (hnonneg : 0 ≤ idx) (hfits : Fits countBatch idx stop)
    (hlocal : 0 ≤ localCount) (hbound : localCount + max 0 (stop - idx) < 2 ^ 63)
    : ∃ n result,
        m.Ends i ⟨idx, localCount⟩ n result
          ∧
        localCount ≤ result ∧ result ≤ localCount + max 0 (stop - idx)
          ∧
        (result = localCount + max 0 (stop - idx) ↔ Finds keys keyPrefix countBatch idx stop) := by
  induction hleft : (stop - idx).toNat using Nat.strongRecOn generalizing idx localCount with
  | ind left ih =>
    by_cases hidx : idx < stop
    . have hparts := (forall_batches_iff (P := fun a => a + countBatch < 2 ^ 63) hidx).mp hfits
      have hnext := @turn_of_fits keys keyPrefix countBatch stop idx localCount hpos hstop hnonneg hidx hparts.1 hlocal
        (by omega)
      have hsplit : max 0 (stop - idx) = min countBatch (stop - idx) + max 0 (stop - (idx + countBatch)) := by omega
      generalize hsize : min countBatch (stop - idx) = size at hnext hsplit
      have hfound : 0 ≤ min size (available keys keyPrefix idx) ∧ min size (available keys keyPrefix idx) ≤ size := by
        omega
      have hall : min size (available keys keyPrefix idx) = size ↔ size ≤ available keys keyPrefix idx :=
        min_eq_left_iff
      generalize min size (available keys keyPrefix idx : Int) = found at hnext hfound hall
      rcases ih (stop - (idx + countBatch)).toNat (by omega) (by omega) hparts.2 (show 0 ≤ localCount + found by omega)
        (by omega) rfl with ⟨n, result, hends, hge, hle, hiff⟩
      refine ⟨n + 1, result, .next (by rw [hturn, hnext]) hends, by omega, by omega, ?_⟩
      unfold Finds at hiff ⊢
      rw [forall_batches_iff (P := fun a => min countBatch (stop - a) ≤ available keys keyPrefix a) hidx, hsize, ← hall,
        ← hiff, hsplit]
      omega
    . refine ⟨1, localCount, .last ?_, by omega, by omega, ?_⟩
      . rw [hturn]
        exact if_neg hidx
      . refine iff_of_true (by omega) ?_
        intro j hj
        have hmul := Int.mul_nonneg (Int.natCast_nonneg j) (show 0 ≤ countBatch by omega)
        omega

end Threads

section Total

theorem foldl_add {l : List Int} (hnonneg : ∀ x ∈ l, 0 ≤ x) {total : Int} (htotal : 0 ≤ total)
    (hbound : total + l.sum < 2 ^ 63)
    : l.foldl I64.add total = total + l.sum := by
  induction l generalizing total with
  | nil => simp
  | cons x l ih =>
    rw [List.forall_mem_cons] at hnonneg
    rw [List.sum_cons] at hbound
    have hsum := List.sum_nonneg hnonneg.2
    have hx := hnonneg.1
    rw [List.foldl_cons, I64.add_eq (by unfold I64.InRange; omega), ih hnonneg.2 (by omega) (by omega), List.sum_cons]
    omega

theorem foldl_add_order {ι : Type} [Fintype ι] [DecidableEq ι] {result : ι → Int} (hnonneg : ∀ i, 0 ≤ result i)
    (hbound : ∑ i, result i < 2 ^ 63) {order : List ι} (hnodup : order.Nodup) (hmem : ∀ i, i ∈ order)
    : (order.map result).foldl I64.add 0 = ∑ i, result i := by
  have huniv : order.toFinset = Finset.univ := by
    rw [Finset.eq_univ_iff_forall]
    intro i
    rw [List.mem_toFinset]
    exact hmem i
  have hsum : (order.map result).sum = ∑ i, result i := by
    rw [← List.sum_toFinset _ hnodup, huniv]
  have hall : ∀ x ∈ order.map result, 0 ≤ x := by
    intro x hx
    rcases List.mem_map.mp hx with ⟨i, _, rfl⟩
    exact hnonneg i
  rw [foldl_add hall (Int.le_refl 0) (by omega), hsum, Int.zero_add]

theorem sum_shares {recordCount : Int} {flags : Flags} (h : Sane recordCount flags)
    : ∑ i : ThreadID flags, (shareEnd recordCount flags i.val - shareStart recordCount flags i.val) = recordCount := by
  have hpos := h.countThreads_pos
  have hsucc : flags.countThreads.toNat = (flags.countThreads - 1).toNat + 1 := by omega
  have hothers : ∀ i ∈ Finset.range (flags.countThreads - 1).toNat,
      shareEnd recordCount flags i - shareStart recordCount flags i = share recordCount flags := by
    intro i hi
    rw [Finset.mem_range] at hi
    rw [shareStart, shareEnd, if_neg (by omega), add_one_mul]
    omega
  rw [Fin.sum_univ_eq_sum_range (fun i : Nat => shareEnd recordCount flags i - shareStart recordCount flags i), hsucc,
    Finset.sum_range_succ, Finset.sum_congr rfl hothers, Finset.sum_const, Finset.card_range, nsmul_eq_mul,
    shareStart, shareEnd, if_pos (by omega)]
  omega

variable (keys : List Bytes) (p : Properties) (flags : Flags)

abbrev Runs (labels : List (ThreadID flags)) (s : State flags) : Prop :=
  Run (runScanBasedCount (orderedScan keys) p flags).step (fun _ _ => True) (start p flags) labels s

/--
The threads end in any interleaving, none of them takes an index of another one, and the total that is printed is the
record count.
-/
structure CountsAll : Prop where
  terminates : ∃ bound, ∀ labels s, Runs keys p flags labels s →
    labels.length ≤ bound ∧ (s.Done ∨ ∃ i t, (runScanBasedCount (orderedScan keys) p flags).step s i = some t)
  partition : Partition (getRecordCount p) flags
  total : ∀ labels s, Runs keys p flags labels s → s.Done → s.total = getRecordCount p

section

variable {flags} (i : ThreadID flags)

def ThreadFits : Prop :=
  Fits flags.countBatch (shareStart (getRecordCount p) flags i.val) (shareEnd (getRecordCount p) flags i.val)

def ThreadFinds : Prop :=
  Finds keys (getKeyPrefix p) flags.countBatch (shareStart (getRecordCount p) flags i.val)
    (shareEnd (getRecordCount p) flags i.val)

abbrev ThreadEnds (turns : Nat) (result : Int) : Prop :=
  (runScanBasedCount (orderedScan keys) p flags).Ends i ⟨startIdx (getRecordCount p) flags i.val, 0⟩ turns result

end

/--
There are no more threads than records, but for one, and each batch finds its records without an overflow of the index.
-/
structure Suits : Prop where
  threads : flags.countThreads ≤ getRecordCount p + 1
  fits : ∀ i : ThreadID flags, ThreadFits p i
  finds : ∀ i : ThreadID flags, ThreadFinds keys p i

variable {keys p flags}

theorem turn_thread (h : Sane (getRecordCount p) flags) (keys : List Bytes) (i : ThreadID flags)
    : (runScanBasedCount (orderedScan keys) p flags).turn i
        =
      turn (orderedScan keys) (getKeyPrefix p) flags.countBatch (shareEnd (getRecordCount p) flags i.val) := by
  rw [← endIdx_threadID h]
  rfl

theorem exists_done (h : CountsAll keys p flags) : ∃ labels s, Runs keys p flags labels s ∧ s.Done := by
  rcases h.terminates with ⟨bound, hbound⟩
  refine Run.exists_done_of_length_le (fun labels s hrun => (hbound labels s hrun).1) ?_
  intro labels s hrun hdone
  rcases (hbound labels s hrun).2.resolve_left hdone with ⟨i, t, hstep⟩
  exact ⟨i, t, trivial, hstep⟩

section

variable {turns : ThreadID flags → Nat} {result : ThreadID flags → Int}
  (hends : ∀ i, ThreadEnds keys p i (turns i) (result i))
  (hnonneg : ∀ i, 0 ≤ result i) (hbound : ∑ i, result i < 2 ^ 63)

include hends hnonneg hbound

-- All that the interleaving leaves open is the order in which the results are added.
theorem total_eq_sum {labels : List (ThreadID flags)} {s : State flags} (hrun : Runs keys p flags labels s)
    (hdone : s.Done)
    : s.total = ∑ i, result i := by
  rcases ForkJoin.Machine.total_of_ends hends hrun hdone with ⟨order, hnodup, hmem, htotal⟩
  rw [htotal]
  exact foldl_add_order hnonneg hbound hnodup hmem

theorem countsAll_iff (hpartition : Partition (getRecordCount p) flags)
    : CountsAll keys p flags ↔ ∑ i, result i = getRecordCount p := by
  constructor
  . intro h
    rcases exists_done h with ⟨labels, s, hrun, hdone⟩
    rw [← total_eq_sum hends hnonneg hbound hrun hdone]
    exact h.total labels s hrun hdone
  . intro hsum
    refine ⟨⟨∑ i, turns i, ?_⟩, hpartition, ?_⟩
    . intro labels s hrun
      refine ⟨ForkJoin.Machine.length_le_of_ends hends hrun, ?_⟩
      by_cases hdone : s.Done
      . exact .inl hdone
      . exact .inr (ForkJoin.Machine.exists_step_of_not_done hdone)
    . intro labels s hrun hdone
      rw [total_eq_sum hends hnonneg hbound hrun hdone, hsum]

end

theorem countsAll_iff_of_fits (h : Sane (getRecordCount p) flags)
    (hfits : ∀ i : ThreadID flags, ThreadFits p i)
    : CountsAll keys p flags ↔ Suits keys p flags := by
  by_cases hthreads : flags.countThreads ≤ getRecordCount p + 1
  . have hends (i : ThreadID flags) : ∃ turns result,
        ThreadEnds keys p i turns result
          ∧ 0 ≤ result
          ∧ result ≤ shareEnd (getRecordCount p) flags i.val - shareStart (getRecordCount p) flags i.val
          ∧ (result = shareEnd (getRecordCount p) flags i.val - shareStart (getRecordCount p) flags i.val
            ↔ ThreadFinds keys p i) := by
      have hrange := shareStart_le_shareEnd h hthreads i
      have hstop := shareEnd_le h hthreads i
      have hlt := h.recordCount_lt
      have hnonneg := @shareStart_nonneg (getRecordCount p) flags i
      have hended := exists_ends (turn_thread h keys i) h.countBatch_pos (by omega) hnonneg (hfits i)
        (Int.le_refl 0) (by omega)
      rw [Int.max_eq_right (by omega), Int.zero_add] at hended
      unfold ThreadEnds
      rw [startIdx_threadID h]
      exact hended
    choose turns result hends hnonneg hle hfinds using hends
    have hsum := sum_shares h
    have hbound : ∑ i, result i ≤ getRecordCount p := by
      rw [← hsum]
      exact Finset.sum_le_sum (fun i _ => hle i)
    have hall : ∑ i, result i = getRecordCount p ↔ ∀ i, result i
        = shareEnd (getRecordCount p) flags i.val - shareStart (getRecordCount p) flags i.val := by
      have hiff := Finset.sum_eq_sum_iff_of_le (s := Finset.univ) (fun i _ => hle i)
      rw [hsum] at hiff
      simpa using hiff
    rw [countsAll_iff hends hnonneg (Int.lt_of_le_of_lt hbound h.recordCount_lt) (partition_of_le h hthreads), hall]
    constructor
    . intro hresult
      exact ⟨hthreads, hfits, fun i => (hfinds i).mp (hresult i)⟩
    . intro hsuits i
      exact (hfinds i).mpr (hsuits.finds i)
  . constructor
    . intro hcounts
      exact absurd (le_of_partition h hcounts.partition) hthreads
    . intro hsuits
      exact absurd hsuits.threads hthreads

end Total

end Count
