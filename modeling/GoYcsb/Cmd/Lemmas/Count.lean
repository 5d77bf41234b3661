import GoYcsb.Client.Lemmas.Load
import GoYcsb.Cmd.Lemmas.Threads
import GoYcsb.Workload.Lemmas.KeyName

/-!
This module contains the verification of `runScanBasedCount` from `GoYcsb.Cmd.Impl.Count` on the table that a load
leaves: when the total is the record count. Batches for which the index overflows make it too large.
-/

namespace Count

section Names

variable {keys : List Bytes} {keyPrefix : Bytes}

def Digit (keyPrefix key : Bytes) : Prop := ∃ d rest, key = keyPrefix ++ d :: rest ∧ 48 ≤ d

def Percent (keyPrefix key : Bytes) : Prop := ∃ rest, key = keyPrefix ++ 37 :: rest

theorem exists_digit {b : Bytes} (hne : b ≠ []) (hdigits : ∀ d ∈ b, 48 ≤ d) : ∃ d rest, b = d :: rest ∧ 48 ≤ d := by
  rcases List.exists_cons_of_ne_nil hne with ⟨d, rest, rfl⟩
  exact ⟨d, rest, rfl, hdigits d List.mem_cons_self⟩

theorem exists_digit_decimal (n : Nat) : ∃ d rest, Bytes.decimal n = d :: rest ∧ 48 ≤ d :=
  exists_digit (Bytes.decimal_ne_nil n) (fun _ hd => (Bytes.digit_of_mem_decimal hd).1)

theorem available_of_digit (hkeys : ∀ key ∈ keys, Digit keyPrefix key) {idx : Int} (hidx : idx ≤ 0)
    : available keys keyPrefix idx = keys.length := by
  unfold available
  rw [List.countP_eq_length]
  intro key hkey
  rcases hkeys key hkey with ⟨d, rest, rfl, hd⟩
  rw [decide_eq_true_eq, KeyRange.append_le_append_iff]
  by_cases hneg : idx < 0
  . have hminus : sprintfDecimal idx = 45 :: Bytes.decimal idx.natAbs := by
      rw [sprintfDecimal, if_pos hneg]
      rfl
    rw [hminus, List.cons_le_cons_iff]
    exact .inl (UInt8.lt_of_lt_of_le (show (45 : UInt8) < 48 by decide) hd)
  . have hzero : idx = 0 := by omega
    subst hzero
    have hdigit : sprintfDecimal 0 = [48] := by decide
    rw [hdigit, List.cons_le_cons_iff]
    by_cases heq : 48 = d
    . exact .inr ⟨heq, List.nil_le rest⟩
    . exact .inl (Std.lt_iff_le_and_ne.mpr ⟨hd, heq⟩)

theorem available_of_percent (hkeys : ∀ key ∈ keys, Percent keyPrefix key) (idx : Int)
    : available keys keyPrefix idx = 0 := by
  have hhead : ∃ d rest, sprintfDecimal idx = d :: rest ∧ 37 < d := by
    unfold sprintfDecimal
    split
    . exact ⟨45, _, rfl, by decide⟩
    . rcases exists_digit_decimal idx.natAbs with ⟨d, rest, hdecimal, hd⟩
      exact ⟨d, rest, hdecimal, UInt8.lt_of_lt_of_le (show (37 : UInt8) < 48 by decide) hd⟩
  unfold available
  rw [List.countP_eq_zero]
  intro key hkey
  rcases hkeys key hkey with ⟨rest, rfl⟩
  rcases hhead with ⟨d, rest', hdecimal, hd⟩
  rw [decide_eq_true_eq, KeyRange.append_le_append_iff, hdecimal, List.cons_le_cons_iff]
  rintro (hlt | ⟨heq, _⟩)
  . exact UInt8.lt_irrefl _ (UInt8.lt_trans hd hlt)
  . rw [heq] at hd
    exact UInt8.lt_irrefl _ hd

variable {c : Core}

theorem sprintfPadded_digit {width n : Int} (hn : 0 ≤ n) (hmin : -1000000 ≤ width) (hmax : width ≤ 1000000)
    : ∃ d rest, sprintfPadded width n = d :: rest ∧ 48 ≤ d := by
  by_cases hwidth : width < 0
  . rw [sprintfPadded_eq_spaces hn hwidth hmin]
    rcases exists_digit_decimal n.natAbs with ⟨d, rest, hdecimal, hd⟩
    rw [hdecimal]
    exact ⟨d, _, rfl, hd⟩
  . rw [sprintfPadded_eq_padded hn (by omega) hmax]
    apply exists_digit
    . simp [Bytes.padded, Bytes.decimal_ne_nil]
    . intro d hd
      exact (Bytes.digit_of_mem_padded hd).1

theorem buildKeyName_starts {keyNums : List Int} (hnonneg : ∀ keyNum ∈ keyNums, 0 ≤ keyNum)
    : (∀ key ∈ keyNums.map (buildKeyName c), Digit c.keyPrefix key)
        ∨
      (∀ key ∈ keyNums.map (buildKeyName c), Percent c.keyPrefix key) := by
  have hnumber : ∀ keyNum ∈ keyNums, 0 ≤ (if !c.orderedInserts then Util.hash64 keyNum else keyNum) := by
    intro keyNum hmem
    split
    . exact (Util.hash64_nonneg keyNum).1
    . exact hnonneg keyNum hmem
  by_cases hbad : c.zeroPadding < -1000000 ∨ 1000000 < c.zeroPadding
  . right
    intro key hkey
    rcases List.mem_map.mp hkey with ⟨keyNum, hmem, rfl⟩
    unfold buildKeyName
    dsimp only
    rw [sprintfPadded_eq_badWidth (hnumber keyNum hmem) hbad]
    exact ⟨_, rfl⟩
  . have hmin : -1000000 ≤ c.zeroPadding := by omega
    have hmax : c.zeroPadding ≤ 1000000 := by omega
    left
    intro key hkey
    rcases List.mem_map.mp hkey with ⟨keyNum, hmem, rfl⟩
    rcases sprintfPadded_digit (hnumber keyNum hmem) hmin hmax with ⟨d, rest, hpadded, hd⟩
    unfold buildKeyName
    dsimp only
    rw [hpadded]
    exact ⟨d, rest, rfl, hd⟩

end Names

section Overflow

variable {keys : List Bytes} {keyPrefix : Bytes} {countBatch stop : Int} {ι : Type}
  {m : ForkJoin.Machine ι Thread Int} {i : ι} (hturn : m.turn i = turn (orderedScan keys) keyPrefix countBatch stop)
  {most : Nat} (hmost : ∀ idx, available keys keyPrefix idx ≤ most)

include hturn hmost

theorem exists_next {idx localCount : Int} (hidx : idx < stop) (hlocal : 0 ≤ localCount)
    (hbound : localCount + most < 2 ^ 63)
    : ∃ found : Nat,
        m.turn i ⟨idx, localCount⟩ = .inl ⟨I64.add idx countBatch, localCount + found⟩
          ∧
        found = min (if stop < I64.add idx countBatch then I64.sub stop idx else countBatch).toNat
          (available keys keyPrefix idx)
          ∧
        found ≤ most := by
  refine ⟨_, ?_, rfl, ?_⟩
  . rw [hturn, turn_eq hidx]
    congr 2
    apply I64.add_eq
    have hle := hmost idx
    unfold I64.InRange
    omega
  . have hle := hmost idx
    omega

variable (hbatch : 2 ^ 63 - 2 ^ 20 ≤ countBatch) (hbatchLt : countBatch < 2 ^ 63) (hstop : stop ≤ 2 ^ 20)

include hbatch hbatchLt hstop

-- Two turns with an overflow between them take the index back, so the thread ends all the same.
theorem exists_ends_of_overflow (n : Nat) {idx localCount : Int}
    (hidx : stop ≤ idx
      ∨ (countBatch - 2 ^ 63 ≤ idx ∧ 2 * idx + 1 ≤ n ∧ 1 ≤ n)
      ∨ (-2 ^ 63 ≤ idx ∧ idx < -2 ^ 63 + 2 ^ 20 ∧ 2 * (idx + 2 ^ 63) + 2 ≤ n))
    (hlocal : 0 ≤ localCount) (hbound : localCount + most * n < 2 ^ 63)
    : ∃ turns result,
        m.Ends i ⟨idx, localCount⟩ turns result ∧ localCount ≤ result ∧ result ≤ localCount + most * n := by
  induction n generalizing idx localCount with
  | zero =>
    refine ⟨1, localCount, .last ?_, by omega, by omega⟩
    rw [hturn]
    exact if_neg (by dsimp only; omega)
  | succ n ih =>
    have hsucc : (most : Int) * ((n + 1 : Nat) : Int) = most * n + most := by
      push_cast
      rw [Int.mul_add, Int.mul_one]
    have hmul := Int.mul_nonneg (Int.natCast_nonneg most) (Int.natCast_nonneg n)
    rw [hsucc] at hbound ⊢
    by_cases hlt : idx < stop
    . rcases exists_next hturn hmost hlt hlocal (by omega) with ⟨found, hnext, _, hfound⟩
      have hahead : stop ≤ I64.add idx countBatch
          ∨ (countBatch - 2 ^ 63 ≤ I64.add idx countBatch ∧ 2 * I64.add idx countBatch + 1 ≤ n ∧ 1 ≤ n)
          ∨ (-2 ^ 63 ≤ I64.add idx countBatch ∧ I64.add idx countBatch < -2 ^ 63 + 2 ^ 20
            ∧ 2 * (I64.add idx countBatch + 2 ^ 63) + 2 ≤ n) := by
        by_cases hover : idx + countBatch < 2 ^ 63
        . rw [I64.add_eq (by unfold I64.InRange; omega)]
          omega
        . rw [I64.add_eq_of_overflow (by omega) (by omega)]
          omega
      rcases ih hahead (show 0 ≤ localCount + (found : Int) by omega) (by omega)
        with ⟨turns, result, hends, hge, hle⟩
      exact ⟨turns + 1, result, .next hnext hends, by omega, by omega⟩
    . refine ⟨1, localCount, .last ?_, by omega, by omega⟩
      rw [hturn]
      exact if_neg hlt

end Overflow

section Small

variable {keys : List Bytes} {p : Properties} {flags : Flags} (h : Sane (getRecordCount p) flags)
  (hsmall : getRecordCount p ≤ 2 ^ 20) (hthreads : flags.countThreads ≤ getRecordCount p + 1)
  (hlength : (keys.length : Int) = getRecordCount p)

include h hsmall hthreads

theorem overflow_at_start {i : ThreadID flags}
    (hnot : ¬ ThreadFits p i)
    : shareStart (getRecordCount p) flags i.val < shareEnd (getRecordCount p) flags i.val
        ∧
      2 ^ 63 ≤ shareStart (getRecordCount p) flags i.val + flags.countBatch := by
  have hend := shareEnd_le h hthreads i
  have hnonneg := @shareStart_nonneg (getRecordCount p) flags i
  have hpos := h.countBatch_pos
  unfold ThreadFits Fits at hnot
  rw [not_forall] at hnot
  rcases hnot with ⟨j, hj⟩
  rw [Classical.not_imp] at hj
  have hmul := Int.mul_nonneg (Int.natCast_nonneg j) (show 0 ≤ flags.countBatch by omega)
  cases j with
  | zero =>
    rw [Nat.cast_zero, Int.zero_mul, Int.add_zero] at hj
    omega
  | succ j =>
    have hbatch : flags.countBatch ≤ ((j + 1 : Nat) : Int) * flags.countBatch := by
      have hrest := Int.mul_nonneg (Int.natCast_nonneg j) (show 0 ≤ flags.countBatch by omega)
      push_cast
      rw [add_one_mul]
      omega
    omega

variable (hbatch : 2 ^ 63 - 2 ^ 20 ≤ flags.countBatch)

include hbatch

theorem exists_ends_thread {most : Nat} (hmost : ∀ idx, available keys (getKeyPrefix p) idx ≤ most)
    (hmostLe : most ≤ 2 ^ 20) (i : ThreadID flags)
    : ∃ turns result,
        ThreadEnds keys p i turns result
          ∧
        0 ≤ result ∧ result ≤ 0 + most * (2 ^ 21 + 1 : Nat) := by
  have hend := shareEnd_le h hthreads i
  have hle := shareStart_le_shareEnd h hthreads i
  have hnonneg := @shareStart_nonneg (getRecordCount p) flags i
  have hlt := h.countBatch_lt
  unfold ThreadEnds
  rw [startIdx_threadID h]
  exact exists_ends_of_overflow (turn_thread h keys i) hmost hbatch hlt (by omega) (2 ^ 21 + 1) (by omega)
    (Int.le_refl 0) (by omega)

variable (hkeys : ∀ key ∈ keys, Digit (getKeyPrefix p) key)

include hlength hkeys

theorem exists_ends_overflowing {i : ThreadID flags}
    (hstart : shareStart (getRecordCount p) flags i.val < shareEnd (getRecordCount p) flags i.val)
    (hover : 2 ^ 63 ≤ shareStart (getRecordCount p) flags i.val + flags.countBatch)
    : ∃ turns result,
        ThreadEnds keys p i turns result
          ∧
        getRecordCount p ≤ result ∧ result ≤ 2 ^ 42 := by
  have hend := shareEnd_le h hthreads i
  have hlt := h.countBatch_lt
  have hmost : ∀ idx, available keys (getKeyPrefix p) idx ≤ keys.length := fun idx => List.countP_le_length
  have hturn := turn_thread h keys i
  unfold ThreadEnds
  rw [startIdx_threadID h]
  rcases exists_next hturn hmost hstart (Int.le_refl 0) (by omega) with ⟨found, hnext, _, hfound⟩
  generalize shareStart (getRecordCount p) flags i.val = idx at *
  generalize shareEnd (getRecordCount p) flags i.val = stop at *
  rw [I64.add_eq_of_overflow hover (by omega)] at hnext
  rcases exists_next hturn hmost (show idx + flags.countBatch - 2 ^ 64 < stop by omega)
    (show 0 ≤ 0 + (found : Int) by omega) (by omega) with ⟨found', hnext', hall, hfound'⟩
  rw [I64.add_eq (by unfold I64.InRange; omega)] at hnext' hall
  rw [if_neg (by omega), available_of_digit hkeys (by omega)] at hall
  rcases exists_ends_of_overflow hturn hmost hbatch hlt (by omega) (2 ^ 21 + 1)
    (show stop ≤ idx + flags.countBatch - 2 ^ 64 + flags.countBatch ∨ _ by omega)
    (show 0 ≤ 0 + (found : Int) + found' by omega) (by omega) with ⟨turns, result, hends, hge, hle⟩
  exact ⟨turns + 1 + 1, result, .next hnext (.next hnext' hends), by omega, by omega⟩

omit hbatch in
theorem exists_ends_first {i : ThreadID flags} (hi : i.val = 0) (hpos : 1 ≤ getRecordCount p)
    (hbatch : 2 ^ 63 - 2 ^ 20 ≤ flags.countBatch)
    : ∃ turns result,
        ThreadEnds keys p i turns result
          ∧
        1 ≤ result ∧ result ≤ 2 ^ 42 := by
  have hend := shareEnd_le h hthreads i
  have hlt := h.countBatch_lt
  have hmost : ∀ idx, available keys (getKeyPrefix p) idx ≤ keys.length := fun idx => List.countP_le_length
  have hturn := turn_thread h keys i
  have hzero : shareStart (getRecordCount p) flags i.val = 0 := by
    rw [shareStart, hi, Nat.cast_zero, Int.zero_mul]
  have hone : 1 ≤ shareEnd (getRecordCount p) flags i.val := by
    have hshare := share_pos (getRecordCount p) flags
    rw [shareEnd, hi]
    split
    . exact hpos
    . rw [Nat.cast_zero, Int.zero_add, Int.one_mul]
      exact hshare
  unfold ThreadEnds
  rw [startIdx_threadID h, hzero]
  rcases exists_next hturn hmost (show 0 < shareEnd (getRecordCount p) flags i.val by omega) (Int.le_refl 0) (by omega)
    with ⟨found, hnext, hall, hfound⟩
  rw [I64.add_eq (by unfold I64.InRange; omega)] at hnext hall
  rw [if_pos (by omega), I64.sub_eq (by unfold I64.InRange; omega), available_of_digit hkeys (Int.le_refl 0)] at hall
  refine ⟨1 + 1, found, .next hnext (.last ?_), by omega, by omega⟩
  have hended : ¬ flags.countBatch < shareEnd (getRecordCount p) flags i.val := by omega
  rw [hturn, Int.zero_add, Int.zero_add]
  exact if_neg hended

omit hbatch in
theorem not_countsAll_of_digit {i : ThreadID flags}
    (hnot : ¬ ThreadFits p i)
    : ¬ CountsAll keys p flags := by
  rcases overflow_at_start h hsmall hthreads hnot with ⟨hstart, hover⟩
  have hend := shareEnd_le h hthreads i
  have hlt := h.countBatch_lt
  have hnonneg := @shareStart_nonneg (getRecordCount p) flags i
  have hbatch : 2 ^ 63 - 2 ^ 20 ≤ flags.countBatch := by omega
  have hmost : ∀ idx, available keys (getKeyPrefix p) idx ≤ keys.length := fun idx => List.countP_le_length
  have hcount := threadID_lt i
  let first : ThreadID flags := ⟨0, by omega⟩
  have hne : first ≠ i := by
    intro heq
    have hzero : shareStart (getRecordCount p) flags i.val = 0 := by
      rw [shareStart, ← heq]
      simp [first]
    omega
  have hends (j : ThreadID flags) : ∃ turns result,
      ThreadEnds keys p j turns result
        ∧ 0 ≤ result ∧ result ≤ 2 ^ 42 ∧ (j = i → getRecordCount p ≤ result) ∧ (j = first → 1 ≤ result) := by
    by_cases hi : j = i
    . subst hi
      rcases exists_ends_overflowing h hsmall hthreads hlength hbatch hkeys hstart hover
        with ⟨turns, result, hends, hge, hle⟩
      exact ⟨turns, result, hends, by omega, hle, fun _ => hge, fun heq => absurd heq.symm hne⟩
    . by_cases hfirst : j = first
      . have hzero : j.val = 0 := by rw [hfirst]
        rcases exists_ends_first h hsmall hthreads hlength hkeys hzero (by omega) hbatch
          with ⟨turns, result, hends, hge, hle⟩
        exact ⟨turns, result, hends, by omega, hle, fun heq => absurd heq hi, fun _ => hge⟩
      . rcases exists_ends_thread h hsmall hthreads hbatch hmost (by omega) j with ⟨turns, result, hends, hge, hle⟩
        exact ⟨turns, result, hends, hge, by omega, fun heq => absurd heq hi, fun heq => absurd heq hfirst⟩
  choose turns result hends hresult hle hwhole hone using hends
  have hbound : ∑ j, result j < 2 ^ 63 := by
    have hsum : ∑ j, result j ≤ _ := Finset.sum_le_card_nsmul Finset.univ result (2 ^ 42) (fun j _ => hle j)
    rw [Finset.card_univ, Fintype.card_fin, nsmul_eq_mul] at hsum
    omega
  rw [countsAll_iff hends hresult hbound (partition_of_le h hthreads)]
  have htwo : result first + result i ≤ ∑ j, result j := by
    rw [← Finset.sum_pair hne]
    exact Finset.sum_le_sum_of_subset_of_nonneg (Finset.subset_univ _) (fun j _ _ => hresult j)
  have hi := hwhole i rfl
  have hfirst := hone first rfl
  omega

omit hlength hkeys hbatch in
theorem not_countsAll_of_percent (hkeys : ∀ key ∈ keys, Percent (getKeyPrefix p) key) {i : ThreadID flags}
    (hnot : ¬ ThreadFits p i)
    : ¬ CountsAll keys p flags := by
  rcases overflow_at_start h hsmall hthreads hnot with ⟨hstart, hover⟩
  have hend := shareEnd_le h hthreads i
  have hnonneg := @shareStart_nonneg (getRecordCount p) flags i
  have hmost : ∀ idx, available keys (getKeyPrefix p) idx ≤ 0 :=
    fun idx => Nat.le_of_eq (available_of_percent hkeys idx)
  have hends (j : ThreadID flags) : ∃ turns, ThreadEnds keys p j turns 0 := by
    rcases exists_ends_thread h hsmall hthreads (by omega) hmost (by decide) j with ⟨turns, result, hends, hge, hle⟩
    have hresult : result = 0 := by omega
    rw [hresult] at hends
    exact ⟨turns, hends⟩
  choose turns hends using hends
  rw [countsAll_iff hends (fun _ => Int.le_refl 0) (by simp) (partition_of_le h hthreads), Finset.sum_const_zero]
  omega

end Small

section Load

def loading (p : Properties) : Properties := { p with doTransactions := some false }

/--
The keys of the table after a load. Two records with one key are one record.
-/
def tableKeys (p : Properties) (c : Core) : List Bytes := ((loadKeys (loading p)).map (buildKeyName c)).dedup

/--
The indices do not overflow, or the table is so small that the counts do not.
-/
def Bounded (p : Properties) (c : Core) (flags : Flags) : Prop :=
  (∀ i : ThreadID flags, ThreadFits p i)
    ∨
  (getRecordCount p ≤ 2 ^ 20 ∧ ((loadKeys (loading p)).map (buildKeyName c)).Nodup
    ∧ ∀ keyNum ∈ loadKeys (loading p), 0 ≤ keyNum)

variable {P : Platform} {readHistogram : String → Outcome Generator.Histogram} {p : Properties} {c : Core}
  {flags : Flags}

theorem suits_of_countsAll (hcreate : create P readHistogram (loading p) = .ret c)
    (htotal : (loading p).totalOpCount = getRecordCount p) (h : Sane (getRecordCount p) flags)
    (hbounded : Bounded p c flags) (hcounts : CountsAll (tableKeys p c) p flags)
    : Suits (tableKeys p c) p flags := by
  have hthreads := le_of_partition h hcounts.partition
  rcases hbounded with hfits | ⟨hsmall, hnodup, hnonneg⟩
  . exact (countsAll_iff_of_fits h hfits).mp hcounts
  . have hkeys : tableKeys p c = (loadKeys (loading p)).map (buildKeyName c) := hnodup.dedup
    have hlength : ((tableKeys p c).length : Int) = getRecordCount p := by
      have hpos := h.recordCount_nonneg
      rw [hkeys, List.length_map, loadKeys, List.length_map, List.length_range]
      omega
    have hcopied : c.keyPrefix = getKeyPrefix p := (keysCopied_of_create hcreate).keyPrefix
    have hfits : ∀ i : ThreadID flags, ThreadFits p i := by
      intro i
      by_contra hnot
      have hstarts := @buildKeyName_starts c _ hnonneg
      rw [hcopied, ← hkeys] at hstarts
      cases hstarts with
      | inl hdigit => exact not_countsAll_of_digit h hsmall hthreads hlength hdigit hnot hcounts
      | inr hpercent => exact not_countsAll_of_percent h hsmall hthreads hpercent hnot hcounts
    exact (countsAll_iff_of_fits h hfits).mp hcounts

/--
The count is right if the threads and the batches suit the table, and only then unless an index and a count overflow.
-/
theorem scan_count_right_iff (hcreate : create P readHistogram (loading p) = .ret c)
    (htotal : (loading p).totalOpCount = getRecordCount p) (h : Sane (getRecordCount p) flags)
    : (Suits (tableKeys p c) p flags → CountsAll (tableKeys p c) p flags)
        ∧
      (Bounded p c flags → (CountsAll (tableKeys p c) p flags ↔ Suits (tableKeys p c) p flags)) := by
  have hright : Suits (tableKeys p c) p flags → CountsAll (tableKeys p c) p flags :=
    fun hsuits => (countsAll_iff_of_fits h hsuits.fits).mpr hsuits
  refine ⟨hright, ?_⟩
  intro hbounded
  exact ⟨suits_of_countsAll hcreate htotal h hbounded, hright⟩

def fourRecords : Properties where
  recordCount := some ⟨4, I64.inRange_four⟩
  insertOrder := some "ordered"

theorem scan_count_right_four
    : ∃ c,
        create .exactAmd64 (fun _ => .running) (loading fourRecords) = .ret c
          ∧
        CountsAll (tableKeys fourRecords c) fourRecords ⟨2, 1⟩ := by
  have hcreate : (create .exactAmd64 (fun _ => .running) (loading fourRecords)).toOption.any
      (fun c => tableKeys fourRecords c
        = [Bytes.ofAscii "user0", Bytes.ofAscii "user1", Bytes.ofAscii "user2", Bytes.ofAscii "user3"]) := by
    decide +kernel
  rcases Outcome.exists_of_any _ hcreate with ⟨c, hc, hkeys⟩
  rw [decide_eq_true_eq] at hkeys
  have hshares : ∀ i : ThreadID ⟨2, 1⟩, shareStart (getRecordCount fourRecords) ⟨2, 1⟩ i.val = 2 * i.val
      ∧ shareEnd (getRecordCount fourRecords) ⟨2, 1⟩ i.val = 2 * i.val + 2 := by
    decide
  have hfound : ∀ idx ∈ [0, 1, 2, 3], 1 ≤ available (tableKeys fourRecords c) (getKeyPrefix fourRecords) idx := by
    rw [hkeys]
    decide
  refine ⟨c, hc, (scan_count_right_iff hc rfl ⟨by decide, by decide, by decide, by decide, by decide, by decide⟩).1
    ⟨by decide, ?_, ?_⟩⟩
  . intro i j hj
    have hi := threadID_lt i
    rw [(hshares i).1, (hshares i).2] at *
    dsimp only at *
    omega
  . intro i j hj
    have hi := threadID_lt i
    rw [(hshares i).1, (hshares i).2] at *
    dsimp only at *
    have hone := hfound (2 * i.val + j * 1) (by
      simp only [List.mem_cons, List.not_mem_nil, or_false]
      omega)
    omega

def elevenRecords : Properties where
  recordCount := some ⟨11, by decide⟩
  insertOrder := some "ordered"

-- With the default flags, the last thread asks for two records from `user9` on, where there is one.
theorem scan_count_misses_record
    : ∃ c,
        create .exactAmd64 (fun _ => .running) (loading elevenRecords) = .ret c
          ∧
        (∀ labels s, Runs (tableKeys elevenRecords c) elevenRecords {} labels s → s.Done → s.total = 10)
          ∧
        ¬ CountsAll (tableKeys elevenRecords c) elevenRecords {} := by
  have hcreate : (create .exactAmd64 (fun _ => .running) (loading elevenRecords)).toOption.any
      (fun c => tableKeys elevenRecords c
        = (List.range 11).map (fun i => Bytes.ofAscii "user" ++ Bytes.decimal i)) := by
    decide +kernel
  rcases Outcome.exists_of_any _ hcreate with ⟨c, hc, hkeys⟩
  rw [decide_eq_true_eq] at hkeys
  have hends : ∀ i : ThreadID {}, ThreadEnds (tableKeys elevenRecords c) elevenRecords i 2 1 := by
    rw [hkeys]
    intro i
    have hfirst : ∀ i : ThreadID {}, (runScanBasedCount
        (orderedScan ((List.range 11).map (fun i => Bytes.ofAscii "user" ++ Bytes.decimal i))) elevenRecords {}).turn i
          ⟨startIdx (getRecordCount elevenRecords) {} i.val, 0⟩ = .inl ⟨i.val + 1000, 1⟩ := by
      decide +kernel
    have hlast : ∀ i : ThreadID {}, (runScanBasedCount
        (orderedScan ((List.range 11).map (fun i => Bytes.ofAscii "user" ++ Bytes.decimal i))) elevenRecords {}).turn i
          ⟨i.val + 1000, 1⟩ = .inr 1 := by
      decide +kernel
    exact .next (hfirst i) (.last (hlast i))
  have htotal : ∀ labels s, Runs (tableKeys elevenRecords c) elevenRecords {} labels s → s.Done → s.total = 10 := by
    intro labels s hrun hdone
    rw [total_eq_sum hends (fun _ => Int.one_nonneg) (by decide) hrun hdone]
    rfl
  refine ⟨c, hc, htotal, ?_⟩
  intro hcounts
  rcases exists_done hcounts with ⟨labels, s, hrun, hdone⟩
  have hten := htotal labels s hrun hdone
  rw [hcounts.total labels s hrun hdone] at hten
  exact absurd hten (by decide)

end Load

end Count
