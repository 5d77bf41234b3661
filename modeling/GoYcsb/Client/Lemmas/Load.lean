import GoYcsb.Client.Lemmas.Accounts
import GoYcsb.Client.Lemmas.Worker

/-!
This module contains the verification of the load phase: which key numbers the workers pass to the
database, and how many records they insert.
-/

theorem Worker.loads_of_newWorker {p : Properties} {size threads i : Nat} {worker : Worker}
    (hload : p.getDoTransactions = false) (hbatch : p.getBatchSize = size) (hsize : 0 < size)
    (hi : i < threads) (h : newWorker p i threads = .ret worker)
    : worker.Loads size ∧ worker.opCount = share p.totalOpCount.toNat threads i := by
  have htotal := le_totalOpCount_of_newWorker h
  have hrange := p.totalOpCount_inRange
  have hpos : 0 < share p.totalOpCount.toNat threads i := share_pos (by omega) (by omega) i
  have hle : share p.totalOpCount.toNat threads i ≤ p.totalOpCount.toNat := share_le hi
  unfold I64.InRange at hrange
  rw [newWorker_eq hi htotal, hload, hbatch] at h
  cases h
  refine ⟨⟨?_, ?_, ?_, ?_⟩, rfl⟩
  . by_cases hone : 1 < (size : Int)
    . simp [opsCount, hone]
    . simp only [opsCount, hone, decide_false, Bool.false_eq_true, ↓reduceIte]
      omega
  . by_cases hone : 1 < (size : Int)
    . simp [operation, hone]
    . have heq : size = 1 := by omega
      simp [operation, heq]
  . dsimp only
    omega
  . dsimp only
    omega

theorem Properties.getInsertStart_inRange (p : Properties) : I64.InRange p.getInsertStart := by
  unfold getInsertStart getInt64
  split
  . next v _ => exact v.property
  . decide

def loadKeys (p : Properties) : List Int :=
  (List.range p.totalOpCount.toNat).map (fun i : Nat => I64.add p.getInsertStart i)

-- The key numbers as they are meant, which need not be 64 bit integers.
def keyRange (p : Properties) : List Int :=
  (List.range p.totalOpCount.toNat).map (fun i : Nat => p.getInsertStart + i)

theorem nodup_loadKeys (p : Properties) : (loadKeys p).Nodup := by
  have hrange := p.totalOpCount_inRange
  unfold I64.InRange at hrange
  unfold loadKeys
  rw [List.nodup_map_iff_inj_on List.nodup_range]
  intro i hi j hj heq
  rw [List.mem_range] at hi hj
  have := I64.add_left_cancel heq (by rw [abs_lt]; omega)
  omega

theorem loadKeys_eq {p : Properties} (h : p.getInsertStart + p.totalOpCount ≤ 2 ^ 63)
    : loadKeys p = keyRange p := by
  have hstart := p.getInsertStart_inRange
  unfold I64.InRange at hstart
  apply List.map_congr_left
  intro i hi
  rw [List.mem_range] at hi
  apply I64.add_eq
  unfold I64.InRange
  omega

theorem mem_loadKeys {p : Properties} (h : p.getInsertStart + p.totalOpCount ≤ 2 ^ 63) {keyNum : Int}
    : keyNum ∈ loadKeys p
        ↔
      p.getInsertStart ≤ keyNum ∧ keyNum < p.getInsertStart + p.totalOpCount := by
  rw [loadKeys_eq h, keyRange, List.mem_map]
  constructor
  . rintro ⟨i, hi, rfl⟩
    rw [List.mem_range] at hi
    omega
  . intro hkey
    refine ⟨(keyNum - p.getInsertStart).toNat, ?_, ?_⟩
    . rw [List.mem_range]
      omega
    . omega

theorem inRange_of_mem_loadKeys {p : Properties} {keyNum : Int} (h : keyNum ∈ loadKeys p) : I64.InRange keyNum := by
  rcases List.mem_map.mp h with ⟨i, _, rfl⟩
  apply I64.inRange_wrap

theorem last_mem_loadKeys {p : Properties} (hstart : 0 ≤ p.getInsertStart) (hpos : 0 < p.totalOpCount)
    {keyNum : Int} (h : keyNum = min (p.getInsertStart + p.totalOpCount) (2 ^ 63) - 1)
    : keyNum ∈ loadKeys p := by
  have hrange := p.getInsertStart_inRange
  unfold I64.InRange at hrange
  refine List.mem_map.mpr ⟨(keyNum - p.getInsertStart).toNat, ?_, ?_⟩
  . rw [List.mem_range]
    omega
  . rw [I64.add_eq]
    . omega
    . unfold I64.InRange
      omega

/--
A complete load writes the key range that `Create` gives to the key choosers, and does not reach the keys
that the transaction phase inserts.
-/
def LoadsKeyRange (p : Properties) : Prop :=
  (∀ keyNum, keyNum ∈ loadKeys p
    ↔
    p.getInsertStart ≤ keyNum ∧ keyNum < I64.add p.getInsertStart p.getInsertCount)
    ∧
  ∀ keyNum ∈ loadKeys p, keyNum < p.getRecordCount

theorem loadsKeyRange_of_eq {p : Properties} (htotal : p.totalOpCount = p.getInsertCount)
    (hstart : 0 ≤ p.getInsertStart) (hle : p.getInsertStart + p.getInsertCount ≤ p.getRecordCount)
    (hfits : p.getInsertStart + p.getInsertCount < 2 ^ 63)
    : LoadsKeyRange p := by
  have hrange := p.totalOpCount_inRange
  unfold I64.InRange at hrange
  have hadd : I64.add p.getInsertStart p.getInsertCount = p.getInsertStart + p.totalOpCount := by
    rw [htotal]
    apply I64.add_eq
    unfold I64.InRange
    omega
  unfold LoadsKeyRange
  rw [hadd]
  constructor
  . intro keyNum
    exact mem_loadKeys (by omega)
  . intro keyNum hkey
    rw [mem_loadKeys (by omega)] at hkey
    omega

theorem insertRange_le_recordCount {P : Platform} {readHistogram : String → Outcome Generator.Histogram}
    {p : Properties} {c : Core} (hcreate : create P readHistogram p = .ret c)
    : I64.add p.getInsertStart p.getInsertCount ≤ p.getRecordCount := by
  have hcheck := (created_of_create hcreate).insertRange
  unfold checkInsertRange at hcheck
  dsimp only at hcheck
  split at hcheck
  . contradiction
  . omega

theorem LoadsKeyRange.last_lt {p : Properties} (h : LoadsKeyRange p) (hstart : 0 ≤ p.getInsertStart)
    (hpos : 0 < p.totalOpCount)
    : min (p.getInsertStart + p.totalOpCount) (2 ^ 63) - 1 < p.getRecordCount :=
  h.2 _ (last_mem_loadKeys hstart hpos rfl)

theorem loadsKeyRange_iff_fits {p : Properties} (hstart : 0 ≤ p.getInsertStart)
    (haccepted : I64.add p.getInsertStart p.getInsertCount ≤ p.getRecordCount)
    (htotal : p.totalOpCount = p.getInsertCount)
    : LoadsKeyRange p ↔ p.getInsertStart + p.getInsertCount < 2 ^ 63 := by
  have hstartRange := p.getInsertStart_inRange
  have htotalRange := p.totalOpCount_inRange
  unfold I64.InRange at hstartRange htotalRange
  constructor
  . intro h
    by_contra hnot
    have := h.last_lt hstart (by omega)
    have := Properties.getRecordCount_lt p
    omega
  . intro hfits
    rw [I64.add_eq (by unfold I64.InRange; omega)] at haccepted
    exact loadsKeyRange_of_eq htotal hstart haccepted hfits

theorem loadsKeyRange_iff_zero {p : Properties} (hstart : 0 ≤ p.getInsertStart)
    (hrecord : 0 < p.getRecordCount) (htotal : p.totalOpCount = p.getRecordCount)
    (hinsert : p.getInsertCount = I64.sub p.getRecordCount p.getInsertStart)
    : LoadsKeyRange p ↔ p.getInsertStart = 0 := by
  have hstartRange := p.getInsertStart_inRange
  have hlt := Properties.getRecordCount_lt p
  unfold I64.InRange at hstartRange
  rw [I64.sub_eq (by unfold I64.InRange; omega)] at hinsert
  constructor
  . intro h
    have := h.last_lt hstart (by omega)
    omega
  . intro hzero
    rw [hzero, Int.sub_zero] at hinsert
    apply loadsKeyRange_of_eq
    . rw [htotal, hinsert]
    . exact hstart
    . omega
    . omega

theorem loadsKeyRange_iff {P : Platform} {readHistogram : String → Outcome Generator.Histogram}
    {p : Properties} {c : Core} (hcreate : create P readHistogram p = .ret c)
    (hload : p.getDoTransactions = false) (hrecord : 1 ≤ getInt64 p.recordCount 0)
    (hstart : 0 ≤ p.getInsertStart)
    : LoadsKeyRange p
        ↔
      match p.insertCount with
      | some insertCount => p.getInsertStart + insertCount.val < 2 ^ 63
      | none => p.getInsertStart = 0 := by
  cases hcount : p.insertCount with
  | some insertCount =>
    have hinsert : p.getInsertCount = insertCount.val := by
      unfold Properties.getInsertCount getInt64
      rw [hcount]
    dsimp only
    rw [← hinsert]
    apply loadsKeyRange_iff_fits hstart (insertRange_le_recordCount hcreate)
    unfold Properties.totalOpCount
    rw [hload, hcount, hinsert]
    rfl
  | none =>
    have hrecordCount : p.getRecordCount = getInt64 p.recordCount 0 := by
      unfold Properties.getRecordCount
      dsimp only
      rw [if_neg (by omega)]
    apply loadsKeyRange_iff_zero hstart
    . omega
    . unfold Properties.totalOpCount
      rw [hload, hcount, hrecordCount]
      rfl
    . unfold Properties.getInsertCount getInt64
      rw [hcount]

def rangeStart (insertCount : Option I64.Value) : Properties where
  recordCount := some ⟨10, by decide⟩
  insertStart := some ⟨5, by decide⟩
  insertCount := insertCount
  doTransactions := some false

theorem loadsKeyRange_five
    : ∃ c,
        create .exactAmd64 (fun _ => .running) (rangeStart (some ⟨5, by decide⟩)) = .ret c
          ∧
        LoadsKeyRange (rangeStart (some ⟨5, by decide⟩)) := by
  rcases exists_create .exactAmd64 (fun _ => .running) (p := rangeStart (some ⟨5, by decide⟩)) (by decide) rfl
    (by decide) rfl rfl with ⟨c, hc⟩
  refine ⟨c, hc, ?_⟩
  apply (loadsKeyRange_iff hc rfl (by decide) (by decide)).mpr
  exact (by decide : (5 : Int) + 5 < 2 ^ 63)

theorem load_leaves_key_range
    : ∃ c,
        create .exactAmd64 (fun _ => .running) (rangeStart none) = .ret c
          ∧
        loadKeys (rangeStart none) = [5, 6, 7, 8, 9, 10, 11, 12, 13, 14]
          ∧
        (rangeStart none).getInsertStart = 5
          ∧
        I64.add (rangeStart none).getInsertStart (rangeStart none).getInsertCount = 10
          ∧
        ¬ LoadsKeyRange (rangeStart none) := by
  rcases exists_create .exactAmd64 (fun _ => .running) (p := rangeStart none) (by decide) rfl
    (by decide) rfl rfl with ⟨c, hc⟩
  refine ⟨c, hc, by decide, rfl, by decide, ?_⟩
  intro h
  exact absurd (h.2 14 (by decide)) (by decide)

namespace Client

section

variable {P : Platform} {readHistogram : String → Outcome Generator.Histogram} {p : Properties} {c : Core}
  {threads : Nat} {worker : Fin threads → Worker}

theorem warmUp_new (W : Type) (c : Core) (hwarm : p.getWarmUpTime = 0)
    : (new p c : Client W).warmUp = false := by
  unfold new
  rw [hwarm]
  rfl

theorem busy_new {size : Nat} (hworker : ∀ i, (worker i).Loads size) : (new p c).Busy worker := by
  intro i
  refine ⟨(hworker i).pos, ?_⟩
  simp [new]

structure Loading (P : Platform) (readHistogram : String → Outcome Generator.Histogram) (p : Properties) (c : Core)
    (size threads : Nat) (worker : Fin threads → Worker) : Prop where
  create : create P readHistogram p = .ret c
  load : p.getDoTransactions = false
  batchSize : p.getBatchSize = size
  pos : 0 < size
  retry : getInt64 p.insertionRetryLimit 0 = 0
  threads_pos : 0 < threads
  workers : ∀ i : Fin threads, newWorker p i threads = .ret (worker i)

namespace Loading

variable {size : Nat} {env : Build → Prop} (h : Loading P readHistogram p c size threads worker)

include h

theorem loads (i : Fin threads) : (worker i).Loads size :=
  (Worker.loads_of_newWorker h.load h.batchSize h.pos i.isLt (h.workers i)).1

theorem insertionRetryLimit : c.insertionRetryLimit = 0 := by
  rw [(copied_of_create h.create).insertionRetryLimit]
  exact h.retry

theorem sum_opCount : ∑ i, (worker i).opCount = p.totalOpCount.toNat := by
  conv =>
    rhs
    rw [← sum_share h.threads_pos p.totalOpCount.toNat]
  push_cast
  apply Finset.sum_congr rfl
  intro i _
  exact (Worker.loads_of_newWorker h.load h.batchSize h.pos i.isLt (h.workers i)).2

theorem totalOpCount_pos : 0 < p.totalOpCount := by
  have hthreads := h.threads_pos
  have htotal := le_totalOpCount_of_newWorker (h.workers ⟨0, hthreads⟩)
  omega

theorem accounts : Accounts size worker p.getInsertStart 0 (new p c) :=
  accounts_new p p.getInsertStart_inRange (copied_of_create h.create).keySequence h.loads

theorem loadsExactly (hwarm : p.getWarmUpTime = 0) (hdvd : ∀ i, (size : Int) ∣ (worker i).opCount)
    (hbuilds : ∀ keyNum ∈ loadKeys p, Load.BuildsKey P env c keyNum)
    : LoadsExactly P env c worker (new p c) (loadKeys p) := by
  refine h.accounts.loadsExactly h.pos h.loads hdvd h.insertionRetryLimit h.sum_opCount ?_ (warmUp_new _ c hwarm)
  exact hbuilds

theorem exists_passed (hwarm : p.getWarmUpTime = 0) (henv : ∃ build, env build)
    (hunblocked : Unblocked P env c worker (new p c))
    : ∃ labels s,
        Run (step P c worker) (Allowed env) (new p c) labels s
          ∧
        loadKeys p ⊆ s.calls.flatten
          ∧
        ((∃ i, ¬ (size : Int) ∣ (worker i).opCount) → p.totalOpCount.toNat < s.calls.flatten.length)
          ∧
        ∀ keyNum ∈ s.calls.flatten, Load.BuildsKey P env c keyNum := by
  rcases exists_answer P c henv with ⟨answer, hanswer, hbuilt⟩
  have hseen : ∀ keyNum, (new p c : Client (Fin threads)).Seen keyNum → Load.BuildsKey P env c keyNum := by
    intro keyNum hseen
    simp [Seen, new, Worker.PC.held] at hseen
  rcases exists_last_operations h.accounts (busy_new h.loads) (warmUp_new _ c hwarm) h.pos h.loads
    h.insertionRetryLimit hunblocked hanswer hbuilt hseen with ⟨labels, s, hrun, haccounts, hlast, hpassed⟩
  refine ⟨labels, s, hrun, ?_, ?_, fun keyNum hmem => hpassed keyNum (Or.inl hmem)⟩
  . rcases haccounts.perm_last hlast with ⟨n, hperm, hle⟩
    rw [h.sum_opCount] at hle
    intro keyNum hkey
    apply hperm.symm.subset
    exact List.map_subset _ (List.range_subset.mpr (by omega)) hkey
  . intro hodd
    rcases hodd with ⟨i, hi⟩
    have hlt := haccounts.lt_length hlast hi
    rw [h.sum_opCount] at hlt
    omega

theorem buildsKey_of_unblocked (hwarm : p.getWarmUpTime = 0) (henv : ∃ build, env build)
    (hunblocked : Unblocked P env c worker (new p c))
    : ∀ keyNum ∈ loadKeys p, Load.BuildsKey P env c keyNum := by
  rcases h.exists_passed hwarm henv hunblocked with ⟨_, s, _, hsubset, _, hbuilt⟩
  exact fun keyNum hkey => hbuilt keyNum (hsubset hkey)

theorem loadsExactly_iff (hwarm : p.getWarmUpTime = 0) (henv : ∃ build, env build)
    : LoadsExactly P env c worker (new p c) (keyRange p)
        ↔
      (∀ i, (size : Int) ∣ (worker i).opCount)
        ∧
      p.getInsertStart + p.totalOpCount ≤ 2 ^ 63
        ∧
      ∀ keyNum ∈ keyRange p, Load.BuildsKey P env c keyNum := by
  constructor
  . intro hexact
    rcases h.exists_passed hwarm henv hexact.2.1 with ⟨labels, s, hrun, hsubset, hodd, hbuilt⟩
    have hsubperm := (hexact.2.2 labels s hrun).1
    have hlength := hsubperm.length_le
    have hrange : (keyRange p).length = p.totalOpCount.toNat := by
      rw [keyRange, List.length_map, List.length_range]
    rw [hrange] at hlength
    have hdvd : ∀ i, (size : Int) ∣ (worker i).opCount := by
      by_contra hnot
      have hlt := hodd (not_forall.mp hnot)
      omega
    -- all of the wrapped key numbers have been passed, and they are as many as there are in the range
    have hall : ∀ keyNum ∈ keyRange p, keyNum ∈ loadKeys p := by
      have hload : (loadKeys p).Subperm (keyRange p) := ((nodup_loadKeys p).subperm hsubset).trans hsubperm
      have hperm := hload.perm_of_length_le (by rw [hrange, loadKeys, List.length_map, List.length_range])
      exact fun keyNum hkey => hperm.symm.subset hkey
    refine ⟨hdvd, ?_, ?_⟩
    . have hpos := h.totalOpCount_pos
      have hlast : p.getInsertStart + (p.totalOpCount - 1) ∈ keyRange p := by
        refine List.mem_map.mpr ⟨(p.totalOpCount - 1).toNat, List.mem_range.mpr (by omega), ?_⟩
        rw [Int.toNat_of_nonneg (by omega)]
      have hfits := inRange_of_mem_loadKeys (hall _ hlast)
      unfold I64.InRange at hfits
      omega
    . exact fun keyNum hkey => hbuilt keyNum (hsubset (hall keyNum hkey))
  . intro hconditions
    rcases hconditions with ⟨hdvd, hfits, hbuilds⟩
    rw [← loadKeys_eq hfits] at hbuilds ⊢
    exact h.loadsExactly hwarm hdvd hbuilds

end Loading

section

variable {env : Build → Prop}

/--
The workers share the operations out evenly. They insert exactly the records from the insert start on if no key number
exceeds 64 bits and all values can be built, and in no other case.
-/
theorem load_inserts_each_key_once_iff (hcreate : create P readHistogram p = .ret c)
    (hload : p.getDoTransactions = false) (hbatch : p.getBatchSize = 1)
    (hretry : getInt64 p.insertionRetryLimit 0 = 0) (hwarm : p.getWarmUpTime = 0) (hthreads : 0 < threads)
    (htotal : (threads : Int) ≤ p.totalOpCount) (henv : ∃ build, env build)
    : ∃ worker : Fin threads → Worker,
        (∀ i : Fin threads, newWorker p i threads = .ret (worker i))
          ∧
        (∀ i, 1 ≤ (worker i).opCount)
          ∧
        (∀ i j, (worker i).opCount ≤ (worker j).opCount + 1)
          ∧
        ∑ i, (worker i).opCount = p.totalOpCount
          ∧
        (LoadsExactly P env c worker (new p c) (keyRange p)
            ↔
          p.getInsertStart + p.totalOpCount ≤ 2 ^ 63
            ∧
          ∀ keyNum ∈ keyRange p, Load.BuildsKey P env c keyNum) := by
  have hexists : ∃ worker : Fin threads → Worker, ∀ i : Fin threads, newWorker p i threads = .ret (worker i) :=
    ⟨_, fun i => newWorker_eq i.isLt htotal⟩
  rcases hexists with ⟨worker, hnew⟩
  have hloading : Loading P readHistogram p c 1 threads worker :=
    ⟨hcreate, hload, hbatch, Nat.one_pos, hretry, hthreads, hnew⟩
  have hshare := fun i => (Worker.loads_of_newWorker hload hbatch Nat.one_pos i.isLt (hnew i)).2
  refine ⟨worker, hnew, fun i => (hloading.loads i).pos, ?_, ?_, ?_⟩
  . intro i j
    have hle := share_le_share p.totalOpCount.toNat threads i j
    rw [hshare i, hshare j]
    omega
  . rw [hloading.sum_opCount]
    omega
  . have hone : ∀ i, ((1 : Nat) : Int) ∣ (worker i).opCount := fun i => Int.one_dvd _
    rw [hloading.loadsExactly_iff hwarm henv, and_iff_right hone]

end

def loadProperties (recordCount batchSize warmUpTime : I64.Value) : Properties where
  recordCount := some recordCount
  batchSize := some batchSize
  warmUpTime := some warmUpTime
  doTransactions := some false

theorem buildsKey_default (hcreate : create P readHistogram p = .ret c) (hname : p.fieldLengthDistribution = none)
    (hintegrity : p.dataIntegrity = none) (hcount : p.fieldCount = none) (hlength : p.fieldLength = none)
    (keyNum : Int)
    : Load.BuildsKey P (Build.Valid 100) c keyNum := by
  have hsize : p.getFieldLength = 100 := by
    simp only [Properties.getFieldLength, hlength, getInt64]
  apply (Load.buildsKey_iff hcreate _ _ _ keyNum).mpr
  . rw [hsize]
    decide
  . simp only [Properties.getFieldLengthDistribution, hname, Option.getD]
  . simp only [Properties.getDataIntegrity, hintegrity, Option.getD]
  . simp only [Properties.getFieldCount, hcount, getInt64]
    decide

def rangeProperties : Properties :=
  { loadProperties ⟨8, by decide⟩ ⟨1, I64.inRange_one⟩ ⟨0, by decide⟩ with
    insertStart := some ⟨3, by decide⟩
    insertCount := some ⟨5, by decide⟩ }

theorem load_inserts_each_key_once_two_threads
    : ∃ (c : Core) (worker : Fin 2 → Worker),
        create .exactAmd64 (fun _ => .running) rangeProperties = .ret c
          ∧
        (∀ i : Fin 2, newWorker rangeProperties i 2 = .ret (worker i))
          ∧
        ∑ i, (worker i).opCount = 5
          ∧
        LoadsExactly .exactAmd64 (Build.Valid 100) c worker (new rangeProperties c) [3, 4, 5, 6, 7] := by
  rcases exists_create .exactAmd64 (fun _ => .running) (p := rangeProperties) (by decide) rfl
    (by decide) rfl rfl with ⟨c, hc⟩
  have htotal : ((2 : Nat) : Int) ≤ rangeProperties.totalOpCount := by decide
  have hbuilds := buildsKey_default hc rfl rfl rfl rfl
  rcases load_inserts_each_key_once_iff hc rfl rfl rfl rfl Nat.two_pos htotal ⟨_, Load.valid_emptyPool 100⟩
    with ⟨worker, hnew, _, _, hsum, hloads⟩
  have hkeys : keyRange rangeProperties = [3, 4, 5, 6, 7] := by decide
  rw [hkeys] at hloads
  exact ⟨c, worker, hc, hnew, hsum, hloads.mpr ⟨by decide, fun keyNum _ => hbuilds keyNum⟩⟩

def plainAnswer : Answer where
  err := none
  builds := fun _ => Load.emptyPool 100

theorem run_plain {p : Properties} {c : Core} {worker : Worker} {labels : List (Label (Fin 1))}
    (hlabels : ∀ label ∈ labels, label = .step 0 plainAnswer ∨ label = .finishWarmUp) {s : Client (Fin 1)}
    (hrun : Run (step .exactAmd64 c (fun _ => worker)) (fun _ _ => True) (new p c) labels s)
    : Run (step .exactAmd64 c (fun _ => worker)) (Allowed (Build.Valid 100)) (new p c) labels s := by
  apply hrun.of_forall_mem
  intro s label hmem
  cases hlabels label hmem with
  | inl h =>
    rw [h]
    exact fun _ => Load.valid_emptyPool 100
  | inr h =>
    rw [h]
    trivial

def wrappedRange : Properties :=
  { loadProperties ⟨1, I64.inRange_one⟩ ⟨1, I64.inRange_one⟩ ⟨0, by decide⟩ with
    insertStart := some ⟨2 ^ 63 - 1, by decide⟩
    insertCount := some ⟨2, I64.inRange_two⟩ }

theorem load_wraps
    : ∃ (c : Core) (worker : Worker) (s : Client (Fin 1)),
        create .exactAmd64 (fun _ => .running) wrappedRange = .ret c
          ∧
        newWorker wrappedRange 0 1 = .ret worker
          ∧
        Run (step .exactAmd64 c (fun _ => worker)) (Allowed (Build.Valid 100)) (new wrappedRange c)
          (List.replicate 13 (.step 0 plainAnswer)) s
          ∧
        s.Ended
          ∧
        s.calls = [[2 ^ 63 - 1], [-2 ^ 63]]
          ∧
        keyRange wrappedRange = [2 ^ 63 - 1, 2 ^ 63] := by
  have hcreate : (create .exactAmd64 (fun _ => .running) wrappedRange).toOption.any (fun c =>
      (newWorker wrappedRange 0 1).toOption.any (fun worker =>
        (Run.exec (step .exactAmd64 c (fun _ => worker)) (fun _ _ => True) (new wrappedRange c : Client (Fin 1))
          (List.replicate 13 (.step 0 plainAnswer))).any (fun s =>
            decide (s.Ended ∧ s.calls = [[2 ^ 63 - 1], [-2 ^ 63]])))) := by
    decide +kernel
  rcases Outcome.exists_of_any _ hcreate with ⟨c, hc, hnew⟩
  rcases Outcome.exists_of_any _ hnew with ⟨worker, hworker, hexec⟩
  rcases Run.exists_of_exec _ hexec with ⟨s, hrun, hs⟩
  rw [decide_eq_true_eq] at hs
  refine ⟨c, worker, s, hc, hworker, run_plain ?_ hrun, hs.1, hs.2, by decide⟩
  intro label hmem
  exact Or.inl (List.eq_of_mem_replicate hmem)

section

variable {env : Build → Prop}

theorem batch_load_exact_iff (hcreate : create P readHistogram p = .ret c)
    (hload : p.getDoTransactions = false) (hbatch : 1 < p.getBatchSize)
    (hretry : getInt64 p.insertionRetryLimit 0 = 0) (hwarm : p.getWarmUpTime = 0) (hthreads : 0 < threads)
    (hnew : ∀ i : Fin threads, newWorker p i threads = .ret (worker i)) (henv : ∃ build, env build)
    : LoadsExactly P env c worker (new p c) (keyRange p)
        ↔
      threads * p.getBatchSize ∣ p.totalOpCount
        ∧
      p.getInsertStart + p.totalOpCount ≤ 2 ^ 63
        ∧
      ∀ keyNum ∈ keyRange p, Load.BuildsKey P env c keyNum := by
  rcases Int.eq_ofNat_of_zero_le (a := p.getBatchSize) (by omega) with ⟨size, hsize⟩
  have hone : 1 < size := by omega
  have hloading : Loading P readHistogram p c size threads worker :=
    ⟨hcreate, hload, hsize, by omega, hretry, hthreads, hnew⟩
  have hpos := hloading.totalOpCount_pos
  have hcondition : threads * p.getBatchSize ∣ p.totalOpCount ↔ ∀ i, (size : Int) ∣ (worker i).opCount := by
    rw [hsize, ← Int.toNat_of_nonneg (a := p.totalOpCount) (by omega)]
    rw [← Int.natCast_mul, Int.natCast_dvd_natCast, ← forall_dvd_share_iff hthreads hone]
    apply forall_congr'
    intro i
    rw [(Worker.loads_of_newWorker hload hsize (by omega) i.isLt (hnew i)).2, Int.natCast_dvd_natCast]
  rw [hcondition]
  exact hloading.loadsExactly_iff hwarm henv

end

def evenBatches : Properties := loadProperties ⟨4, by decide⟩ ⟨2, I64.inRange_two⟩ ⟨0, by decide⟩

def oddBatches : Properties := loadProperties ⟨3, by decide⟩ ⟨2, I64.inRange_two⟩ ⟨0, by decide⟩

theorem batch_load_exact_two_threads
    : ∃ (c : Core) (worker : Fin 2 → Worker),
        create .exactAmd64 (fun _ => .running) evenBatches = .ret c
          ∧
        (∀ i : Fin 2, newWorker evenBatches i 2 = .ret (worker i))
          ∧
        LoadsExactly .exactAmd64 (Build.Valid 100) c worker (new evenBatches c) [0, 1, 2, 3] := by
  rcases exists_create .exactAmd64 (fun _ => .running) (p := evenBatches) (by decide) rfl
    (by decide) rfl rfl with ⟨c, hc⟩
  have htotal : ((2 : Nat) : Int) ≤ evenBatches.totalOpCount := by decide
  have hnew := fun i : Fin 2 => newWorker_eq i.isLt htotal
  have hbuilds := buildsKey_default hc rfl rfl rfl rfl
  have hloads := (batch_load_exact_iff hc rfl (by decide) rfl rfl Nat.two_pos hnew ⟨_, Load.valid_emptyPool 100⟩).mpr
    ⟨by decide, by decide, fun keyNum _ => hbuilds keyNum⟩
  have hkeys : keyRange evenBatches = [0, 1, 2, 3] := by decide
  rw [hkeys] at hloads
  exact ⟨c, _, hc, hnew, hloads⟩

-- Three records are to be loaded, the second batch has two records again.
theorem batch_load_overshoots
    : ∃ (c : Core) (worker : Worker) (s : Client (Fin 1)),
        create .exactAmd64 (fun _ => .running) oddBatches = .ret c
          ∧
        newWorker oddBatches 0 1 = .ret worker
          ∧
        Run (step .exactAmd64 c (fun _ => worker)) (Allowed (Build.Valid 100)) (new oddBatches c)
          (List.replicate 15 (.step 0 plainAnswer)) s
          ∧
        s.Ended
          ∧
        s.calls = [[0, 1], [2, 3]]
          ∧
        keyRange oddBatches = [0, 1, 2] := by
  have hcreate : (create .exactAmd64 (fun _ => .running) oddBatches).toOption.any (fun c =>
      (newWorker oddBatches 0 1).toOption.any (fun worker =>
        (Run.exec (step .exactAmd64 c (fun _ => worker)) (fun _ _ => True) (new oddBatches c : Client (Fin 1))
          (List.replicate 15 (.step 0 plainAnswer))).any (fun s =>
            decide (s.Ended ∧ s.calls = [[0, 1], [2, 3]])))) := by
    decide +kernel
  rcases Outcome.exists_of_any _ hcreate with ⟨c, hc, hnew⟩
  rcases Outcome.exists_of_any _ hnew with ⟨worker, hworker, hexec⟩
  rcases Run.exists_of_exec _ hexec with ⟨s, hrun, hs⟩
  rw [decide_eq_true_eq] at hs
  refine ⟨c, worker, s, hc, hworker, run_plain ?_ hrun, hs.1, hs.2, by decide⟩
  intro label hmem
  exact Or.inl (List.eq_of_mem_replicate hmem)

section

variable {env : Build → Prop}

/-- The number of the inserts is right in every interleaving, none of which is blocked by a worker that panics. -/
theorem insert_count_iff (hcreate : create P readHistogram p = .ret c)
    (hload : p.getDoTransactions = false) (hbatch : p.getBatchSize = 1)
    (hretry : getInt64 p.insertionRetryLimit 0 = 0) (hwarm : 0 ≤ p.getWarmUpTime) (hthreads : 0 < threads)
    (hnew : ∀ i : Fin threads, newWorker p i threads = .ret (worker i)) (henv : ∃ build, env build)
    : (Unblocked P env c worker (new p c)
          ∧
        ∀ labels s, Run (step P c worker) (Allowed env) (new p c) labels s → s.Ended →
          s.calls.length = p.totalOpCount)
        ↔
      p.getWarmUpTime = 0
        ∧
      ∀ keyNum ∈ loadKeys p, Load.BuildsKey P env c keyNum := by
  have hloading : Loading P readHistogram p c 1 threads worker :=
    ⟨hcreate, hload, hbatch, Nat.one_pos, hretry, hthreads, hnew⟩
  have hdvd : ∀ i, ((1 : Nat) : Int) ∣ (worker i).opCount := fun i => Int.one_dvd _
  have hpos := hloading.totalOpCount_pos
  have hlength : ∀ {extra} {s : Client (Fin threads)}, Accounts 1 worker p.getInsertStart extra s → s.Ended →
      s.calls.length = p.totalOpCount.toNat + extra := by
    intro extra s h hended
    rw [h.length_calls, (h.perm hdvd hloading.sum_opCount hended).length_eq, List.length_map, List.length_range]
  constructor
  . intro h
    have hzero : p.getWarmUpTime = 0 := by
      by_contra hne
      have hflag : (new p c : Client (Fin threads)).warmUp = true := by
        unfold new
        rw [decide_eq_true_eq]
        omega
      rcases exists_uncounted hloading.accounts (busy_new hloading.loads) hflag rfl Nat.one_pos hloading.loads
        hloading.insertionRetryLimit h.1 henv ⟨0, hthreads⟩ with ⟨labels, s, hrun, haccounts, hwarm⟩
      rcases exists_ended haccounts hwarm Nat.one_pos hloading.loads hdvd hloading.insertionRetryLimit (h.1.run hrun)
        henv with ⟨labels', t, hrun', haccounts', hended⟩
      have hcalls := h.2 _ t (hrun.trans hrun') hended
      rw [hlength haccounts' hended] at hcalls
      push_cast at hcalls
      omega
    exact ⟨hzero, hloading.buildsKey_of_unblocked hzero henv h.1⟩
  . intro h
    have hexact := hloading.loadsExactly h.1 hdvd h.2
    refine ⟨hexact.2.1, ?_⟩
    intro labels s hrun hended
    have hflag := warmUp_new (Fin threads) c h.1
    have hkeys : ∀ keyNum ∈ (List.range (p.totalOpCount.toNat + 0)).map (fun i : Nat => I64.add p.getInsertStart i),
        Load.BuildsKey P env c keyNum := h.2
    have haccounts := (hloading.accounts.run Nat.one_pos hloading.loads hdvd hloading.insertionRetryLimit
      hloading.sum_opCount hkeys hflag hrun).1
    rw [hlength haccounts hended, Nat.add_zero]
    exact Int.toNat_of_nonneg (by omega)

end

def singleInserts : Properties := loadProperties ⟨3, by decide⟩ ⟨1, I64.inRange_one⟩ ⟨0, by decide⟩

def warmedUp : Properties := loadProperties ⟨1, I64.inRange_one⟩ ⟨1, I64.inRange_one⟩ ⟨1, I64.inRange_one⟩

theorem insert_count_two_threads
    : ∃ (c : Core) (worker : Fin 2 → Worker),
        create .exactAmd64 (fun _ => .running) singleInserts = .ret c
          ∧
        (∀ i : Fin 2, newWorker singleInserts i 2 = .ret (worker i))
          ∧
        ∀ labels s, Run (step .exactAmd64 c worker) (Allowed (Build.Valid 100)) (new singleInserts c) labels s →
          s.Ended → (s.calls.length : Int) = 3 := by
  rcases exists_create .exactAmd64 (fun _ => .running) (p := singleInserts) (by decide) rfl
    (by decide) rfl rfl with ⟨c, hc⟩
  have htotal : ((2 : Nat) : Int) ≤ singleInserts.totalOpCount := by decide
  have hnew := fun i : Fin 2 => newWorker_eq i.isLt htotal
  have hbuilds := buildsKey_default hc rfl rfl rfl rfl
  have hcount := (insert_count_iff hc rfl rfl rfl (by decide) Nat.two_pos hnew ⟨_, Load.valid_emptyPool 100⟩).mpr
    ⟨rfl, fun keyNum _ => hbuilds keyNum⟩
  exact ⟨c, _, hc, hnew, hcount.2⟩

theorem warm_up_adds_insert
    : ∃ (c : Core) (worker : Worker) (s : Client (Fin 1)),
        create .exactAmd64 (fun _ => .running) warmedUp = .ret c
          ∧
        newWorker warmedUp 0 1 = .ret worker
          ∧
        Run (step .exactAmd64 c (fun _ => worker)) (Allowed (Build.Valid 100)) (new warmedUp c)
          (List.replicate 5 (.step 0 plainAnswer) ++ .finishWarmUp :: List.replicate 8 (.step 0 plainAnswer)) s
          ∧
        s.Ended
          ∧
        s.calls = [[0], [1]] := by
  have hcreate : (create .exactAmd64 (fun _ => .running) warmedUp).toOption.any (fun c =>
      (newWorker warmedUp 0 1).toOption.any (fun worker =>
        (Run.exec (step .exactAmd64 c (fun _ => worker)) (fun _ _ => True) (new warmedUp c : Client (Fin 1))
          (List.replicate 5 (Label.step 0 plainAnswer)
            ++ Label.finishWarmUp :: List.replicate 8 (Label.step 0 plainAnswer))).any
          (fun s => decide (s.Ended ∧ s.calls = [[0], [1]])))) := by
    decide +kernel
  rcases Outcome.exists_of_any _ hcreate with ⟨c, hc, hnew⟩
  rcases Outcome.exists_of_any _ hnew with ⟨worker, hworker, hexec⟩
  rcases Run.exists_of_exec _ hexec with ⟨s, hrun, hs⟩
  rw [decide_eq_true_eq] at hs
  refine ⟨c, worker, s, hc, hworker, run_plain ?_ hrun, hs.1, hs.2⟩
  intro label hmem
  simp only [List.mem_append, List.mem_cons, List.mem_replicate] at hmem
  rcases hmem with hmem | hmem | hmem
  . exact Or.inl hmem.2
  . exact Or.inr hmem
  . exact Or.inl hmem.2

end

end Client
