import GoYcsb.Db.Tikv.Impl.Table

/-!
This module contains the verification of the loops of `Count` and `Clean`, which go through the keys of a
range page by page.
-/

namespace Tikv

open KeyRange (keysIn)

section

variable {store : KV} {start stop : Bytes}

theorem fst_entriesIn (store : KV) (start stop : Bytes)
    : (entriesIn store start stop).map Prod.fst = keysIn store.keys start stop := by
  simp [entriesIn, Function.comp_def]

theorem first_after (last k : Bytes) : last ++ [0] ≤ k ↔ last < k :=
  KeyRange.append_le_iff (fun _ => UInt8.zero_le) last k

theorem keysIn_resume {limit : Nat} {last : Bytes}
    (hlast : ((keysIn store.keys start stop).take limit).getLast? = some last)
    : keysIn store.keys (last ++ [0]) stop = (keysIn store.keys start stop).drop limit :=
  KeyRange.keysIn_next_page store.keys_nodup (first_after last) hlast

end

theorem keysIn_eraseAll_resume {store : KV} {start stop : Bytes} {limit : Nat} {last : Bytes}
    (hlast : ((keysIn store.keys start stop).take limit).getLast? = some last)
    : keysIn (store.eraseAll ((keysIn store.keys start stop).take limit)).keys (last ++ [0]) stop
        =
      (keysIn store.keys start stop).drop limit := by
  have hnodup := KeyRange.nodup_keysIn store.keys_nodup start stop
  rw [← List.take_append_drop limit (keysIn store.keys start stop), List.nodup_append] at hnodup
  rw [← keysIn_resume hlast]
  apply KeyRange.keysIn_eq (AList.keys_nodup _)
  . apply KeyRange.pairwise_keysIn
  . exact KeyRange.nodup_keysIn store.keys_nodup _ _
  . intro k
    rw [GoMap.mem_keys_eraseAll, and_assoc, and_comm (a := k ∉ _), ← and_assoc, ← KeyRange.mem_keysIn]
    rw [iff_self_and, keysIn_resume hlast]
    intro hdrop htake
    exact hnodup.2.2 k htake k hdrop rfl

theorem length_keysIn_le (store : KV) (start stop : Bytes)
    : (keysIn store.keys start stop).length ≤ store.keys.length := by
  rw [(KeyRange.perm_keysIn _ _ _).length_eq]
  apply List.length_filter_le

theorem eq_nil_of_getLast?_take {l : List α} {limit : Nat} (hpos : 0 < limit)
    (h : (l.take limit).getLast? = none)
    : l = [] := by
  rw [List.getLast?_eq_none_iff, List.take_eq_nil_iff] at h
  cases h with
  | inl hzero => omega
  | inr hnil => exact hnil

theorem take_of_length_take_lt {l : List α} {limit : Nat} (h : (l.take limit).length < limit)
    : l.take limit = l := by
  rw [List.length_take] at h
  apply List.take_of_length_le
  omega

theorem length_take_of_not_lt {l : List α} {limit : Nat} (h : ¬ (l.take limit).length < limit)
    : (l.take limit).length = limit ∧ limit ≤ l.length := by
  rw [List.length_take] at h ⊢
  omega

namespace RawDB

theorem exec_scan (store : KV) (start stop : Bytes) (limit : Nat)
    (cont : Except String (List Bytes × List Bytes) → RawRange α)
    : ∃ values,
        (Rawkv.scan start stop limit >>= cont).exec RawRangeRequest.handle store
          =
        (cont (.ok ((keysIn store.keys start stop).take limit, values))).exec RawRangeRequest.handle store := by
  apply Exists.intro (((entriesIn store start stop).take limit).map Prod.snd)
  rw [← fst_entriesIn, ← List.map_take]
  rfl

theorem exec_countLoop {batchSize : Nat} (hpos : 0 < batchSize) (store : KV) (stop : Bytes) {fuel : Nat}
    {start : Bytes} (hfuel : (keysIn store.keys start stop).length < fuel) (count : Nat)
    : (countLoop batchSize stop fuel start count).exec RawRangeRequest.handle store
        =
      (.ret (.ok (count + (keysIn store.keys start stop).length)), store) := by
  induction fuel generalizing start count with
  | zero => omega
  | succ fuel ih =>
    unfold countLoop
    rcases exec_scan store start stop batchSize _ with ⟨values, hscan⟩
    rw [hscan]
    dsimp only
    cases hlast : ((keysIn store.keys start stop).take batchSize).getLast? with
    | none =>
      rw [eq_nil_of_getLast?_take hpos hlast]
      rfl
    | some last =>
      dsimp only
      split
      . next hlt =>
        rw [take_of_length_take_lt hlt]
        rfl
      . next hge =>
        have hfull := length_take_of_not_lt hge
        have hrest := keysIn_resume hlast
        rw [hfull.1, ih (by rw [hrest, List.length_drop]; omega), hrest, List.length_drop]
        congr 3
        omega

theorem exec_count {batchSize : Nat} (hpos : 0 < batchSize) {store : KV} {fuel : Nat}
    (hfuel : store.keys.length < fuel) (table : Bytes)
    : (count batchSize fuel table).exec RawRangeRequest.handle store
        =
      (.ret (.ok (keysIn store.keys (getRowKey table []) (endKey table)).length), store) := by
  unfold count
  rw [exec_countLoop hpos, Nat.zero_add]
  exact Nat.lt_of_le_of_lt (length_keysIn_le _ _ _) hfuel

theorem exec_clean (store : KV) (table : Bytes)
    : (clean table).exec RawRangeRequest.handle store
        =
      (.ret (.ok ()), store.eraseAll (keysIn store.keys (getRowKey table []) (endKey table))) := rfl

end RawDB

namespace TxnDB

theorem exec_countBatch (store : KV) {batchSize : Nat} (entries : List (Bytes × Bytes)) {batchCount : Nat}
    (hle : batchCount ≤ batchSize) (count : Nat) (startKey : Bytes)
    : let page := (entries.map Prod.fst).take (batchSize - batchCount)
      (countBatch batchSize entries batchCount count startKey).exec TxnRangeRequest.handle store
        =
      (.ret (.ok (batchCount + page.length, count + page.length,
        (page.getLast?.map (· ++ [0])).getD startKey)), store) := by
  induction entries generalizing batchCount count startKey with
  | nil =>
    simp [countBatch]
  | cons entry entries ih =>
    rcases entry with ⟨key, value⟩
    unfold countBatch
    dsimp only
    split
    . next hlt =>
      have hstep : batchSize - batchCount = batchSize - (batchCount + 1) + 1 := by omega
      have hrest := ih (show batchCount + 1 ≤ batchSize by omega) (count + 1) (key ++ [0])
      dsimp only at hrest
      rw [hstep, List.map_cons, List.take_succ_cons, List.length_cons, List.getLast?_cons]
      apply hrest.trans
      rw [Nat.add_right_comm batchCount, Nat.add_right_comm count, Nat.add_assoc, Nat.add_assoc]
      cases (List.take (batchSize - (batchCount + 1)) (entries.map Prod.fst)).getLast? with
      | none => rfl
      | some last => rfl
    . next hge =>
      have hzero : batchSize - batchCount = 0 := by omega
      simp [hzero]

theorem exec_countLoop {batchSize : Nat} (hpos : 0 < batchSize) (store snapshot : KV) (stop : Bytes)
    {fuel : Nat} {start : Bytes} (hfuel : (keysIn snapshot.keys start stop).length < fuel) (count : Nat)
    : (countLoop batchSize snapshot stop fuel start count).exec TxnRangeRequest.handle store
        =
      (.ret (.ok (count + (keysIn snapshot.keys start stop).length)), store) := by
  induction fuel generalizing start count with
  | zero => omega
  | succ fuel ih =>
    have hbatch := exec_countBatch store (entriesIn snapshot start stop) (Nat.zero_le batchSize) count start
    rw [fst_entriesIn, Nat.sub_zero] at hbatch
    unfold countLoop iter
    rw [Rpc.send_bind, Rpc.exec_call]
    dsimp only [TxnRangeRequest.handle]
    rw [Rpc.exec_bind_ret hbatch]
    dsimp only
    rw [Nat.zero_add]
    split
    . next hlt =>
      rw [take_of_length_take_lt hlt]
      rfl
    . next hge =>
      have hfull := length_take_of_not_lt hge
      cases hlast : ((keysIn snapshot.keys start stop).take batchSize).getLast? with
      | none =>
        rw [eq_nil_of_getLast?_take hpos hlast] at hfull
        simp at hfull
        omega
      | some last =>
        have hrest := keysIn_resume hlast
        rw [Option.map_some, Option.getD_some, hfull.1]
        rw [ih (by rw [hrest, List.length_drop]; omega), hrest, List.length_drop]
        congr 3
        omega

theorem exec_count {batchSize : Nat} (hpos : 0 < batchSize) {store : KV} {fuel : Nat}
    (hfuel : store.keys.length < fuel) (table : Bytes)
    : (count batchSize fuel table).exec TxnRangeRequest.handle store
        =
      (.ret (.ok (keysIn store.keys (getRowKey table []) (endKey table)).length), store) := by
  unfold count begin
  rw [Rpc.send_bind, Rpc.exec_call]
  dsimp only [TxnRangeRequest.handle]
  rw [exec_countLoop hpos, Nat.zero_add]
  exact Nat.lt_of_le_of_lt (length_keysIn_le _ _ _) hfuel

theorem exec_collectKeys (store : KV) {batchSize : Nat} (entries : List (Bytes × Bytes))
    {keysToDelete : List Bytes} (hle : keysToDelete.length ≤ batchSize)
    : (collectKeys batchSize entries keysToDelete).exec TxnRangeRequest.handle store
        =
      (.ret (.ok (keysToDelete ++ (entries.map Prod.fst).take (batchSize - keysToDelete.length))), store) := by
  induction entries generalizing keysToDelete with
  | nil =>
    simp [collectKeys]
  | cons entry entries ih =>
    rcases entry with ⟨key, value⟩
    unfold collectKeys
    split
    . next hlt =>
      have hlen : (keysToDelete ++ [key]).length = keysToDelete.length + 1 := List.length_append
      have hstep : batchSize - keysToDelete.length = batchSize - (keysToDelete ++ [key]).length + 1 := by
        omega
      rw [hstep, List.map_cons, List.take_succ_cons]
      apply (ih (by omega)).trans
      rw [List.append_assoc, List.singleton_append]
    . next hge =>
      have hzero : batchSize - keysToDelete.length = 0 := by omega
      simp [hzero]

theorem exec_deleteKeys (store : KV) (keys : List Bytes)
    : (deleteKeys keys).exec TxnRangeRequest.handle store = (.ret (.ok ()), store) := by
  induction keys with
  | nil => rfl
  | cons key keys ih => exact ih

theorem exec_cleanLoop_succ (store : KV) (batchSize : Nat) (stop : Bytes) (fuel : Nat) (start : Bytes)
    : (cleanLoop batchSize stop (fuel + 1) start).exec TxnRangeRequest.handle store
        =
      let page := (keysIn store.keys start stop).take batchSize
      match page.getLast? with
      | none => (.ret (.ok ()), store)
      | some last =>
        if page.length < batchSize then
          (.ret (.ok ()), store.eraseAll page)
        else
          (cleanLoop batchSize stop fuel (last ++ [0])).exec TxnRangeRequest.handle (store.eraseAll page) := by
  have hnil : ([] : List Bytes).length ≤ batchSize := Nat.zero_le batchSize
  have hcollect := exec_collectKeys store (entriesIn store start stop) hnil
  rw [fst_entriesIn, List.length_nil, Nat.sub_zero, List.nil_append] at hcollect
  rw [cleanLoop]
  unfold begin iter
  rw [Rpc.send_bind, Rpc.exec_call]
  dsimp only [TxnRangeRequest.handle]
  rw [Rpc.send_bind, Rpc.exec_call]
  dsimp only [TxnRangeRequest.handle]
  rw [Rpc.exec_bind_ret hcollect]
  dsimp only
  cases ((keysIn store.keys start stop).take batchSize).getLast? with
  | none => rfl
  | some last =>
    dsimp only
    rw [Rpc.exec_bind_ret (exec_deleteKeys store _)]
    unfold commit
    dsimp only
    rw [Rpc.send_bind, Rpc.exec_call]
    dsimp only [TxnRangeRequest.handle]
    split
    . rfl
    . rfl

theorem exec_cleanLoop {batchSize : Nat} (hpos : 0 < batchSize) (stop : Bytes) {fuel : Nat} {store : KV}
    {start : Bytes} (hfuel : (keysIn store.keys start stop).length < fuel)
    : (cleanLoop batchSize stop fuel start).exec TxnRangeRequest.handle store
        =
      (.ret (.ok ()), store.eraseAll (keysIn store.keys start stop)) := by
  induction fuel generalizing store start with
  | zero => omega
  | succ fuel ih =>
    rw [exec_cleanLoop_succ]
    dsimp only
    cases hlast : ((keysIn store.keys start stop).take batchSize).getLast? with
    | none =>
      rw [eq_nil_of_getLast?_take hpos hlast]
      rfl
    | some last =>
      dsimp only
      split
      . next hlt => rw [take_of_length_take_lt hlt]
      . next hge =>
        have hfull := length_take_of_not_lt hge
        have hrest := keysIn_eraseAll_resume hlast
        rw [ih (by rw [hrest, List.length_drop]; omega), hrest, ← GoMap.eraseAll_append]
        rw [List.take_append_drop]

theorem exec_clean {batchSize : Nat} (hpos : 0 < batchSize) {store : KV} {fuel : Nat}
    (hfuel : store.keys.length < fuel) (table : Bytes)
    : (clean batchSize fuel table).exec TxnRangeRequest.handle store
        =
      (.ret (.ok ()), store.eraseAll (keysIn store.keys (getRowKey table []) (endKey table))) :=
  exec_cleanLoop hpos _ (Nat.lt_of_le_of_lt (length_keysIn_le _ _ _) hfuel)

end TxnDB

theorem lookup_eraseAll_keysIn (store : KV) (start stop key : Bytes)
    : (store.eraseAll (keysIn store.keys start stop)).lookup key
        =
      if KeyRange.InRange start stop key then none else store.lookup key := by
  rw [GoMap.lookup_eraseAll]
  by_cases hkey : key ∈ store
  . simp [KeyRange.mem_keysIn, ← AList.mem_keys, hkey]
  . simp [KeyRange.mem_keysIn, ← AList.mem_keys, hkey, AList.lookup_eq_none.mpr hkey]

theorem paging_exact (store : KV) (table : Bytes) {batchSize fuel : Nat} (hpos : 0 < batchSize)
    (hfuel : store.keys.length < fuel)
    : let matching := store.keys.filter (fun key => KeyRange.InRange (getRowKey table []) (endKey table) key)
      (RawDB.count batchSize fuel table).exec RawRangeRequest.handle store = (.ret (.ok matching.length), store)
        ∧
      (TxnDB.count batchSize fuel table).exec TxnRangeRequest.handle store = (.ret (.ok matching.length), store)
        ∧
      ∃ cleaned,
        (TxnDB.clean batchSize fuel table).exec TxnRangeRequest.handle store = (.ret (.ok ()), cleaned)
          ∧
        ∀ key, cleaned.lookup key = if key ∈ matching then none else store.lookup key := by
  have hlen := (KeyRange.perm_keysIn store.keys (getRowKey table []) (endKey table)).length_eq
  dsimp only
  rw [← hlen]
  refine ⟨RawDB.exec_count hpos hfuel table, TxnDB.exec_count hpos hfuel table, ?_⟩
  refine ⟨_, TxnDB.exec_clean hpos hfuel table, ?_⟩
  intro key
  rw [GoMap.lookup_eraseAll]
  simp only [(KeyRange.perm_keysIn store.keys (getRowKey table []) (endKey table)).mem_iff]

def pagingStore : KV := GoMap.insertAll ∅ [([116, 58, 97], [1]), ([117, 58, 97], [2]), ([116, 58, 98], [3])]

theorem paging_exact_two_pages
    : (RawDB.count 1 4 [116]).exec RawRangeRequest.handle pagingStore = (.ret (.ok 2), pagingStore)
        ∧
      (TxnDB.count 1 4 [116]).exec TxnRangeRequest.handle pagingStore = (.ret (.ok 2), pagingStore) := by
  have h := paging_exact pagingStore [116] (Nat.zero_lt_one) (show pagingStore.keys.length < 4 by decide)
  exact ⟨h.1, h.2.1⟩

end Tikv
