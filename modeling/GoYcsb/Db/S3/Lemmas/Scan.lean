import GoYcsb.Db.S3.Impl.Db

/-!
This module contains the verification of the paging loop of `Scan` from `GoYcsb.Db.S3.Impl.Db`, whatever the sizes of
the pages are.
-/

namespace S3

open KeyRange (keysWhere)

def tablePre (table : Bytes) : Bytes := if table ≠ [] then table ++ [47] else []

theorem composeObjectKey_eq (table key : Bytes) : composeObjectKey table key = tablePre table ++ key := by
  unfold composeObjectKey tablePre
  split
  . next hnil => simp [hnil]
  . rfl

def tableKeys (bucket : GoMap Bytes Bytes) (table : Bytes) : List Bytes :=
  (bucket.keys.filter (fun key => tablePre table <+: key)).map (fun key => key.drop (tablePre table).length)

theorem mem_tableKeys {bucket : GoMap Bytes Bytes} {table key : Bytes}
    : key ∈ tableKeys bucket table ↔ composeObjectKey table key ∈ bucket := by
  rw [composeObjectKey_eq, AList.mem_keys]
  unfold tableKeys
  rw [List.mem_map]
  constructor
  . rintro ⟨objectKey, hmem, rfl⟩
    rw [List.mem_filter, decide_eq_true_eq] at hmem
    rcases hmem.2 with ⟨rest, rfl⟩
    rw [List.drop_left]
    exact hmem.1
  . intro hmem
    refine ⟨tablePre table ++ key, ?_, List.drop_left⟩
    rw [List.mem_filter, decide_eq_true_eq]
    exact ⟨hmem, List.prefix_append _ _⟩

theorem nodup_tableKeys (bucket : GoMap Bytes Bytes) (table : Bytes) : (tableKeys bucket table).Nodup := by
  unfold tableKeys
  apply List.Nodup.map_on
  . intro x hx y hy heq
    rw [List.mem_filter, decide_eq_true_eq] at hx hy
    rcases hx.2 with ⟨x', rfl⟩
    rcases hy.2 with ⟨y', rfl⟩
    rw [List.drop_left, List.drop_left] at heq
    rw [heq]
  . exact bucket.keys_nodup.filter _

def keysAfter (bucket : GoMap Bytes Bytes) (table startKey : Bytes) : List Bytes :=
  keysWhere (fun key => startKey < key) (tableKeys bucket table)

section

variable {bucket : GoMap Bytes Bytes} {table : Bytes}

theorem mem_keysAfter {startKey key : Bytes}
    : key ∈ keysAfter bucket table startKey ↔ key ∈ tableKeys bucket table ∧ startKey < key := by
  rw [keysAfter, KeyRange.mem_keysWhere, decide_eq_true_eq]

variable (bucket table) in
theorem length_keysAfter_le (startKey : Bytes) : (keysAfter bucket table startKey).length ≤ bucket.keys.length := by
  unfold keysAfter tableKeys
  rw [(KeyRange.perm_keysWhere _ _).length_eq]
  calc ((bucket.keys.filter _).map _ |>.filter _).length
      ≤ ((bucket.keys.filter _).map _).length := List.length_filter_le _ _
    _ = (bucket.keys.filter _).length := List.length_map _
    _ ≤ bucket.keys.length := List.length_filter_le _ _

theorem append_lt_append_iff {p x y : Bytes} : p ++ x < p ++ y ↔ x < y := by
  rw [← Std.not_le, ← Std.not_le, KeyRange.append_le_append_iff]

theorem objectsAfter_eq (position : Bytes)
    : keysWhere (fun key => decide (tablePre table <+: key) && tablePre table ++ position < key) bucket.keys
        =
      (keysAfter bucket table position).map (fun key => tablePre table ++ key) := by
  apply KeyRange.keysWhere_eq_map (KeyRange.append_le_append_iff _) (nodup_tableKeys bucket table) bucket.keys_nodup
  intro objectKey
  rw [Bool.and_eq_true, decide_eq_true_eq, decide_eq_true_eq]
  simp only [mem_tableKeys, composeObjectKey_eq, decide_eq_true_eq]
  constructor
  . rintro ⟨key, ⟨hmem, hlt⟩, rfl⟩
    exact ⟨hmem, List.prefix_append _ _, append_lt_append_iff.mpr hlt⟩
  . rintro ⟨hmem, ⟨key, rfl⟩, hlt⟩
    exact ⟨key, ⟨hmem, append_lt_append_iff.mp hlt⟩, rfl⟩

theorem ne_nil_of_mem_keysAfter {position key : Bytes} (h : key ∈ keysAfter bucket table position) : key ≠ [] := by
  rintro rfl
  exact absurd (mem_keysAfter.mp h).2 (List.not_lt_nil position)

theorem exists_next_page {position : Bytes} {n : Nat} (hpos : 1 ≤ n)
    (hlt : n < (keysAfter bucket table position).length)
    : ∃ last,
        ((keysAfter bucket table position).take n).getLast? = some last
          ∧
        position < last
          ∧
        keysAfter bucket table last = (keysAfter bucket table position).drop n := by
  have hnil : (keysAfter bucket table position).take n ≠ [] := by
    rw [← List.length_pos_iff, List.length_take]
    omega
  rcases List.getLast?_isSome.mpr hnil |> Option.isSome_iff_exists.mp with ⟨last, hlast⟩
  rcases List.getLast?_eq_some_iff.mp hlast with ⟨init, hinit⟩
  have hsplit : keysAfter bucket table position = init ++ last :: (keysAfter bucket table position).drop n :=
    calc keysAfter bucket table position
        = (keysAfter bucket table position).take n ++ (keysAfter bucket table position).drop n :=
          (List.take_append_drop n _).symm
      _ = init ++ last :: (keysAfter bucket table position).drop n := by simp [hinit]
  have hmem : last ∈ keysAfter bucket table position := by
    rw [hsplit]
    simp
  have hafter : position < last := (mem_keysAfter.mp hmem).2
  refine ⟨last, hlast, hafter, ?_⟩
  rw [← KeyRange.keysWhere_after (nodup_tableKeys bucket table) hsplit]
  apply KeyRange.keysWhere_congr
  intro key _
  rw [← Bool.decide_and, decide_eq_decide, iff_and_self]
  intro hkey
  exact Std.lt_trans hafter hkey

end

namespace DB

variable (db : DB) (service : Service)

def recordAt (bucket : GoMap Bytes Bytes) (table key : Bytes) (fields : List Bytes) : Except Bytes (Option FieldMap) :=
  match service.objectAt bucket (composeObjectKey table key) with
  | .error err => .error err
  | .ok payload => db.decodeBody payload fields

theorem exec_read (table key : Bytes) (fields : List Bytes) (s : State)
    : (db.read table key fields).exec service.handle s
        =
      (.ret (db.recordAt service s.bucket table key fields), s) := by
  unfold read recordAt getObject
  rw [Rpc.send_bind, Rpc.exec_call]
  dsimp only [Service.handle]
  cases service.objectAt s.bucket (composeObjectKey table key) with
  | error err => rfl
  | ok payload => rfl

def entryAt (bucket : GoMap Bytes Bytes) (table : Bytes) (fields : List Bytes) (key : Bytes) : Option Entry :=
  if db.scanKeysOnly then
    some ⟨key, some (keyRecord key)⟩
  else
    (db.recordAt service bucket table key fields).toOption.map (Entry.mk key)

def startEntries (bucket : GoMap Bytes Bytes) (table startKey : Bytes) (fields : List Bytes) : List Entry :=
  if startKey ≠ [] then
    if db.scanKeysOnly then
      [⟨startKey, some (keyRecord startKey)⟩]
    else
      match db.recordAt service bucket table startKey fields with
      | .ok (some record) => [⟨startKey, some record⟩]
      | .ok none => []
      | .error _ => []
  else
    []

theorem exec_startRecord (table startKey : Bytes) (fields : List Bytes) (s : State)
    : (db.startRecord table startKey fields).exec service.handle s
        =
      (.ret (db.startEntries service s.bucket table startKey fields), s) := by
  unfold startRecord startEntries
  split
  . split
    . rfl
    . rw [Rpc.exec_bind_ret (db.exec_read service table startKey fields s)]
      cases db.recordAt service s.bucket table startKey fields with
      | error err => rfl
      | ok record =>
        cases record with
        | none => rfl
        | some record => rfl
  . rfl

theorem recordKey_append {pre key : Bytes} (hkey : key ≠ []) : recordKey pre (pre ++ key) = key := by
  unfold recordKey
  by_cases hpre : pre = []
  . simp [hpre]
  . have hlength := List.length_pos_iff.mpr hkey
    rw [if_pos]
    . exact List.drop_left
    . refine ⟨hpre, ?_, List.take_left⟩
      rw [List.length_append]
      omega

variable {db service}

theorem exec_addRecords {table pre startAfter : Bytes} {fields keys : List Bytes}
    (hkeys : ∀ key ∈ keys, key ≠ [] ∧ pre ++ key ≠ startAfter) (results : List Entry) (remaining : Nat) (s : State)
    : (db.addRecords table pre startAfter fields (keys.map (fun key => pre ++ key)) results remaining).exec
          service.handle s
        =
      (.ret
        (results ++ (keys.filterMap (db.entryAt service s.bucket table fields)).take remaining,
          ((remaining - (keys.filterMap (db.entryAt service s.bucket table fields)).length : Nat) : Int)),
        s) := by
  induction keys generalizing results remaining with
  | nil => simp [addRecords]
  | cons key keys ih =>
    rw [List.forall_mem_cons] at hkeys
    rw [List.map_cons, addRecords]
    cases remaining with
    | zero => simp
    | succ remaining =>
      have hne : ¬ ((remaining + 1 : Nat) : Int) = 0 := by omega
      have hpred : ((remaining + 1 : Nat) : Int) - 1 = (remaining : Nat) := by omega
      rw [if_neg hne, if_neg hkeys.1.2, recordKey_append hkeys.1.1, hpred]
      by_cases hmode : db.scanKeysOnly = true
      . have hentry : db.entryAt service s.bucket table fields key = some ⟨key, some (keyRecord key)⟩ := by
          simp [entryAt, hmode]
        rw [if_pos hmode, ih hkeys.2, List.filterMap_cons_some hentry]
        simp
      . rw [if_neg hmode, Rpc.exec_bind_ret (db.exec_read service table key fields s)]
        cases hrecord : db.recordAt service s.bucket table key fields with
        | error err =>
          have hentry : db.entryAt service s.bucket table fields key = none := by
            simp [entryAt, hmode, hrecord, Except.toOption]
          rw [List.filterMap_cons_none hentry]
          exact ih hkeys.2 results (remaining + 1)
        | ok record =>
          have hentry : db.entryAt service s.bucket table fields key = some ⟨key, record⟩ := by
            simp [entryAt, hmode, hrecord, Except.toOption]
          rw [List.filterMap_cons_some hentry]
          apply (ih hkeys.2 _ remaining).trans
          simp

theorem toInt32_of_lt {n : Nat} (h : n < 2 ^ 31) : toInt32 n = n := by
  unfold toInt32
  omega

def askedFor (remaining : Nat) : Nat := min remaining 1000

theorem maxKeys_eq {remaining : Nat} (h : remaining < 2 ^ 31)
    : (if 1000 < toInt32 remaining then 1000 else toInt32 remaining) = (askedFor remaining : Int) := by
  rw [toInt32_of_lt h]
  unfold askedFor
  split <;> omega

theorem page_eq {bucket : GoMap Bytes Bytes} {table position startAfter : Bytes} {contToken : Option Bytes}
    (hposition : contToken.getD startAfter = composeObjectKey table position) (maxKeys size : Nat)
    : Service.page bucket ⟨tablePre table, startAfter, contToken, maxKeys⟩ size
        =
      let keys := keysAfter bucket table position
      let n := min (max 1 size) maxKeys
      {
        contents := (keys.take n).map (fun key => tablePre table ++ key)
        isTruncated := n < keys.length
        nextContinuationToken :=
          if n < keys.length then (keys.take n).getLast?.map (fun key => tablePre table ++ key) else none
      } := by
  have hlisted : Service.listed bucket ⟨tablePre table, startAfter, contToken, maxKeys⟩
      = (keysAfter bucket table position).map (fun key => tablePre table ++ key) := by
    rw [← objectsAfter_eq, Service.listed, hposition, composeObjectKey_eq]
  unfold Service.page
  rw [hlisted, Int.toNat_natCast]
  generalize min (max 1 size) maxKeys = n
  have htruncated : (((keysAfter bucket table position).take n).map (fun key => tablePre table ++ key)).length
        < ((keysAfter bucket table position).map (fun key => tablePre table ++ key)).length
      ↔ n < (keysAfter bucket table position).length := by
    rw [List.length_map, List.length_map, List.length_take]
    omega
  dsimp only
  simp only [← List.map_take, List.getLast?_map, htruncated]

-- A key that comes after the start key is not the one that `Scan` has already asked for.
theorem listable_of_mem {bucket : GoMap Bytes Bytes} {table startKey position key : Bytes}
    (hstart : startKey ≤ position) (h : key ∈ keysAfter bucket table position)
    : key ≠ [] ∧ tablePre table ++ key ≠ composeObjectKey table startKey := by
  refine ⟨ne_nil_of_mem_keysAfter h, ?_⟩
  rw [composeObjectKey_eq]
  intro heq
  have hlt := (mem_keysAfter.mp h).2
  rw [List.append_cancel_left heq, ← Std.not_le] at hlt
  exact hlt hstart

theorem take_filterMap_take {f : α → Option β} {l : List α} {n k : Nat}
    (h : l.length ≤ n ∨ k ≤ ((l.take n).filterMap f).length)
    : ((l.take n).filterMap f).take k = (l.filterMap f).take k := by
  cases h with
  | inl hle => rw [List.take_of_length_le hle]
  | inr hle =>
    rw [← List.take_append_drop n l, List.filterMap_append, List.take_append_drop]
    rw [List.take_append_of_le_length hle]

theorem take_filterMap_drop (f : α → Option β) (l : List α) (n k : Nat)
    : ((l.take n).filterMap f).take k ++ ((l.drop n).filterMap f).take (k - ((l.take n).filterMap f).length)
        =
      (l.filterMap f).take k := by
  calc ((l.take n).filterMap f).take k ++ ((l.drop n).filterMap f).take (k - ((l.take n).filterMap f).length)
      = ((l.take n).filterMap f ++ (l.drop n).filterMap f).take k := by rw [List.take_append]
    _ = (l.filterMap f).take k := by rw [← List.filterMap_append, List.take_append_drop]

variable (db service) in
theorem exec_scanLoop {table startKey : Bytes} (fields : List Bytes) {fuel : Nat} {position : Bytes}
    {contToken : Option Bytes} {s : State}
    (hposition : contToken.getD (composeObjectKey table startKey) = composeObjectKey table position)
    (hstart : startKey ≤ position) (hfuel : (keysAfter s.bucket table position).length < fuel) (results : List Entry)
    {remaining : Nat} (hremaining : remaining < 2 ^ 31)
    : ∃ t,
        (db.scanLoop table (tablePre table) (composeObjectKey table startKey) fields fuel contToken results
            remaining).exec service.handle s
          =
        (.ret (.ok (results ++
          ((keysAfter s.bucket table position).filterMap (db.entryAt service s.bucket table fields)).take remaining)),
          t) := by
  -- Every turn takes at least one of the keys that are left, which are those after `position`.
  induction fuel generalizing position contToken s results remaining with
  | zero => omega
  | succ fuel ih =>
    unfold scanLoop
    by_cases hzero : remaining = 0
    . exact ⟨s, by simp [hzero]⟩
    . have hpos : (0 : Int) < remaining := by omega
      rw [if_pos hpos]
      dsimp only
      rw [maxKeys_eq hremaining, listObjectsV2, Rpc.send_bind, Rpc.exec_call]
      dsimp only [Service.handle]
      rw [page_eq hposition]
      dsimp only
      generalize hn : min (max 1 (service.pageSize s.listings)) (askedFor remaining) = n
      have hone : 1 ≤ n := by
        unfold askedFor at hn
        omega
      generalize hkeys : keysAfter s.bucket table position = keys at hfuel ⊢
      split
      . next hempty =>
        rw [List.length_map, List.length_take] at hempty
        have hnil : keys = [] := List.length_eq_zero_iff.mp (by omega)
        exact ⟨_, by rw [hnil]; simp; rfl⟩
      . next hpage =>
        have hlistable : ∀ key ∈ keys.take n,
            key ≠ [] ∧ tablePre table ++ key ≠ composeObjectKey table startKey := by
          intro key hkey
          apply listable_of_mem hstart
          rw [hkeys]
          exact List.mem_of_mem_take hkey
        rw [Rpc.exec_bind_ret (exec_addRecords hlistable results remaining _)]
        dsimp only
        split
        . next hstop =>
          -- Either the page has all keys that are left, or it has enough records.
          refine ⟨{ s with listings := s.listings + 1 }, ?_⟩
          rw [take_filterMap_take]
          . rfl
          . simp only [decide_eq_true_eq] at hstop
            omega
        . next hgo =>
          simp only [decide_eq_true_eq, not_or, not_not] at hgo
          rw [← hkeys] at hgo
          rcases exists_next_page hone hgo.1 with ⟨last, hlast, hafter, hrest⟩
          rw [hkeys] at hlast hrest hgo
          rw [if_pos hgo.1, hlast, Option.map_some, ← composeObjectKey_eq]
          have hlength : (keysAfter s.bucket table last).length < fuel := by
            rw [hrest, List.length_drop]
            omega
          have htoken : (some (composeObjectKey table last)).getD (composeObjectKey table startKey)
              = composeObjectKey table last := rfl
          have hbound : remaining - ((keys.take n).filterMap (db.entryAt service s.bucket table fields)).length
              < 2 ^ 31 := by omega
          rcases ih (s := { s with listings := s.listings + 1 }) htoken (Std.le_trans hstart (Std.le_of_lt hafter))
            hlength (results ++ ((keys.take n).filterMap (db.entryAt service s.bucket table fields)).take remaining)
            hbound with ⟨t, hexec⟩
          refine ⟨t, hexec.trans ?_⟩
          dsimp only
          rw [hrest, List.append_assoc, take_filterMap_drop]

variable (db service) in
theorem exec_scanEntries {table startKey : Bytes} (fields : List Bytes) {fuel : Nat} {s : State} {count : Int}
    (hcount : 1 ≤ count) (hlt : count < 2 ^ 31) (hfuel : (keysAfter s.bucket table startKey).length < fuel)
    : ∃ t,
        (db.scanEntries fuel table startKey count fields).exec service.handle s
          =
        (.ret (.ok ((db.startEntries service s.bucket table startKey fields
          ++ (keysAfter s.bucket table startKey).filterMap (db.entryAt service s.bucket table fields)).take
            count.toNat)), t) := by
  unfold scanEntries
  rw [if_neg (by omega), Rpc.exec_bind_ret (db.exec_startRecord service table startKey fields s)]
  generalize hstart : db.startEntries service s.bucket table startKey fields = start
  have hlength : start.length ≤ 1 := by
    rw [← hstart]
    unfold startEntries
    split
    . split
      . simp
      . split <;> simp
    . simp
  split
  . next hle =>
    have heq : count.toNat = start.length := by omega
    refine ⟨s, ?_⟩
    rw [heq, List.take_left]
    rfl
  . next hmore =>
    have hremaining : count - start.length = ((count.toNat - start.length : Nat) : Int) := by omega
    have hpre : (if table ≠ [] then table ++ [47] else []) = tablePre table := rfl
    dsimp only
    rw [hremaining, hpre]
    have htoken : (none : Option Bytes).getD (composeObjectKey table startKey) = composeObjectKey table startKey := rfl
    have hbound : count.toNat - start.length < 2 ^ 31 := by omega
    rcases db.exec_scanLoop service fields htoken (Std.le_refl startKey) hfuel start hbound with ⟨t, hexec⟩
    refine ⟨t, hexec.trans ?_⟩
    have htake : start.take count.toNat = start := List.take_of_length_le (by omega)
    rw [List.take_append, htake]

theorem exec_scan {table startKey : Bytes} {fields : List Bytes} {fuel : Nat} {s t : State} {count : Int}
    {entries : List Entry}
    (h : (db.scanEntries fuel table startKey count fields).exec service.handle s = (.ret (.ok entries), t))
    : (db.scan fuel table startKey count fields).exec service.handle s
        =
      (.ret (.ok (entries.map Entry.record)), t) := by
  unfold scan
  rw [Rpc.exec_bind_ret h]
  rfl

end DB

end S3
