import GoYcsb.Db.Tikv.Lemmas.Paging
import GoYcsb.Db.Tikv.Lemmas.BatchUpdate
import Mathlib.Data.List.Dedup

/-!
This module contains when `Count` and `Clean` of a table see the records of that table and no others. A
table has no other trace in the store than the start of its row keys.
-/

namespace Tikv

open KeyRange (keysIn InRange)

-- One call of `Insert`, with the order in which it happens to go through the fields.
structure Record where
  table : Bytes
  key : Bytes
  values : FieldMap
  order : GoMap.Order Bytes Bytes

namespace Record

def rowKey (rec : Record) : Bytes := getRowKey rec.table rec.key

end Record

def RawDB.insertRecords (db : RawDB) (records : List Record) : Raw (Except String Unit) :=
  match records with
  | [] => return .ok ()
  | rec :: records => do
    match ← db.insert rec.order rec.table rec.key rec.values with
    | .error err => return .error err
    | .ok () => insertRecords db records

def TxnDB.insertRecords (db : TxnDB) (records : List Record) : TxnProg (Except String Unit) :=
  match records with
  | [] => return .ok ()
  | rec :: records => do
    match ← db.insert rec.order rec.table rec.key rec.values with
    | .error err => return .error err
    | .ok () => insertRecords db records

namespace Records

def keysOf (records : List Record) (table : Bytes) : List Bytes :=
  ((records.filter (fun rec => rec.table = table)).map Record.key).dedup

def lastOf (records : List Record) (table key : Bytes) : Option Record :=
  records.reverse.find? (fun rec => rec.table = table ∧ rec.key = key)

def lastAt (records : List Record) (rowKey : Bytes) : Option Record :=
  records.reverse.find? (fun rec => rec.rowKey = rowKey)

def SameFields (row : FieldMap) (rec : Record) : Prop := ∀ field, row.lookup field = rec.values.lookup field

/--
What `Count` and `Clean` of a table are for, where `counted` is what `Count` has returned and `found` what
is read after `Clean`.
-/
structure Isolated (records : List Record) (table : Bytes) (counted : Outcome (Except String Nat))
    (found : Bytes → Bytes → Outcome (Except String (Option FieldMap))) : Prop where
  count : counted = .ret (.ok (keysOf records table).length)
  removed : ∀ rec ∈ records, rec.table = table → found rec.table rec.key = .ret (.ok none)
  kept : ∀ rec ∈ records, rec.table ≠ table →
    ∃ row last,
      found rec.table rec.key = .ret (.ok (some row))
        ∧
      lastOf records rec.table rec.key = some last
        ∧
      SameFields row last

end Records

def RawDB.IsolatesTable (db : RawDB) (records : List Record) (table : Bytes) : Prop :=
  let store := ((db.insertRecords records).exec RawRequest.handle ∅).2
  let cleaned := ((RawDB.clean table).exec RawRangeRequest.handle store).2
  Records.Isolated records table
    ((RawDB.count 10000 (records.length + 1) table).exec RawRangeRequest.handle store).1
    (fun table key => Prod.fst <$> ((db.read none table key []).exec RawRequest.handle cleaned).1)

def TxnDB.IsolatesTable (db : TxnDB) (records : List Record) (table : Bytes) : Prop :=
  let store := ((db.insertRecords records).exec TxnRequest.handle ∅).2
  let cleaned := ((TxnDB.clean 10000 (records.length + 1) table).exec TxnRangeRequest.handle store).2
  Records.Isolated records table
    ((TxnDB.count 10000 (records.length + 1) table).exec TxnRangeRequest.handle store).1
    (fun table key => ((db.read table key []).exec TxnRequest.handle cleaned).1)

section

variable (r : Util.RowCodec)

namespace Record

-- `Encode` has as many columns as ids, so it does not fail.
def row (rec : Record) : Bytes :=
  match r.encode [] (rec.order.visit rec.values) with
  | .ok row => row
  | .error _ => []

theorem encode_eq (rec : Record) : r.encode [] (rec.order.visit rec.values) = .ok (rec.row r) := by
  unfold row
  cases hencode : r.encode [] (rec.order.visit rec.values) with
  | ok row => rfl
  | error err => simp [Util.RowCodec.encode, Util.encodeRow] at hencode; split at hencode <;> contradiction

theorem row_ne_nil (rec : Record) : rec.row r ≠ [] :=
  Util.encodeRow_ne_nil (rec.encode_eq r)

end Record

def written (records : List Record) : KV :=
  GoMap.insertAll ∅ (records.map (fun rec => (rec.rowKey, rec.row r)))

theorem lookup_written (records : List Record) (rowKey : Bytes)
    : (written r records).lookup rowKey = (Records.lastAt records rowKey).map (Record.row r) := by
  unfold written Records.lastAt
  rw [GoMap.lookup_insertAll, ← List.map_reverse, List.find?_map]
  simp [Function.comp_def]

theorem mem_written {records : List Record} {rowKey : Bytes}
    : rowKey ∈ (written r records).keys ↔ ∃ rec ∈ records, rec.rowKey = rowKey := by
  unfold written
  rw [← AList.mem_keys, GoMap.mem_insertAll, List.map_map]
  simp

theorem length_written_lt (records : List Record)
    : (written r records).keys.length < records.length + 1 := by
  have hle := GoMap.length_keys_insertAll_le ∅ (records.map (fun rec => (rec.rowKey, rec.row r)))
  rw [List.length_map, AList.keys_empty, List.length_nil, Nat.zero_add] at hle
  exact Nat.lt_succ_of_le hle

def readRow (row : Option Bytes) : Outcome (Except String (Option FieldMap)) :=
  match row with
  | none => .ret (.ok none)
  | some row => do
    match ← r.decode row [] with
    | .error err => return .error err
    | .ok values => return .ok (some values)

end

namespace RawDB

theorem exec_insertRecords (db : RawDB) (records : List Record) (store : KV)
    : (db.insertRecords records).exec RawRequest.handle store
        =
      (.ret (.ok ()), store.insertAll (records.map (fun rec => (rec.rowKey, rec.row db.r)))) := by
  induction records generalizing store with
  | nil => rfl
  | cons rec records ih =>
    unfold insertRecords RawDB.insert
    rw [rec.encode_eq]
    apply ih

theorem fst_exec_read (db : RawDB) (table key : Bytes) (store : KV)
    : Prod.fst <$> ((db.read none table key []).exec RawRequest.handle store).1
        =
      readRow db.r (store.lookup (getRowKey table key)) := by
  unfold RawDB.read
  rw [exec_get_bind]
  cases store.lookup (getRowKey table key) with
  | none => rfl
  | some row =>
    dsimp only [readRow]
    cases db.r.decode row [] with
    | ret res => cases res <;> simp <;> rfl
    | panic msg => rfl
    | exit msg => rfl
    | running => rfl

end RawDB

namespace TxnDB

theorem exec_insert (db : TxnDB) (rec : Record) (store : KV)
    : (db.insert rec.order rec.table rec.key rec.values).exec TxnRequest.handle store
        =
      (.ret (.ok ()), store.insert rec.rowKey (rec.row db.r)) := by
  unfold TxnDB.insert beginTxn
  rw [rec.encode_eq]
  simp only [Rpc.send_bind, Rpc.call_bind, Rpc.exec_call]
  rw [TxnRequest.handle]
  dsimp only
  rw [Rpc.pure_eq, Rpc.ret_bind]
  dsimp only
  rw [set_of_ne_nil (rec.row_ne_nil db.r)]
  rfl

theorem exec_insertRecords (db : TxnDB) (records : List Record) (store : KV)
    : (db.insertRecords records).exec TxnRequest.handle store
        =
      (.ret (.ok ()), store.insertAll (records.map (fun rec => (rec.rowKey, rec.row db.r)))) := by
  induction records generalizing store with
  | nil => rfl
  | cons rec records ih =>
    unfold insertRecords
    rw [Rpc.exec_bind_ret (exec_insert db rec store)]
    apply ih

theorem fst_exec_read (db : TxnDB) (table : Bytes) {key : Bytes} {store : KV}
    (hne : store.lookup (getRowKey table key) ≠ some [])
    : ((db.read table key []).exec TxnRequest.handle store).1
        =
      readRow db.r (store.lookup (getRowKey table key)) := by
  unfold TxnDB.read
  rw [Rpc.exec_bind_ret (exec_beginTxn store)]
  dsimp only
  rw [Rpc.exec_bind_ret (Txn.exec_get store _ store)]
  cases hlookup : store.lookup (getRowKey table key) with
  | none => rfl
  | some row =>
    have hrow : row ≠ [] := by
      rintro rfl
      exact hne hlookup
    rw [Option.elim_some, present_of_ne_nil hrow]
    simp only [readRow, Txn.commit, Rpc.send_bind, Rpc.exec_call]
    cases db.r.decode row [] with
    | ret res => cases res <;> rfl
    | panic msg => rfl
    | exit msg => rfl
    | running => rfl

end TxnDB

section

variable {r : Util.RowCodec} {records : List Record} {table : Bytes}

theorem readRow_eq_none {row : Option Bytes} : readRow r row = .ret (.ok none) ↔ row = none := by
  cases row with
  | none => simp [readRow]
  | some row =>
    simp only [readRow, reduceCtorEq, iff_false]
    intro h
    rcases Outcome.bind_eq_ret h with ⟨res, _, hres⟩
    cases res with
    | error err => cases hres
    | ok values => cases hres

theorem readRow_eq_some {row : Option Bytes} {values : FieldMap}
    : readRow r row = .ret (.ok (some values)) ↔ ∃ bytes, row = some bytes ∧ r.decode bytes [] = .ret (.ok values) := by
  cases row with
  | none => simp [readRow]
  | some bytes =>
    constructor
    . intro h
      rcases Outcome.bind_eq_ret h with ⟨res, hdecode, hres⟩
      cases res with
      | error err => cases hres
      | ok values' =>
        cases hres
        exact ⟨bytes, rfl, hdecode⟩
    . rintro ⟨_, heq, hdecode⟩
      cases heq
      simp [readRow, hdecode]

theorem getRowKey_append (table key : Bytes) : getRowKey table [] ++ key = getRowKey table key := by
  simp [getRowKey]

theorem getRowKey_inj {key key' : Bytes} : getRowKey table key = getRowKey table key' ↔ key = key' := by
  simp [getRowKey]

theorem inRange_iff {x : Bytes}
    : InRange (getRowKey table []) (endKey table) x
        ↔
      ∃ key, x = getRowKey table key ∧ key < [255, 255, 255, 255] := by
  unfold endKey
  rw [KeyRange.inRange_append_iff]
  simp only [getRowKey_append]

theorem inRange_getRowKey {key : Bytes}
    : InRange (getRowKey table []) (endKey table) (getRowKey table key) ↔ key < [255, 255, 255, 255] := by
  rw [inRange_iff]
  constructor
  . rintro ⟨key', heq, hlt⟩
    rw [getRowKey_inj] at heq
    rw [heq]
    exact hlt
  . intro hlt
    exact ⟨key, rfl, hlt⟩

namespace Records

def ReadsBack (r : Util.RowCodec) (row : Bytes) (rec : Record) : Prop :=
  ∃ values, r.decode row [] = .ret (.ok values) ∧ SameFields values rec

/--
The records of the table end before the range of its row keys does, no record of another table has a row
key in that range, and no record of another table has lost its fields to a third one.
-/
structure Separated (r : Util.RowCodec) (records : List Record) (table : Bytes) : Prop where
  bounded : ∀ rec ∈ records, rec.table = table → rec.key < [255, 255, 255, 255]
  apart : ∀ rec ∈ records, rec.table ≠ table →
    ∀ key, rec.rowKey = getRowKey table key → ¬ key < [255, 255, 255, 255]
  intact : ∀ rec ∈ records, rec.table ≠ table →
    ∃ last stored,
      lastOf records rec.table rec.key = some last
        ∧
      lastAt records rec.rowKey = some stored
        ∧
      ReadsBack r (stored.row r) last

theorem mem_keysOf {key : Bytes}
    : key ∈ keysOf records table ↔ ∃ rec ∈ records, rec.table = table ∧ rec.key = key := by
  simp [keysOf, and_assoc]

theorem exists_lastAt {rec : Record} (h : rec ∈ records) : ∃ stored, lastAt records rec.rowKey = some stored := by
  rw [← Option.isSome_iff_exists]
  unfold lastAt
  rw [List.find?_isSome]
  exact ⟨rec, by simpa using h, by simp⟩

namespace Separated

theorem inRange_iff_of_mem (h : Separated r records table) {rec : Record} (hrec : rec ∈ records)
    : InRange (getRowKey table []) (endKey table) rec.rowKey ↔ rec.table = table := by
  constructor
  . intro hin
    by_contra hne
    rcases inRange_iff.mp hin with ⟨key, heq, hlt⟩
    exact h.apart rec hrec hne key heq hlt
  . rintro rfl
    exact inRange_getRowKey.mpr (h.bounded rec hrec rfl)

theorem length_keysIn (h : Separated r records table)
    : (keysIn (written r records).keys (getRowKey table []) (endKey table)).length
        =
      (keysOf records table).length := by
  have hperm : (keysIn (written r records).keys (getRowKey table []) (endKey table)).Perm
      ((keysOf records table).map (getRowKey table)) := by
    rw [List.perm_ext_iff_of_nodup]
    . intro x
      rw [KeyRange.mem_keysIn, mem_written, List.mem_map]
      constructor
      . rintro ⟨⟨rec, hrec, rfl⟩, hin⟩
        have htable := (h.inRange_iff_of_mem hrec).mp hin
        refine ⟨rec.key, mem_keysOf.mpr ⟨rec, hrec, htable, rfl⟩, ?_⟩
        rw [← htable]
        rfl
      . rintro ⟨key, hkey, rfl⟩
        rcases mem_keysOf.mp hkey with ⟨rec, hrec, rfl, rfl⟩
        exact ⟨⟨rec, hrec, rfl⟩, (h.inRange_iff_of_mem hrec).mpr rfl⟩
    . exact KeyRange.nodup_keysIn (AList.keys_nodup _) _ _
    . apply List.Nodup.map
      . intro key key' heq
        exact getRowKey_inj.mp heq
      . apply List.nodup_dedup
  rw [hperm.length_eq, List.length_map]

end Separated

section

variable {cleaned : KV} (hcleaned : ∀ rowKey, cleaned.lookup rowKey
  = if InRange (getRowKey table []) (endKey table) rowKey then none else (written r records).lookup rowKey)

include hcleaned

theorem separated_of_isolated {count : Outcome (Except String Nat)}
    (h : Isolated records table count (fun table key => readRow r (cleaned.lookup (getRowKey table key))))
    : Separated r records table := by
  have hout : ∀ rec ∈ records, rec.table ≠ table →
      ¬ InRange (getRowKey table []) (endKey table) rec.rowKey := by
    intro rec hrec hne hin
    rcases h.kept rec hrec hne with ⟨row, _, hfound, _⟩
    rcases readRow_eq_some.mp hfound with ⟨bytes, hlookup, _⟩
    have hlookup' := hcleaned rec.rowKey
    rw [if_pos hin] at hlookup'
    rw [show cleaned.lookup rec.rowKey = some bytes from hlookup] at hlookup'
    contradiction
  constructor
  case bounded =>
    rintro rec hrec rfl
    have hnone := (hcleaned rec.rowKey).symm.trans (readRow_eq_none.mp (h.removed rec hrec rfl))
    split at hnone
    . next hin => exact inRange_getRowKey.mp hin
    . rcases exists_lastAt hrec with ⟨stored, hstored⟩
      rw [lookup_written, hstored] at hnone
      contradiction
  case apart =>
    intro rec hrec hne key hkey hlt
    apply hout rec hrec hne
    rw [hkey]
    exact inRange_getRowKey.mpr hlt
  case intact =>
    intro rec hrec hne
    rcases h.kept rec hrec hne with ⟨row, last, hfound, hlast, hsame⟩
    rcases readRow_eq_some.mp hfound with ⟨bytes, hlookup, hdecode⟩
    rcases exists_lastAt hrec with ⟨stored, hstored⟩
    have hlookup' := (hcleaned rec.rowKey).symm.trans hlookup
    rw [if_neg (hout rec hrec hne), lookup_written, hstored] at hlookup'
    cases hlookup'
    exact ⟨last, stored, hlast, hstored, row, hdecode, hsame⟩

theorem Separated.isolated (h : Separated r records table)
    : Isolated records table
        (.ret (.ok (keysIn (written r records).keys (getRowKey table []) (endKey table)).length))
        (fun table key => readRow r (cleaned.lookup (getRowKey table key))) := by
  constructor
  case count => rw [h.length_keysIn]
  case removed =>
    intro rec hrec htable
    apply readRow_eq_none.mpr
    apply (hcleaned rec.rowKey).trans
    rw [if_pos ((h.inRange_iff_of_mem hrec).mpr htable)]
  case kept =>
    intro rec hrec hne
    rcases h.intact rec hrec hne with ⟨last, stored, hlast, hstored, row, hdecode, hsame⟩
    refine ⟨row, last, ?_, hlast, hsame⟩
    apply readRow_eq_some.mpr
    refine ⟨stored.row r, ?_, hdecode⟩
    apply (hcleaned rec.rowKey).trans
    rw [if_neg (mt (h.inRange_iff_of_mem hrec).mp hne), lookup_written, hstored]
    rfl

theorem isolated_iff
    : Isolated records table
        (.ret (.ok (keysIn (written r records).keys (getRowKey table []) (endKey table)).length))
        (fun table key => readRow r (cleaned.lookup (getRowKey table key)))
        ↔
      Separated r records table :=
  ⟨separated_of_isolated hcleaned, Separated.isolated hcleaned⟩

end

end Records

end

theorem lookup_cleaned_ne_nil {r : Util.RowCodec} {records : List Record} {rowKey : Bytes} {found : Option Bytes}
    {removed : Prop} [Decidable removed]
    (hfound : found = if removed then none else (written r records).lookup rowKey)
    : found ≠ some [] := by
  intro hnil
  rw [hfound, lookup_written] at hnil
  split at hnil
  . cases hnil
  . rcases Option.map_eq_some_iff.mp hnil with ⟨rec, _, hrow⟩
    exact rec.row_ne_nil r hrow

theorem isolatesTable_iff (raw : RawDB) (txn : TxnDB) (records : List Record) (table : Bytes)
    : (raw.IsolatesTable records table ↔ Records.Separated raw.r records table)
        ∧
      (txn.IsolatesTable records table ↔ Records.Separated txn.r records table) := by
  constructor
  . have hcount := RawDB.exec_count (show 0 < 10000 by omega) (length_written_lt raw.r records) table
    have hclean := lookup_eraseAll_keysIn (written raw.r records) (getRowKey table []) (endKey table)
    rw [← Records.isolated_iff hclean]
    unfold RawDB.IsolatesTable
    simp only [RawDB.exec_insertRecords, RawDB.exec_clean, RawDB.fst_exec_read]
    unfold written at hcount ⊢
    rw [hcount]
  . have hcount := TxnDB.exec_count (show 0 < 10000 by omega) (length_written_lt txn.r records) table
    have hexec := TxnDB.exec_clean (show 0 < 10000 by omega) (length_written_lt txn.r records) table
    have hclean := lookup_eraseAll_keysIn (written txn.r records) (getRowKey table []) (endKey table)
    rw [← Records.isolated_iff hclean]
    have hread := fun table' key =>
      TxnDB.fst_exec_read txn table' (lookup_cleaned_ne_nil (hclean (getRowKey table' key)))
    unfold TxnDB.IsolatesTable
    simp only [TxnDB.exec_insertRecords]
    unfold written at hcount hexec hread ⊢
    simp only [hcount, hexec, hread]

section

variable {p : Properties} {r : Util.RowCodec} {records : List Record} {table : Bytes}

theorem Record.readsBack {rec : Record} (hr : r.Configured p) (hvalues : r.Accepts rec.values)
    : Records.ReadsBack r (rec.row r) rec := by
  have hlen : ∀ entry ∈ (rec.order.visit rec.values).entries, entry.2.length < 2 ^ 63 := by
    intro entry hentry
    exact hvalues.length entry (rec.order.mem_entries_visit.mp hentry)
  have hnames : ∀ key ∈ rec.order.visit rec.values, key ∈ r.fields := by
    intro key hkey
    exact hvalues.names key (rec.order.mem_visit.mp hkey)
  rcases Util.RowCodec.decode_encode_eq hr [] hlen with ⟨row, hencode, hall, _⟩
  rw [rec.encode_eq] at hencode
  cases hencode
  refine ⟨_, hall, ?_⟩
  intro field
  rw [Util.RowCodec.lookup_select_all hr hnames, GoMap.Order.lookup_visit]

theorem Record.rowKey_eq_iff {rec : Record} (hrec : 58 ∉ rec.table) {table' key : Bytes} (htable : 58 ∉ table')
    : rec.rowKey = getRowKey table' key ↔ rec.table = table' ∧ rec.key = key := by
  constructor
  . intro h
    unfold Record.rowKey getRowKey at h
    rw [List.append_assoc, List.append_assoc] at h
    exact Bytes.append_cons_inj hrec htable h
  . rintro ⟨rfl, rfl⟩
    rfl

theorem Records.lastAt_eq_lastOf (htables : ∀ rec ∈ records, 58 ∉ rec.table) {rec : Record}
    (hrec : rec ∈ records)
    : lastAt records rec.rowKey = lastOf records rec.table rec.key := by
  unfold lastAt lastOf
  rw [← List.head?_filter, ← List.head?_filter]
  congr 1
  apply List.filter_congr
  intro rec' hrec'
  rw [List.mem_reverse] at hrec'
  simp only [decide_eq_decide]
  exact Record.rowKey_eq_iff (htables rec' hrec') (htables rec hrec)

theorem Records.separated_of_no_colon (hr : r.Configured p) (htable : 58 ∉ table)
    (htables : ∀ rec ∈ records, 58 ∉ rec.table) (hkeys : ∀ rec ∈ records, rec.key < [255, 255, 255, 255])
    (hvalues : ∀ rec ∈ records, r.Accepts rec.values)
    : Separated r records table where
  bounded rec hrec _ := hkeys rec hrec
  apart := by
    intro rec hrec hne key hkey
    rw [Record.rowKey_eq_iff (htables rec hrec) htable] at hkey
    exact absurd hkey.1 hne
  intact := by
    intro rec hrec _
    rcases exists_lastAt hrec with ⟨last, hlast⟩
    have hmem : last ∈ records := by
      rw [← List.mem_reverse]
      exact List.mem_of_find?_eq_some hlast
    refine ⟨last, last, ?_, hlast, last.readsBack hr (hvalues last hmem)⟩
    rw [← lastAt_eq_lastOf htables hrec]
    exact hlast

end

def collidingRecords : List Record :=
  [⟨Bytes.ofAscii "a", Bytes.ofAscii "b:c", GoMap.insertAll ∅ [(fieldName 0, [49])], .id⟩,
   ⟨Bytes.ofAscii "a:b", Bytes.ofAscii "c", GoMap.insertAll ∅ [(fieldName 0, [50])], .id⟩]

theorem clean_removes_other_table
    : ∃ raw txn,
        createRawDB {} = .ret raw
          ∧
        createTxnDB {} = .ret txn
          ∧
        ¬ raw.IsolatesTable collidingRecords (Bytes.ofAscii "a")
          ∧
        ¬ txn.IsolatesTable collidingRecords (Bytes.ofAscii "a") := by
  have hmem : collidingRecords[1] ∈ collidingRecords := List.getElem_mem _
  have hne : collidingRecords[1].table ≠ Bytes.ofAscii "a" := by decide
  refine ⟨_, _, rfl, rfl, ?_, ?_⟩
  . intro h
    rcases h.kept _ hmem hne with ⟨row, _, hfound, _⟩
    have hnone : Outcome.ret (Except.ok none) = .ret (.ok (some row)) := hfound
    simp at hnone
  . intro h
    rcases h.kept _ hmem hne with ⟨row, _, hfound, _⟩
    have hnone : Outcome.ret (Except.ok none) = .ret (.ok (some row)) := hfound
    simp at hnone

end Tikv
