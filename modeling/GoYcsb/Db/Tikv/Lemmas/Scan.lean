import GoYcsb.Db.Tikv.Impl.Scan
import GoYcsb.Db.Tikv.Lemmas.Table

/-!
This module contains when `Scan` of a table returns the records of that table and no others. A scan that comes to the
end of its table goes on with the rows of the tables behind it.
-/

namespace Tikv

open KeyRange (entriesFrom keysWhere)

namespace Records

def keysFrom (records : List Record) (table startKey : Bytes) : List Bytes :=
  keysWhere (fun key => startKey ≤ key) (keysOf records table)

def storedRow (r : Util.RowCodec) (records : List Record) (table key : Bytes) : Option Bytes :=
  (lastOf records table key).map (Record.row r)

/--
What `Scan` is for, where `scanned` is what it has returned.
-/
def Scanned (r : Util.RowCodec) (records : List Record) (table startKey : Bytes) (count : Nat) (fields : List Bytes)
    (scanned : Outcome (Except String (List (Option FieldMap)))) : Prop :=
  ∃ rows : List FieldMap,
    decodeRows r (((keysFrom records table startKey).take count).map (storedRow r records table)) fields
      =
    .ret (.ok (rows.map some))
      ∧
    scanned = .ret (.ok (rows.map some))

def EndsInTable (records : List Record) (table startKey : Bytes) (count : Nat) : Prop :=
  count ≤ (keysFrom records table startKey).length
    ∨
  ∀ rec ∈ records, rec.table ≠ table → rec.rowKey < getRowKey table startKey

end Records

def RawDB.ScansTable (db : RawDB) (records : List Record) (table startKey : Bytes) (count : Nat) (fields : List Bytes)
    : Prop :=
  let store := ((db.insertRecords records).exec RawRequest.handle ∅).2
  Records.Scanned db.r records table startKey count fields
    ((db.scan table startKey count fields).exec RawScanRequest.handle store).1

def TxnDB.ScansTable (db : TxnDB) (records : List Record) (table startKey : Bytes) (count : Nat) (fields : List Bytes)
    : Prop :=
  let store := ((db.insertRecords records).exec TxnRequest.handle ∅).2
  Records.Scanned db.r records table startKey count fields
    ((db.scan table startKey count fields).exec TxnScanRequest.handle store).1

section

variable {r : Util.RowCodec} {fields : List Bytes}

theorem decodeRows_cons {row : Bytes} {rows : List (Option Bytes)} {v : FieldMap} {res : List (Option FieldMap)}
    (hrow : r.decode row fields = .ret (.ok v)) (hrows : decodeRows r rows fields = .ret (.ok res))
    : decodeRows r (some row :: rows) fields = .ret (.ok (some v :: res)) := by
  unfold decodeRows
  rw [hrow, Outcome.ret_bind]
  dsimp only
  rw [hrows, Outcome.ret_bind]
  rfl

theorem exists_decodeRows {rows : List Bytes} (h : ∀ row ∈ rows, ∃ v, r.decode row fields = .ret (.ok v))
    : ∃ res : List FieldMap,
        decodeRows r (rows.map some) fields = .ret (.ok (res.map some)) ∧ res.length = rows.length := by
  induction rows with
  | nil => exact ⟨[], rfl, rfl⟩
  | cons row rows ih =>
    rw [List.forall_mem_cons] at h
    rcases h.1 with ⟨v, hrow⟩
    rcases ih h.2 with ⟨res, hrows, hlength⟩
    refine ⟨v :: res, ?_, by simp [hlength]⟩
    exact decodeRows_cons hrow hrows

theorem decodeRows_take_append_iff {rows others : List Bytes} (count : Nat)
    (hrows : ∀ row ∈ rows ++ others, ∃ v, r.decode row fields = .ret (.ok v))
    : (∃ res : List FieldMap,
        decodeRows r ((rows.take count).map some) fields = .ret (.ok (res.map some))
          ∧
        decodeRows r (((rows ++ others).take count).map some) fields = .ret (.ok (res.map some)))
        ↔
      count ≤ rows.length ∨ others = [] := by
  constructor
  . rintro ⟨res, htable, hscan⟩
    have hdecodes : ∀ row ∈ rows.take count, ∃ v, r.decode row fields = .ret (.ok v) := by
      intro row hrow
      exact hrows row (List.mem_append_left _ (List.mem_of_mem_take hrow))
    have hdecodes' : ∀ row ∈ (rows ++ others).take count, ∃ v, r.decode row fields = .ret (.ok v) := by
      intro row hrow
      exact hrows row (List.mem_of_mem_take hrow)
    rcases exists_decodeRows hdecodes with ⟨res₁, heq₁, hlength₁⟩
    rcases exists_decodeRows hdecodes' with ⟨res₂, heq₂, hlength₂⟩
    rw [htable] at heq₁
    rw [hscan] at heq₂
    simp only [Outcome.ret.injEq, Except.ok.injEq] at heq₁ heq₂
    have hlen₁ := congrArg List.length heq₁
    have hlen₂ := congrArg List.length heq₂
    simp only [List.length_map, List.length_take, List.length_append] at hlen₁ hlen₂ hlength₁ hlength₂
    rw [← List.length_eq_zero_iff]
    omega
  . intro h
    have htake : (rows ++ others).take count = rows.take count := by
      cases h with
      | inl hle => exact List.take_append_of_le_length hle
      | inr hnil => rw [hnil, List.append_nil]
    rw [htake]
    have hdecodes : ∀ row ∈ rows.take count, ∃ v, r.decode row fields = .ret (.ok v) := by
      intro row hrow
      exact hrows row (List.mem_append_left _ (List.mem_of_mem_take hrow))
    rcases exists_decodeRows hdecodes with ⟨res, heq, _⟩
    exact ⟨res, heq, heq⟩

end

theorem Record.exists_decode {p : Properties} {r : Util.RowCodec} {rec : Record} (hr : r.Configured p)
    (hlen : ∀ entry ∈ rec.values.entries, entry.2.length < 2 ^ 63) (fields : List Bytes)
    : ∃ v, r.decode (rec.row r) fields = .ret (.ok v) := by
  have hvisit : ∀ entry ∈ (rec.order.visit rec.values).entries, entry.2.length < 2 ^ 63 := by
    intro entry hentry
    exact hlen entry (rec.order.mem_entries_visit.mp hentry)
  rcases Util.RowCodec.encode_holds hr [] hvisit with ⟨row, hencode, _, hholds⟩
  rw [rec.encode_eq] at hencode
  cases hencode
  rcases hholds.decode r fields with ⟨v, hdecode, _⟩
  exact ⟨v, hdecode⟩

namespace RawDB

theorem exec_scan_table (db : RawDB) (store : KV) (table startKey : Bytes) (count : Nat) (fields : List Bytes)
    : ((db.scan table startKey count fields).exec RawScanRequest.handle store).1
        =
      decodeRows db.r (((entriesFrom store (getRowKey table startKey)).take count).map (fun entry => some entry.2))
        fields := rfl

end RawDB

namespace TxnDB

theorem exec_collectRows (count : Nat) (it : List (Bytes × Bytes)) (rows : List (Option Bytes)) (store : KV)
    : (collectRows count it rows).exec TxnScanRequest.handle store
        =
      (.ret (.ok (rows ++ (it.take count).map (fun entry => some entry.2))), store) := by
  induction count generalizing it rows with
  | zero => simp [collectRows]
  | succ count ih =>
    cases it with
    | nil => simp [collectRows]
    | cons entry it =>
      unfold collectRows
      rw [Rpc.send_bind, Rpc.exec_call]
      apply (ih it _).trans
      simp

theorem exec_scan_table (db : TxnDB) (store : KV) (table startKey : Bytes) (count : Nat) (fields : List Bytes)
    : ((db.scan table startKey count fields).exec TxnScanRequest.handle store).1
        =
      decodeRows db.r (((entriesFrom store (getRowKey table startKey)).take count).map (fun entry => some entry.2))
        fields := by
  unfold scan
  rw [Rpc.send_bind, Rpc.exec_call]
  dsimp only [TxnScanRequest.handle]
  rw [Rpc.send_bind, Rpc.exec_call]
  dsimp only [TxnScanRequest.handle]
  rw [Rpc.exec_bind_ret (exec_collectRows count _ [] store)]
  rfl

end TxnDB

section

variable {r : Util.RowCodec} {records : List Record} {table : Bytes}

def isRowKeyOf (table rowKey : Bytes) : Bool := getRowKey table [] <+: rowKey

theorem isRowKeyOf_iff {rowKey : Bytes} : isRowKeyOf table rowKey ↔ ∃ key, rowKey = getRowKey table key := by
  unfold isRowKeyOf
  rw [decide_eq_true_eq, List.prefix_iff_exists_append_eq]
  simp only [getRowKey_append, eq_comm]

theorem getRowKey_le_iff {key key' : Bytes} : getRowKey table key ≤ getRowKey table key' ↔ key ≤ key' :=
  KeyRange.append_le_append_iff (table ++ [58]) key key'

theorem mem_keys_getRowKey (htable : 58 ∉ table) (htables : ∀ rec ∈ records, 58 ∉ rec.table) {key : Bytes}
    : getRowKey table key ∈ (written r records).keys ↔ key ∈ Records.keysOf records table := by
  rw [mem_written, Records.mem_keysOf]
  constructor
  . rintro ⟨rec, hrec, heq⟩
    exact ⟨rec, hrec, (rec.rowKey_eq_iff (htables rec hrec) htable).mp heq⟩
  . rintro ⟨rec, hrec, heq⟩
    exact ⟨rec, hrec, (rec.rowKey_eq_iff (htables rec hrec) htable).mpr heq⟩

theorem keysWhere_isRowKeyOf (htable : 58 ∉ table) (htables : ∀ rec ∈ records, 58 ∉ rec.table) (startKey : Bytes)
    : keysWhere (fun rowKey => (getRowKey table startKey ≤ rowKey : Bool) && isRowKeyOf table rowKey)
          (written r records).keys
        =
      (Records.keysFrom records table startKey).map (getRowKey table) := by
  apply KeyRange.keysWhere_eq_map (fun _ _ => getRowKey_le_iff) (List.nodup_dedup _) (written r records).keys_nodup
  intro rowKey
  rw [Bool.and_eq_true, decide_eq_true_eq, isRowKeyOf_iff]
  simp only [decide_eq_true_eq]
  constructor
  . rintro ⟨key, ⟨hmem, hle⟩, rfl⟩
    exact ⟨(mem_keys_getRowKey htable htables).mpr hmem, getRowKey_le_iff.mpr hle, key, rfl⟩
  . rintro ⟨hmem, hle, key, rfl⟩
    exact ⟨key, ⟨(mem_keys_getRowKey htable htables).mp hmem, getRowKey_le_iff.mp hle⟩, rfl⟩

def keysBehind (r : Util.RowCodec) (records : List Record) (table startKey : Bytes) : List Bytes :=
  keysWhere (fun rowKey => (getRowKey table startKey ≤ rowKey : Bool) && !isRowKeyOf table rowKey)
    (written r records).keys

theorem keysWhere_written (htable : 58 ∉ table) (htables : ∀ rec ∈ records, 58 ∉ rec.table) (startKey : Bytes)
    : keysWhere (fun rowKey => getRowKey table startKey ≤ rowKey) (written r records).keys
        =
      (Records.keysFrom records table startKey).map (getRowKey table) ++ keysBehind r records table startKey := by
  rw [← keysWhere_isRowKeyOf htable htables, keysBehind]
  apply KeyRange.keysWhere_append (written r records).keys_nodup
  intro x y _ hx hy hother
  rcases isRowKeyOf_iff.mp hx with ⟨key, rfl⟩
  rw [decide_eq_true_eq, ← getRowKey_append] at hy
  rw [isRowKeyOf, decide_eq_false_iff_not] at hother
  rw [← getRowKey_append]
  exact KeyRange.append_le_of_not_extends hy hother key

theorem keysBehind_eq_nil_iff (htable : 58 ∉ table) (htables : ∀ rec ∈ records, 58 ∉ rec.table) {startKey : Bytes}
    : keysBehind r records table startKey = []
        ↔
      ∀ rec ∈ records, rec.table ≠ table → rec.rowKey < getRowKey table startKey := by
  have hother : ∀ rec ∈ records, isRowKeyOf table rec.rowKey = false ↔ rec.table ≠ table := by
    intro rec hrec
    rw [← Bool.not_eq_true, isRowKeyOf_iff, not_iff_not]
    simp only [rec.rowKey_eq_iff (htables rec hrec) htable]
    simp
  rw [List.eq_nil_iff_forall_not_mem]
  simp only [keysBehind, KeyRange.mem_keysWhere, mem_written, Bool.and_eq_true, decide_eq_true_eq, Bool.not_eq_true']
  constructor
  . intro h rec hrec hne
    rw [← Std.not_le]
    intro hle
    exact h rec.rowKey ⟨⟨rec, hrec, rfl⟩, hle, (hother rec hrec).mpr hne⟩
  . rintro h rowKey ⟨⟨rec, hrec, rfl⟩, hle, hfalse⟩
    have hlt := h rec hrec ((hother rec hrec).mp hfalse)
    rw [← Std.not_le] at hlt
    exact hlt hle

theorem get_written_eq {rowKey : Bytes} (h : rowKey ∈ (written r records).keys)
    : ∃ rec ∈ records,
        Records.lastAt records rowKey = some rec ∧ (written r records).get rowKey [] = rec.row r := by
  rcases (mem_written r).mp h with ⟨rec, hrec, rfl⟩
  rcases Records.exists_lastAt hrec with ⟨last, hlast⟩
  refine ⟨last, ?_, hlast, ?_⟩
  . rw [← List.mem_reverse]
    exact List.mem_of_find?_eq_some hlast
  . rw [GoMap.get, lookup_written, hlast]
    rfl

theorem storedRow_eq (htable : 58 ∉ table) (htables : ∀ rec ∈ records, 58 ∉ rec.table) {key : Bytes}
    (h : key ∈ Records.keysOf records table)
    : Records.storedRow r records table key = some ((written r records).get (getRowKey table key) []) := by
  rcases get_written_eq (r := r) ((mem_keys_getRowKey htable htables).mpr h) with ⟨last, _, hlast, hget⟩
  rcases Records.mem_keysOf.mp h with ⟨rec, hrec, rfl, rfl⟩
  rw [hget, Records.storedRow, ← Records.lastAt_eq_lastOf htables hrec]
  apply (congrArg (Option.map (Record.row r)) hlast).trans
  rfl

theorem scanned_iff {p : Properties} (hr : r.Configured p) (htable : 58 ∉ table)
    (htables : ∀ rec ∈ records, 58 ∉ rec.table)
    (hlen : ∀ rec ∈ records, ∀ entry ∈ rec.values.entries, entry.2.length < 2 ^ 63) (startKey : Bytes) (count : Nat)
    (fields : List Bytes)
    : Records.Scanned r records table startKey count fields
          (decodeRows r
            (((entriesFrom (written r records) (getRowKey table startKey)).take count).map (fun entry => some entry.2))
            fields)
        ↔
      Records.EndsInTable records table startKey count := by
  let rowAt : Bytes → Bytes := fun rowKey => (written r records).get rowKey []
  have hkeys := keysWhere_written (r := r) htable htables startKey
  have hexpected : ((Records.keysFrom records table startKey).take count).map (Records.storedRow r records table)
      = ((((Records.keysFrom records table startKey).map (getRowKey table)).map rowAt).take count).map some := by
    rw [← List.map_take, ← List.map_take, List.map_map, List.map_map]
    apply List.map_congr_left
    intro key hkey
    have hmem := (KeyRange.mem_keysWhere.mp (List.mem_of_mem_take hkey)).1
    exact storedRow_eq htable htables hmem
  have hscan : ((entriesFrom (written r records) (getRowKey table startKey)).take count).map (fun entry => some entry.2)
      = ((((Records.keysFrom records table startKey).map (getRowKey table)).map rowAt
          ++ (keysBehind r records table startKey).map rowAt).take count).map some := by
    rw [entriesFrom, hkeys, ← List.map_append, ← List.map_take, ← List.map_take, List.map_map, List.map_map]
    rfl
  have hdecodes : ∀ row ∈ ((Records.keysFrom records table startKey).map (getRowKey table)).map rowAt
      ++ (keysBehind r records table startKey).map rowAt, ∃ v, r.decode row fields = .ret (.ok v) := by
    rw [← List.map_append, ← hkeys]
    intro row hrow
    rcases List.mem_map.mp hrow with ⟨rowKey, hrowKey, rfl⟩
    rcases get_written_eq (KeyRange.mem_keysWhere.mp hrowKey).1 with ⟨rec, hrec, _, hget⟩
    dsimp only [rowAt]
    rw [hget]
    exact rec.exists_decode hr (hlen rec hrec) fields
  unfold Records.Scanned Records.EndsInTable
  rw [hexpected, hscan, decodeRows_take_append_iff count hdecodes]
  rw [List.length_map, List.length_map, List.map_eq_nil_iff, keysBehind_eq_nil_iff htable htables]

end

theorem scansTable_iff {p : Properties} {raw : RawDB} {txn : TxnDB} (hraw : createRawDB p = .ret raw)
    (htxn : createTxnDB p = .ret txn) {records : List Record} {table : Bytes} (htable : 58 ∉ table)
    (htables : ∀ rec ∈ records, 58 ∉ rec.table)
    (hlen : ∀ rec ∈ records, ∀ entry ∈ rec.values.entries, entry.2.length < 2 ^ 63) (startKey : Bytes) (count : Nat)
    (fields : List Bytes)
    : (raw.ScansTable records table startKey count fields ↔ Records.EndsInTable records table startKey count)
        ∧
      (txn.ScansTable records table startKey count fields ↔ Records.EndsInTable records table startKey count) := by
  constructor
  . have hr := Util.configured_of_newRowCodec (RawDB.of_createRawDB hraw)
    rw [← scanned_iff hr htable htables hlen startKey count fields]
    unfold RawDB.ScansTable
    simp only [RawDB.exec_insertRecords, RawDB.exec_scan_table]
    rfl
  . have hr := Util.configured_of_newRowCodec (of_createTxnDB htxn)
    rw [← scanned_iff hr htable htables hlen startKey count fields]
    unfold TxnDB.ScansTable
    simp only [TxnDB.exec_insertRecords, TxnDB.exec_scan_table]
    rfl

def neighbouringRecords : List Record :=
  [⟨Bytes.ofAscii "a", Bytes.ofAscii "k", GoMap.insertAll ∅ [(fieldName 0, [49])], .id⟩,
   ⟨Bytes.ofAscii "b", Bytes.ofAscii "k", GoMap.insertAll ∅ [(fieldName 0, [50])], .id⟩]

theorem scansTable_first_record
    : ∃ raw txn,
        createRawDB {} = .ret raw
          ∧
        createTxnDB {} = .ret txn
          ∧
        raw.ScansTable neighbouringRecords (Bytes.ofAscii "a") [] 1 []
          ∧
        txn.ScansTable neighbouringRecords (Bytes.ofAscii "a") [] 1 [] := by
  have htable : 58 ∉ Bytes.ofAscii "a" := by decide
  have htables : ∀ rec ∈ neighbouringRecords, 58 ∉ rec.table := by
    simp only [neighbouringRecords, List.forall_mem_cons]
    decide
  have hlen : ∀ rec ∈ neighbouringRecords, ∀ entry ∈ rec.values.entries, entry.2.length < 2 ^ 63 := by
    simp only [neighbouringRecords, List.forall_mem_cons]
    decide
  have hends : Records.EndsInTable neighbouringRecords (Bytes.ofAscii "a") [] 1 := by
    left
    decide
  have hraw : createRawDB {} = .ret _ := rfl
  have htxn : createTxnDB {} = .ret _ := rfl
  have hiff := scansTable_iff hraw htxn htable htables hlen [] 1 []
  exact ⟨_, _, hraw, htxn, hiff.1.mpr hends, hiff.2.mpr hends⟩

theorem scan_leaves_table
    : ∃ raw txn,
        createRawDB {} = .ret raw
          ∧
        createTxnDB {} = .ret txn
          ∧
        ¬ raw.ScansTable neighbouringRecords (Bytes.ofAscii "a") [] 2 []
          ∧
        ¬ txn.ScansTable neighbouringRecords (Bytes.ofAscii "a") [] 2 [] := by
  refine ⟨_, _, rfl, rfl, ?_, ?_⟩
  . rintro ⟨rows, hexpected, hscanned⟩
    have heq := congrArg (fun out => out.toOption.map (fun res => res.toOption.map List.length))
      (hexpected.trans hscanned.symm)
    revert heq
    decide
  . rintro ⟨rows, hexpected, hscanned⟩
    have heq := congrArg (fun out => out.toOption.map (fun res => res.toOption.map List.length))
      (hexpected.trans hscanned.symm)
    revert heq
    decide

end Tikv
