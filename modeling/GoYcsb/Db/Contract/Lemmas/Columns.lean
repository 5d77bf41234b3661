import GoYcsb.Db.Badger.Impl.Db
import GoYcsb.Db.Boltdb.Impl.Db
import GoYcsb.Db.Tikv.Lemmas.BatchUpdate

/-!
This module contains what an `Update` that decodes a row, merges values into it and encodes it again does to the columns
of the row, for all drivers that have such an `Update`.
-/

namespace Contract

open Util

/--
`Update` of one of the drivers has succeeded, on a store that has `row` under the key before and `after` afterwards.
-/
inductive Updated (r : RowCodec) (values : GoMap Bytes Bytes) (row : Bytes) (after : Option Bytes) : Prop where
  | raw {casMode : Bool} {orders : Tikv.Orders} {ctx ctx' : Option Tikv.RawDBState} {table key : Bytes}
      {store store' : Tikv.KV} (hrow : store.lookup (Tikv.getRowKey table key) = some row)
      (hexec : ((Tikv.RawDB.mk r casMode).update orders ctx table key values).exec Tikv.RawRequest.handle store
        = (.ret (.ok (), ctx'), store'))
      (hafter : store'.lookup (Tikv.getRowKey table key) = after)
  | txn {order : GoMap.Order Bytes Bytes} {table key : Bytes} {store store' : Tikv.KV}
      (hrow : store.lookup (Tikv.getRowKey table key) = some row)
      (hexec : ((Tikv.TxnDB.mk r).update order table key values).exec Tikv.TxnRequest.handle store
        = (.ret (.ok ()), store'))
      (hafter : store'.lookup (Tikv.getRowKey table key) = after)
  | boltdb {order : GoMap.Order Bytes Bytes} {table key : Bytes} {store store' : Boltdb.Store} {bucket : Boltdb.Bucket}
      (hbucket : store.lookup table = some bucket) (hrow : bucket.lookup key = some row)
      (hexec : Boltdb.update r order store table key values = .ret (.ok store'))
      (hafter : (store'.lookup table).bind (fun bucket => bucket.lookup key) = after)
  | badger {order : GoMap.Order Bytes Bytes} {table key : Bytes} {store store' : Badger.Store}
      (hrow : store.lookup (Badger.getRowKey table key) = some row)
      (hexec : Badger.update r order store table key values = .ret (.ok store'))
      (hafter : store'.lookup (Badger.getRowKey table key) = after)

def KeepsColumns (r : RowCodec) (values : GoMap Bytes Bytes) (columns : Columns) (after : Option Bytes) : Prop :=
  ∃ row' columns',
    after = some row'
      ∧
    Holds row' columns'
      ∧
    ∀ c, (∀ field ∈ values, r.fieldIndex field ≠ c) → columns' c = columns c

def Merges (r : RowCodec) (values : GoMap Bytes Bytes) (row row' : Bytes) : Prop :=
  ∃ data, ∃ order : GoMap.Order Bytes Bytes,
    r.decode row [] = .ret (.ok data) ∧ r.encode [] (order.visit (data.merge values)) = .ok row'

end Contract

section

open Util Contract

variable {r : RowCodec} {values : GoMap Bytes Bytes} {row : Bytes}

namespace Tikv

namespace RawDB

variable {db : RawDB}

theorem insert_stores {order : GoMap.Order Bytes Bytes} {table key : Bytes} {store store' : KV}
    (h : (db.insert order table key values).exec RawRequest.handle store = (.ret (.ok ()), store'))
    : ∃ buf, db.r.encode [] (order.visit values) = .ok buf ∧ store' = store.insert (getRowKey table key) buf := by
  unfold insert at h
  split at h
  . cases h
  . next buf hencode =>
    cases h
    exact ⟨buf, hencode, rfl⟩

theorem getAndPut_merges {order : GoMap.Order Bytes Bytes} {table key : Bytes} {store store' : KV}
    (hrow : store.lookup (getRowKey table key) = some row)
    (h : (db.getAndPut order table key values).exec RawRequest.handle store = (.ret (.ok ()), store'))
    : ∃ row', Merges db.r values row row' ∧ store'.lookup (getRowKey table key) = some row' := by
  unfold getAndPut Rawkv.get at h
  rw [Rpc.send_bind, Rpc.exec_call] at h
  dsimp only [RawRequest.handle, RawRequest.apply] at h
  rw [hrow] at h
  rcases Rpc.exec_bind_eq_ret h with ⟨res, store₁, hdecode, h⟩
  cases res with
  | error err => cases h
  | ok data =>
    injection hdecode with hdecode hstore
    rw [← hstore] at h
    rcases insert_stores h with ⟨buf, hencode, rfl⟩
    exact ⟨buf, ⟨data, order, hdecode, hencode⟩, AList.lookup_insert _⟩

theorem update_merges {orders : Orders} {ctx ctx' : Option RawDBState} {table key : Bytes} {store store' : KV}
    (hrow : store.lookup (getRowKey table key) = some row)
    (h : (db.update orders ctx table key values).exec RawRequest.handle store = (.ret (.ok (), ctx'), store'))
    : ∃ row', Merges db.r values row row' ∧ store'.lookup (getRowKey table key) = some row' := by
  unfold update at h
  dsimp only at h
  split at h
  . rcases Rpc.exec_bind_eq_ret h with ⟨res, store₁, hexec, h⟩
    cases h
    exact getAndPut_merges hrow hexec
  . next prevRow _ =>
    rcases Rpc.exec_bind_eq_ret h with ⟨res, store₁, hdecode, h⟩
    cases res with
    | error err => cases h
    | ok data =>
      injection hdecode with hdecode hstore
      rw [← hstore] at h
      dsimp only at h
      split at h
      . cases h
      . next buf hencode =>
        unfold Rawkv.compareAndSwap at h
        rw [Rpc.send_bind, Rpc.exec_call] at h
        dsimp only [RawRequest.handle, RawRequest.apply] at h
        by_cases hsame : store.lookup (getRowKey table key) = some prevRow
        . rw [if_pos hsame] at h
          cases h
          rw [hrow] at hsame
          cases hsame
          exact ⟨buf, ⟨data, orders 1, hdecode, hencode⟩, AList.lookup_insert _⟩
        . rw [if_neg hsame] at h
          rcases Rpc.exec_bind_eq_ret h with ⟨res, store₂, hexec, h⟩
          cases h
          exact getAndPut_merges hrow hexec

end RawDB

namespace TxnDB

variable {db : TxnDB}

theorem update_nil {order : GoMap.Order Bytes Bytes} {table key : Bytes} {store store' : KV}
    (hrow : store.lookup (getRowKey table key) = some [])
    (h : (db.update order table key values).exec TxnRequest.handle store = (.ret (.ok ()), store'))
    : store' = store := by
  unfold update at h
  dsimp only at h
  rw [Rpc.exec_bind_ret (exec_beginTxn store)] at h
  dsimp only at h
  rw [Rpc.exec_bind_ret (Txn.exec_get store _ store), hrow] at h
  cases h
  rfl

theorem update_merges {order : GoMap.Order Bytes Bytes} {table key : Bytes} {store store' : KV}
    (hrow : store.lookup (getRowKey table key) = some row) (hne : row ≠ [])
    (h : (db.update order table key values).exec TxnRequest.handle store = (.ret (.ok ()), store'))
    : ∃ row', Merges db.r values row row' ∧ store'.lookup (getRowKey table key) = some row' := by
  unfold update at h
  dsimp only at h
  rw [Rpc.exec_bind_ret (exec_beginTxn store)] at h
  dsimp only at h
  rw [Rpc.exec_bind_ret (Txn.exec_get store _ store), hrow, Option.elim_some, present_of_ne_nil hne] at h
  dsimp only at h
  rcases Rpc.exec_bind_eq_ret h with ⟨res, store₁, hdecode, h⟩
  cases res with
  | error err => cases h
  | ok data =>
    injection hdecode with hdecode hstore
    rw [← hstore] at h
    dsimp only at h
    split at h
    . cases h
    . next buf hencode =>
      refine ⟨buf, ⟨data, order, hdecode, hencode⟩, ?_⟩
      rw [Txn.set] at h
      split at h
      . next hset =>
        split at hset
        . cases h
        . cases hset
      . next tx hset =>
        split at hset
        . cases hset
        . cases hset
          cases h
          rw [GoMap.lookup_merge, AList.lookup_insert]
          rfl

end TxnDB

end Tikv

namespace Embedded

theorem decode_of_decode {fields : List Bytes} {data : FieldMap} (h : decode r row fields = .ret (.ok data))
    : r.decode row fields = .ret (.ok data) := by
  unfold decode at h
  rcases Outcome.bind_eq_ret h with ⟨res, hdecode, h⟩
  cases res with
  | error err => cases h
  | ok data =>
    cases h
    exact hdecode

theorem mergeRow_merges {order : GoMap.Order Bytes Bytes} {row' : Bytes}
    (h : mergeRow r order row values = .ret (.ok row'))
    : Merges r values row row' := by
  unfold mergeRow at h
  rcases Outcome.bind_eq_ret h with ⟨res, hdecode, h⟩
  cases res with
  | error err => cases h
  | ok data =>
    dsimp only at h
    split at h
    . cases h
    . next buf hencode =>
      cases h
      exact ⟨data, order, decode_of_decode hdecode, hencode⟩

end Embedded

theorem Boltdb.update_merges {order : GoMap.Order Bytes Bytes} {table key : Bytes} {store store' : Store}
    {bucket : Bucket} (hbucket : store.lookup table = some bucket) (hrow : bucket.lookup key = some row)
    (h : update r order store table key values = .ret (.ok store'))
    : ∃ row',
        Merges r values row row'
          ∧
        (store'.lookup table).bind (fun bucket => bucket.lookup key) = some row' := by
  unfold update at h
  rw [hbucket] at h
  dsimp only at h
  rw [hrow] at h
  dsimp only at h
  rcases Outcome.bind_eq_ret h with ⟨res, hmerge, h⟩
  cases res with
  | error err => cases h
  | ok buf =>
    refine ⟨buf, Embedded.mergeRow_merges hmerge, ?_⟩
    dsimp only at h
    split at h
    . cases h
    . next bucket' hput =>
      cases h
      have hbucket' : bucket' = bucket.insert key buf := by
        unfold put at hput
        grind
      simp [hbucket']

theorem Badger.update_merges {order : GoMap.Order Bytes Bytes} {table key : Bytes} {store store' : Store}
    (hrow : store.lookup (getRowKey table key) = some row)
    (h : update r order store table key values = .ret (.ok store'))
    : ∃ row', Merges r values row row' ∧ store'.lookup (getRowKey table key) = some row' := by
  unfold update at h
  dsimp only at h
  rw [hrow] at h
  dsimp only at h
  rcases Outcome.bind_eq_ret h with ⟨res, hmerge, h⟩
  cases res with
  | error err => cases h
  | ok buf =>
    cases h
    exact ⟨buf, Embedded.mergeRow_merges hmerge, AList.lookup_insert _⟩

namespace Contract

theorem Updated.merges {after : Option Bytes} (h : Updated r values row after)
    : (∃ row', Merges r values row row' ∧ after = some row') ∨ (row = [] ∧ after = some []) := by
  cases h with
  | raw hrow hexec hafter =>
    rw [← hafter]
    exact .inl (Tikv.RawDB.update_merges hrow hexec)
  | txn hrow hexec hafter =>
    rw [← hafter]
    by_cases hne : row = []
    . subst hne
      cases Tikv.TxnDB.update_nil hrow hexec
      exact .inr ⟨rfl, hrow⟩
    . exact .inl (Tikv.TxnDB.update_merges hrow hne hexec)
  | boltdb hbucket hrow hexec hafter =>
    rw [← hafter]
    exact .inl (Boltdb.update_merges hbucket hrow hexec)
  | badger hrow hexec hafter =>
    rw [← hafter]
    exact .inl (Badger.update_merges hrow hexec)

variable {p : Properties} {columns : Columns}

theorem Merges.holds (hr : r.Configured p) (hrow : Holds row columns) (hvalues : r.Accepts values) {row' : Bytes}
    (h : Merges r values row row')
    : ∃ data, r.Decoded columns data ∧ Holds row' (r.columnsOf (data.merge values)) := by
  rcases h with ⟨data, order, hdecode, hencode⟩
  rcases hrow.decode_nil r with ⟨data', hdecode', hdata⟩
  rw [hdecode'] at hdecode
  cases hdecode
  rcases RowCodec.encode_merge_holds hr hdata hrow.length hvalues.length order with ⟨buf, hbuf, _, hholds⟩
  rw [hbuf] at hencode
  cases hencode
  rw [RowCodec.columnsOf_visit hr (RowCodec.names_merge hdata hvalues.names)] at hholds
  exact ⟨_, hdata, hholds⟩

theorem columnsOf_eq_none (hr : r.Configured p) (hvalues : r.Accepts values) {c : Int}
    (h : ∀ field ∈ values, r.fieldIndex field ≠ c)
    : r.columnsOf values c = none := by
  rw [Option.eq_none_iff_forall_ne_some]
  intro v hv
  rcases (RowCodec.columnsOf_eq_some_iff hr hvalues.names).mp hv with ⟨field, _, hindex, hlookup⟩
  apply h field _ hindex
  rw [← AList.lookup_isSome, hlookup]
  rfl

theorem Merges.keeps_iff (hr : r.Configured p) (hrow : Holds row columns) (hvalues : r.Accepts values)
    {row' : Bytes} (hmerges : Merges r values row row')
    : KeepsColumns r values columns (some row')
        ↔
      ∀ c v, columns c = some v → ∃ field ∈ r.fields, r.fieldIndex field = c := by
  rcases hmerges.holds hr hrow hvalues with ⟨data, hdata, hrow'⟩
  constructor
  . rintro ⟨row'', columns', hsame, hcolumns', hkeeps⟩ c v hv
    cases hsame
    by_cases haddressed : ∀ field ∈ values, r.fieldIndex field ≠ c
    . have hcolumn := hkeeps c haddressed
      rw [hcolumns'.unique hrow', hv] at hcolumn
      exact RowCodec.configured_of_columnsOf hr (RowCodec.names_merge hdata hvalues.names) hcolumn
    . push Not at haddressed
      rcases haddressed with ⟨field, hfield, hindex⟩
      exact ⟨field, hvalues.names field hfield, hindex⟩
  . intro hcolumns
    refine ⟨row', _, rfl, hrow', ?_⟩
    intro c hc
    rw [RowCodec.columnsOf_merge hr hdata hcolumns hvalues.names, RowCodec.overlay, columnsOf_eq_none hr hvalues hc]
    rfl

theorem keepsColumns_iff (hr : newRowCodec p = .ret r) (hrow : Holds row columns)
    (hvalues : r.Accepts values) {after : Option Bytes} (hupdate : Updated r values row after)
    : KeepsColumns r values columns after
        ↔
      ∀ c v, columns c = some v → ∃ field ∈ r.fields, r.fieldIndex field = c := by
  have hr := configured_of_newRowCodec hr
  rcases hupdate.merges with ⟨row', hmerges, rfl⟩ | ⟨rfl, rfl⟩
  . exact hmerges.keeps_iff hr hrow hvalues
  . constructor
    . intro _ c v hv
      rw [hrow.unique holds_nil] at hv
      cases hv
    . intro _
      exact ⟨[], columns, rfl, hrow, fun _ _ => rfl⟩

end Contract

end

namespace Contract

open Util

def oneField : Properties where
  fieldCount := some ⟨1, I64.inRange_one⟩

def narrowValues : GoMap Bytes Bytes := GoMap.insertAll ∅ [(fieldName 0, [99])]

def wideRow : Bytes := [8, 0, 2, 2, 97, 8, 2, 2, 2, 98]

def narrowRow : Bytes := [8, 0, 2, 2, 99]

def wideData : GoMap Int Bytes := GoMap.insertAll ∅ [(0, [97]), (1, [98])]

def narrowData : GoMap Int Bytes := GoMap.insertAll ∅ [(0, [99])]

theorem holds_of_data {row : Bytes} {data : GoMap Int Bytes} (hrow : decodeRow row = .ret (data, none))
    (hlength : ∀ entry ∈ data.entries, entry.2.length < 2 ^ 63)
    : Holds row (fun c => data.lookup c) where
  data := ⟨data, hrow, fun _ => rfl⟩
  length := by
    intro c v h
    exact hlength _ (AList.mem_lookup_iff.mp h)

theorem holds_wideRow : Holds wideRow (fun c => wideData.lookup c) := holds_of_data rfl (by decide)

theorem holds_narrowRow : Holds narrowRow (fun c => narrowData.lookup c) := holds_of_data rfl (by decide)

def mergedRow : Bytes := [8, 0, 2, 2, 99, 8, 2, 2, 2, 98]

theorem keepsColumns_wide_row
    : ∃ r,
        newRowCodec Tikv.twoFields = .ret r
          ∧
        r.Accepts narrowValues
          ∧
        Updated r narrowValues wideRow (some mergedRow)
          ∧
        KeepsColumns r narrowValues (fun c => wideData.lookup c) (some mergedRow) := by
  have hupdate : ∀ r, newRowCodec Tikv.twoFields = .ret r → Updated r narrowValues wideRow (some mergedRow) := by
    intro r hr
    have hexec : ((Tikv.TxnDB.mk r).update .id [116] [107] narrowValues).exec Tikv.TxnRequest.handle
        (AList.insert [116, 58, 107] wideRow ∅) = (.ret (.ok ()), AList.insert [116, 58, 107] mergedRow ∅) := by
      cases hr
      rfl
    refine .txn ?_ hexec ?_
    . rfl
    . rfl
  refine ⟨_, rfl, ⟨by decide, by decide⟩, hupdate _ rfl, ?_⟩
  apply (keepsColumns_iff (p := Tikv.twoFields) rfl holds_wideRow ⟨by decide, by decide⟩ (hupdate _ rfl)).mpr
  intro c v h
  have hentry : (⟨c, v⟩ : Sigma (fun _ => Bytes)) ∈ wideData.entries := AList.mem_lookup_iff.mp h
  have hconfigured : ∀ entry ∈ wideData.entries, entry.1 = 0 ∨ entry.1 = 1 := by decide
  rcases hconfigured _ hentry with rfl | rfl
  . exact ⟨fieldName 0, by decide, rfl⟩
  . exact ⟨fieldName 1, by decide, rfl⟩

theorem update_drops_column
    : ∃ r,
        newRowCodec oneField = .ret r
          ∧
        r.Accepts narrowValues
          ∧
        Holds wideRow (fun c => wideData.lookup c)
          ∧
        (((Tikv.RawDB.mk r false).update (fun _ => .id) none [116] [107] narrowValues).exec Tikv.RawRequest.handle
          (AList.insert [116, 58, 107] wideRow ∅)).2.lookup [116, 58, 107] = some narrowRow
          ∧
        (((Tikv.TxnDB.mk r).update .id [116] [107] narrowValues).exec Tikv.TxnRequest.handle
          (AList.insert [116, 58, 107] wideRow ∅)).2.lookup [116, 58, 107] = some narrowRow
          ∧
        Boltdb.update r .id (AList.insert [116] (AList.insert [107] wideRow ∅) ∅) [116] [107] narrowValues
          = .ret (.ok (AList.insert [116] (AList.insert [107] narrowRow ∅) ∅))
          ∧
        Badger.update r .id (AList.insert [116, 58, 107] wideRow ∅) [116] [107] narrowValues
          = .ret (.ok (AList.insert [116, 58, 107] narrowRow ∅))
          ∧
        ¬ KeepsColumns r narrowValues (fun c => wideData.lookup c) (some narrowRow) := by
  refine ⟨_, rfl, ⟨by decide, by decide⟩, holds_wideRow, rfl, rfl, rfl, rfl, ?_⟩
  rintro ⟨row', columns', hsame, hcolumns', hkeeps⟩
  cases hsame
  have hcolumn := hkeeps 1 (by decide)
  rw [hcolumns'.unique holds_narrowRow] at hcolumn
  exact absurd hcolumn (by decide)

end Contract
