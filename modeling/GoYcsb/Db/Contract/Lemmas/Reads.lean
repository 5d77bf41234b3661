import GoYcsb.Db.Contract.Lemmas.Records
import GoYcsb.Db.Etcd.Impl.Db
import GoYcsb.Db.Pegasus.Impl.Db

/-!
This module contains when the drivers from `GoYcsb.Db.Etcd.Impl.Db` and `GoYcsb.Db.Pegasus.Impl.Db` read the records
that were written.
-/

namespace Etcd

open Contract

variable {json : Json}

theorem getRowKey_injective (table : Bytes) : Function.Injective (getRowKey table) := by
  intro key key' heq
  exact List.append_cancel_left heq

theorem exec_update (table key : Bytes) (values : FieldMap) (store : Kv.Store Bytes)
    : Rpc.exec Kv.Request.handle (update json table key values) store
        =
      (.ret (.ok ()), store.insert (getRowKey table key) (json.encode values)) := by
  unfold update
  rw [json.marshal_eq]
  rfl

theorem exec_read {table key : Bytes} {written values : FieldMap} {store : Kv.Store Bytes}
    (hstore : store.lookup (getRowKey table key) = some (json.encode written))
    (hdecode : json.decode (json.encode written) = .ok values) (fields : List Bytes)
    : Rpc.exec Kv.Request.handle (read json table key fields) store
        =
      (.ret (.ok (GoMap.merge ∅ values)), store) := by
  unfold read Kv.get
  simp [Kv.Request.handle, hstore, Json.unmarshal_pointer hdecode]

theorem serve_read (table key : Bytes) (fields : List Bytes) (store : Kv.Store Bytes)
    : (Rpc.exec Kv.Request.handle (read json table key fields) store).2 = store := by
  unfold read Kv.get
  rw [Rpc.send_bind, Rpc.exec_call, Kv.Request.handle]
  split
  . rfl
  . rfl
  . split
    . rfl
    . rfl

theorem replaces (json : Json) (table : Bytes)
    : (etcdDB json).Replaces table (getRowKey table) json.encode where
  injective := getRowKey_injective table
  read := fun key fields store => serve_read table key fields store
  update := fun key values store => congrArg Prod.snd (exec_update table key values store)
  insert := fun key values store => congrArg Prod.snd (exec_update table key values store)
  delete := fun _ _ => rfl

def WritesRequested (record written : FieldMap) (fields : List Bytes) : Prop :=
  ∀ field ∈ record, field ∈ written ↔ Requested fields field

theorem isSelection_iff {record written : FieldMap} (h : Covers record written) (fields : List Bytes)
    : IsSelection record fields written ↔ WritesRequested record written fields := by
  constructor
  . intro hselection field hmem
    rw [← AList.lookup_isSome, hselection field]
    split
    . next hrequested => simp [hrequested, AList.lookup_isSome, hmem]
    . next hother => simp [hother]
  . intro hwrites field
    by_cases hmem : field ∈ record
    . split
      . next hrequested => exact h.lookup_eq ((hwrites field hmem).mpr hrequested)
      . next hother =>
        rw [AList.lookup_eq_none, hwrites field hmem]
        exact hother
    . have hwritten : field ∉ written := fun hfield => hmem (h.mem hfield)
      rw [AList.lookup_eq_none.mpr hwritten, AList.lookup_eq_none.mpr hmem, ite_self]

theorem readsRecords_iff (json : Json) (table : Bytes) (ops : List Op)
    : (etcdDB json).ReadsRecords table ops ↔ EachRead WritesRequested ops := by
  apply (replaces json table).readsRecords_iff
  intro key fields store record written hstore hcovers
  rcases json.exists_decode_encode written with ⟨values, hdecode, hlookup⟩
  have hexec := exec_read hstore hdecode fields
  have hmerge : ∀ field, (GoMap.merge ∅ values).lookup field = written.lookup field := by
    intro field
    rw [GoMap.lookup_merge, AList.lookup_empty, Option.or_none, hlookup]
  rw [← isSelection_iff hcovers]
  constructor
  . rintro ⟨values', after, hread, hselection⟩ field
    have heq := hexec.symm.trans hread
    cases heq
    rw [← hmerge, hselection field]
  . intro hselection
    refine ⟨_, _, hexec, ?_⟩
    intro field
    rw [hmerge, hselection field]

end Etcd

namespace Pegasus

open Contract

variable {json : Json}

theorem selectFields_empty (fields : List Bytes) (result : FieldMap) : selectFields ∅ fields result = result := by
  induction fields generalizing result with
  | nil => rfl
  | cons field fields ih => exact ih result

theorem exec_read (table key : Bytes) (fields : List Bytes) (store : Kv.Store Key)
    : Rpc.exec Kv.Request.handle (read json table key fields) store = (.ret (.ok ∅), store) := by
  unfold read Kv.get
  simp [Kv.Request.handle, Json.unmarshal_value, selectFields_empty]

theorem replaces (json : Json) (table : Bytes)
    : (pegasusDB json).Replaces table (fun key => (key, [])) json.encode where
  injective := fun _ _ heq => congrArg Prod.fst heq
  read := fun key fields store => congrArg Prod.snd (exec_read table key fields store)
  update := fun _ _ _ => rfl
  insert := fun _ _ _ => rfl
  delete := fun _ _ => rfl

def NoneRequested (record _written : FieldMap) (fields : List Bytes) : Prop :=
  ∀ field ∈ record, ¬ Requested fields field

theorem isSelection_empty_iff (record written : FieldMap) (fields : List Bytes)
    : IsSelection record fields ∅ ↔ NoneRequested record written fields := by
  constructor
  . intro hselection field hmem hrequested
    have hnone := hselection field
    rw [if_pos hrequested, AList.lookup_empty, eq_comm, AList.lookup_eq_none] at hnone
    exact hnone hmem
  . intro hnone field
    rw [AList.lookup_empty]
    split
    . next hrequested =>
      rw [eq_comm, AList.lookup_eq_none]
      intro hmem
      exact hnone field hmem hrequested
    . rfl

theorem readsRecords_iff (json : Json) (table : Bytes) (ops : List Op)
    : (pegasusDB json).ReadsRecords table ops ↔ EachRead NoneRequested ops := by
  apply (replaces json table).readsRecords_iff
  intro key fields store record written _ _
  have hexec : Rpc.exec Kv.Request.handle ((pegasusDB json).read table key fields) store = (.ret (.ok ∅), store) :=
    exec_read table key fields store
  rw [← isSelection_empty_iff record written]
  constructor
  . rintro ⟨values, after, hread, hselection⟩
    have heq := hexec.symm.trans hread
    cases heq
    exact hselection
  . intro hselection
    exact ⟨_, _, hexec, hselection⟩

end Pegasus

namespace Contract

theorem readsRecords_iff_eachRead (json : Json) (table : Bytes) (ops : List Op)
    : ((Etcd.etcdDB json).ReadsRecords table ops ↔ EachRead Etcd.WritesRequested ops)
        ∧
      ((Pegasus.pegasusDB json).ReadsRecords table ops ↔ EachRead Pegasus.NoneRequested ops) := by
  constructor
  . apply Etcd.readsRecords_iff
  . apply Pegasus.readsRecords_iff

theorem readsRecords_inserted_record
    : (Etcd.etcdDB Json.quoted).ReadsRecords (Bytes.ofAscii "usertable")
        [
          .insert (Bytes.ofAscii "user0") (GoMap.insertAll ∅ [(Bytes.ofAscii "a", [1])]),
          .read (Bytes.ofAscii "user0") []
        ] := by
  apply (readsRecords_iff_eachRead _ _ _).1.mpr
  intro before key fields after record written hops hrecord hwritten
  cases before with
  | nil => cases hops
  | cons op before =>
    cases before with
    | nil =>
      cases hops
      cases hrecord
      cases hwritten
      intro field hmem
      simp [hmem, Requested]
    | cons op' before => simp at hops

theorem read_loses_fields
    : ¬ (Etcd.etcdDB Json.quoted).ReadsRecords (Bytes.ofAscii "usertable")
        [
          .insert (Bytes.ofAscii "user0") (GoMap.insertAll ∅ [(Bytes.ofAscii "a", [1]), (Bytes.ofAscii "b", [2])]),
          .update (Bytes.ofAscii "user0") (GoMap.insertAll ∅ [(Bytes.ofAscii "a", [3])]),
          .read (Bytes.ofAscii "user0") []
        ]
        ∧
      ¬ (Pegasus.pegasusDB Json.quoted).ReadsRecords (Bytes.ofAscii "usertable")
        [
          .insert (Bytes.ofAscii "user0") (GoMap.insertAll ∅ [(Bytes.ofAscii "a", [1])]),
          .read (Bytes.ofAscii "user0") [Bytes.ofAscii "a"]
        ] := by
  constructor
  . intro h
    rcases h [_, _] _ _ [] _ rfl rfl with ⟨values, store, hread, hselection⟩
    have hvalues : values.lookup (Bytes.ofAscii "b") = none := by
      cases hread
      decide
    have hb := hselection (Bytes.ofAscii "b")
    rw [hvalues] at hb
    revert hb
    decide
  . intro h
    rcases h [_] _ _ [] _ rfl rfl with ⟨values, store, hread, hselection⟩
    have hvalues : values.lookup (Bytes.ofAscii "a") = none := by
      cases hread
      decide
    have ha := hselection (Bytes.ofAscii "a")
    rw [hvalues] at ha
    revert ha
    decide

end Contract
