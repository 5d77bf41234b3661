import GoYcsb.Db.Contract.Impl.Records

/-!
This module contains the store of a driver that puts each record as a whole under a key of its own.
-/

namespace Contract

theorem records_concat (ops : List Op) (op : Op) (key : Bytes)
    : records (ops ++ [op]) key
        =
      if op.key = key then op.change (records ops key) else records ops key := by
  unfold records
  rw [List.foldl_concat]

theorem lastWritten_concat (ops : List Op) (op : Op) (key : Bytes)
    : lastWritten (ops ++ [op]) key
        =
      if op.key = key then op.overwrite (lastWritten ops key) else lastWritten ops key := by
  unfold lastWritten
  rw [List.foldl_concat]

def Covers (record written : FieldMap) : Prop :=
  ∀ field value, written.lookup field = some value → record.lookup field = some value

theorem Covers.refl (record : FieldMap) : Covers record record := fun _ _ h => h

theorem covers_merge (record values : FieldMap) : Covers (record.merge values) values := by
  intro field value hvalue
  rw [GoMap.lookup_merge, hvalue, Option.some_or]

theorem Covers.mem {record written : FieldMap} (h : Covers record written) {field : Bytes} (hmem : field ∈ written)
    : field ∈ record := by
  rcases Option.isSome_iff_exists.mp (AList.lookup_isSome.mpr hmem) with ⟨value, hvalue⟩
  rw [← AList.lookup_isSome, h field value hvalue]
  rfl

theorem Covers.lookup_eq {record written : FieldMap} (h : Covers record written) {field : Bytes}
    (hmem : field ∈ written)
    : written.lookup field = record.lookup field := by
  rcases Option.isSome_iff_exists.mp (AList.lookup_isSome.mpr hmem) with ⟨value, hvalue⟩
  rw [hvalue, h field value hvalue]

theorem exists_lastWritten {ops : List Op} {key : Bytes} {record : FieldMap} (h : records ops key = some record)
    : ∃ written, lastWritten ops key = some written ∧ Covers record written := by
  induction ops using List.reverseRecOn generalizing record with
  | nil => cases h
  | append_singleton ops op ih =>
    rw [records_concat] at h
    rw [lastWritten_concat]
    split at h
    . next heq =>
      rw [if_pos heq]
      cases op with
      | read key' fields => exact ih h
      | update key' values =>
        cases h
        exact ⟨values, rfl, covers_merge _ values⟩
      | insert key' values =>
        cases h
        exact ⟨record, rfl, Covers.refl record⟩
      | delete key' => cases h
    . next hne =>
      rw [if_neg hne]
      exact ih h

namespace DB

variable {K : Type} [DecidableEq K] {db : DB K} {table : Bytes} {rowKey : Bytes → K} {encode : FieldMap → Bytes}

/--
Each write replaces the whole record by an encoding of the fields it came with.
-/
structure Replaces (db : DB K) (table : Bytes) (rowKey : Bytes → K) (encode : FieldMap → Bytes) : Prop where
  injective : Function.Injective rowKey
  read : ∀ key fields store, db.serve table (.read key fields) store = store
  update : ∀ key values store, db.serve table (.update key values) store = store.insert (rowKey key) (encode values)
  insert : ∀ key values store, db.serve table (.insert key values) store = store.insert (rowKey key) (encode values)
  delete : ∀ key store, db.serve table (.delete key) store = store.erase (rowKey key)

theorem storeAfter_concat (db : DB K) (table : Bytes) (ops : List Op) (op : Op)
    : db.storeAfter table (ops ++ [op]) = db.serve table op (db.storeAfter table ops) := by
  unfold storeAfter
  rw [List.foldl_concat]

theorem Replaces.lookup_serve_self (h : db.Replaces table rowKey encode) (op : Op) (store : Kv.Store K)
    {written : Option FieldMap} (hstore : store.lookup (rowKey op.key) = written.map encode)
    : (db.serve table op store).lookup (rowKey op.key) = (op.overwrite written).map encode := by
  cases op with
  | read key fields =>
    rw [h.read]
    exact hstore
  | update key values =>
    rw [h.update]
    exact AList.lookup_insert _
  | insert key values =>
    rw [h.insert]
    exact AList.lookup_insert _
  | delete key =>
    rw [h.delete]
    exact AList.lookup_erase _ _

theorem Replaces.lookup_serve_of_ne (h : db.Replaces table rowKey encode) {op : Op} (store : Kv.Store K) {key : Bytes}
    (hne : op.key ≠ key)
    : (db.serve table op store).lookup (rowKey key) = store.lookup (rowKey key) := by
  have hrow : rowKey key ≠ rowKey op.key := fun heq => hne (h.injective heq).symm
  cases op with
  | read key' fields => rw [h.read]
  | update key' values =>
    rw [h.update]
    exact AList.lookup_insert_ne hrow
  | insert key' values =>
    rw [h.insert]
    exact AList.lookup_insert_ne hrow
  | delete key' =>
    rw [h.delete]
    exact AList.lookup_erase_ne hrow

theorem Replaces.lookup_storeAfter (h : db.Replaces table rowKey encode) (ops : List Op) (key : Bytes)
    : (db.storeAfter table ops).lookup (rowKey key) = (lastWritten ops key).map encode := by
  induction ops using List.reverseRecOn with
  | nil => rfl
  | append_singleton ops op ih =>
    rw [storeAfter_concat, lastWritten_concat]
    split
    . next heq =>
      subst heq
      exact h.lookup_serve_self op _ ih
    . next hne => rw [h.lookup_serve_of_ne _ hne, ih]

end DB

/--
A condition on the record, on the fields of its last write and on the requested fields at each read of a record that is
there.
-/
def EachRead (cond : FieldMap → FieldMap → List Bytes → Prop) (ops : List Op) : Prop :=
  ∀ before key fields after record written, ops = before ++ .read key fields :: after →
    records before key = some record → lastWritten before key = some written → cond record written fields

theorem DB.Replaces.readsRecords_iff {K : Type} [DecidableEq K] {db : DB K} {table : Bytes} {rowKey : Bytes → K}
    {encode : FieldMap → Bytes} {cond : FieldMap → FieldMap → List Bytes → Prop} (h : db.Replaces table rowKey encode)
    (hread : ∀ key fields store record written, store.lookup (rowKey key) = some (encode written) →
      Covers record written →
        ((∃ values after,
          Rpc.exec Kv.Request.handle (db.read table key fields) store = (.ret (.ok values), after)
            ∧
          IsSelection record fields values)
          ↔
        cond record written fields))
    (ops : List Op)
    : db.ReadsRecords table ops ↔ EachRead cond ops := by
  constructor
  . intro hreads before key fields after record written hops hrecord hwritten
    rcases exists_lastWritten hrecord with ⟨written', hwritten', hcovers⟩
    rw [hwritten, Option.some.injEq] at hwritten'
    subst hwritten'
    rw [← hread key fields (db.storeAfter table before) record written ?_ hcovers]
    . exact hreads before key fields after record hops hrecord
    . rw [h.lookup_storeAfter, hwritten, Option.map_some]
  . intro hcond before key fields after record hops hrecord
    rcases exists_lastWritten hrecord with ⟨written, hwritten, hcovers⟩
    rw [hread key fields (db.storeAfter table before) record written ?_ hcovers]
    . exact hcond before key fields after record written hops hrecord hwritten
    . rw [h.lookup_storeAfter, hwritten, Option.map_some]

end Contract
