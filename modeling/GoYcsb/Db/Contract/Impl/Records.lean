import GoYcsb.Lib.Kv

/-!
This module contains what the `ycsb.DB` interface of `pkg/ycsb/db.go` says about the records of a table, together with
the drivers that keep them in a key-value store.
-/

namespace Contract

abbrev FieldMap := GoMap Bytes Bytes

/--
The methods of a `ycsb.DB` whose server stores byte strings under keys of type `K`.
-/
structure DB (K : Type) where
  read (table key : Bytes) (fields : List Bytes) : Kv.Prog K (Except Bytes FieldMap)
  update (table key : Bytes) (values : FieldMap) : Kv.Prog K (Except Bytes Unit)
  insert (table key : Bytes) (values : FieldMap) : Kv.Prog K (Except Bytes Unit)
  delete (table key : Bytes) : Kv.Prog K (Except Bytes Unit)

inductive Op where
  | read (key : Bytes) (fields : List Bytes)
  | update (key : Bytes) (values : FieldMap)
  | insert (key : Bytes) (values : FieldMap)
  | delete (key : Bytes)

abbrev Records := Bytes → Option FieldMap

namespace Op

def key (op : Op) : Bytes :=
  match op with
  | .read key _ | .update key _ | .insert key _ | .delete key => key

def change (op : Op) (record : Option FieldMap) : Option FieldMap :=
  match op with
  | .read _ _ => record
  | .update _ values => some ((record.getD ∅).merge values)
  | .insert _ values => some values
  | .delete _ => none

def overwrite (op : Op) (written : Option FieldMap) : Option FieldMap :=
  match op with
  | .read _ _ => written
  | .update _ values | .insert _ values => some values
  | .delete _ => none

end Op

def records (ops : List Op) : Records := fun key =>
  ops.foldl (fun record op => if op.key = key then op.change record else record) none

def lastWritten (ops : List Op) : Records := fun key =>
  ops.foldl (fun written op => if op.key = key then op.overwrite written else written) none

-- `nil` and the empty list stand for all fields.
def Requested (fields : List Bytes) (field : Bytes) : Prop := fields = [] ∨ field ∈ fields

instance (fields : List Bytes) (field : Bytes) : Decidable (Requested fields field) :=
  inferInstanceAs (Decidable (_ ∨ _))

def IsSelection (record : FieldMap) (fields : List Bytes) (values : FieldMap) : Prop :=
  ∀ field, values.lookup field = if Requested fields field then record.lookup field else none

namespace DB

variable {K : Type} [DecidableEq K] (db : DB K) (table : Bytes)

def serve (op : Op) (store : Kv.Store K) : Kv.Store K :=
  match op with
  | .read key fields => (Rpc.exec Kv.Request.handle (db.read table key fields) store).2
  | .update key values => (Rpc.exec Kv.Request.handle (db.update table key values) store).2
  | .insert key values => (Rpc.exec Kv.Request.handle (db.insert table key values) store).2
  | .delete key => (Rpc.exec Kv.Request.handle (db.delete table key) store).2

def storeAfter (ops : List Op) : Kv.Store K := ops.foldl (fun store op => db.serve table op store) ∅

/--
Each read of a record that is there returns its requested fields.
-/
def ReadsRecords (ops : List Op) : Prop :=
  ∀ before key fields after record, ops = before ++ .read key fields :: after → records before key = some record →
    ∃ values store,
      Rpc.exec Kv.Request.handle (db.read table key fields) (db.storeAfter table before) = (.ret (.ok values), store)
        ∧
      IsSelection record fields values

end DB

end Contract
