import GoYcsb.Db.Contract.Impl.Records
import GoYcsb.Lib.Json

/-!
This module contains the driver of `db/etcd/db.go` without `Scan`.
-/

namespace Etcd

open Contract

def getRowKey (table key : Bytes) : Bytes := table ++ [58] ++ key

variable (json : Json)

def read (table key : Bytes) (_fields : List Bytes) : Kv.Prog Bytes (Except Bytes FieldMap) := do
  let rkey := getRowKey table key
  match ← Kv.get rkey with
  | .error err => return .error err
  | .ok none => return .error (Bytes.ofAscii "could not find value for key [" ++ rkey ++ Bytes.ofAscii "]")
  | .ok (some value) =>
    match json.unmarshal value (.pointer ∅) with
    | (some err, _) => return .error err
    | (none, r) => return .ok r

def update (table key : Bytes) (values : FieldMap) : Kv.Prog Bytes (Except Bytes Unit) := do
  let rkey := getRowKey table key
  match json.marshal values with
  | .error err => return .error err
  | .ok data =>
    match ← Kv.put rkey data with
    | .error err => return .error err
    | .ok () => return .ok ()

def insert (table key : Bytes) (values : FieldMap) : Kv.Prog Bytes (Except Bytes Unit) :=
  update json table key values

def delete (table key : Bytes) : Kv.Prog Bytes (Except Bytes Unit) := do
  match ← Kv.delete (getRowKey table key) with
  | .error err => return .error err
  | .ok () => return .ok ()

def etcdDB : DB Bytes where
  read := read json
  update := update json
  insert := insert json
  delete := delete

end Etcd
