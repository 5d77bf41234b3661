import GoYcsb.Db.Contract.Impl.Records
import GoYcsb.Lib.Json

/-!
This module contains the driver of `db/pegasus/db.go`. The table is the one that the session was opened for. A key of
the server is a hash key together with a sort key.
-/

namespace Pegasus

open Contract

abbrev Key := Bytes × Bytes

variable (json : Json)

def selectFields (value : FieldMap) (fields : List Bytes) (result : FieldMap) : FieldMap :=
  match fields with
  | [] => result
  | field :: fields =>
    match value.lookup field with
    | some v => selectFields value fields (result.insert field v)
    | none => selectFields value fields result

def read (_table key : Bytes) (fields : List Bytes) : Kv.Prog Key (Except Bytes FieldMap) := do
  match ← Kv.get (key, []) with
  | .ok rawValue =>
    -- The map is passed instead of its address, and nobody looks at the error.
    let value := (json.unmarshal (rawValue.getD []) (.value ∅)).2
    return .ok (selectFields value fields ∅)
  | .error err => return .error err

-- The error of `json.Marshal` is dropped. The sort key is `nil`, which is no other key than the empty one.
def update (_table key : Bytes) (values : FieldMap) : Kv.Prog Key (Except Bytes Unit) :=
  Kv.put (key, []) (json.encode values)

def insert (_table key : Bytes) (values : FieldMap) : Kv.Prog Key (Except Bytes Unit) :=
  Kv.put (key, []) (json.encode values)

def delete (_table key : Bytes) : Kv.Prog Key (Except Bytes Unit) := Kv.delete (key, [])

def pegasusDB : DB Key where
  read := read json
  update := update json
  insert := insert json
  delete := delete

end Pegasus
