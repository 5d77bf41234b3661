import GoYcsb.Db.Embedded.Impl.Row
import GoYcsb.Lib.KeyRange

/-!
This module contains `Scan` and `Update` of `db/badger/db.go`. All tables share one store.
-/

namespace Badger

open Embedded

abbrev Store := GoMap Bytes Bytes

def getRowKey (table key : Bytes) : Bytes := table ++ [58] ++ key

def scan (r : Util.RowCodec) (store : Store) (table startKey : Bytes) (count : Nat) (fields : List Bytes)
    : Outcome (List (Option FieldMap) × Option Bytes) :=
  let res := List.replicate count none
  fillRows r fields count 0 (KeyRange.entriesFrom store (getRowKey table startKey)) res

def update (r : Util.RowCodec) (order : GoMap.Order Bytes Bytes) (store : Store) (table key : Bytes)
    (values : FieldMap) : Outcome (Except Bytes Store) :=
  let rowKey := getRowKey table key
  match store.lookup rowKey with
  | none => .ret (.error (Bytes.ofAscii "Key not found"))
  | some value => do
    match ← mergeRow r order value values with
    | .error err => return .error err
    | .ok buf => return .ok (store.insert rowKey buf)

end Badger
