import GoYcsb.Db.Embedded.Impl.Row
import GoYcsb.Lib.KeyRange

/-!
This module contains `Scan` and `Update` of `db/boltdb/db.go`. A table is a bucket, and a transaction that ends with an
error leaves the buckets as they were.
-/

namespace Boltdb

open Embedded

abbrev Bucket := GoMap Bytes Bytes

abbrev Store := GoMap Bytes Bucket

def tableNotFound (table : Bytes) : Bytes := Bytes.ofAscii "table not found: " ++ table

def keyNotFound (table key : Bytes) : Bytes := Bytes.ofAscii "key not found: " ++ table ++ [46] ++ key

def scan (r : Util.RowCodec) (store : Store) (table startKey : Bytes) (count : Nat) (fields : List Bytes)
    : Outcome (List (Option FieldMap) × Option Bytes) :=
  let res := List.replicate count none
  match store.lookup table with
  | none => .ret (res, some (tableNotFound table))
  | some bucket => fillRows r fields count 0 (KeyRange.entriesFrom bucket startKey) res

def put (bucket : Bucket) (key value : Bytes) : Except Bytes Bucket :=
  if key.length = 0 then
    .error (Bytes.ofAscii "key required")
  else if 32768 < key.length then
    .error (Bytes.ofAscii "key too large")
  else if 2 ^ 31 - 2 < value.length then
    .error (Bytes.ofAscii "value too large")
  else
    .ok (bucket.insert key value)

def update (r : Util.RowCodec) (order : GoMap.Order Bytes Bytes) (store : Store) (table key : Bytes)
    (values : FieldMap) : Outcome (Except Bytes Store) :=
  match store.lookup table with
  | none => .ret (.error (tableNotFound table))
  | some bucket =>
    match bucket.lookup key with
    | none => .ret (.error (keyNotFound table key))
    | some value => do
      match ← mergeRow r order value values with
      | .error err => return .error err
      | .ok buf =>
        match put bucket key buf with
        | .error err => return .error err
        | .ok bucket => return .ok (store.insert table bucket)

end Boltdb
