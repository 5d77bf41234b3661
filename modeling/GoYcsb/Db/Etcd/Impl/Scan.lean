import GoYcsb.Db.Etcd.Impl.Db
import GoYcsb.Lib.KeyRange

/-!
This module contains `Scan` of `db/etcd/db.go`. A range request answers with the entries it was limited to, together
with the number of all that lie in the range.
-/

namespace Etcd

open Contract

structure RangeResponse where
  kvs : List (Bytes × Bytes)
  count : Nat

-- `Get` with `WithFromKey` and `WithLimit`.
inductive RangeRequest where
  | fromKey (key : Bytes) (limit : Nat)

namespace RangeRequest

abbrev Answer (_req : RangeRequest) : Type := Except Bytes RangeResponse

-- All requests succeed. The limit zero is none.
def handle (req : RangeRequest) (store : Kv.Store Bytes) : req.Answer × Kv.Store Bytes :=
  match req with
  | .fromKey key limit =>
    let kvs := KeyRange.entriesFrom store key
    (.ok { kvs := if limit = 0 then kvs else kvs.take limit, count := kvs.length }, store)

end RangeRequest

def appendRows (json : Json) (kvs : List (Bytes × Bytes)) (res : List (Option FieldMap))
    : Except Bytes (List (Option FieldMap)) :=
  match kvs with
  | [] => .ok res
  | (_, value) :: kvs =>
    match json.unmarshal value (.pointer ∅) with
    | (some err, _) => .error err
    | (none, r) => appendRows json kvs (res ++ [some r])

def unexpectedNumber (rkey : Bytes) (expected was : Nat) : Bytes :=
  Bytes.ofAscii "unexpected number of result for key [" ++ rkey ++ Bytes.ofAscii "], expected "
    ++ Bytes.decimal expected ++ Bytes.ofAscii " but was " ++ Bytes.decimal was

def scan (json : Json) (table startKey : Bytes) (count : Nat) (_fields : List Bytes)
    : Rpc RangeRequest RangeRequest.Answer (Except Bytes (List (Option FieldMap))) := do
  let res := List.replicate count none
  let rkey := getRowKey table startKey
  match ← .send (RangeRequest.fromKey rkey count) with
  | .error err => return .error err
  | .ok values =>
    if values.count ≠ count then
      return .error (unexpectedNumber rkey count values.count)
    else
      return appendRows json values.kvs res

end Etcd
