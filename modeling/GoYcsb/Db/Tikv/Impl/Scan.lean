import GoYcsb.Db.Tikv.Impl.Txn
import GoYcsb.Lib.KeyRange

/-!
This module contains `Scan` of both drivers. Both ask for the keys from a start key on and give `nil` as the end key, so
the range has no end.
-/

namespace Tikv

open KeyRange (entriesFrom)

def decodeRows (r : Util.RowCodec) (rows : List (Option Bytes)) (fields : List Bytes)
    : Outcome (Except String (List (Option FieldMap))) :=
  match rows with
  | [] => .ret (.ok [])
  | none :: rows => do
    match ← decodeRows r rows fields with
    | .error err => return .error err
    | .ok res => return .ok (none :: res)
  | some row :: rows => do
    match ← r.decode row fields with
    | .error err => return .error err
    | .ok v =>
      match ← decodeRows r rows fields with
      | .error err => return .error err
      | .ok res => return .ok (some v :: res)

inductive RawScanRequest where
  | scan (startKey : Bytes) (limit : Nat)

namespace RawScanRequest

abbrev Answer (_req : RawScanRequest) : Type := Except String (List Bytes × List (Option Bytes))

def handle (req : RawScanRequest) (store : KV) : req.Answer × KV :=
  match req with
  | .scan startKey limit =>
    let entries := (entriesFrom store startKey).take limit
    (.ok (entries.map Prod.fst, entries.map (fun entry => some entry.2)), store)

end RawScanRequest

def RawDB.scan (db : RawDB) (table startKey : Bytes) (count : Nat) (fields : List Bytes)
    : Rpc RawScanRequest RawScanRequest.Answer (Except String (List (Option FieldMap))) := do
  match ← .send (RawScanRequest.scan (getRowKey table startKey) count) with
  | .error err => return .error err
  | .ok (_, rows) => .lift (decodeRows db.r rows fields)

inductive TxnScanRequest where
  | begin
  | iter (snapshot : KV) (startKey : Bytes)
  | next
  | commit

namespace TxnScanRequest

abbrev Answer (req : TxnScanRequest) : Type :=
  match req with
  | .begin => Except String KV
  | .iter _ _ => Except String (List (Bytes × Bytes))
  | .next | .commit => Except String Unit

def handle (req : TxnScanRequest) (store : KV) : req.Answer × KV :=
  match req with
  | .begin => (.ok store, store)
  | .iter snapshot startKey => (.ok (entriesFrom snapshot startKey), store)
  | .next => (.ok (), store)
  | .commit => (.ok (), store)

end TxnScanRequest

abbrev TxnScan := Rpc TxnScanRequest TxnScanRequest.Answer

namespace TxnDB

def collectRows (count : Nat) (it : List (Bytes × Bytes)) (rows : List (Option Bytes))
    : TxnScan (Except String (List (Option Bytes))) :=
  match count, it with
  | 0, _ => return .ok rows
  | _ + 1, [] => return .ok rows
  | count + 1, (_, value) :: it => do
    match ← (.send TxnScanRequest.next : TxnScan (Except String Unit)) with
    | .error err => return .error err
    | .ok () => collectRows count it (rows ++ [some value])

def scan (db : TxnDB) (table startKey : Bytes) (count : Nat) (fields : List Bytes)
    : TxnScan (Except String (List (Option FieldMap))) := do
  match ← (.send TxnScanRequest.begin : TxnScan (Except String KV)) with
  | .error err => return .error err
  | .ok tx =>
    match ← (.send (TxnScanRequest.iter tx (getRowKey table startKey)) : TxnScan (Except String _)) with
    | .error err => return .error err
    | .ok it =>
      match ← collectRows count it [] with
      | .error err => return .error err
      | .ok rows =>
        match ← (.send TxnScanRequest.commit : TxnScan (Except String Unit)) with
        | .error err => return .error err
        | .ok () => .lift (decodeRows db.r rows fields)

end TxnDB

end Tikv
