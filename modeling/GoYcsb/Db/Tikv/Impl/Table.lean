import GoYcsb.Db.Tikv.Impl.Txn
import GoYcsb.Lib.KeyRange

/-!
This module contains what both drivers do to a whole table, `Count` and `Clean`, together with `Read` and
`Insert` of the transaction mode driver. The number of keys that the loops ask for at a time is a parameter
here, it is 10000 in the source.
-/

namespace Tikv

def endKey (table : Bytes) : Bytes := getRowKey table [] ++ [255, 255, 255, 255]

def entriesIn (store : KV) (startKey endKey : Bytes) : List (Bytes × Bytes) :=
  (KeyRange.keysIn store.keys startKey endKey).map (fun key => (key, store.get key []))

inductive RawRangeRequest where
  | scan (startKey endKey : Bytes) (limit : Nat)
  | deleteRange (startKey endKey : Bytes)

namespace RawRangeRequest

abbrev Answer (req : RawRangeRequest) : Type :=
  match req with
  | .scan _ _ _ => Except String (List Bytes × List Bytes)
  | .deleteRange _ _ => Except String Unit

def handle (req : RawRangeRequest) (store : KV) : req.Answer × KV :=
  match req with
  | .scan startKey endKey limit =>
    let entries := (entriesIn store startKey endKey).take limit
    (.ok (entries.map Prod.fst, entries.map Prod.snd), store)
  | .deleteRange startKey endKey =>
    (.ok (), store.eraseAll (KeyRange.keysIn store.keys startKey endKey))

end RawRangeRequest

abbrev RawRange := Rpc RawRangeRequest RawRangeRequest.Answer

namespace Rawkv

def scan (startKey endKey : Bytes) (limit : Nat) : RawRange (Except String (List Bytes × List Bytes)) :=
  .send (RawRangeRequest.scan startKey endKey limit)

def deleteRange (startKey endKey : Bytes) : RawRange (Except String Unit) :=
  .send (RawRangeRequest.deleteRange startKey endKey)

end Rawkv

namespace RawDB

def countLoop (batchSize : Nat) (endKey : Bytes) (fuel : Nat) (startKey : Bytes) (count : Nat)
    : RawRange (Except String Nat) :=
  match fuel with
  | 0 => .done .running
  | fuel + 1 => do
    match ← Rawkv.scan startKey endKey batchSize with
    | .error err => return .error err
    | .ok (keys, _) =>
      match keys.getLast? with
      | none => return .ok count
      | some last =>
        let count := count + keys.length
        if keys.length < batchSize then
          return .ok count
        else
          countLoop batchSize endKey fuel (last ++ [0]) count

def count (batchSize fuel : Nat) (table : Bytes) : RawRange (Except String Nat) :=
  countLoop batchSize (endKey table) fuel (getRowKey table []) 0

def clean (table : Bytes) : RawRange (Except String Unit) :=
  Rawkv.deleteRange (getRowKey table []) (endKey table)

end RawDB

inductive TxnRangeRequest where
  | begin
  | iter (snapshot : KV) (startKey endKey : Bytes)
  | next
  | delete (key : Bytes)
  | commit (deleted : List Bytes)

namespace TxnRangeRequest

abbrev Answer (req : TxnRangeRequest) : Type :=
  match req with
  | .begin => Except String KV
  | .iter _ _ _ => Except String (List (Bytes × Bytes))
  | .next | .delete _ | .commit _ => Except String Unit

def handle (req : TxnRangeRequest) (store : KV) : req.Answer × KV :=
  match req with
  | .begin => (.ok store, store)
  | .iter snapshot startKey endKey => (.ok (entriesIn snapshot startKey endKey), store)
  | .next => (.ok (), store)
  | .delete _ => (.ok (), store)
  | .commit deleted => (.ok (), store.eraseAll deleted)

end TxnRangeRequest

abbrev TxnRange := Rpc TxnRangeRequest TxnRangeRequest.Answer

namespace TxnDB

def begin : TxnRange (Except String KV) := .send TxnRangeRequest.begin

def iter (snapshot : KV) (startKey endKey : Bytes) : TxnRange (Except String (List (Bytes × Bytes))) :=
  .send (TxnRangeRequest.iter snapshot startKey endKey)

def next : TxnRange (Except String Unit) := .send TxnRangeRequest.next

def delete (key : Bytes) : TxnRange (Except String Unit) := .send (TxnRangeRequest.delete key)

def commit (deleted : List Bytes) : TxnRange (Except String Unit) := .send (TxnRangeRequest.commit deleted)

def countBatch (batchSize : Nat) (entries : List (Bytes × Bytes)) (batchCount count : Nat)
    (startKey : Bytes) : TxnRange (Except String (Nat × Nat × Bytes)) :=
  match entries with
  | [] => return .ok (batchCount, count, startKey)
  | (key, _) :: entries =>
    if batchCount < batchSize then do
      match ← next with
      | .error err => return .error err
      | .ok () => countBatch batchSize entries (batchCount + 1) (count + 1) (key ++ [0])
    else
      return .ok (batchCount, count, startKey)

def countLoop (batchSize : Nat) (snapshot : KV) (endKey : Bytes) (fuel : Nat) (startKey : Bytes)
    (count : Nat) : TxnRange (Except String Nat) :=
  match fuel with
  | 0 => .done .running
  | fuel + 1 => do
    match ← iter snapshot startKey endKey with
    | .error err => return .error err
    | .ok entries =>
      match ← countBatch batchSize entries 0 count startKey with
      | .error err => return .error err
      | .ok (batchCount, count, startKey) =>
        if batchCount < batchSize then
          return .ok count
        else
          countLoop batchSize snapshot endKey fuel startKey count

def count (batchSize fuel : Nat) (table : Bytes) : TxnRange (Except String Nat) := do
  match ← begin with
  | .error err => return .error err
  | .ok snapshot => countLoop batchSize snapshot (endKey table) fuel (getRowKey table []) 0

def collectKeys (batchSize : Nat) (entries : List (Bytes × Bytes)) (keysToDelete : List Bytes)
    : TxnRange (Except String (List Bytes)) :=
  match entries with
  | [] => return .ok keysToDelete
  | (key, _) :: entries =>
    if keysToDelete.length < batchSize then do
      match ← next with
      | .error err => return .error err
      | .ok () => collectKeys batchSize entries (keysToDelete ++ [key])
    else
      return .ok keysToDelete

def deleteKeys (keys : List Bytes) : TxnRange (Except String Unit) :=
  match keys with
  | [] => return .ok ()
  | key :: keys => do
    match ← delete key with
    | .error err => return .error err
    | .ok () => deleteKeys keys

-- A transaction that is rolled back leaves nothing behind.
def cleanLoop (batchSize : Nat) (endKey : Bytes) (fuel : Nat) (startKey : Bytes)
    : TxnRange (Except String Unit) :=
  match fuel with
  | 0 => .done .running
  | fuel + 1 => do
    match ← begin with
    | .error err => return .error err
    | .ok snapshot =>
      match ← iter snapshot startKey endKey with
      | .error err => return .error err
      | .ok entries =>
        match ← collectKeys batchSize entries [] with
        | .error err => return .error err
        | .ok keysToDelete =>
          match keysToDelete.getLast? with
          | none => return .ok ()
          | some last =>
            match ← deleteKeys keysToDelete with
            | .error err => return .error err
            | .ok () =>
              match ← commit keysToDelete with
              | .error err => return .error err
              | .ok () =>
                if keysToDelete.length < batchSize then
                  return .ok ()
                else
                  cleanLoop batchSize endKey fuel (last ++ [0])

def clean (batchSize fuel : Nat) (table : Bytes) : TxnRange (Except String Unit) :=
  cleanLoop batchSize (endKey table) fuel (getRowKey table [])

variable (db : TxnDB)

def read (table key : Bytes) (fields : List Bytes) : TxnProg (Except String (Option FieldMap)) := do
  match ← beginTxn with
  | .error err => return .error err
  | .ok tx =>
    match ← tx.get (getRowKey table key) with
    | .error .notFound => return .ok none
    | .error (.other err) => return .error err
    | .ok row =>
      match ← tx.commit with
      | .error err => return .error err
      | .ok () =>
        match ← .lift (db.r.decode row fields) with
        | .error err => return .error err
        | .ok values => return .ok (some values)

def insert (order : GoMap.Order Bytes Bytes) (table key : Bytes) (values : FieldMap)
    : TxnProg (Except String Unit) :=
  match db.r.encode [] (order.visit values) with
  | .error err => return .error err
  | .ok buf => do
    match ← beginTxn with
    | .error err => return .error err
    | .ok tx =>
      match tx.set (getRowKey table key) buf with
      | .error err => return .error err
      | .ok tx => tx.commit

end TxnDB

end Tikv
