import GoYcsb.Db.Tikv.Impl.Table

/-!
This module contains `BatchRead` of the transaction mode driver, together with stores on which each key has an outcome
of its own when somebody gets it.
-/

namespace Tikv

namespace TxnDB

variable (db : TxnDB)

-- A value that is `nil`, for whatever reason, gives a record that is `nil`.
def readRows (tx : Txn) (table : Bytes) (keys fields : List Bytes) : TxnProg (Except String (List (Option FieldMap))) :=
  match keys with
  | [] => return .ok []
  | key :: keys => do
    match ← tx.get (getRowKey table key) with
    | .error _ =>
      match ← readRows tx table keys fields with
      | .error err => return .error err
      | .ok rowValues => return .ok (none :: rowValues)
    | .ok value =>
      match ← .lift (db.r.decode value fields) with
      | .error err => return .error err
      | .ok row =>
        match ← readRows tx table keys fields with
        | .error err => return .error err
        | .ok rowValues => return .ok (some row :: rowValues)

def batchRead (table : Bytes) (keys fields : List Bytes) : TxnProg (Except String (List (Option FieldMap))) := do
  match ← beginTxn with
  | .error err => return .error err
  | .ok tx => db.readRows tx table keys fields

end TxnDB

/--
What becomes of a `Get` of each key: it finds a value or none, or it fails.
-/
abbrev Gets := Bytes → Except String (Option Bytes)

namespace Gets

def batchGet (gets : Gets) (keys : List Bytes) : Except String (List (Option Bytes)) :=
  match keys with
  | [] => .ok []
  | key :: keys =>
    match gets key with
    | .error err => .error err
    | .ok value =>
      match batchGet gets keys with
      | .error err => .error err
      | .ok values => .ok (value :: values)

def handleRaw (gets : Gets) (req : RawRequest) (store : KV) : req.Answer × KV :=
  match req with
  | .get key => (gets key, store)
  | .batchGet keys => (gets.batchGet keys, store)
  | .put key value => RawRequest.handle (.put key value) store
  | .batchPut keys values => RawRequest.handle (.batchPut keys values) store
  | .delete key => RawRequest.handle (.delete key) store
  | .batchDelete keys => RawRequest.handle (.batchDelete keys) store
  | .compareAndSwap key previousValue newValue =>
    RawRequest.handle (.compareAndSwap key previousValue newValue) store

def handleTxn (gets : Gets) (req : TxnRequest) (store : KV) : req.Answer × KV :=
  match req with
  | .begin => (.ok store, store)
  | .get _ key =>
    match gets key with
    | .error err => (.error (.other err), store)
    | .ok none => (.error .notFound, store)
    | .ok (some value) => (.ok value, store)
  | .commit buffer => (.ok (), store.merge buffer)

end Gets

end Tikv
