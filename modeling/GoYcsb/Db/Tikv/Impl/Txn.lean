import GoYcsb.Db.Tikv.Impl.Raw

/-!
This module contains the updates of the transaction mode driver of `db/tikv/txn.go`. The requests are
those of the `txnkv` client. A transaction reads what was there when it began and keeps its own writes to
itself until it commits.
-/

namespace Tikv

inductive TxnError where
  | notFound
  | other (msg : String)
  deriving DecidableEq, Repr

inductive TxnRequest where
  | begin
  | get (snapshot : KV) (key : Bytes)
  | commit (buffer : KV)

namespace TxnRequest

abbrev Answer (req : TxnRequest) : Type :=
  match req with
  | .begin => Except String KV
  | .get _ _ => Except TxnError Bytes
  | .commit _ => Except String Unit

def handle (req : TxnRequest) (store : KV) : req.Answer × KV :=
  match req with
  | .begin => (.ok store, store)
  | .get snapshot key =>
    match snapshot.lookup key with
    | some value => (.ok value, store)
    | none => (.error .notFound, store)
  | .commit buffer => (.ok (), store.merge buffer)

end TxnRequest

abbrev TxnProg := Rpc TxnRequest TxnRequest.Answer

-- An empty value stands for a key that is not there.
def present (value : Bytes) : Except TxnError Bytes := if value.length = 0 then .error .notFound else .ok value

structure Txn where
  snapshot : KV
  buffer : KV

namespace Txn

def get (tx : Txn) (key : Bytes) : TxnProg (Except TxnError Bytes) :=
  match tx.buffer.lookup key with
  | some value => return .ok value
  | none => do
    match ← (.send (TxnRequest.get tx.snapshot key) : TxnProg (Except TxnError Bytes)) with
    | .error err => return .error err
    | .ok value => return present value

def set (tx : Txn) (key value : Bytes) : Except String Txn :=
  if value.length = 0 then
    .error "can not set nil value"
  else
    .ok { tx with buffer := tx.buffer.insert key value }

def commit (tx : Txn) : TxnProg (Except String Unit) := .send (TxnRequest.commit tx.buffer)

end Txn

structure TxnDB where
  r : Util.RowCodec

def createTxnDB (p : Properties) : Outcome TxnDB := do
  let r ← Util.newRowCodec p
  return { r }

def beginTxn : TxnProg (Except String Txn) := do
  match ← (.send TxnRequest.begin : TxnProg (Except String KV)) with
  | .error err => return .error err
  | .ok snapshot => return .ok { snapshot, buffer := ∅ }

namespace TxnDB

variable (db : TxnDB)

def update (order : GoMap.Order Bytes Bytes) (table key : Bytes) (values : FieldMap)
    : TxnProg (Except String Unit) := do
  let rowKey := getRowKey table key
  match ← beginTxn with
  | .error err => return .error err
  | .ok tx =>
    match ← tx.get rowKey with
    | .error .notFound => return .ok ()
    | .error (.other err) => return .error err
    | .ok row =>
      match ← .lift (db.r.decode row []) with
      | .error err => return .error err
      | .ok data =>
        match db.r.encode [] (order.visit (data.merge values)) with
        | .error err => return .error err
        | .ok buf =>
          match tx.set rowKey buf with
          | .error err => return .error err
          | .ok tx => tx.commit

def setRows (orders : Orders) (tx : Txn) (table : Bytes) (i : Nat) (keys : List Bytes)
    (values : List FieldMap) : Outcome (Except String Txn) :=
  match keys, values with
  | [], _ => .ret (.ok tx)
  | _ :: _, [] => .panic s!"runtime error: index out of range [{i}] with length {i}"
  | key :: keys, value :: values =>
    match db.r.encode [] ((orders i).visit value) with
    | .error err => .ret (.error err)
    | .ok rowData =>
      match tx.set (getRowKey table key) rowData with
      | .error err => .ret (.error err)
      | .ok tx => setRows orders tx table (i + 1) keys values

def putRows (orders : Orders) (table : Bytes) (keys : List Bytes) (values : List FieldMap)
    : TxnProg (Except String Unit) := do
  match ← beginTxn with
  | .error err => return .error err
  | .ok tx =>
    match ← .lift (db.setRows orders tx table 0 keys values) with
    | .error err => return .error err
    | .ok tx => tx.commit

def batchUpdate (orders : Orders) (table : Bytes) (keys : List Bytes) (values : List FieldMap)
    : TxnProg (Except String Unit) :=
  db.putRows orders table keys values

def batchInsert (orders : Orders) (table : Bytes) (keys : List Bytes) (values : List FieldMap)
    : TxnProg (Except String Unit) :=
  db.putRows orders table keys values

end TxnDB

end Tikv
