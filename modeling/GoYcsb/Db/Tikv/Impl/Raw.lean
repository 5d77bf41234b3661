import GoYcsb.Lib.Rpc
import GoYcsb.Util.Impl.RowCodec

/-!
This module contains the raw mode driver of `db/tikv/raw.go`. The requests are the calls of the `rawkv`
client. The loops over maps that one call of the driver makes have the orders `orders 0`, `orders 1`
and so on.
-/

namespace Tikv

abbrev KV := GoMap Bytes Bytes

abbrev FieldMap := GoMap Bytes Bytes

abbrev Orders := Nat → GoMap.Order Bytes Bytes

inductive RawRequest where
  | get (key : Bytes)
  | batchGet (keys : List Bytes)
  | put (key value : Bytes)
  | batchPut (keys values : List Bytes)
  | delete (key : Bytes)
  | batchDelete (keys : List Bytes)
  | compareAndSwap (key previousValue newValue : Bytes)
  deriving DecidableEq, Repr

namespace RawRequest

-- The value of a key that is not there is `nil`.
abbrev Value (req : RawRequest) : Type :=
  match req with
  | .get _ => Option Bytes
  | .batchGet _ => List (Option Bytes)
  | .compareAndSwap _ _ _ => Option Bytes × Bool
  | .put _ _ | .batchPut _ _ | .delete _ | .batchDelete _ => Unit

abbrev Answer (req : RawRequest) : Type := Except String req.Value

def apply (req : RawRequest) (store : KV) : req.Value × KV :=
  match req with
  | .get key => (store.lookup key, store)
  | .batchGet keys => (keys.map (fun key => store.lookup key), store)
  | .put key value => ((), store.insert key value)
  | .batchPut keys values => ((), store.insertAll (keys.zip values))
  | .delete key => ((), store.erase key)
  | .batchDelete keys => ((), keys.foldl (fun store key => store.erase key) store)
  | .compareAndSwap key previousValue newValue =>
    if store.lookup key = some previousValue then
      ((store.lookup key, true), store.insert key newValue)
    else
      ((store.lookup key, false), store)

def handle (req : RawRequest) (store : KV) : req.Answer × KV :=
  (.ok (req.apply store).1, (req.apply store).2)

end RawRequest

abbrev Raw := Rpc RawRequest RawRequest.Answer

namespace Rawkv

def get (key : Bytes) : Raw (Except String (Option Bytes)) := .send (RawRequest.get key)

def batchGet (keys : List Bytes) : Raw (Except String (List (Option Bytes))) :=
  .send (RawRequest.batchGet keys)

def put (key value : Bytes) : Raw (Except String Unit) := .send (RawRequest.put key value)

def batchPut (keys values : List Bytes) : Raw (Except String Unit) :=
  .send (RawRequest.batchPut keys values)

def delete (key : Bytes) : Raw (Except String Unit) := .send (RawRequest.delete key)

def batchDelete (keys : List Bytes) : Raw (Except String Unit) := .send (RawRequest.batchDelete keys)

def compareAndSwap (key previousValue newValue : Bytes) : Raw (Except String (Option Bytes × Bool)) :=
  .send (RawRequest.compareAndSwap key previousValue newValue)

end Rawkv

structure RawDBState where
  key : Bytes
  row : Option Bytes
  deriving DecidableEq, Repr

structure RawDB where
  r : Util.RowCodec
  casMode : Bool

def createRawDB (p : Properties) : Outcome RawDB := do
  let casMode := (p.tikvUpdateMode.getD "getput").toLower == "cas"
  let r ← Util.newRowCodec p
  return { r, casMode }

def getRowKey (table key : Bytes) : Bytes := table ++ [58] ++ key

namespace RawDB

variable (db : RawDB)

def initThread : RawDBState where
  key := []
  row := none

def read (ctx : Option RawDBState) (table key : Bytes) (fields : List Bytes)
    : Raw (Except String (Option FieldMap) × Option RawDBState) := do
  let rowKey := getRowKey table key
  match ← Rawkv.get rowKey with
  | .error err => return (.error err, ctx)
  | .ok none => return (.ok none, ctx)
  | .ok (some row) =>
    let ctx := if db.casMode then ctx.map (fun _ => ⟨rowKey, some row⟩) else ctx
    match ← .lift (db.r.decode row fields) with
    | .error err => return (.error err, ctx)
    | .ok values => return (.ok (some values), ctx)

-- An error of `Decode` is dropped.
def decodeValue (value : Option Bytes) (fields : List Bytes) : Outcome (Option FieldMap) := do
  let value := value.getD []
  if 0 < value.length then
    match ← db.r.decode value fields with
    | .error _ => return none
    | .ok row => return some row
  else
    return none

def decodeValues (values : List (Option Bytes)) (fields : List Bytes)
    : Outcome (List (Option FieldMap)) :=
  match values with
  | [] => .ret []
  | value :: values => do
    let row ← db.decodeValue value fields
    let rows ← decodeValues values fields
    return row :: rows

def batchRead (table : Bytes) (keys fields : List Bytes)
    : Raw (Except String (List (Option FieldMap))) := do
  let rowKeys := keys.map (getRowKey table)
  match ← Rawkv.batchGet rowKeys with
  | .error err => return .error err
  | .ok values =>
    let rowValues ← .lift (db.decodeValues values fields)
    return .ok rowValues

def insert (order : GoMap.Order Bytes Bytes) (table key : Bytes) (values : FieldMap)
    : Raw (Except String Unit) :=
  match db.r.encode [] (order.visit values) with
  | .error err => return .error err
  | .ok buf => Rawkv.put (getRowKey table key) buf

def getAndPut (order : GoMap.Order Bytes Bytes) (table key : Bytes) (values : FieldMap)
    : Raw (Except String Unit) := do
  let rowKey := getRowKey table key
  match ← Rawkv.get rowKey with
  | .error err => return .error err
  | .ok row =>
    match ← .lift (db.r.decode (row.getD []) []) with
    | .error err => return .error err
    | .ok data => db.insert order table key (data.merge values)

def cachedRow (ctx : Option RawDBState) (rowKey : Bytes) : Option Bytes :=
  if db.casMode then
    match ctx with
    | some state => if state.key = rowKey then state.row else none
    | none => none
  else
    none

def update (orders : Orders) (ctx : Option RawDBState) (table key : Bytes) (values : FieldMap)
    : Raw (Except String Unit × Option RawDBState) := do
  let rowKey := getRowKey table key
  match db.cachedRow ctx rowKey with
  | none =>
    let res ← db.getAndPut (orders 0) table key values
    return (res, ctx)
  | some prevRow =>
    let ctx := ctx.map (fun _ => ⟨[], none⟩)
    match ← .lift (db.r.decode prevRow []) with
    | .error err => return (.error err, ctx)
    | .ok data =>
      match db.r.encode [] ((orders 1).visit (data.merge values)) with
      | .error err => return (.error err, ctx)
      | .ok buf =>
        match ← Rawkv.compareAndSwap rowKey prevRow buf with
        | .error err => return (.error err, ctx)
        | .ok (_, true) => return (.ok (), ctx)
        | .ok (_, false) =>
          let res ← db.getAndPut (orders 0) table key values
          return (res, ctx)

def encodeRows (orders : Orders) (i : Nat) (keys : List Bytes) (values : List FieldMap)
    : Outcome (Except String (List Bytes)) :=
  match keys, values with
  | [], _ => .ret (.ok [])
  | _ :: _, [] => .panic s!"runtime error: index out of range [{i}] with length {i}"
  | _ :: keys, value :: values =>
    match db.r.encode [] ((orders i).visit value) with
    | .error err => .ret (.error err)
    | .ok rawData => do
      match ← encodeRows orders (i + 1) keys values with
      | .error err => return .error err
      | .ok rawValues => return .ok (rawData :: rawValues)

def putRows (orders : Orders) (table : Bytes) (keys : List Bytes) (values : List FieldMap)
    : Raw (Except String Unit) := do
  match ← .lift (db.encodeRows orders 0 keys values) with
  | .error err => return .error err
  | .ok rawValues => Rawkv.batchPut (keys.map (getRowKey table)) rawValues

def batchUpdate (orders : Orders) (table : Bytes) (keys : List Bytes) (values : List FieldMap)
    : Raw (Except String Unit) :=
  db.putRows orders table keys values

def batchInsert (orders : Orders) (table : Bytes) (keys : List Bytes) (values : List FieldMap)
    : Raw (Except String Unit) :=
  db.putRows orders table keys values

def delete (table key : Bytes) : Raw (Except String Unit) := Rawkv.delete (getRowKey table key)

def batchDelete (table : Bytes) (keys : List Bytes) : Raw (Except String Unit) :=
  Rawkv.batchDelete (keys.map (getRowKey table))

inductive Call where
  | read (table key : Bytes) (fields : List Bytes)
  | batchRead (table : Bytes) (keys fields : List Bytes)
  | update (table key : Bytes) (values : FieldMap)
  | batchUpdate (table : Bytes) (keys : List Bytes) (values : List FieldMap)
  | insert (table key : Bytes) (values : FieldMap)
  | batchInsert (table : Bytes) (keys : List Bytes) (values : List FieldMap)
  | delete (table key : Bytes)
  | batchDelete (table : Bytes) (keys : List Bytes)

inductive Result where
  | row (res : Except String (Option FieldMap))
  | rows (res : Except String (List (Option FieldMap)))
  | unit (res : Except String Unit)

def serve (orders : Orders) (ctx : Option RawDBState) (call : Call)
    : Raw (Result × Option RawDBState) :=
  match call with
  | .read table key fields => do
    let (res, ctx) ← db.read ctx table key fields
    return (.row res, ctx)
  | .batchRead table keys fields => do
    let res ← db.batchRead table keys fields
    return (.rows res, ctx)
  | .update table key values => do
    let (res, ctx) ← db.update orders ctx table key values
    return (.unit res, ctx)
  | .batchUpdate table keys values => do
    let res ← db.batchUpdate orders table keys values
    return (.unit res, ctx)
  | .insert table key values => do
    let res ← db.insert (orders 0) table key values
    return (.unit res, ctx)
  | .batchInsert table keys values => do
    let res ← db.batchInsert orders table keys values
    return (.unit res, ctx)
  | .delete table key => do
    let res ← delete table key
    return (.unit res, ctx)
  | .batchDelete table keys => do
    let res ← batchDelete table keys
    return (.unit res, ctx)

structure State (W : Type) where
  store : KV
  ctx : W → Option RawDBState

def serveAll {W : Type} [DecidableEq W] (orders : Nat → Orders) (s : State W)
    (calls : List (W × Call)) : Outcome (List Result × State W) :=
  match calls with
  | [] => .ret ([], s)
  | (w, call) :: calls => do
    let (out, store) := (db.serve (orders calls.length) (s.ctx w) call).exec RawRequest.handle s.store
    let (res, ctx) ← out
    let (results, s) ← serveAll orders { store, ctx := Function.update s.ctx w ctx } calls
    return (res :: results, s)

end RawDB

end Tikv
