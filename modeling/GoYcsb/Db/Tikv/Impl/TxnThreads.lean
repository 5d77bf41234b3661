import GoYcsb.Db.Tikv.Impl.BatchRead
import GoYcsb.Lib.Snapshot

/-!
This module contains the calls of the transaction mode driver of `db/tikv/txn.go` as any number of threads make them at
the same time, on a cluster with snapshot isolation. Every request may fail, and a commit that fails may have taken
effect.
-/

namespace Tikv

abbrev SnapshotProg := Snapshot.Prog Bytes Bytes String

-- The keys that a call has got, in their order, with those whose `Get` has failed marked.
abbrev Gotten := List (Bytes × Bool)

namespace TxnThreads

def puts (buffer : KV) : List (Bytes × Option Bytes) := buffer.entries.map (fun entry => (entry.1, some entry.2))

def asked (answer : Except String (Option Bytes)) : Except TxnError Bytes :=
  match answer with
  | .error err => .error (.other err)
  | .ok none => .error .notFound
  | .ok (some value) => .ok value

/--
A program of the driver on the cluster. There it is the cluster that knows what a transaction sees, so the snapshot that
the program has is not looked at.
-/
def onCluster {α : Type} (prog : TxnProg α) (gotten : Gotten) : SnapshotProg (α × Gotten) :=
  match prog with
  | .done out => .lift (do return (← out, gotten))
  | .call .begin cont => .call .begin (fun answer => onCluster (cont (answer.map (fun _ => ∅))) gotten)
  | .call (.get _ key) cont =>
    .call (.get key) (fun answer => onCluster (cont (asked answer)) (gotten ++ [(key, !answer.isOk)]))
  | .call (.commit buffer) cont => .call (.commit (puts buffer)) (fun answer => onCluster (cont answer) gotten)

def deleteKeys (keys : List Bytes) : SnapshotProg (Except String Unit) := do
  match ← Snapshot.begin with
  | .error err => return .error err
  | .ok () => Snapshot.commit (keys.map (fun key => (key, none)))

def delete (table key : Bytes) : SnapshotProg (Except String Unit) := deleteKeys [getRowKey table key]

def batchDelete (table : Bytes) (keys : List Bytes) : SnapshotProg (Except String Unit) :=
  deleteKeys (keys.map (getRowKey table))

variable (db : TxnDB)

open RawDB in
def serve (orders : Orders) (call : Call) : SnapshotProg (Result × Gotten) :=
  match call with
  | .read table key fields => do
    let (res, gotten) ← onCluster (db.read table key fields) []
    return (.row res, gotten)
  | .batchRead table keys fields => do
    let (res, gotten) ← onCluster (db.batchRead table keys fields) []
    return (.rows res, gotten)
  | .update table key values => do
    let (res, gotten) ← onCluster (db.update (orders 0) table key values) []
    return (.unit res, gotten)
  | .batchUpdate table keys values => do
    let (res, gotten) ← onCluster (db.batchUpdate orders table keys values) []
    return (.unit res, gotten)
  | .insert table key values => do
    let (res, gotten) ← onCluster (db.insert (orders 0) table key values) []
    return (.unit res, gotten)
  | .batchInsert table keys values => do
    let (res, gotten) ← onCluster (db.batchInsert orders table keys values) []
    return (.unit res, gotten)
  | .delete table key => do
    let res ← delete table key
    return (.unit res, [])
  | .batchDelete table keys => do
    let res ← batchDelete table keys
    return (.unit res, [])

end TxnThreads

end Tikv
