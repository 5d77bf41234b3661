import GoYcsb.Lib.GoMap
import GoYcsb.Lib.Int64
import GoYcsb.Lib.LockedObject

/-!
This module contains the `ConcurrentMap` of `pkg/util/concurrent_map.go`. The cells are the maps of the shards, each
with the lock that the shard embeds, and a call is the program of its accesses to them.
-/

namespace Util

abbrev Shard := GoMap Int Int

structure ConcurrentMap where
  shardCount : Int
  deriving DecidableEq, Repr

-- A `ConcurrentMap` is made with `make`, which refuses a negative count.
def newConcurrentMap (shardCount : Int) : Outcome (ConcurrentMap × (Nat → Shard)) :=
  if shardCount < 0 then
    .panic "runtime error: makeslice: len out of range"
  else
    .ret ({ shardCount }, fun _ => ∅)

namespace ConcurrentMap

def xor (x y : Int) : Int := (BitVec.ofInt 64 x ^^^ BitVec.ofInt 64 y).toInt

def shiftLeft (x : Int) (n : Nat) : Int := I64.wrap (x * 2 ^ n)

def shiftRight (x : Int) (n : Nat) : Int := x / 2 ^ n

def mix (key : Int) : Int :=
  let key := I64.add (I64.add key 0x7ed55d16) (shiftLeft key 12)
  let key := xor (xor key 0xc761c23c) (shiftRight key 19)
  let key := I64.add (I64.add key 0x165667b1) (shiftLeft key 5)
  let key := xor (I64.add key 0xd3a2646c) (shiftLeft key 9)
  let key := I64.add (I64.add key 0xfd7046c5) (shiftLeft key 3)
  xor (xor key 0xb55a4f09) (shiftRight key 16)

variable (m : ConcurrentMap)

def fnv32 (key : Int) : Outcome Nat :=
  if m.shardCount = 0 then
    .panic "runtime error: integer divide by zero"
  else
    .ret ((mix key).tmod m.shardCount % 2 ^ 32).toNat

def getShard (key : Int) : Outcome Nat := do
  let hash ← m.fnv32 key
  return hash % m.shardCount.toNat

abbrev UpsertCb := Bool → Int → Int → Int

abbrev RemoveCb := Int → Int → Bool → Bool

inductive KeyCall where
  | set (value : Int)
  | upsert (value : Int) (cb : UpsertCb)
  | setIfAbsent (value : Int)
  | get
  | has
  | remove
  | removeCb (cb : RemoveCb)
  | pop

inductive Call where
  | at (key : Int) (call : KeyCall)
  | count
  | isEmpty

inductive Result where
  | unit
  | value (v : Int)
  | found (v : Int) (ok : Bool)
  | bool (b : Bool)
  | count (n : Nat)
  deriving DecidableEq, Repr

abbrev Prog := Locks.Prog Nat Shard

open Locks

def set (key value : Int) : Prog Unit := do
  let shard ← .lift (m.getShard key)
  lock shard
  store shard (fun items => items.insert key value)
  unlock shard

def upsert (key value : Int) (cb : UpsertCb) : Prog Int := do
  let shard ← .lift (m.getShard key)
  lock shard
  let items ← load shard
  let res := cb (items.lookup key).isSome (items.get key 0) value
  store shard (fun items => items.insert key res)
  unlock shard
  return res

def setIfAbsent (key value : Int) : Prog Bool := do
  let shard ← .lift (m.getShard key)
  lock shard
  let items ← load shard
  match items.lookup key with
  | some _ =>
    unlock shard
    return false
  | none =>
    store shard (fun items => items.insert key value)
    unlock shard
    return true

def get (key : Int) : Prog (Int × Bool) := do
  let shard ← .lift (m.getShard key)
  rLock shard
  let items ← load shard
  rUnlock shard
  return (items.get key 0, (items.lookup key).isSome)

def has (key : Int) : Prog Bool := do
  let shard ← .lift (m.getShard key)
  rLock shard
  let items ← load shard
  rUnlock shard
  return (items.lookup key).isSome

def remove (key : Int) : Prog Unit := do
  let shard ← .lift (m.getShard key)
  lock shard
  store shard (fun items => items.erase key)
  unlock shard

def removeCb (key : Int) (cb : RemoveCb) : Prog Bool := do
  let shard ← .lift (m.getShard key)
  lock shard
  let items ← load shard
  let remove := cb key (items.get key 0) (items.lookup key).isSome
  if remove && (items.lookup key).isSome then
    store shard (fun items => items.erase key)
    unlock shard
    return remove
  else
    unlock shard
    return remove

def pop (key : Int) : Prog (Int × Bool) := do
  let shard ← .lift (m.getShard key)
  lock shard
  let items ← load shard
  store shard (fun items => items.erase key)
  unlock shard
  return (items.get key 0, (items.lookup key).isSome)

def countFrom (left i count : Nat) : Prog Nat :=
  match left with
  | 0 => return count
  | left + 1 => do
    rLock i
    let items ← load i
    rUnlock i
    countFrom left (i + 1) (count + items.entries.length)

def count : Prog Nat := countFrom m.shardCount.toNat 0 0

def isEmpty : Prog Bool := do
  let n ← m.count
  return n == 0

def serveAt (key : Int) (call : KeyCall) : Prog Result :=
  match call with
  | .set value => do
    m.set key value
    return .unit
  | .upsert value cb => do
    let res ← m.upsert key value cb
    return .value res
  | .setIfAbsent value => do
    let res ← m.setIfAbsent key value
    return .bool res
  | .get => do
    let res ← m.get key
    return .found res.1 res.2
  | .has => do
    let res ← m.has key
    return .bool res
  | .remove => do
    m.remove key
    return .unit
  | .removeCb cb => do
    let res ← m.removeCb key cb
    return .bool res
  | .pop => do
    let res ← m.pop key
    return .found res.1 res.2

def serve (call : Call) : Prog Result :=
  match call with
  | .at key call => m.serveAt key call
  | .count => do
    let n ← m.count
    return .count n
  | .isEmpty => do
    let res ← m.isEmpty
    return .bool res

end ConcurrentMap

end Util
