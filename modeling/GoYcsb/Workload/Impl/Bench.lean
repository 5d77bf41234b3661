import GoYcsb.Lib.Run
import GoYcsb.Workload.Impl.Transaction

/-!
This module contains any number of workers that run the operations of the core workload against one
database. The workers share the pool of value buffers and the memory the buffers are in.
-/

abbrev Row := Bytes → Option Bytes

abbrev Store := Bytes → Option Row

-- What a write does to the row of its key: the row is overlaid or replaced with the given fields, or it
-- stays as it is, since the call fails or the key to be updated is absent.
inductive WriteMode where
  | overlay
  | replace
  | leave
  deriving DecidableEq, Repr

namespace Store

def overlay (row : Row) (values : List (Bytes × Bytes)) : Row :=
  values.foldl (fun row value => Function.update row value.1 (some value.2)) row

def write (store : Store) (mode : WriteMode) (key : Bytes) (values : List (Bytes × Bytes)) : Store :=
  match mode with
  | .overlay =>
    Function.update store key (some (overlay ((store key).getD (fun _ => none)) values))
  | .replace => Function.update store key (some (overlay (fun _ => none) values))
  | .leave => store

-- `names` are the fields that the database returns, and how it spells them.
def read (store : Store) (key : Bytes) (fields : List Bytes) (names : List (Bytes × Bytes))
    : List (Bytes × Bytes) :=
  names.filterMap (fun name =>
    if name.1 ∈ fields ∧ name.2.toLower = name.1.toLower then
      match store key with
      | some row => (row name.1).map (fun value => (name.2, value))
      | none => none
    else
      none)

end Store

structure Record where
  key : Bytes
  values : List (Bytes × Slice)
  deriving DecidableEq, Repr

structure Thread where
  todo : List Instr
  records : List Record
  readValues : List (Bytes × Bytes)
  deriving DecidableEq, Repr

namespace Thread

def idle : Thread where
  todo := []
  records := []
  readValues := []

def slices (t : Thread) : List Slice := t.records.flatMap (fun record => record.values.map Prod.snd)

def addValue (t : Thread) (fieldKey : Bytes) (buf : Slice) : Thread :=
  match t.records.getLast? with
  | some record =>
    let record := { record with values := record.values ++ [(fieldKey, buf)] }
    { t with records := t.records.dropLast ++ [record] }
  | none => t

end Thread

structure Answer where
  -- the buffer that the pool hands out, a new one if there is none of this number
  pooled : Nat
  slack : Nat → Nat
  draw : Draw
  random : Nat → Nat
  mode : WriteMode
  names : List (Bytes × Bytes)
  -- whether the operation returns after the database call, because of an error or a cancellation
  stop : Bool

structure Bench (W : Type) where
  memory : Memory
  pool : List Slice
  store : Store
  thread : W → Thread

namespace Bench

inductive Label (W : Type) where
  | call (w : W) (call : WorkloadCall)
  | step (w : W) (answer : Answer)

variable {W : Type} [DecidableEq W] (P : Platform) (c : Core)

def new (limit : Nat) : Bench W where
  memory := ⟨limit, []⟩
  pool := []
  store := fun _ => none
  thread := fun _ => .idle

def setThread (s : Bench W) (w : W) (t : Thread) : Bench W :=
  { s with thread := Function.update s.thread w t }

def getBuffer (s : Bench W) (pooled : Nat) : Outcome (Bench W × Slice) :=
  match s.pool[pooled]? with
  | some buf => .ret ({ s with pool := s.pool.eraseIdx pooled }, buf)
  | none => do
    let b ← makeBuffer s.memory c.fieldLength
    return ({ s with memory := b.memory }, b.slice)

def buildDeterministic (s : Bench W) (answer : Answer) (key fieldKey : Bytes)
    : Outcome (Bench W × Slice) := do
  let (size, _) ← c.fieldLengthGenerator.next P 0 answer.draw
  let (s, buf) ← s.getBuffer c answer.pooled
  let b ← buildDeterministicValue answer.slack s.memory buf size key fieldKey
  return ({ s with memory := b.memory }, b.slice)

def buildRandom (s : Bench W) (answer : Answer) : Outcome (Bench W × Slice) := do
  let (size, _) ← c.fieldLengthGenerator.next P 0 answer.draw
  let (s, buf) ← s.getBuffer c answer.pooled
  let b ← buildRandomValue answer.random s.memory buf size
  return ({ s with memory := b.memory }, b.slice)

def returnAfter (stop : Bool) (todo : List Instr) : List Instr := if stop then [] else todo

def writeRecord (s : Bench W) (w : W) (answer : Answer) (i : Nat) (todo : List Instr) : Bench W :=
  let t := s.thread w
  let s := s.setThread w { t with todo := returnAfter answer.stop todo }
  match t.records[i]? with
  | some record =>
    let values := record.values.map (fun value => (value.1, s.memory.content value.2))
    { s with store := s.store.write answer.mode record.key values }
  | none => s

def runStep (s : Bench W) (w : W) (answer : Answer) : Outcome (Bench W) :=
  let t := s.thread w
  match t.todo with
  | [] =>
    -- the deferred `putValues`
    .ret ({ s with pool := t.slices ++ s.pool }.setThread w .idle)
  | .record key :: todo =>
    .ret (s.setThread w { t with todo, records := t.records ++ [⟨key, []⟩] })
  | .build fieldKey :: todo => do
    let key := (t.records.getLast?.map Record.key).getD []
    let (s, buf) ←
      if c.dataIntegrity then
        s.buildDeterministic P c answer key fieldKey
      else
        s.buildRandom P c answer
    return s.setThread w ({ t with todo }.addValue fieldKey buf)
  | .read key fields :: todo =>
    let readValues := s.store.read key fields answer.names
    .ret (s.setThread w { t with todo := returnAfter answer.stop todo, readValues })
  | .scan _ _ :: todo => .ret (s.setThread w { t with todo := returnAfter answer.stop todo })
  | .batchRead _ _ :: todo => .ret (s.setThread w { t with todo := returnAfter answer.stop todo })
  | .insert i :: todo => .ret (s.writeRecord w answer i todo)
  | .update i :: todo => .ret (s.writeRecord w answer i todo)
  | .verify key :: todo =>
    match t.readValues with
    | [] => .ret (s.setThread w { t with todo })
    | (fieldKey, value) :: readValues => do
      let (s, buf) ← s.buildDeterministic P c answer key fieldKey
      let expected := s.memory.content buf
      if expected ≠ value then
        .exit s!"unexpected deterministic value, expect {expected}, but got {value}"
      else
        return s.setThread w { t with readValues }

def step (s : Bench W) (label : Label W) : Option (Bench W) :=
  match label with
  | .call w call =>
    if s.thread w = .idle then
      (callProgram P c call).toOption.map (fun todo => s.setThread w { Thread.idle with todo })
    else
      none
  | .step w answer => (s.runStep P c w answer).toOption

end Bench
