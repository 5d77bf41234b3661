import GoYcsb.Lib.Outcome
import GoYcsb.Measurement.Impl.Prometheus

/-!
This module contains the operations of `pkg/client/dbwrapper.go` that have a batch form, together with their
measurement. The times that are measured are left out.
-/

namespace DbWrapper

open Measurement

abbrev FieldMap := GoMap Bytes Bytes

inductive Request where
  | read (table key : Bytes) (fields : List Bytes)
  | update (table key : Bytes) (values : FieldMap)
  | insert (table key : Bytes) (values : FieldMap)
  | delete (table key : Bytes)
  | batchRead (table : Bytes) (keys fields : List Bytes)
  | batchUpdate (table : Bytes) (keys : List Bytes) (values : List FieldMap)
  | batchInsert (table : Bytes) (keys : List Bytes) (values : List FieldMap)
  | batchDelete (table : Bytes) (keys : List Bytes)

abbrev Answer (req : Request) : Type :=
  match req with
  | .read _ _ _ => Option FieldMap × Option String
  | .batchRead _ _ _ => List (Option FieldMap) × Option String
  | .update _ _ _ | .insert _ _ _ | .delete _ _ | .batchUpdate _ _ _ | .batchInsert _ _ _ | .batchDelete _ _ =>
    Option String

/--
The database with all that happens around it. Whether the warm-up is finished is asked after the database calls and may
change with each of them.
-/
structure Env (σ : Type) where
  handle : (req : Request) → σ → Answer req × σ
  isBatchDB : Bool
  isWarmUpFinished : σ → Bool

structure State (σ : Type) where
  db : σ
  calls : List Request
  recorded : List Operation

section

variable {σ : Type} (env : Env σ)

def call (req : Request) (s : State σ) : Answer req × State σ :=
  let r := env.handle req s.db
  (r.1, { s with db := r.2, calls := s.calls ++ [req] })

-- `measurement.Measure`
def record (op : Operation) (s : State σ) : State σ :=
  if env.isWarmUpFinished s.db then { s with recorded := s.recorded ++ [op] } else s

def measure (op : Call) (err : Option String) (s : State σ) : State σ :=
  match err with
  | some _ => record env (.error op) s
  | none => record env .total (record env (.done op) s)

def read (table key : Bytes) (fields : List Bytes) (s : State σ) : (Option FieldMap × Option String) × State σ :=
  let r := call env (.read table key fields) s
  (r.1, measure env .read r.1.2 r.2)

def update (table key : Bytes) (values : FieldMap) (s : State σ) : Option String × State σ :=
  let r := call env (.update table key values) s
  (r.1, measure env .update r.1 r.2)

def insert (table key : Bytes) (values : FieldMap) (s : State σ) : Option String × State σ :=
  let r := call env (.insert table key values) s
  (r.1, measure env .insert r.1 r.2)

def delete (table key : Bytes) (s : State σ) : Option String × State σ :=
  let r := call env (.delete table key) s
  (r.1, measure env .delete r.1 r.2)

def eachKey (one : Bytes → State σ → Option String × State σ) (keys : List Bytes) (s : State σ)
    : Option String × State σ :=
  match keys with
  | [] => (none, s)
  | key :: keys =>
    let r := one key s
    match r.1 with
    | some err => (some err, r.2)
    | none => eachKey one keys r.2

def eachValue (one : Bytes → FieldMap → State σ → Option String × State σ) (i : Nat) (keys : List Bytes)
    (values : List FieldMap) (s : State σ) : Outcome (Option String) × State σ :=
  match keys, values with
  | [], _ => (.ret none, s)
  | _ :: _, [] => (.panic s!"runtime error: index out of range [{i}] with length {i}", s)
  | key :: keys, value :: values =>
    let r := one key value s
    match r.1 with
    | some err => (.ret (some err), r.2)
    | none => eachValue one (i + 1) keys values r.2

def batchRead (table : Bytes) (keys fields : List Bytes) (s : State σ)
    : (List (Option FieldMap) × Option String) × State σ :=
  if env.isBatchDB then
    let r := call env (.batchRead table keys fields) s
    (r.1, measure env .batchRead r.1.2 r.2)
  else
    -- The rows are dropped.
    let one (key : Bytes) (s : State σ) : Option String × State σ :=
      let r := call env (.read table key fields) s
      (r.1.2, r.2)
    let r := eachKey one keys s
    (([], r.1), r.2)

def batchUpdate (table : Bytes) (keys : List Bytes) (values : List FieldMap) (s : State σ)
    : Outcome (Option String) × State σ :=
  if env.isBatchDB then
    let r := call env (.batchUpdate table keys values) s
    (.ret r.1, measure env .batchUpdate r.1 r.2)
  else
    eachValue (fun key value => call env (.update table key value)) 0 keys values s

def batchInsert (table : Bytes) (keys : List Bytes) (values : List FieldMap) (s : State σ)
    : Outcome (Option String) × State σ :=
  if env.isBatchDB then
    let r := call env (.batchInsert table keys values) s
    (.ret r.1, measure env .batchInsert r.1 r.2)
  else
    eachValue (fun key value => call env (.insert table key value)) 0 keys values s

def batchDelete (table : Bytes) (keys : List Bytes) (s : State σ) : Option String × State σ :=
  if env.isBatchDB then
    let r := call env (.batchDelete table keys) s
    (r.1, measure env .batchDelete r.1 r.2)
  else
    eachKey (fun key => call env (.delete table key)) keys s

end

end DbWrapper
