import GoYcsb.Workload.Impl.Value

/-!
This module contains `DoInsert` and `DoBatchInsert` of the core workload with the retries of the database
call. The values of a record are built once, every retry passes the same ones.
-/

namespace Load

inductive CtxErr where
  | canceled
  | deadlineExceeded
  deriving DecidableEq, Repr

inductive Attempt where
  | again (numOfRetries : Int)
  | ret (err : Option String)
  deriving DecidableEq, Repr

-- `err` is what the call has returned, `ctxErr` is `ctx.Err()`.
def afterCall (insertionRetryLimit numOfRetries : Int) (ctxErr : Option CtxErr) (err : Option String)
    : Attempt :=
  match err with
  | some err => .ret (some err)
  | none =>
    match ctxErr with
    | some .canceled => .ret none
    | some .deadlineExceeded | none =>
      let numOfRetries := I64.add numOfRetries 1
      if insertionRetryLimit < numOfRetries then
        .ret none
      else
        .again numOfRetries

abbrev Values := List (Bytes × Bytes)

structure Insertion where
  keySequence : Counter
  keyNums : List Int
  values : List Values
  -- the number of database calls
  calls : Nat
  err : Option String
  deriving DecidableEq, Repr

def retryLoop (insertionRetryLimit : Int) (ctxErr : Nat → Option CtxErr) (call : Nat → Option String)
    (fuel i : Nat) (numOfRetries : Int) : Outcome (Nat × Option String) :=
  match fuel with
  | 0 => .running
  | fuel + 1 =>
    match afterCall insertionRetryLimit numOfRetries (ctxErr i) (call i) with
    | .ret err => .ret (i + 1, err)
    | .again numOfRetries => retryLoop insertionRetryLimit ctxErr call fuel (i + 1) numOfRetries

section

variable (P : Platform) (c : Core)

def buildValues (builds : Nat → Build) (i : Nat) (key : Bytes) (fieldNames : List Bytes) : Outcome Values :=
  match fieldNames with
  | [] => .ret []
  | fieldKey :: fieldNames => do
    let b ← buildValue P c (builds i) key fieldKey
    let values ← buildValues builds (i + 1) key fieldNames
    return (fieldKey, b.bytes) :: values

def buildRecord (builds : Nat → Build) (keyNum : Int) : Outcome Values :=
  buildValues P c builds 0 (buildKeyName c keyNum) c.fieldNames

def takeRecords (builds : Nat → Nat → Build) (n i : Nat) (keySequence : Counter)
    : Outcome (List (Int × Values) × Counter) :=
  match n with
  | 0 => .ret ([], keySequence)
  | n + 1 => do
    let (keyNum, keySequence) := keySequence.next
    let values ← buildRecord P c (builds i) keyNum
    let (records, keySequence) ← takeRecords builds n (i + 1) keySequence
    return ((keyNum, values) :: records, keySequence)

variable (ctxErr : Nat → Option CtxErr) (call : Nat → Option String) (fuel : Nat)

def doInsert (builds : Nat → Build) : Outcome Insertion := do
  let (keyNum, keySequence) := c.keySequence.next
  let values ← buildRecord P c builds keyNum
  let (calls, err) ← retryLoop c.insertionRetryLimit ctxErr call fuel 0 0
  return { keySequence, keyNums := [keyNum], values := [values], calls, err }

-- `batchDB` is the type of a database that does not implement the interface.
def doBatchInsert (builds : Nat → Nat → Build) (batchDB : Option String) (batchSize : Int) : Outcome Insertion :=
  match batchDB with
  | some type =>
    let err := s!"the {type} does't implement the batchDB interface"
    .ret { keySequence := c.keySequence, keyNums := [], values := [], calls := 0, err := some err }
  | none => do
    let (records, keySequence) ← takeRecords P c builds batchSize.toNat 0 c.keySequence
    let (calls, err) ← retryLoop c.insertionRetryLimit ctxErr call fuel 0 0
    return { keySequence, keyNums := records.map Prod.fst, values := records.map Prod.snd, calls, err }

end

end Load
