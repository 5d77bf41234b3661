import GoYcsb.Workload.Impl.Value

/-!
This module contains the operations of the core workload as the sequences of the steps that other
workers, the pool and the database can tell apart. `putValues`, which is deferred, is not part of them.
-/

inductive Instr where
  -- begin a record, whose values come next
  | record (key : Bytes)
  | build (fieldKey : Bytes)
  -- database calls, `insert` and `update` with the record of the given number
  | read (key : Bytes) (fields : List Bytes)
  | scan (startKey : Bytes) (fields : List Bytes)
  | batchRead (keys fields : List Bytes)
  | insert (i : Nat)
  | update (i : Nat)
  -- `verifyRow` of what was read
  | verify (key : Bytes)
  deriving DecidableEq, Repr

structure Pick where
  keyNum : Int
  readField : Draw
  writeField : Draw
  deriving DecidableEq, Repr

section

variable (P : Platform) (c : Core)

def chooseField (d : Draw) : Outcome Bytes := do
  let (i, _) ← c.fieldChooser.next P 0 d
  if i < 0 then
    .panic "runtime error: index out of range"
  else
    match c.fieldNames[i.toNat]? with
    | some fieldKey => return fieldKey
    | none => .panic "runtime error: index out of range"

def buildValues : List Instr := c.fieldNames.map .build

def buildSingleValue (d : Draw) : Outcome (List Instr) := do
  let fieldKey ← chooseField P c d
  return [.build fieldKey]

def fieldsToRead (d : Draw) : Outcome (List Bytes) := do
  if !c.readAllFields then
    let fieldName ← chooseField P c d
    return [fieldName]
  else
    return c.fieldNames

def valuesToWrite (d : Draw) : Outcome (List Instr) :=
  if c.writeAllFields then
    .ret (buildValues c)
  else
    buildSingleValue P c d

def verifyRow (key : Bytes) : List Instr := if c.dataIntegrity then [.verify key] else []

def attempts : Nat := c.insertionRetryLimit.toNat + 1

def doInsert (keyNum : Int) : List Instr :=
  .record (buildKeyName c keyNum) :: buildValues c ++ List.replicate (attempts c) (.insert 0)

def doBatchInsert (keyNums : List Int) : List Instr :=
  keyNums.flatMap (fun keyNum => .record (buildKeyName c keyNum) :: buildValues c)
    ++ (List.replicate (attempts c) ((List.range keyNums.length).map .insert)).flatten

def doTransactionRead (pick : Pick) : Outcome (List Instr) := do
  let keyName := buildKeyName c pick.keyNum
  let fields ← fieldsToRead P c pick.readField
  return .read keyName fields :: verifyRow c keyName

def doTransactionReadModifyWrite (pick : Pick) : Outcome (List Instr) := do
  let keyName := buildKeyName c pick.keyNum
  let fields ← fieldsToRead P c pick.readField
  let values ← valuesToWrite P c pick.writeField
  return .record keyName :: values ++ [.read keyName fields, .update 0] ++ verifyRow c keyName

def doTransactionInsert (pick : Pick) : List Instr :=
  .record (buildKeyName c pick.keyNum) :: buildValues c ++ [.insert 0]

def doTransactionScan (pick : Pick) : Outcome (List Instr) := do
  let startKeyName := buildKeyName c pick.keyNum
  let fields ← fieldsToRead P c pick.readField
  return [.scan startKeyName fields]

def doTransactionUpdate (pick : Pick) : Outcome (List Instr) := do
  let values ← valuesToWrite P c pick.writeField
  return .record (buildKeyName c pick.keyNum) :: values ++ [.update 0]

def buildRecords (picks : List Pick) : Outcome (List Instr) :=
  match picks with
  | [] => .ret []
  | pick :: picks => do
    let values ← valuesToWrite P c pick.writeField
    let records ← buildRecords picks
    return .record (buildKeyName c pick.keyNum) :: values ++ records

def doBatchTransactionRead (readField : Draw) (picks : List Pick) : Outcome (List Instr) := do
  let fields ← fieldsToRead P c readField
  return [.batchRead (picks.map (fun pick => buildKeyName c pick.keyNum)) fields]

def doBatchTransactionInsert (picks : List Pick) : Outcome (List Instr) := do
  let records ← buildRecords P c picks
  return records ++ (List.range picks.length).map .insert

def doBatchTransactionUpdate (picks : List Pick) : Outcome (List Instr) := do
  let records ← buildRecords P c picks
  return records ++ (List.range picks.length).map .update

def doTransaction (operation : OperationType) (pick : Pick) : Outcome (List Instr) :=
  match operation with
  | .read => doTransactionRead P c pick
  | .update => doTransactionUpdate P c pick
  | .insert => .ret (doTransactionInsert c pick)
  | .scan => doTransactionScan P c pick
  | .readModifyWrite => doTransactionReadModifyWrite P c pick

def doBatchTransaction (operation : OperationType) (readField : Draw) (picks : List Pick)
    : Outcome (List Instr) :=
  match operation with
  | .read => doBatchTransactionRead P c readField picks
  | .insert => doBatchTransactionInsert P c picks
  | .update => doBatchTransactionUpdate P c picks
  | .scan => .panic "The batch mode don't support the scan operation"
  | .readModifyWrite => .ret []

end

inductive WorkloadCall where
  | doInsert (keyNum : Int)
  | doBatchInsert (keyNums : List Int)
  | doTransaction (operation : OperationType) (pick : Pick)
  | doBatchTransaction (operation : OperationType) (readField : Draw) (picks : List Pick)
  deriving DecidableEq, Repr

def callProgram (P : Platform) (c : Core) (call : WorkloadCall) : Outcome (List Instr) :=
  match call with
  | .doInsert keyNum => .ret (doInsert c keyNum)
  | .doBatchInsert keyNums => .ret (doBatchInsert c keyNums)
  | .doTransaction operation pick => doTransaction P c operation pick
  | .doBatchTransaction operation readField picks =>
    doBatchTransaction P c operation readField picks
